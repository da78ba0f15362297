import KifuRatings.Proofs.Crosstable.Scores
import KifuRatings.Rating.Estimate

/-!
# The names of rated players

The fit knows players only by the names that its terms mention, and numbers them for itself. The
term for the mean mentions every player of the table and no term mentions anybody else, so both
numberings agree, in whatever arithmetic the ratings are computed.
-/

namespace KifuRatings

variable {α : Type}

namespace ScoreMatrix

variable [Scalar α] (table : Crosstable) (prior draws : α)

theorem names_of_pair {first second : Fin (ofTable table).size} {term : Term String α}
    (member : term ∈ (ofTable table).pairTerms first second) {name : String}
    (named : name ∈ term.combo.map (·.1)) : name ∈ table.players := by
  have wonBy : ∀ (winner loser : Fin (ofTable table).size) (weight : α),
      term = Term.wins ((ofTable table).players.get winner) ((ofTable table).players.get loser)
        weight → name ∈ table.players := by
    intro winner loser weight same
    rw [same] at named
    rcases List.mem_pair.mp named with isWinner | isLoser
    · exact mem_players_of_table.mpr ⟨winner, isWinner.symm⟩
    · exact mem_players_of_table.mpr ⟨loser, isLoser.symm⟩
  unfold pairTerms at member
  simp only [List.mem_ite_nil_left, Term.ofGames, List.mem_append, List.mem_ite_nil_right,
    List.mem_singleton] at member
  rcases member.2 with ⟨_, won⟩ | ⟨_, lost⟩
  · exact wonBy _ _ _ won
  · exact wonBy _ _ _ lost

theorem center_names :
    (Term.center (ofTable table).players.toList prior).combo.map (·.1) = table.players := by
  change (table.players.map _).map _ = _
  rw [List.map_map]
  exact List.map_id _

theorem names_of_terms {name : String} :
    (∃ term ∈ (ofTable table).terms prior draws, name ∈ term.combo.map (·.1)) ↔
      name ∈ table.players := by
  constructor
  · intro found
    obtain ⟨term, member, named⟩ := found
    unfold terms at member
    rw [List.mem_append, List.mem_append, List.mem_singleton] at member
    rcases member with (game | draw) | center
    · obtain ⟨first, _, inRow⟩ := List.mem_flatMap.mp game
      obtain ⟨second, _, inCell⟩ := List.mem_flatMap.mp inRow
      exact names_of_pair table inCell named
    · obtain ⟨player, listed, anchor⟩ := List.mem_flatMap.mp (List.mem_ite_nil_right.mp draw).2
      have isPlayer : name = player := by
        unfold Term.anchored at anchor
        rw [List.mem_ite_nil_left, List.mem_pair] at anchor
        rcases anchor.2 with rfl | rfl
        · exact List.mem_singleton.mp named
        · exact List.mem_singleton.mp named
      rw [isPlayer]
      exact listed
    · rwa [center, center_names] at named
  · intro listed
    refine ⟨_, List.mem_append_right _ (List.mem_singleton_self _), ?_⟩
    rwa [center_names]

theorem players_of_terms :
    Posterior.playersOf ((ofTable table).terms prior draws) = table.players := by
  apply sorted_names_congr
  intro name
  rw [List.mem_flatMap, names_of_terms, Crosstable.players, mem_sorted_names]

end ScoreMatrix

variable [Analytic α]

theorem RatingList.entry_of_strengths {size : Nat} (players : Vector String size)
    (strengths : Vector α size) (covariance : Grid α size) (player : Fin size) :
    (ofStrengths players strengths covariance).entries.get player =
      ⟨players.get player, strengths.get player * Term.eloPerStrength,
        Analytic.sqrt (Scalar.greater (covariance.entry player player) 0) *
          Term.eloPerStrength⟩ := by
  unfold ofStrengths
  exact Vector.get_ofFn ..

theorem RatingList.names_of_strengths {size : Nat} (players : Vector String size)
    (strengths : Vector α size) (covariance : Grid α size) :
    (ofStrengths players strengths covariance).entries.toList.map (·.name) = players.toList := by
  rw [← Vector.toList_map]
  apply congrArg Vector.toList
  apply Vector.ext
  intro index bound
  simp only [ofStrengths, Vector.getElem_map, Vector.getElem_ofFn]
  rfl

theorem Fit.estimate_eq_ok {link : Link α} {settings : FitSettings α} {terms : List (Term String α)}
    {list : RatingList α} (estimated : estimate link settings terms = .ok list) :
    ∃ strengths covariance, search link settings (Posterior.ofTerms terms) = .ok strengths ∧
      ((Posterior.ofTerms terms).precision link strengths).inverse = some covariance ∧
      list = RatingList.ofStrengths (Posterior.ofTerms terms).players strengths covariance := by
  unfold estimate at estimated
  cases empty : (Posterior.playersOf terms).isEmpty with
  | true => simp [empty, bind, Except.bind, throw, throwThe, MonadExceptOf.throw] at estimated
  | false =>
      simp only [empty, Bool.false_eq_true, if_false] at estimated
      cases searched : search link settings (Posterior.ofTerms terms) with
      | error cause =>
          rw [searched] at estimated
          cases estimated
      | ok strengths =>
          rw [searched] at estimated
          simp only [bind, Except.bind] at estimated
          split at estimated
          · cases estimated
          · rename_i covariance inverted
            exact ⟨strengths, covariance, rfl, inverted, (Except.ok.inj estimated).symm⟩

theorem Fit.names_of_estimate {link : Link α} {settings : FitSettings α}
    {terms : List (Term String α)} {list : RatingList α}
    (estimated : estimate link settings terms = .ok list) :
    list.entries.toList.map (·.name) = Posterior.playersOf terms := by
  obtain ⟨strengths, covariance, _, _, rfl⟩ := estimate_eq_ok estimated
  exact RatingList.names_of_strengths _ strengths covariance

theorem Crosstable.estimate_of_rate {table : Crosstable} {link : Link α} {settings : FitSettings α}
    {prior draws : α} {list : RatingList α}
    (rated : table.rate link settings prior draws = .ok list) :
    Fit.estimate link settings ((ScoreMatrix.ofTable table).terms prior draws) = .ok list := by
  have steps : table.rate link settings prior draws =
      if (ScoreMatrix.ofTable table).isEmpty then .error .noPlayers
      else Fit.estimate link settings ((ScoreMatrix.ofTable table).terms prior draws) := rfl
  rw [steps] at rated
  split at rated
  · cases rated
  · exact rated

/-- Whatever the prior, the virtual draws and the settings are, the ratings of a table are in the
order of its players. -/
theorem Crosstable.names_of_rate {table : Crosstable} {link : Link α} {settings : FitSettings α}
    {prior draws : α} {list : RatingList α}
    (rated : table.rate link settings prior draws = .ok list) :
    list.entries.toList.map (·.name) = table.players := by
  rw [Fit.names_of_estimate (estimate_of_rate rated), ScoreMatrix.players_of_terms]

end KifuRatings
