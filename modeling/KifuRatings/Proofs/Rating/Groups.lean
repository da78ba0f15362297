import KifuRatings.Proofs.Rating.Climb

/-!
# Groups that never met

Games tell differences of strengths only. If the players fall into groups that never met, raising
one group and lowering the others changes nothing that a game or the mean can tell: this direction
is taken to zero by the precision, whatever the strengths are and whatever the link is. Elimination
refuses every such matrix, so these players are not rated.
-/

namespace KifuRatings

namespace Crosstable

/-- Two different players are joined by the games that their scores see. Only drawn games whose
number wraps around to zero join nobody. -/
def meetingGraph (table : Crosstable) : SimpleGraph { name // name ∈ table.players } where
  Adj left right := left ≠ right ∧ 0 < ScoreMatrix.shared table left right
  symm := ⟨fun left right met => ⟨met.1.symm, ScoreMatrix.shared_comm table left right ▸ met.2⟩⟩
  loopless := ⟨fun _ alone => alone.1 rfl⟩

variable {table : Crosstable}

theorem apart_of_sides {side : String → Bool}
    (kept : ∀ left ∈ table.players, ∀ right ∈ table.players,
      0 < ScoreMatrix.shared table left right → side left = side right)
    (both : ∃ left ∈ table.players, ∃ right ∈ table.players, side left ≠ side right) :
    ¬table.meetingGraph.Connected := by
  obtain ⟨left, leftListed, right, rightListed, different⟩ := both
  intro connected
  apply different
  obtain ⟨walk⟩ := connected.preconnected ⟨left, leftListed⟩ ⟨right, rightListed⟩
  have sameSide : ∀ {left right : { name // name ∈ table.players }},
      table.meetingGraph.Walk left right → side left = side right := by
    intro left right walk
    induction walk with
    | nil => rfl
    | cons met _ induction =>
        exact (kept _ (Subtype.property _) _ (Subtype.property _) met.2).trans induction
  exact sameSide walk

end Crosstable

namespace ScoreMatrix

variable {table : Crosstable}

def playerAt (table : Crosstable) (index : Fin (ofTable table).size) :
    { name // name ∈ table.players } :=
  ⟨(ofTable table).players.get index, mem_players_of_table.mpr ⟨index, rfl⟩⟩

theorem meet_of_won {winner loser : Fin (ofTable table).size}
    (won : 0 < (ofTable table).won winner loser) :
    table.meetingGraph.Adj (playerAt table winner) (playerAt table loser) := by
  have different : winner ≠ loser := by
    intro same
    rw [same, won_alone] at won
    exact lt_irrefl 0 won
  have names : (ofTable table).players.get winner ≠ (ofTable table).players.get loser :=
    fun same => different (player_injective same)
  refine ⟨fun same => names (congrArg Subtype.val same), ?_⟩
  rw [ScoreMatrix.won, Score.to_scalar_exact, cell_of_table, if_neg different] at won
  have halves : 0 < (scoreOf table ((ofTable table).players.get winner)
      ((ofTable table).players.get loser)).halves := by
    by_contra nothing
    rw [Nat.eq_zero_of_not_pos nothing] at won
    simp at won
  have both := score_both table ((ofTable table).players.get winner)
    ((ofTable table).players.get loser)
  change 0 < shared table ((ofTable table).players.get winner) ((ofTable table).players.get loser)
  omega

/-- A direction that no game and no mean can tell from nothing. -/
structure Parts (table : Crosstable) (direction : Fin (ofTable table).size → ℝ) : Prop where
  met : ∀ winner loser, 0 < (ofTable table).won winner loser →
    direction winner = direction loser
  mean : ∑ player, direction player = 0
  long : ∀ player, 1 ≤ |direction player|
  short : ∀ player, |direction player| ≤ (ofTable table).size

/-- A group goes up by the number of the others, and these go down by the number of the group. -/
def parting {size : Nat} (group : Finset (Fin size)) (player : Fin size) : ℝ :=
  if player ∈ group then (groupᶜ.card : ℝ) else -group.card

theorem sum_parting {size : Nat} (group : Finset (Fin size)) :
    ∑ player, parting group player = 0 := by
  have others : ∑ player ∈ groupᶜ, parting group player = ∑ _ ∈ groupᶜ, (-group.card : ℝ) :=
    Finset.sum_congr rfl fun player outside => if_neg (Finset.mem_compl.mp outside)
  have members : ∑ player ∈ group, parting group player = ∑ _ ∈ group, (groupᶜ.card : ℝ) :=
    Finset.sum_congr rfl fun player inside => if_pos inside
  rw [← Finset.sum_add_sum_compl group, members, others, Finset.sum_const, Finset.sum_const,
    nsmul_eq_mul, nsmul_eq_mul]
  ring

theorem abs_parting {size : Nat} {group : Finset (Fin size)} (inside : group.Nonempty)
    (outside : groupᶜ.Nonempty) (player : Fin size) :
    1 ≤ |parting group player| ∧ |parting group player| ≤ size := by
  have bounds : ∀ part : Finset (Fin size), part.Nonempty →
      (1 : ℝ) ≤ part.card ∧ (part.card : ℝ) ≤ size := by
    intro part some
    have most : part.card ≤ size := by simpa using Finset.card_le_univ part
    exact ⟨by exact_mod_cast some.card_pos, by exact_mod_cast most⟩
  unfold parting
  split
  · rw [Nat.abs_cast]
    exact bounds groupᶜ outside
  · rw [abs_neg, Nat.abs_cast]
    exact bounds group inside

theorem exists_parting (somebody : 0 < table.players.length)
    (apart : ¬table.meetingGraph.Connected) : ∃ direction, Parts table direction := by
  classical
  have someone : Nonempty { name // name ∈ table.players } := by
    obtain ⟨name, listed⟩ := List.exists_mem_of_length_pos somebody
    exact ⟨⟨name, listed⟩⟩
  have parted : ∃ left right, ¬table.meetingGraph.Reachable left right := by
    by_contra together
    push Not at together
    exact apart ⟨together⟩
  obtain ⟨⟨left, leftListed⟩, ⟨right, rightListed⟩, unreachable⟩ := parted
  obtain ⟨leftIndex, rfl⟩ := mem_players_of_table.mp leftListed
  obtain ⟨rightIndex, rfl⟩ := mem_players_of_table.mp rightListed
  let group := Finset.univ.filter fun index =>
    table.meetingGraph.Reachable (playerAt table leftIndex) (playerAt table index)
  have mem_group : ∀ index, index ∈ group ↔
      table.meetingGraph.Reachable (playerAt table leftIndex) (playerAt table index) := by
    intro index
    simp [group]
  have inside : group.Nonempty := ⟨leftIndex, (mem_group leftIndex).mpr (.refl _)⟩
  have outside : groupᶜ.Nonempty :=
    ⟨rightIndex, Finset.mem_compl.mpr fun member => unreachable ((mem_group rightIndex).mp member)⟩
  refine ⟨parting group, ?_, sum_parting group, fun player => (abs_parting inside outside player).1,
    fun player => (abs_parting inside outside player).2⟩
  intro winner loser won
  have sameGroup : winner ∈ group ↔ loser ∈ group := by
    rw [mem_group, mem_group]
    have met := (meet_of_won won).reachable
    exact ⟨fun reached => reached.trans met, fun reached => reached.trans met.symm⟩
  simp only [parting, sameGroup]

/-- Without draws against the prior, no term tells the parts from each other. -/
theorem along_parting {direction : Fin (ofTable table).size → ℝ} (parts : Parts table direction)
    {prior : ℝ} {term : Term (Fin (ofTable table).size) ℝ}
    (member : term ∈ ((ofTable table).posterior prior 0).terms) : term.along direction = 0 := by
  rcases mem_terms table prior 0 member with ⟨winner, loser, won, rfl⟩ | ⟨some, _⟩ | rfl
  · rw [Term.along_wins, parts.met winner loser won, sub_self]
  · exact absurd some (lt_irrefl 0)
  · rw [Term.along_center, parts.mean, zero_div]

theorem refused_of_apart (somebody : 0 < (ofTable table).size)
    (apart : ¬table.meetingGraph.Connected) (link : Link ℝ) (prior : ℝ)
    (strengths : Vector ℝ (ofTable table).size) :
    Fit.newtonStep link ((ofTable table).posterior prior 0) strengths = none := by
  obtain ⟨direction, parts⟩ := exists_parting somebody apart
  have kernel : (((ofTable table).posterior prior 0).precision link strengths).toMatrix.mulVec
      direction = 0 := by
    funext row
    rw [Posterior.precision_mul]
    apply List.sum_eq_zero
    intro share listed
    obtain ⟨term, member, rfl⟩ := List.mem_map.mp listed
    rw [along_parting parts member, mul_zero, zero_mul]
  have nonzero : direction ≠ 0 := by
    intro zero
    have long := parts.long ⟨0, somebody⟩
    rw [zero, Pi.zero_apply, abs_zero] at long
    exact absurd long (by norm_num)
  exact Grid.solve_of_kernel nonzero kernel _

end ScoreMatrix

namespace Crosstable

open ScoreMatrix

/-- Players who are not all connected by games are not rated, but for draws against the prior. -/
theorem apart_groups_are_not_rated (table : Crosstable) (several : 2 ≤ table.players.length)
    (apart : ¬table.meetingGraph.Connected) (link : Link ℝ) (settings : FitSettings ℝ)
    (some : 0 < settings.maxIterations) (prior : ℝ) :
    table.rate link settings prior 0 = .error .singularSystem := by
  have somebody : 0 < (ofTable table).size := lt_of_lt_of_le Nat.zero_lt_two several
  have listed : table.players.isEmpty = false := by
    rw [List.isEmpty_eq_false_iff, ← List.length_pos_iff]
    exact somebody
  rw [rate_eq, listed]
  exact Fit.ratings_of_singular some (refused_of_apart somebody apart link prior _)

/-- Two pairs of players who won a game each, and did not meet the other pair. -/
def twoPairs : Crosstable := (empty.add ⟨"a", "b"⟩ ⟨1, 1, 0⟩).add ⟨"c", "d"⟩ ⟨1, 1, 0⟩

theorem two_pairs_apart : 2 ≤ twoPairs.players.length ∧ ¬twoPairs.meetingGraph.Connected := by
  constructor
  · decide +kernel
  · apply @apart_of_sides twoPairs fun name => name = "a" ∨ name = "b"
    · decide +kernel
    · decide +kernel

theorem two_pairs_size : (ofTable twoPairs).size = 4 := by decide +kernel

theorem two_pairs_won : totalWon twoPairs = 4 := by
  have games : twoPairs.played = 4 := by decide +kernel
  have alone : twoPairs.gamesAlone = 0 := by decide +kernel
  rw [total_won_eq (by rw [games]; decide), games, alone]
  norm_num

theorem two_pairs_are_not_rated :
    2 ≤ twoPairs.players.length ∧ ¬twoPairs.meetingGraph.Connected ∧
    twoPairs.rate (Link.logistic : Link ℝ) Fit.defaultSettings 1500 0 =
      .error .singularSystem :=
  ⟨two_pairs_apart.1, two_pairs_apart.2,
    apart_groups_are_not_rated twoPairs two_pairs_apart.1 two_pairs_apart.2 Link.logistic
      Fit.defaultSettings (Nat.zero_lt_succ 199) 1500⟩

end Crosstable

end KifuRatings
