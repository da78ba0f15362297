import KifuRatings.Proofs.Rating.Runaway

/-!
# Who is said to have an unbounded rating

The player who is named is one who met others; and of two players it is one who won every game or
lost every game. In larger tables a whole group may have won every game against the others without
any of its players winning all of theirs, and the player who is furthest from the mean may be one of
those who both won and lost.
-/

namespace KifuRatings

open Logistic

namespace ScoreMatrix

variable {table : Crosstable}

theorem met_of_linked (linked : Linked table) (several : 2 ≤ (ofTable table).size)
    (player : Fin (ofTable table).size) : ∃ opponent, opponent ≠ player ∧
      0 < shared table ((ofTable table).players.get player)
        ((ofTable table).players.get opponent) := by
  have others : ({player} : Finset (Fin (ofTable table).size))ᶜ.Nonempty := by
    rw [← Finset.card_pos, Finset.card_compl, Finset.card_singleton, Fintype.card_fin]
    omega
  obtain ⟨inside, member, opponent, outside, played⟩ :=
    linked {player} (Finset.singleton_nonempty player) others
  obtain rfl := Finset.mem_singleton.mp member
  have different : opponent ≠ inside := fun same => outside (Finset.mem_singleton.mpr same)
  rw [won_both different.symm] at played
  exact ⟨opponent, different, Nat.cast_pos.mp played⟩

theorem accepted_alone (alone : (ofTable table).size = 1) (prior : ℝ)
    (strengths : Vector ℝ (ofTable table).size) :
    Fit.newtonStep Link.logistic ((ofTable table).posterior prior 0) strengths ≠ none := by
  have same : Subsingleton (Fin (ofTable table).size) := by
    rw [alone]
    infer_instance
  have nothing : totalWon table = 0 := by
    apply Finset.sum_eq_zero
    intro winner _
    apply Finset.sum_eq_zero
    intro loser _
    rw [Subsingleton.elim winner loser, won_alone]
  have firm : neglectedWeight table 0 ≤ 2500 := by
    rw [neglectedWeight, entryBound, nothing, alone]
    change _ * ((1e-12 : ℝ) * _) ≤ _
    norm_num
  intro refused
  obtain ⟨group, ⟨inside, member⟩, ⟨outside, others⟩, _⟩ :=
    neglected_of_refused (alone.symm ▸ one_pos) firm refused
  rw [Subsingleton.elim outside inside] at others
  exact Finset.mem_compl.mp others member

theorem branching_of_two (two : (ofTable table).size = 2) : Branching table := by
  intro one other played
  have different : one ≠ other := by
    intro same
    rw [same, won_alone, add_zero] at played
    exact lt_irrefl 0 played
  refine ⟨{one}, Finset.mem_singleton_self one, fun member => ?_, ?_⟩
  · exact different (Finset.mem_singleton.mp member).symm
  · intro winner loser _ crosses
    rw [Finset.mem_singleton, Finset.mem_singleton] at crosses
    simp only [Fin.ext_iff] at different crosses ⊢
    omega

end ScoreMatrix

namespace Crosstable

open ScoreMatrix

section Results

variable (table : Crosstable) (player : String)

/-- All games of the two were won by the first, whoever began. -/
def WonAll (opponent : String) : Prop :=
  shared table player opponent =
    (table.tally player opponent).wins.toNat + (table.tally opponent player).losses.toNat

def WonEvery : Prop :=
  ∀ opponent ∈ table.players, opponent ≠ player → table.WonAll player opponent

def LostEvery : Prop :=
  ∀ opponent ∈ table.players, opponent ≠ player → table.WonAll opponent player

end Results

variable {table : Crosstable}

theorem won_all_of_unbeaten {winner loser : Fin (ofTable table).size} (different : winner ≠ loser)
    (unbeaten : (ofTable table).won loser winner = 0) :
    table.WonAll ((ofTable table).players.get winner) ((ofTable table).players.get loser) := by
  rw [won, Score.to_scalar_exact, cell_of_table, if_neg different.symm] at unbeaten
  have halves : (scoreOf table ((ofTable table).players.get loser)
      ((ofTable table).players.get winner)).halves = 0 := by
    exact_mod_cast (by linarith : ((scoreOf table ((ofTable table).players.get loser)
      ((ofTable table).players.get winner)).halves : ℝ) = 0)
  simp only [scoreOf, UInt32.add_comm (table.tally ((ofTable table).players.get loser) _).draws]
    at halves
  rw [WonAll, shared]
  omega

theorem one_sided_of_two (two : (ofTable table).size = 2) {winner loser : Fin (ofTable table).size}
    (different : winner ≠ loser) (unbeaten : (ofTable table).won loser winner = 0)
    (player : Fin (ofTable table).size) :
    table.WonEvery ((ofTable table).players.get player) ∨
      table.LostEvery ((ofTable table).players.get player) := by
  have won := won_all_of_unbeaten different unbeaten
  have others : ∀ name ∈ table.players, name ≠ (ofTable table).players.get player →
      ∃ other, other ≠ player ∧ (ofTable table).players.get other = name := by
    intro name listed elsewhere
    obtain ⟨other, rfl⟩ := mem_players_of_table.mp listed
    exact ⟨other, fun same => elsewhere (congrArg _ same), rfl⟩
  by_cases isWinner : player = winner
  · left
    intro name listed elsewhere
    obtain ⟨other, apart, rfl⟩ := others name listed elsewhere
    have isLoser : other = loser := by
      simp only [Fin.ext_iff] at different isWinner apart ⊢
      omega
    rwa [isWinner, isLoser]
  · right
    intro name listed elsewhere
    obtain ⟨other, apart, rfl⟩ := others name listed elsewhere
    have both : player = loser ∧ other = winner := by
      simp only [Fin.ext_iff] at different isWinner apart ⊢
      omega
    rwa [both.1, both.2]

theorem somebody_is_named (branching : Branching table) (linked : Linked table)
    (seesDraw : SeesOneDraw table) {winner loser : Fin (ofTable table).size}
    (won : 0 < (ofTable table).won winner loser) (unbeaten : (ofTable table).won loser winner = 0)
    (few : 2 ^ ((ofTable table).size - 1) * (ofTable table).size ^ 3 *
      (ofTable table).won winner loser ≤ 520) (prior : ℝ) :
    ∃ previous last, Fit.Visits Link.logistic ((ofTable table).posterior prior 0)
        (Fit.startPosition Link.logistic ((ofTable table).posterior prior 0)) previous ∧
      Fit.Climbs Link.logistic ((ofTable table).posterior prior 0) previous last ∧
      table.rate Link.logistic Fit.defaultSettings prior 0 = .error (.unboundedRating
        (Fit.outlier ((ofTable table).posterior prior 0) last.strengths)) := by
  have negligible : NegligibleBridge table
      ((ofTable table).won winner loser * Real.exp (-(25 : ℕ))) := by
    have small : Real.exp (-25) ≤ 1 / 5.2e10 := by
      rw [Real.exp_neg, ← one_div]
      exact one_div_le_one_div_of_le (by norm_num) exp_twenty_five_ge
    unfold NegligibleBridge
    rw [← mul_assoc]
    push_cast
    calc
      _ ≤ 520 * (1 / 5.2e10) := mul_le_mul few small (Real.exp_pos _).le (by norm_num)
      _ = (1e-8 : ℝ) := by norm_num
  have tolerant : (Fit.defaultSettings : FitSettings ℝ).tolerance ≤ 1 / 2 := by norm_num
  have enough : 25 + 2 ≤ (Fit.defaultSettings : FitSettings ℝ).maxIterations := by norm_num
  obtain ⟨previous, last, visits, climbs, rated⟩ := ratings_run_away branching won unbeaten tolerant
    (accepted_at_start linked seesDraw winner.pos prior) negligible enough
  refine ⟨previous, last, visits, climbs, ?_⟩
  rw [rate_of_somebody (List.length_pos_iff.mp winner.pos)]
  exact rated

structure RunsAway (table : Crosstable) (prior : ℝ) (name : String) : Prop where
  connected : table.meetingGraph.Connected
  met : ∃ opponent ∈ table.players, opponent ≠ name ∧ 0 < shared table name opponent
  accepted : Fit.newtonStep Link.logistic ((ofTable table).posterior prior 0)
    (Fit.startPosition Link.logistic ((ofTable table).posterior prior 0)).strengths ≠ none
  /-- What gave way are the games of some group with the others. -/
  refused : ∃ last player, Fit.Visits Link.logistic ((ofTable table).posterior prior 0)
      (Fit.startPosition Link.logistic ((ofTable table).posterior prior 0)) last ∧
    Fit.newtonStep Link.logistic ((ofTable table).posterior prior 0) last.strengths = none ∧
    (ofTable table).players.get player = name ∧ Fit.Furthest last.strengths player ∧
    (neglectedWeight table 0 ≤ 2500 → ∃ group : Finset (Fin (ofTable table).size),
      group.Nonempty ∧ groupᶜ.Nonempty ∧ NeglectsBetween table last.strengths group)
  branching : Branching table → SeesOneDraw table → ∃ winner ∈ table.players, ∃ loser ∈ table.players,
    winner ≠ loser ∧ 0 < shared table winner loser ∧ table.WonAll winner loser
  two : table.players.length = 2 → SeesOneDraw table → table.WonEvery name ∨ table.LostEvery name

theorem runs_away_of_named {settings : FitSettings ℝ} {prior : ℝ} {name : String}
    (named : table.rate Link.logistic settings prior 0 = .error (.unboundedRating name)) :
    table.RunsAway prior name := by
  rw [rate_eq] at named
  split at named
  · cases named
  rename_i listed
  have somebody : 0 < (ofTable table).size := by
    apply List.length_pos_iff.mpr
    intro nobody
    exact listed (List.isEmpty_iff.mpr nobody)
  obtain ⟨last, visits, refused, isOutlier, accepted⟩ := Fit.ratings_unbounded named
  obtain ⟨player, isName, furthest⟩ := @Fit.outlier_furthest _
    ((ofTable table).posterior prior 0) somebody last.strengths
  have nameOf : (ofTable table).players.get player = name := (isOutlier.trans isName).symm
  have connected : table.meetingGraph.Connected := by
    by_contra apart
    exact accepted (refused_of_apart somebody apart Link.logistic prior _)
  have linked := linked_of_connected connected
  have several : 2 ≤ (ofTable table).size := by
    by_contra few
    have alone : (ofTable table).size = 1 := by omega
    exact accepted_alone alone prior last.strengths refused
  have unbeaten : Branching table → SeesOneDraw table → ∃ winner loser, winner ≠ loser ∧
      0 < (ofTable table).won winner loser ∧ (ofTable table).won loser winner = 0 := by
    intro branching seesDraw
    obtain ⟨winner, loser, won, nothing⟩ := unbeaten_of_refused linked seesDraw somebody
      (visited_settling branching visits) refused
    refine ⟨winner, loser, fun same => ?_, won, nothing⟩
    rw [same, won_alone] at won
    exact lt_irrefl 0 won
  refine ⟨connected, ?met, accepted,
    ⟨last, player, visits, refused, nameOf, furthest, ?neglected⟩, ?branching, ?two⟩
  case met =>
    obtain ⟨opponent, different, met⟩ := met_of_linked linked several player
    refine ⟨_, mem_players_of_table.mpr ⟨opponent, rfl⟩, ?_, nameOf ▸ met⟩
    rw [← nameOf]
    exact fun same => different (player_injective same)
  case neglected => exact fun seesDraw => neglected_of_refused somebody seesDraw refused
  case branching =>
    intro branching seesDraw
    obtain ⟨winner, loser, different, won, nothing⟩ := unbeaten branching seesDraw
    refine ⟨_, mem_players_of_table.mpr ⟨winner, rfl⟩, _, mem_players_of_table.mpr ⟨loser, rfl⟩,
      fun same => different (player_injective same), ?_, won_all_of_unbeaten different nothing⟩
    have met := won_both different
    rw [nothing, add_zero] at met
    exact Nat.cast_pos.mp (met ▸ won)
  case two =>
    intro two seesDraw
    obtain ⟨winner, loser, different, _, nothing⟩ := unbeaten (branching_of_two two) seesDraw
    exact nameOf ▸ one_sided_of_two two different nothing player

/-- If a rating is said to be unbounded, all players are connected by games, and the player met
others. The search came to strengths at which a system was refused, not the first one, and this
player's strength is the furthest from the mean there. In a branching table somebody lost every game
against somebody else; and if there are only two players, the one who is named won or lost every
game. Conversely, somebody is named if a player of a connected table that branches never won against
another, and they had few games. -/
theorem unbounded_rating_is_furthest (table : Crosstable) (prior : ℝ) :
    (∀ settings name, table.rate Link.logistic settings prior 0 = .error (.unboundedRating name) →
      table.RunsAway prior name) ∧
    (Branching table → table.meetingGraph.Connected → SeesOneDraw table → ∀ winner loser,
      0 < (ofTable table).won winner loser → (ofTable table).won loser winner = 0 →
        2 ^ ((ofTable table).size - 1) * (ofTable table).size ^ 3 *
            (ofTable table).won winner loser ≤ 520 →
          ∃ name, table.rate Link.logistic Fit.defaultSettings prior 0 =
            .error (.unboundedRating name)) := by
  constructor
  · intro settings name named
    exact runs_away_of_named named
  · intro branching connected seesDraw winner loser won unbeaten few
    obtain ⟨_, _, _, _, named⟩ :=
      somebody_is_named branching (linked_of_connected connected) seesDraw won unbeaten few prior
    exact ⟨_, named⟩

def shutout : Crosstable := empty.add ⟨"a", "b"⟩ ⟨1, 0, 0⟩

theorem shutout_sees_one_draw : SeesOneDraw shutout := by
  have games : shutout.played = 1 ∧ shutout.gamesAlone = 0 := by decide +kernel
  have size : (ofTable shutout).size = 2 := by decide +kernel
  rw [SeesOneDraw, neglectedWeight, entryBound, total_won_eq (by rw [games.1]; decide), games.1,
    games.2, size]
  change _ * (_ * ((1e-12 : ℝ) * _)) < 1
  norm_num

theorem shutout_is_unbounded : shutout.players.length = 2 ∧ Branching shutout ∧
    shutout.meetingGraph.Connected ∧ SeesOneDraw shutout ∧ ∃ name,
      shutout.rate (Link.logistic : Link ℝ) Fit.defaultSettings 0 0 =
        .error (.unboundedRating name) ∧
      (shutout.WonEvery name ∨ shutout.LostEvery name) := by
  have size : (ofTable shutout).size = 2 := by decide +kernel
  let winner : Fin (ofTable shutout).size := ⟨0, by decide +kernel⟩
  let loser : Fin (ofTable shutout).size := ⟨1, by decide +kernel⟩
  have cells : ((ofTable shutout).cell winner loser).halves = 2 ∧
      ((ofTable shutout).cell loser winner).halves = 0 := by decide +kernel
  have won : (ofTable shutout).won winner loser = 1 := by
    rw [ScoreMatrix.won, Score.to_scalar_exact, cells.1]
    norm_num
  have unbeaten : (ofTable shutout).won loser winner = 0 := by
    rw [ScoreMatrix.won, Score.to_scalar_exact, cells.2]
    norm_num
  have linked : Linked shutout := by
    unfold Linked
    simp only [met_iff]
    decide +kernel
  have branching := branching_of_two size
  have few : 2 ^ ((ofTable shutout).size - 1) * (ofTable shutout).size ^ 3 *
      (ofTable shutout).won winner loser ≤ 520 := by
    rw [won, size]
    norm_num
  have two : shutout.players.length = 2 := by decide +kernel
  obtain ⟨_, _, _, _, rated⟩ :=
    somebody_is_named branching linked shutout_sees_one_draw (won ▸ one_pos) unbeaten few 0
  obtain ⟨isRunaway, isNamed⟩ := unbounded_rating_is_furthest shutout 0
  have connected := (isRunaway _ _ rated).connected
  obtain ⟨name, named⟩ := isNamed branching connected shutout_sees_one_draw winner loser
    (won ▸ one_pos) unbeaten few
  exact ⟨two, branching, connected, shutout_sees_one_draw, name, named,
    (isRunaway _ _ named).two two shutout_sees_one_draw⟩

/-- Two players who drew, and two others one of whom won one game of four; this one also lost to one
of the first two. -/
def lopsided : Crosstable :=
  ((empty.add ⟨"a", "b"⟩ ⟨0, 0, 1⟩).add ⟨"c", "d"⟩ ⟨1, 3, 0⟩).add ⟨"a", "c"⟩ ⟨1, 0, 0⟩

theorem lopsided_size : (ofTable lopsided).size = 4 := by decide +kernel

def seat (place : Fin 4) : Fin (ofTable lopsided).size := Fin.cast lopsided_size.symm place

theorem lopsided_branching : Branching lopsided := by
  have cells : ∀ one other,
      0 < ((ofTable lopsided).cell one other).halves + ((ofTable lopsided).cell other one).halves →
      ∃ group : Finset (Fin (ofTable lopsided).size), one ∈ group ∧ other ∉ group ∧
        ∀ winner loser, 0 < ((ofTable lopsided).cell winner loser).halves →
          (winner ∈ group ↔ loser ∉ group) →
            winner = one ∧ loser = other ∨ winner = other ∧ loser = one := by
    decide +kernel
  intro one other played
  obtain ⟨group, inside, outside, only⟩ := cells one other (met_iff.mp played)
  exact ⟨group, inside, outside, fun winner loser won => only winner loser (won_pos_iff.mp won)⟩

theorem lopsided_linked : Linked lopsided := by
  unfold Linked
  simp only [met_iff]
  decide +kernel

theorem lopsided_sees_one_draw : SeesOneDraw lopsided := by
  have games : lopsided.played = 6 ∧ lopsided.gamesAlone = 0 := by decide +kernel
  rw [SeesOneDraw, neglectedWeight, entryBound, total_won_eq (by rw [games.1]; decide), games.1,
    games.2, lopsided_size]
  change _ * (_ * ((1e-12 : ℝ) * _)) < 1
  norm_num

/-- The first two move away from the others, but no player is as far from the mean as the one who
lost to them. -/
structure Drifts (strengths : Vector ℝ (ofTable lopsided).size) : Prop where
  even : strengths.get (seat 0) = strengths.get (seat 1)
  behind : strengths.get (seat 2) < strengths.get (seat 3)
  near : strengths.get (seat 3) < strengths.get (seat 2) + 2
  apart : strengths.get (seat 2) + 1 ≤ strengths.get (seat 0)
  centred : ∑ player, strengths.get player = 0

theorem sum_of_seats (value : Fin (ofTable lopsided).size → ℝ) :
    ∑ player, value player =
      value (seat 0) + value (seat 1) + value (seat 2) + value (seat 3) := by
  rw [← (finCongr lopsided_size.symm).sum_comp, Fin.sum_univ_four]
  rfl

theorem furthest_of_drifts {strengths : Vector ℝ (ofTable lopsided).size}
    (drifts : Drifts strengths) {player : Fin (ofTable lopsided).size}
    (furthest : Fit.Furthest strengths player) : player = seat 2 := by
  obtain ⟨even, behind, near, apart, centred⟩ := drifts
  have further := furthest (seat 2)
  rw [centred, zero_div, sub_zero, sub_zero] at further
  rw [sum_of_seats] at centred
  have negative : strengths.get (seat 2) < 0 := by linarith
  rw [abs_of_neg negative] at further
  have nearer : ∀ place : Fin 4, place ≠ 2 →
      |strengths.get (seat place)| < -strengths.get (seat 2)
    | 0, _ => abs_lt.mpr ⟨by linarith, by linarith⟩
    | 1, _ => abs_lt.mpr ⟨by linarith, by linarith⟩
    | 2, different => absurd rfl different
    | 3, _ => abs_lt.mpr ⟨by linarith, by linarith⟩
  by_contra elsewhere
  exact (nearer (Fin.cast lopsided_size player) fun same => elsewhere (congrArg seat same)).not_ge
    further

theorem lopsided_scores : (ofTable lopsided).won (seat 0) (seat 1) = 1 / 2 ∧
    (ofTable lopsided).won (seat 1) (seat 0) = 1 / 2 ∧
    (ofTable lopsided).won (seat 0) (seat 2) = 1 ∧
    (ofTable lopsided).won (seat 2) (seat 0) = 0 ∧
    (ofTable lopsided).won (seat 2) (seat 3) = 1 ∧
    (ofTable lopsided).won (seat 3) (seat 2) = 3 := by
  have halves : ((ofTable lopsided).cell (seat 0) (seat 1)).halves = 1 ∧
      ((ofTable lopsided).cell (seat 1) (seat 0)).halves = 1 ∧
      ((ofTable lopsided).cell (seat 0) (seat 2)).halves = 2 ∧
      ((ofTable lopsided).cell (seat 2) (seat 0)).halves = 0 ∧
      ((ofTable lopsided).cell (seat 2) (seat 3)).halves = 2 ∧
      ((ofTable lopsided).cell (seat 3) (seat 2)).halves = 6 := by
    decide +kernel
  simp only [won, Score.to_scalar_exact, halves]
  norm_num

theorem three_quarters_lt_sigmoid : 3 / 4 < Real.sigmoid 2 := by
  have grows : 3 < Real.exp 2 := by
    have tangent := Real.add_one_lt_exp (two_ne_zero : (2 : ℝ) ≠ 0)
    linarith
  have shrinks : Real.exp (-2) < 1 / 3 := by
    rw [Real.exp_neg, ← one_div]
    exact one_div_lt_one_div_of_lt three_pos grows
  rw [Real.sigmoid_def, ← one_div, lt_div_iff₀ (by positivity)]
  linarith

theorem drifts_of_climbs {previous last : Fit.Position ℝ (ofTable lopsided).size}
    (visits : Fit.Visits Link.logistic ((ofTable lopsided).posterior 0 0)
      (Fit.startPosition Link.logistic ((ofTable lopsided).posterior 0 0)) previous)
    (climbs : Fit.Climbs Link.logistic ((ofTable lopsided).posterior 0 0) previous last) :
    Drifts last.strengths := by
  obtain ⟨drawn, alsoDrawn, won, lost, wonOnce, lostThrice⟩ := lopsided_scores
  have before := visited_settling lopsided_branching visits
  have after := visited_settling lopsided_branching (visits.tail climbs)
  obtain ⟨step, found, whole⟩ :=
    climbs_whole lopsided_branching (Fit.visited_is_position visits) before climbs
  have moved : ∀ one other, last.strengths.get one - last.strengths.get other =
      previous.strengths.get one - previous.strengths.get other
        + (step.get one - step.get other) := by
    rw [whole]
    exact shift_difference previous.strengths step
  constructor
  case even =>
    have notBehind := (after (seat 0) (seat 1) (by rw [drawn]; norm_num)
      (by rw [drawn, alsoDrawn])).nonneg
    have notAhead := (after (seat 1) (seat 0) (by rw [alsoDrawn]; norm_num)
      (by rw [drawn, alsoDrawn])).nonneg
    linarith
  case behind =>
    have leads := before (seat 3) (seat 2) (by rw [lostThrice]; norm_num)
      (by rw [lostThrice, wonOnce]; norm_num)
    have newton := newton_of_branching lopsided_branching found (lostThrice ▸ three_pos)
    have forward := change_nonneg (lostThrice ▸ three_pos) (wonOnce ▸ zero_le_one) leads newton
    -- Only from equal strengths could they come to be equal, but there the record pulls.
    by_contra! notBehind
    have difference := moved (seat 3) (seat 2)
    have together : previous.strengths.get (seat 3) - previous.strengths.get (seat 2) = 0 := by
      linarith [leads.nonneg]
    have still : step.get (seat 3) - step.get (seat 2) = 0 := by
      linarith [leads.nonneg]
    rw [together, still, mul_zero, lostThrice, wonOnce, pull_eq, Real.sigmoid_zero] at newton
    norm_num at newton
  case near =>
    have pulled := (after (seat 3) (seat 2) (by rw [lostThrice]; norm_num)
      (by rw [lostThrice, wonOnce]; norm_num)).pulled
    rw [lostThrice, wonOnce, pull_eq] at pulled
    by_contra! far
    have high := Real.sigmoid_monotone (le_sub_iff_add_le'.mpr far)
    linarith [three_quarters_lt_sigmoid]
  case apart =>
    have leads := before (seat 0) (seat 2) (by rw [won]; norm_num) (by rw [won, lost]; norm_num)
    have newton := newton_of_branching lopsided_branching found (won ▸ one_pos)
    have further := one_le_change (won ▸ one_pos) leads newton lost
    have difference := moved (seat 0) (seat 2)
    linarith [leads.nonneg]
  case centred =>
    have mean := mean_of_whole_step lopsided 0 Link.logistic found
    rw [← whole, meanAbove, strength_of_zero, sub_zero] at mean
    exact (div_eq_zero_iff.mp mean).resolve_right (by rw [lopsided_size]; norm_num)

/-- The rating that is called unbounded is that of a player who both won and lost. Nobody in the
table won every game or lost every game. -/
theorem named_player_won_and_lost :
    lopsided.rate (Link.logistic : Link ℝ) Fit.defaultSettings 0 0 =
      .error (.unboundedRating "c") ∧
    "c" ∈ lopsided.players ∧
    ∀ player ∈ lopsided.players, ¬lopsided.WonEvery player ∧ ¬lopsided.LostEvery player := by
  obtain ⟨_, _, won, lost, _, _⟩ := lopsided_scores
  have few : 2 ^ ((ofTable lopsided).size - 1) * (ofTable lopsided).size ^ 3 *
      (ofTable lopsided).won (seat 0) (seat 2) ≤ 520 := by
    rw [won, lopsided_size]
    norm_num
  obtain ⟨previous, last, visits, climbs, rated⟩ := somebody_is_named lopsided_branching
    lopsided_linked lopsided_sees_one_draw (won ▸ one_pos) lost few 0
  obtain ⟨player, named, furthest⟩ := @Fit.outlier_furthest _ ((ofTable lopsided).posterior 0 0)
    (seat 0).pos last.strengths
  have isThird : (ofTable lopsided).players.get (seat 2) = "c" := by decide +kernel
  have isNamed : Fit.outlier ((ofTable lopsided).posterior 0 0) last.strengths = "c" := by
    rw [named, furthest_of_drifts (drifts_of_climbs visits climbs) furthest]
    exact isThird
  refine ⟨isNamed ▸ rated, by decide +kernel, ?_⟩
  unfold WonEvery LostEvery WonAll
  decide +kernel

end Crosstable

end KifuRatings
