import KifuRatings.Proofs.Rating.Bridges

/-!
# Where a system is refused

A refused system has a flat direction. Along it some player is far from the mean, so somewhere
among the values of all players there is a gap, and the players above the gap are held against those
below by next to nothing. If all players are linked by games, there are games across the gap, but
they bend no more. This does not happen at the start; and on the way through a branching table it
happens only to the games of two players one of whom never won.
-/

namespace KifuRatings

open Logistic Matrix

theorem exists_gap {size : Nat} {value : Fin size → ℝ} {high low : Fin size} {width : ℝ}
    (positive : 0 < width) (apart : size * width ≤ value high - value low) :
    ∃ group : Finset (Fin size), high ∈ group ∧ low ∉ group ∧
      ∀ above ∈ group, ∀ below ∉ group, width ≤ value above - value below := by
  let level (player : Fin size) : ℕ := ⌊(value player - value low) / width⌋₊
  have level_low : level low = 0 := by
    simp only [level, sub_self, zero_div, Nat.floor_zero]
  have level_high : size ≤ level high := by
    apply Nat.le_floor
    rwa [le_div_iff₀ positive]
  -- With the highest player beyond them, the players are too few for all lower levels.
  have skipped : ∃ free ∈ Finset.range size, free ∉ (Finset.univ.erase high).image level := by
    apply Finset.exists_mem_notMem_of_card_lt_card
    apply Finset.card_image_le.trans_lt
    rw [Finset.card_erase_of_mem (Finset.mem_univ high), Finset.card_univ, Fintype.card_fin,
      Finset.card_range]
    exact Nat.sub_one_lt high.pos.ne'
  obtain ⟨free, inRange, unused⟩ := skipped
  have within : free < size := Finset.mem_range.mp inRange
  have elsewhere : ∀ player, level player ≠ free := by
    intro player same
    by_cases isHigh : player = high
    · rw [isHigh] at same
      omega
    · exact unused (Finset.mem_image.mpr
        ⟨player, Finset.mem_erase.mpr ⟨isHigh, Finset.mem_univ player⟩, same⟩)
  refine ⟨Finset.univ.filter fun player => free < level player, ?_, ?_, ?_⟩
  · exact Finset.mem_filter.mpr ⟨Finset.mem_univ high, within.trans_le level_high⟩
  · intro member
    have above := (Finset.mem_filter.mp member).2
    omega
  · intro above member below outside
    have beyond : free + 1 ≤ level above := (Finset.mem_filter.mp member).2
    have under : level below + 1 ≤ free := by
      have notBeyond : ¬free < level below := fun beyond =>
        outside (Finset.mem_filter.mpr ⟨Finset.mem_univ below, beyond⟩)
      have different := elsewhere below
      omega
    have lower : ((free + 1 : ℕ) : ℝ) ≤ (value above - value low) / width :=
      (Nat.le_floor_iff' (Nat.succ_ne_zero free)).mp beyond
    have upper : (value below - value low) / width < free :=
      (Nat.lt_floor_add_one _).trans_le (by exact_mod_cast under)
    rw [le_div_iff₀ positive] at lower
    rw [div_lt_iff₀ positive] at upper
    push_cast at lower
    linarith

theorem gap_of_low_mean {size : Nat} {value : Fin size → ℝ} {high : Fin size}
    (isOne : value high = 1) (low : (∑ player, value player) / size ≤ 1 / 2) :
    ∃ group : Finset (Fin size), group.Nonempty ∧ groupᶜ.Nonempty ∧
      ∀ above ∈ group, ∀ below ∉ group, 1 / (2 * size : ℝ) ≤ value above - value below := by
  have sizePos : (0 : ℝ) < size := Nat.cast_pos.mpr high.pos
  have half : ∃ player, value player ≤ 1 / 2 := by
    by_contra! above
    have total : ∑ _ : Fin size, (1 / 2 : ℝ) < ∑ player, value player :=
      Finset.sum_lt_sum_of_nonempty ⟨high, Finset.mem_univ high⟩ fun player _ => above player
    rw [Finset.sum_const, Finset.card_univ, Fintype.card_fin, nsmul_eq_mul, mul_comm] at total
    exact ((lt_div_iff₀ sizePos).mpr total).not_ge low
  obtain ⟨lowest, below⟩ := half
  have apart : size * (1 / (2 * size : ℝ)) ≤ value high - value lowest := by
    have width : size * (1 / (2 * size : ℝ)) = 1 / 2 := by
      field_simp
    rw [width, isOne]
    linarith
  obtain ⟨group, inside, outside, gap⟩ := exists_gap (by positivity) apart
  exact ⟨group, ⟨high, inside⟩, ⟨lowest, Finset.mem_compl.mpr outside⟩, gap⟩

namespace Grid

variable {size : Nat} {matrix : Grid ℝ size}

theorem flat_smul {bound : ℝ} {direction : Fin size → ℝ} (flat : matrix.Flat bound direction)
    (factor : ℝ) : matrix.Flat (|factor| * bound) (factor • direction) := by
  intro row
  rw [mulVec_smul, Pi.smul_apply, smul_eq_mul, abs_mul]
  exact mul_le_mul_of_nonneg_left (flat row) (abs_nonneg factor)

/-- A flat direction can be scaled to go one unit for some player and no more for any. -/
theorem flat_unit {direction : Fin size → ℝ} (one : ∃ unknown, direction unknown = 1)
    (flat : matrix.Flat matrix.threshold direction) :
    ∃ scaled, (∃ player, scaled player = 1) ∧ (∀ player, |scaled player| ≤ 1) ∧
      matrix.Flat matrix.threshold scaled := by
  obtain ⟨unit, isOne⟩ := one
  have somebody : Nonempty (Fin size) := ⟨unit⟩
  obtain ⟨furthest, greatest⟩ := Finite.exists_max fun player => |direction player|
  have long : 1 ≤ |direction furthest| := by
    have atLeast := greatest unit
    rwa [isOne, abs_one] at atLeast
  have moves : direction furthest ≠ 0 := abs_pos.mp (one_pos.trans_le long)
  refine ⟨(direction furthest)⁻¹ • direction, ⟨furthest, inv_mul_cancel₀ moves⟩, ?_, ?_⟩
  · intro player
    rw [Pi.smul_apply, smul_eq_mul, abs_mul, abs_inv]
    exact inv_mul_le_one_of_le₀ (greatest player) (abs_nonneg _)
  · intro row
    apply (flat_smul flat _ row).trans
    rw [abs_inv]
    exact mul_le_of_le_one_left matrix.threshold_nonneg (inv_le_one_of_one_le₀ long)

end Grid

namespace ScoreMatrix

variable {table : Crosstable}

/-! ## Groups without hold -/

/-- Between a player of a group and another one, the games bend by at most four times the square of
the number of players as much as may be taken for zero. -/
def NeglectsBetween (table : Crosstable) (strengths : Vector ℝ (ofTable table).size)
    (group : Finset (Fin (ofTable table).size)) : Prop :=
  ∀ inside ∈ group, ∀ outside ∉ group,
    ((ofTable table).won inside outside + (ofTable table).won outside inside) *
        bend (strengths.get inside - strengths.get outside) ≤
      ((2 * (ofTable table).size : ℕ) : ℝ) ^ 2 * neglectedWeight table 0

theorem held_nonneg (strengths : Vector ℝ (ofTable table).size)
    (one other : Fin (ofTable table).size) :
    0 ≤ ((ofTable table).won one other + (ofTable table).won other one) *
      bend (strengths.get one - strengths.get other) :=
  mul_nonneg (add_nonneg (won_nonneg _ _ _) (won_nonneg _ _ _)) (bend_pos _).le

section Direction

variable {prior : ℝ} (strengths : Vector ℝ (ofTable table).size)
  {direction : Fin (ofTable table).size → ℝ}

noncomputable def gamesAlong (direction : Fin (ofTable table).size → ℝ) : ℝ :=
  ∑ winner, ∑ loser, (ofTable table).won winner loser *
    (bend (strengths.get winner - strengths.get loser) *
      ((direction winner - direction loser) * (direction winner - direction loser)))

theorem games_along_nonneg : 0 ≤ gamesAlong strengths direction :=
  Finset.sum_nonneg fun winner _ => Finset.sum_nonneg fun loser _ =>
    mul_nonneg (won_nonneg _ winner loser) (mul_nonneg (bend_pos _).le (mul_self_nonneg _))

theorem pair_le_games {one other : Fin (ofTable table).size} (different : one ≠ other) :
    ((ofTable table).won one other + (ofTable table).won other one) *
        bend (strengths.get one - strengths.get other) * (direction one - direction other) ^ 2 ≤
      gamesAlong strengths direction := by
  let share (winner loser : Fin (ofTable table).size) : ℝ := (ofTable table).won winner loser *
    (bend (strengths.get winner - strengths.get loser) *
      ((direction winner - direction loser) * (direction winner - direction loser)))
  have nonneg : ∀ winner loser, 0 ≤ share winner loser := fun winner loser =>
    mul_nonneg (won_nonneg _ winner loser) (mul_nonneg (bend_pos _).le (mul_self_nonneg _))
  have inRow : ∀ winner loser, share winner loser ≤ ∑ loser, share winner loser :=
    fun winner loser => Finset.single_le_sum (fun loser _ => nonneg winner loser)
      (Finset.mem_univ loser)
  calc
    _ = share one other + share other one := by
      simp only [share, bend_sub_comm (strengths.get other)]
      ring
    _ ≤ ∑ loser, share one loser + ∑ loser, share other loser :=
      add_le_add (inRow one other) (inRow other one)
    _ ≤ gamesAlong strengths direction :=
      Finset.add_le_sum (fun winner _ => Finset.sum_nonneg fun loser _ => nonneg winner loser)
        (Finset.mem_univ one) (Finset.mem_univ other) different

/-- A flat direction gets next to nothing from the games, and from the mean. -/
theorem games_along_flat (short : ∀ player, |direction player| ≤ 1)
    (flat : (((ofTable table).posterior prior 0).precision Link.logistic strengths).Flat
      (((ofTable table).posterior prior 0).precision Link.logistic strengths).threshold direction) :
    gamesAlong strengths direction + 10000 * ((∑ player, direction player) / (ofTable table).size *
      ((∑ player, direction player) / (ofTable table).size)) ≤ neglectedWeight table 0 := by
  have length : ∑ player, |direction player| ≤ (ofTable table).size := by
    apply (Finset.sum_le_card_nsmul _ _ 1 fun player _ => short player).trans_eq
    rw [Finset.card_univ, Fintype.card_fin, nsmul_one]
  have threshold : (((ofTable table).posterior prior 0).precision Link.logistic
      strengths).threshold ≤ Elimination.tolerance * entryBound table 0 :=
    mul_le_mul_of_nonneg_left (precision_largest table prior le_rfl strengths) Grid.tolerance_pos.le
  have form := Grid.dot_le_of_flat flat
  rw [dot_precision_of_games] at form
  apply form.trans
  rw [neglectedWeight, mul_comm ((ofTable table).size : ℝ)]
  exact mul_le_mul threshold length (Finset.sum_nonneg fun _ _ => abs_nonneg _)
    ((Grid.threshold_nonneg _).trans threshold)

end Direction

/-- Where the precision has a flat direction, the games between some players and the others are
neglected. -/
theorem neglected_of_flat {prior : ℝ} {strengths : Vector ℝ (ofTable table).size}
    (seesDraw : neglectedWeight table 0 ≤ 2500)
    (hasFlat : ∃ direction, (∃ unknown, direction unknown = 1) ∧
      (((ofTable table).posterior prior 0).precision Link.logistic strengths).Flat
        (((ofTable table).posterior prior 0).precision Link.logistic strengths).threshold
          direction) :
    ∃ group : Finset (Fin (ofTable table).size),
      group.Nonempty ∧ groupᶜ.Nonempty ∧ NeglectsBetween table strengths group := by
  obtain ⟨_, unit, flatUnit⟩ := hasFlat
  obtain ⟨direction, ⟨high, isOne⟩, short, flat⟩ := Grid.flat_unit unit flatUnit
  have somebody : 0 < (ofTable table).size := high.pos
  have total := games_along_flat strengths short flat
  have lowMean : (∑ player, direction player) / (ofTable table).size ≤ 1 / 2 := by
    by_contra! large
    have square := mul_self_lt_mul_self (by norm_num) large
    linarith [@games_along_nonneg _ strengths direction]
  obtain ⟨group, some, others, gap⟩ := gap_of_low_mean isOne lowMean
  refine ⟨group, some, others, ?_⟩
  intro inside member outside notMember
  have different : inside ≠ outside := fun same => notMember (same ▸ member)
  have wide : (1 / (2 * (ofTable table).size : ℝ)) ^ 2 ≤
      (direction inside - direction outside) ^ 2 :=
    pow_le_pow_left₀ (by positivity) (gap inside member outside notMember) 2
  have bounded := (mul_le_mul_of_nonneg_left wide (held_nonneg strengths inside outside)).trans
    (pair_le_games strengths different)
  have square : (1 / (2 * (ofTable table).size : ℝ)) ^ 2 =
      1 / ((2 * (ofTable table).size : ℕ) : ℝ) ^ 2 := by
    push_cast
    ring
  rw [square, mul_one_div, div_le_iff₀ (by positivity)] at bounded
  have limit : gamesAlong strengths direction ≤ neglectedWeight table 0 := by
    have meanNonneg := mul_self_nonneg ((∑ player, direction player) / (ofTable table).size)
    linarith
  apply bounded.trans
  rw [mul_comm]
  exact mul_le_mul_of_nonneg_left limit (sq_nonneg _)

theorem neglected_of_refused {prior : ℝ} {strengths : Vector ℝ (ofTable table).size}
    (somebody : 0 < (ofTable table).size) (seesDraw : neglectedWeight table 0 ≤ 2500)
    (refused : Fit.newtonStep Link.logistic ((ofTable table).posterior prior 0) strengths = none) :
    ∃ group : Finset (Fin (ofTable table).size),
      group.Nonempty ∧ groupᶜ.Nonempty ∧ NeglectsBetween table strengths group :=
  neglected_of_flat seesDraw (Grid.solve_flat somebody refused)

/-! ## Tables that are linked -/

/-- Every group has games with the other players. -/
def Linked (table : Crosstable) : Prop :=
  ∀ group : Finset (Fin (ofTable table).size), group.Nonempty → groupᶜ.Nonempty →
    ∃ inside ∈ group, ∃ outside ∉ group,
      0 < (ofTable table).won inside outside + (ofTable table).won outside inside

theorem won_pos_iff {one other : Fin (ofTable table).size} :
    0 < (ofTable table).won one other ↔ 0 < ((ofTable table).cell one other).halves := by
  rw [won, Score.to_scalar_exact, div_pos_iff_of_pos_right two_pos, Nat.cast_pos]

theorem met_iff {one other : Fin (ofTable table).size} :
    0 < (ofTable table).won one other + (ofTable table).won other one ↔
      0 < ((ofTable table).cell one other).halves + ((ofTable table).cell other one).halves := by
  rw [won, won, Score.to_scalar_exact, Score.to_scalar_exact, ← add_div,
    div_pos_iff_of_pos_right two_pos, ← Nat.cast_add, Nat.cast_pos]

theorem won_both {one other : Fin (ofTable table).size} (different : one ≠ other) :
    (ofTable table).won one other + (ofTable table).won other one =
      shared table ((ofTable table).players.get one) ((ofTable table).players.get other) := by
  have both := congrArg (Nat.cast (R := ℝ)) (score_both table ((ofTable table).players.get one)
    ((ofTable table).players.get other))
  push_cast at both
  rw [won, won, Score.to_scalar_exact, Score.to_scalar_exact, cell_of_table, cell_of_table,
    if_neg different, if_neg different.symm]
  linarith

theorem linked_of_connected (connected : table.meetingGraph.Connected) : Linked table := by
  intro group some others
  by_contra! unplayed
  let side (name : String) : Bool :=
    decide (∃ inside ∈ group, (ofTable table).players.get inside = name)
  have side_iff : ∀ player,
      side ((ofTable table).players.get player) = true ↔ player ∈ group := by
    intro player
    rw [decide_eq_true_iff]
    constructor
    · rintro ⟨inside, member, same⟩
      exact player_injective same ▸ member
    · exact fun member => ⟨player, member, rfl⟩
  have apart : ∀ one ∈ group, ∀ other ∉ group,
      ¬0 < shared table ((ofTable table).players.get one)
        ((ofTable table).players.get other) := by
    intro one member other outside met
    have different : one ≠ other := fun same => outside (same ▸ member)
    have nothing := unplayed one member other outside
    rw [won_both different] at nothing
    exact met.not_ge (by exact_mod_cast nothing)
  apply Crosstable.apart_of_sides _ _ connected
  · exact side
  · intro left leftListed right rightListed met
    obtain ⟨one, rfl⟩ := mem_players_of_table.mp leftListed
    obtain ⟨other, rfl⟩ := mem_players_of_table.mp rightListed
    rw [Bool.eq_iff_iff, side_iff, side_iff]
    constructor
    · intro member
      by_contra outside
      exact apart one member other outside met
    · intro member
      by_contra outside
      rw [shared_comm] at met
      exact apart other member one outside met
  · obtain ⟨one, member⟩ := some
    obtain ⟨other, outside⟩ := others
    refine ⟨_, mem_players_of_table.mpr ⟨one, rfl⟩, _, mem_players_of_table.mpr ⟨other, rfl⟩, ?_⟩
    intro same
    rw [Bool.eq_iff_iff, side_iff, side_iff] at same
    exact Finset.mem_compl.mp outside (same.mp member)

/-- Sixteen times the square of the number of players as much as may be taken for zero is less than
four drawn games between equal players bend by. -/
def SeesOneDraw (table : Crosstable) : Prop :=
  ((4 * (ofTable table).size : ℕ) : ℝ) ^ 2 * neglectedWeight table 0 < 1

theorem neglected_weight_le_of_sees_draw (seesDraw : SeesOneDraw table)
    (somebody : 0 < (ofTable table).size) : neglectedWeight table 0 ≤ 2500 := by
  have wonBound := total_won_nonneg table
  have nonneg : 0 ≤ neglectedWeight table 0 := by
    have tolerance := Grid.tolerance_pos
    unfold neglectedWeight entryBound
    positivity
  have several : (1 : ℝ) ≤ ((4 * (ofTable table).size : ℕ) : ℝ) ^ 2 :=
    one_le_pow₀ (by exact_mod_cast Nat.mul_pos four_pos somebody)
  have scaled := mul_le_mul_of_nonneg_right several nonneg
  unfold SeesOneDraw at seesDraw
  linarith

theorem neglected_light (seesDraw : SeesOneDraw table) {strengths : Vector ℝ (ofTable table).size}
    {group : Finset (Fin (ofTable table).size)} (neglected : NeglectsBetween table strengths group)
    {inside outside : Fin (ofTable table).size} (member : inside ∈ group)
    (notMember : outside ∉ group) :
    ((ofTable table).won inside outside + (ofTable table).won outside inside) *
        bend (strengths.get inside - strengths.get outside) < 1 / 4 := by
  have light := neglected inside member outside notMember
  unfold SeesOneDraw at seesDraw
  push_cast at light seesDraw
  linarith

theorem not_neglected_of_level (linked : Linked table) (seesDraw : SeesOneDraw table)
    {strengths : Vector ℝ (ofTable table).size} {height : ℝ}
    (level : ∀ player, strengths.get player = height)
    {group : Finset (Fin (ofTable table).size)} (some : group.Nonempty)
    (others : groupᶜ.Nonempty) : ¬NeglectsBetween table strengths group := by
  intro neglected
  obtain ⟨inside, member, outside, notMember, played⟩ := linked group some others
  have different : inside ≠ outside := fun same => notMember (same ▸ member)
  have light := neglected_light seesDraw neglected member notMember
  rw [level, level, sub_self, bend_zero] at light
  rw [won_both different] at played light
  have once : (1 : ℝ) ≤ shared table ((ofTable table).players.get inside)
      ((ofTable table).players.get outside) := by
    exact_mod_cast Nat.cast_pos.mp played
  linarith

/-- At one strength of all players, neither the system nor the inverse is refused. -/
theorem accepted_of_level (linked : Linked table) (seesDraw : SeesOneDraw table)
    (somebody : 0 < (ofTable table).size) (prior : ℝ) {strengths : Vector ℝ (ofTable table).size}
    {height : ℝ} (level : ∀ player, strengths.get player = height) :
    Fit.newtonStep Link.logistic ((ofTable table).posterior prior 0) strengths ≠ none ∧
      (((ofTable table).posterior prior 0).precision Link.logistic strengths).inverse ≠ none := by
  have firm := neglected_weight_le_of_sees_draw seesDraw somebody
  constructor
  · intro refused
    obtain ⟨group, some, others, neglected⟩ :=
      neglected_of_flat firm (Grid.solve_flat somebody refused)
    exact not_neglected_of_level linked seesDraw level some others neglected
  · intro refused
    obtain ⟨group, some, others, neglected⟩ :=
      neglected_of_flat firm (Grid.inverse_flat somebody refused)
    exact not_neglected_of_level linked seesDraw level some others neglected

theorem accepted_at_start (linked : Linked table) (seesDraw : SeesOneDraw table)
    (somebody : 0 < (ofTable table).size) (prior : ℝ) :
    Fit.newtonStep Link.logistic ((ofTable table).posterior prior 0)
      (Fit.startPosition Link.logistic ((ofTable table).posterior prior 0)).strengths ≠ none :=
  (accepted_of_level linked seesDraw somebody prior (Fit.start_strengths_get _ _)).1

theorem half_le_won {one other : Fin (ofTable table).size}
    (won : 0 < (ofTable table).won one other) : 1 / 2 ≤ (ofTable table).won one other := by
  have once : (1 : ℝ) ≤ ((ofTable table).cell one other).halves := by
    exact_mod_cast won_pos_iff.mp won
  rw [ScoreMatrix.won, Score.to_scalar_exact]
  linarith

/-- A pair of players who both won stays firm as long as the better of them leads. -/
theorem firm_of_settling {strengths : Vector ℝ (ofTable table).size}
    (settling : Settling table strengths) {one other : Fin (ofTable table).size}
    (better : (ofTable table).won other one ≤ (ofTable table).won one other)
    (lost : 0 < (ofTable table).won other one) :
    1 / 4 ≤ ((ofTable table).won one other + (ofTable table).won other one) *
      bend (strengths.get one - strengths.get other) := by
  have leads := settling one other (lost.trans_le better) better
  have half := half_le_won lost
  have bent := bend_of_leads lost.le leads
  linarith

/-- On the way through a linked table that branches, a system is refused only if a player never won
against another, but lost. -/
theorem unbeaten_of_refused (linked : Linked table) (seesDraw : SeesOneDraw table)
    (somebody : 0 < (ofTable table).size) {prior : ℝ}
    {strengths : Vector ℝ (ofTable table).size} (settling : Settling table strengths)
    (refused : Fit.newtonStep Link.logistic ((ofTable table).posterior prior 0) strengths = none) :
    ∃ winner loser, 0 < (ofTable table).won winner loser ∧
      (ofTable table).won loser winner = 0 := by
  obtain ⟨group, some, others, neglected⟩ :=
    neglected_of_refused somebody (neglected_weight_le_of_sees_draw seesDraw somebody) refused
  obtain ⟨inside, member, outside, notMember, played⟩ := linked group some others
  have light := neglected_light seesDraw neglected member notMember
  rcases (won_nonneg (ofTable table) inside outside).eq_or_lt with nothing | wonInside
  · refine ⟨outside, inside, ?_, nothing.symm⟩
    rwa [← nothing, zero_add] at played
  rcases (won_nonneg (ofTable table) outside inside).eq_or_lt with nothing | wonOutside
  · exact ⟨inside, outside, wonInside, nothing.symm⟩
  exfalso
  apply light.not_ge
  rcases le_total ((ofTable table).won outside inside) ((ofTable table).won inside outside) with
    ahead | behind
  · exact firm_of_settling settling ahead wonOutside
  · rw [add_comm, bend_sub_comm]
    exact firm_of_settling settling behind wonInside

end ScoreMatrix

end KifuRatings
