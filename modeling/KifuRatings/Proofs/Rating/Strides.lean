import KifuRatings.Proofs.Rating.Systems
import KifuRatings.Rating.Fit

/-!
# The strides of a search

A search takes one stride after the other: from a position it takes as much of the Newton step as
the line search accepts. It ends with the first stride that is short enough, and returns where this
one leads. All of this holds in whatever arithmetic the search computes.
-/

namespace KifuRatings.Fit

variable {α : Type} [Scalar α] {size : Nat}

structure Stride (α : Type) (size : Nat) where
  start : Position α size
  step : Vector α size
  scale : α
  reached : Position α size

def Stride.length (stride : Stride α size) : α :=
  Scalar.greatestAbs (stride.step.toList.map (· * stride.scale))

section Search

variable (link : Link α) (settings : FitSettings α) (posterior : Posterior α size)

/-- The stride from a position, unless its system is refused. -/
def stride? (start : Position α size) : Option (Stride α size) :=
  ((posterior.precision link start.strengths).solve
      (posterior.gradient link start.strengths)).map fun step =>
    let (scale, reached) := lineSearch link posterior start step maxHalvings 1
    ⟨start, step, scale, reached⟩

def strides : Nat → Position α size → List (Stride α size)
  | 0, _ => []
  | remaining + 1, start =>
      match stride? link posterior start with
      | none => []
      | some stride =>
          stride :: if stride.length < settings.tolerance then []
            else strides remaining stride.reached

def searchStrides : List (Stride α size) :=
  strides link settings posterior settings.maxIterations
    (position link posterior (Vector.replicate size 0))

end Search

variable {link : Link α} {settings : FitSettings α} {posterior : Posterior α size}

theorem stride_eq_some {start : Position α size} {stride : Stride α size}
    (taken : stride? link posterior start = some stride) :
    stride.start = start ∧
      (posterior.precision link start.strengths).solve (posterior.gradient link start.strengths) =
        some stride.step ∧
      lineSearch link posterior start stride.step maxHalvings 1 =
        (stride.scale, stride.reached) := by
  obtain ⟨step, found, rfl⟩ := Option.map_eq_some_iff.mp taken
  exact ⟨rfl, found, rfl⟩

theorem value_of_position {start : Position α size}
    (looked : start = position link posterior start.strengths) :
    start.value = posterior.value link start.strengths :=
  congrArg Position.value looked

theorem line_search_accepted {start : Position α size} {step : Vector α size} {scale : α}
    (accepted : ¬posterior.value link (shift start.strengths step scale) < start.value)
    (halvings : Nat) : lineSearch link posterior start step halvings scale =
      (scale, position link posterior (shift start.strengths step scale)) := by
  cases halvings with
  | zero => rfl
  | succ halvings =>
      unfold lineSearch
      exact if_neg accepted

theorem stride_whole {start : Position α size} {step : Vector α size}
    (found : (posterior.precision link start.strengths).solve
      (posterior.gradient link start.strengths) = some step)
    (accepted : ¬posterior.value link (shift start.strengths step 1) < start.value) :
    stride? link posterior start =
      some ⟨start, step, 1, position link posterior (shift start.strengths step 1)⟩ := by
  rw [stride?, found, Option.map_some, line_search_accepted accepted]

/-- A line search looks at the end of the part of the step that it accepts. -/
theorem line_search_end (start : Position α size) (step : Vector α size) (halvings : Nat)
    (scale : α) :
    (lineSearch link posterior start step halvings scale).2 =
      position link posterior (shift start.strengths step
        (lineSearch link posterior start step halvings scale).1) := by
  induction halvings generalizing scale with
  | zero => rfl
  | succ halvings induction =>
      unfold lineSearch
      dsimp only
      split
      · exact induction _
      · rfl

/-- A line search halves the whole step a few times. -/
theorem line_search_scale (start : Position α size) (step : Vector α size) (halvings : Nat)
    (scale : α) : ∃ halved ≤ halvings,
      (lineSearch link posterior start step halvings scale).1 = (· * 0.5)^[halved] scale := by
  induction halvings generalizing scale with
  | zero => exact ⟨0, le_refl 0, rfl⟩
  | succ halvings induction =>
      unfold lineSearch
      dsimp only
      split
      · obtain ⟨halved, few, same⟩ := induction (scale * 0.5)
        exact ⟨halved + 1, Nat.succ_le_succ few, same⟩
      · exact ⟨0, Nat.zero_le _, rfl⟩

section Reached

variable {start : Position α size} {stride : Stride α size}
  (taken : stride? link posterior start = some stride)

include taken

theorem reached_eq : stride.reached =
    position link posterior (shift start.strengths stride.step stride.scale) := by
  obtain ⟨_, _, searched⟩ := stride_eq_some taken
  have ended := @line_search_end _ _ _ link posterior start stride.step maxHalvings 1
  rw [searched] at ended
  exact ended

theorem reached_is_position :
    stride.reached = position link posterior stride.reached.strengths := by
  rw [reached_eq taken]
  rfl

theorem reached_strength (player : Fin size) :
    stride.reached.strengths.get player =
      start.strengths.get player + stride.scale * stride.step.get player := by
  rw [reached_eq taken]
  exact get_zip_with _ _ _ _

end Reached

section Taken

variable {remaining : Nat} {isFirst : Bool} {start : Position α size} {stride : Stride α size}
  (taken : stride? link posterior start = some stride)

include taken

theorem climb_stride :
    climb link settings posterior (remaining + 1) isFirst start =
      if stride.length < settings.tolerance then .ok stride.reached.strengths
      else climb link settings posterior remaining false stride.reached := by
  obtain ⟨_, found, searched⟩ := stride_eq_some taken
  rw [climb]
  simp only [found, searched]
  rfl

theorem strides_stride :
    strides link settings posterior (remaining + 1) start =
      stride :: if stride.length < settings.tolerance then []
        else strides link settings posterior remaining stride.reached := by
  rw [strides, taken]

theorem stride_of_start : stride? link posterior stride.start = some stride := by
  rw [(stride_eq_some taken).1, taken]

end Taken

section Refused

variable {remaining : Nat} {isFirst : Bool} {start : Position α size}
  (refused : stride? link posterior start = none)

include refused

theorem climb_refused (strengths : Vector α size) :
    climb link settings posterior (remaining + 1) isFirst start ≠ .ok strengths := by
  rw [climb]
  simp only [Option.map_eq_none_iff.mp refused]
  intro ended
  cases ended

theorem strides_refused :
    strides link settings posterior (remaining + 1) start = [] := by
  rw [strides, refused]

end Refused

/-- A climb returns where its last stride leads, the only one that is short enough. -/
theorem climb_ends {remaining : Nat} {isFirst : Bool} {start : Position α size}
    {strengths : Vector α size}
    (ended : climb link settings posterior remaining isFirst start = .ok strengths) :
    ∃ earlier last, strides link settings posterior remaining start = earlier ++ [last] ∧
      last.length < settings.tolerance ∧ last.reached.strengths = strengths := by
  induction remaining generalizing isFirst start with
  | zero => cases ended
  | succ remaining induction =>
      cases taken : stride? link posterior start with
      | none => exact absurd ended (climb_refused taken strengths)
      | some stride =>
          rw [climb_stride taken] at ended
          rw [strides_stride taken]
          split at ended
          · rename_i short
            rw [if_pos short]
            exact ⟨[], stride, rfl, short, Except.ok.inj ended⟩
          · rename_i long
            obtain ⟨earlier, last, listed, short, same⟩ := induction ended
            rw [if_neg long, listed]
            exact ⟨stride :: earlier, last, rfl, short, same⟩

theorem strides_behind {remaining : Nat} {start : Position α size}
    {before after : List (Stride α size)} {stride : Stride α size}
    (listed : strides link settings posterior remaining start = before ++ stride :: after) :
    stride? link posterior stride.start = some stride ∧
      ∃ fewer, after = strides link settings posterior fewer stride.reached := by
  induction remaining generalizing start before with
  | zero => simp [strides] at listed
  | succ remaining induction =>
      cases taken : stride? link posterior start with
      | none =>
          rw [strides_refused taken] at listed
          simp at listed
      | some first =>
          rw [strides_stride taken] at listed
          cases before with
          | nil =>
              obtain ⟨rfl, rest⟩ := List.cons.inj listed
              refine ⟨stride_of_start taken, ?_⟩
              rw [← rest]
              split
              · exact ⟨0, rfl⟩
              · exact ⟨remaining, rfl⟩
          | cons other before =>
              obtain ⟨rfl, rest⟩ := List.cons.inj listed
              split at rest
              · simp at rest
              · exact induction rest

/-- What the strides of a climb keep holds along the whole climb. -/
theorem strides_keep_along {holds : Position α size → Prop} {remaining : Nat}
    {start : Position α size} (begins : holds start)
    (kept : ∀ stride ∈ strides link settings posterior remaining start,
      holds stride.start → holds stride.reached) :
    ∀ stride ∈ strides link settings posterior remaining start,
      holds stride.start ∧ holds stride.reached := by
  induction remaining generalizing start with
  | zero => simp [strides]
  | succ remaining induction =>
      intro stride listed
      cases taken : stride? link posterior start with
      | none =>
          rw [strides_refused taken] at listed
          simp at listed
      | some first =>
          rw [strides_stride taken] at kept listed
          have starts : holds first.start := (stride_eq_some taken).1 ▸ begins
          have reaches := kept first List.mem_cons_self starts
          rcases List.mem_cons.mp listed with rfl | later
          · exact ⟨starts, reaches⟩
          · split at later
            · simp at later
            · rename_i long
              rw [if_neg long] at kept
              exact induction reaches
                (fun stride listed => kept stride (List.mem_cons_of_mem _ listed)) stride later

theorem strides_keep {holds : Position α size → Prop}
    (kept : ∀ stride : Stride α size, stride? link posterior stride.start = some stride →
      holds stride.start → holds stride.reached)
    {remaining : Nat} {start : Position α size} (begins : holds start) :
    ∀ stride ∈ strides link settings posterior remaining start,
      holds stride.start ∧ holds stride.reached := by
  apply strides_keep_along begins
  intro stride listed
  obtain ⟨before, after, split⟩ := List.append_of_mem listed
  exact kept stride (strides_behind split).1

end KifuRatings.Fit
