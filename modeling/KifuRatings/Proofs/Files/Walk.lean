import KifuRatings.Files.Scan
import Mathlib.Data.List.TakeWhile

/-!
# Walking along a route

A route can be walked in parts: the second part starts where the first one ends and may
follow the links that are left. So a scan, which walks name by name, and a user, who writes
a whole route, reach the same files, and more links to spare never close a way.
-/

namespace KifuRatings.FileSystem

variable {files : FileSystem}

def cross (files : FileSystem) : Nat → Path → Route → Except AccessError (Nat × Path)
  | 0 => fun _ _ => .error .tooManyLinks
  | links + 1 => files.walk links

theorem walk_eq_walk_with (links : Nat) :
    files.walk links = files.walkWith links (files.cross links) := by
  cases links <;> rfl

@[simp]
theorem walk_nil (links : Nat) (path : Path) : files.walk links path [] = .ok (links, path) := by
  rw [walk_eq_walk_with]
  rfl

theorem walk_cons (links : Nat) (path : Path) (step : Step) (rest : Route) :
    files.walk links path (step :: rest) =
      if files.isDirectoryAt path then
        match step with
        | .stay => files.walk links path rest
        | .up => files.walk links path.dropLast rest
        | .into name =>
            match files.lookup (path ++ [name]) with
            | none => if rest = [] then .ok (links, path ++ [name]) else .error .notFound
            | some (.link target) =>
                files.cross links (origin path target) (Route.ofBytes target ++ rest)
            | some _ => files.walk links (path ++ [name]) rest
      else if files.lookup path = none then .error .notFound
      else .error .notADirectory := by
  rw [walk_eq_walk_with]
  rfl

theorem walk_from_nothing {links : Nat} {path : Path} (nothing : files.lookup path = none)
    (step : Step) (rest : Route) : files.walk links path (step :: rest) = .error .notFound := by
  have notDirectory : files.isDirectoryAt path = false := by simp [isDirectoryAt, nothing]
  rw [walk_cons, notDirectory, if_neg Bool.false_ne_true, if_pos nothing]

theorem walk_append (links : Nat) (start : Path) (first second : Route) :
    files.walk links start (first ++ second) =
      (files.walk links start first).bind fun reached => files.walk reached.1 reached.2 second := by
  induction links using Nat.strongRecOn generalizing start first with
  | ind links fewer =>
      have crossed : ∀ path route, files.cross links path (route ++ second) =
          (files.cross links path route).bind
            fun reached => files.walk reached.1 reached.2 second := by
        intro path route
        cases links with
        | zero => rfl
        | succ links => exact fewer links (Nat.lt_succ_self links) path route
      induction first generalizing start with
      | nil =>
          rw [walk_nil]
          rfl
      | cons step rest induction =>
          rw [List.cons_append, walk_cons, walk_cons]
          split
          · cases step with
            | stay => exact induction start
            | up => exact induction start.dropLast
            | into name =>
                simp only []
                split
                · rename_i nothing
                  cases rest with
                  | nil =>
                      cases second with
                      | nil => simp [Except.bind]
                      | cons step more => simp [Except.bind, walk_from_nothing nothing]
                  | cons next rest => simp [Except.bind]
                · rw [← crossed, List.append_assoc]
                · exact induction (start ++ [name])
          · split <;> rfl

/-- The walks that reach an end, rule by rule: from a path along a route to where it leads,
with the number of links before and after. -/
inductive Walks (files : FileSystem) : Nat → Path → Route → Nat → Path → Prop where
  | done {links : Nat} {path : Path} : Walks files links path [] links path
  | stay {links left : Nat} {path target : Path} {rest : Route}
      (directory : files.isDirectoryAt path = true) (later : Walks files links path rest left target) :
      Walks files links path (.stay :: rest) left target
  | up {links left : Nat} {path target : Path} {rest : Route}
      (directory : files.isDirectoryAt path = true)
      (later : Walks files links path.dropLast rest left target) :
      Walks files links path (.up :: rest) left target
  | into {links left : Nat} {path target : Path} {rest : Route} {name : Bytes} {entry : Entry}
      (directory : files.isDirectoryAt path = true)
      (there : files.lookup (path ++ [name]) = some entry) (noLink : ∀ text, entry ≠ .link text)
      (later : Walks files links (path ++ [name]) rest left target) :
      Walks files links path (.into name :: rest) left target
  | missing {links : Nat} {path : Path} {name : Bytes}
      (directory : files.isDirectoryAt path = true)
      (nothing : files.lookup (path ++ [name]) = none) :
      Walks files links path [.into name] links (path ++ [name])
  | link {links left : Nat} {path target : Path} {rest : Route} {name text : Bytes}
      (directory : files.isDirectoryAt path = true)
      (there : files.lookup (path ++ [name]) = some (.link text))
      (later : Walks files links (origin path text) (Route.ofBytes text ++ rest) left target) :
      Walks files (links + 1) path (.into name :: rest) left target

theorem walk_of_walks {links left : Nat} {start target : Path} {route : Route}
    (walks : Walks files links start route left target) :
    files.walk links start route = .ok (left, target) := by
  induction walks with
  | done => exact walk_nil _ _
  | stay directory _ induction => rw [walk_cons, if_pos directory]; exact induction
  | up directory _ induction => rw [walk_cons, if_pos directory]; exact induction
  | @into _ _ _ _ _ _ entry directory there noLink _ induction =>
      rw [walk_cons, if_pos directory]
      simp only [there]
      cases entry with
      | link text => exact absurd rfl (noLink text)
      | file content => exact induction
      | unreadable cause => exact induction
      | directory => exact induction
      | special content => exact induction
  | missing directory nothing =>
      rw [walk_cons, if_pos directory]
      simp only [nothing, if_true]
  | link directory there _ induction =>
      rw [walk_cons, if_pos directory]
      simp only [there]
      exact induction

theorem walks_of_walk {links left : Nat} {start target : Path} {route : Route}
    (walk : files.walk links start route = .ok (left, target)) :
    Walks files links start route left target := by
  induction links using Nat.strongRecOn generalizing start route with
  | ind links fewer =>
      induction route generalizing start with
      | nil =>
          rw [walk_nil] at walk
          obtain ⟨rfl, rfl⟩ : links = left ∧ start = target := by simpa using walk
          exact .done
      | cons step rest induction =>
          rw [walk_cons] at walk
          split at walk
          · rename_i directory
            cases step with
            | stay => exact .stay directory (induction walk)
            | up => exact .up directory (induction walk)
            | into name =>
                simp only [] at walk
                split at walk
                · rename_i nothing
                  split at walk
                  · rename_i atEnd
                    obtain ⟨rfl, rfl⟩ : links = left ∧ start ++ [name] = target := by
                      simpa using walk
                    exact atEnd ▸ .missing directory nothing
                  · simp at walk
                · rename_i text there
                  cases links with
                  | zero => simp [cross] at walk
                  | succ links =>
                      exact .link directory there (fewer links (Nat.lt_succ_self links) walk)
                · rename_i entry noLink there
                  exact .into directory there (fun text same => noLink text same) (induction walk)
          · split at walk <;> simp at walk

/-- The rules describe the walks. -/
theorem walk_eq_ok {links left : Nat} {start target : Path} {route : Route} :
    files.walk links start route = .ok (left, target) ↔ Walks files links start route left target :=
  ⟨walks_of_walk, walk_of_walks⟩

/-- What a walk makes of a name: it goes on, it ends where nothing is, or it follows a link. -/
theorem walks_through_name {links left : Nat} {start target : Path} {name : Bytes} {rest : Route}
    (walks : Walks files links start (.into name :: rest) left target) :
    files.isDirectoryAt start = true ∧
      ((∃ entry, files.lookup (start ++ [name]) = some entry ∧ (∀ text, entry ≠ .link text) ∧
          Walks files links (start ++ [name]) rest left target) ∨
        (files.lookup (start ++ [name]) = none ∧ rest = [] ∧ links = left ∧
          target = start ++ [name]) ∨
        ∃ fewer text, links = fewer + 1 ∧ files.lookup (start ++ [name]) = some (.link text) ∧
          Walks files fewer (origin start text) (Route.ofBytes text ++ rest) left target) := by
  cases walks with
  | into directory there noLink later =>
      exact ⟨directory, .inl ⟨_, there, noLink, later⟩⟩
  | missing directory nothing => exact ⟨directory, .inr (.inl ⟨nothing, rfl, rfl, rfl⟩)⟩
  | link directory there later =>
      exact ⟨directory, .inr (.inr ⟨_, _, rfl, there, later⟩)⟩

theorem walks_left_le {links left : Nat} {start target : Path} {route : Route}
    (walks : Walks files links start route left target) : left ≤ links := by
  induction walks with
  | done => exact Nat.le_refl _
  | stay _ _ induction => exact induction
  | up _ _ induction => exact induction
  | into _ _ _ _ induction => exact induction
  | missing => exact Nat.le_refl _
  | link _ _ _ induction => exact Nat.le_succ_of_le induction

/-- More links to spare change nothing but what is left of them. -/
theorem walks_with_more {links left : Nat} {start target : Path} {route : Route}
    (walks : Walks files links start route left target) (more : Nat) :
    Walks files (links + more) start route (left + more) target := by
  induction walks with
  | done => exact .done
  | stay directory _ induction => exact .stay directory induction
  | up directory _ induction => exact .up directory induction
  | into directory there noLink _ induction => exact .into directory there noLink induction
  | missing directory nothing => exact .missing directory nothing
  | link directory there _ induction =>
      rw [Nat.add_right_comm]
      exact .link directory there induction

end KifuRatings.FileSystem
