import KifuRatings.Rating.Scalar

/-!
# Linear systems

A square system is solved by elimination with row exchanges. Solving one variable from the
equation with the largest leading coefficient and substituting it into the others leaves
a system with one variable and one equation less; the solution of the smaller system gives
that variable. Several right-hand sides are solved together. A system whose leading
coefficients are all tiny, measured by its largest coefficient at the start, counts as
singular.
-/

namespace KifuRatings

abbrev Grid (α : Type) (size : Nat) := Vector (Vector α size) size

def Grid.entry {α : Type} {size : Nat} (grid : Grid α size) (row column : Fin size) : α :=
  (grid.get row).get column

namespace Elimination

/-- Coefficients of the unknowns, and the constants of each right-hand side. -/
structure Equation (α : Type) (unknowns sides : Nat) where
  coefficients : Vector α unknowns
  constants : Vector α sides

variable {α : Type} [Scalar α] {unknowns sides : Nat}

/-- Leading coefficients up to this part of the largest coefficient count as zero. -/
def tolerance : α := 1e-12

def Equation.lead (equation : Equation α (unknowns + 1) sides) : α := equation.coefficients.get 0

def Equation.drop (equation : Equation α (unknowns + 1) sides) : Equation α unknowns sides :=
  ⟨equation.coefficients.tail, equation.constants⟩

/-- Takes a multiple of the pivot from an equation so that its first unknown cancels. -/
def Equation.reduce (pivot equation : Equation α (unknowns + 1) sides) :
    Equation α unknowns sides :=
  let factor := equation.lead / pivot.lead
  if factor == 0 then equation.drop
  else
    let subtract := fun value taken => value - factor * taken
    { coefficients := (equation.coefficients.zipWith subtract pivot.coefficients).tail
      constants := equation.constants.zipWith subtract pivot.constants }

def Equation.solveLead (pivot : Equation α (unknowns + 1) sides)
    (others : Vector (Vector α sides) unknowns) : Vector α sides :=
  Vector.ofFn fun side =>
    let tail := Scalar.sum ((List.finRange unknowns).map fun index =>
      pivot.coefficients.get index.succ * (others.get index).get side)
    (pivot.constants.get side - tail) / pivot.lead

def prepend {β : Type} {size : Nat} (first : β) (rest : Vector β size) : Vector β (size + 1) :=
  Vector.ofFn (Fin.cases first rest.get)

/-- The last equation whose leading coefficient has the greatest magnitude. -/
def pivotIndex {count : Nat} (system : Vector (Equation α (unknowns + 1) sides) (count + 1)) :
    Fin (count + 1) :=
  Scalar.lastGreatest (fun index => Scalar.abs (system.get index).lead) 0
    (List.finRange (count + 1))

def solveAbove (least : α) : {unknowns : Nat} → Vector (Equation α unknowns sides) unknowns →
    Option (Vector (Vector α sides) unknowns)
  | 0, _ => some #v[]
  | unknowns + 1, system =>
      let index := pivotIndex system
      let pivot := system.get index
      if Scalar.abs pivot.lead ≤ least then none
      else
        let others := (system.swap 0 index unknowns.succ_pos index.isLt).tail
        (solveAbove least (others.map pivot.reduce)).map fun solution =>
          prepend (pivot.solveLead solution) solution

/-- The value of each unknown for every right-hand side; a system without equations has no
solution. -/
def solveSides (system : Vector (Equation α unknowns sides) unknowns) :
    Option (Vector (Vector α sides) unknowns) :=
  let largest := Scalar.greatestAbs (system.toList.flatMap (·.coefficients.toList))
  if unknowns = 0 || largest == 0 then none else solveAbove (tolerance * largest) system

end Elimination

namespace Grid

open Elimination

variable {α : Type} [Scalar α] {size : Nat}

def solve (matrix : Grid α size) (constants : Vector α size) : Option (Vector α size) :=
  (solveSides (matrix.zipWith (fun row constant => ⟨row, #v[constant]⟩) constants)).map
    fun solution => solution.map (·.get 0)

/-- The rows of the identity matrix are the right-hand sides. -/
def inverse (matrix : Grid α size) : Option (Grid α size) :=
  solveSides (Vector.ofFn fun row =>
    ⟨matrix.get row, Vector.ofFn fun column => if row = column then 1 else 0⟩)

end Grid

end KifuRatings
