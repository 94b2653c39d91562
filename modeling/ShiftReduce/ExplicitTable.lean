import ShiftReduce.ParseTable

namespace ShiftReduce

structure ExplicitTable (σ ι ρ : Type) where
  initial : σ
  /-- The cells in the order in which they were first written. -/
  cells : List ((σ × ι) × Except LookupError (Move σ ι ρ))

namespace ExplicitTable

variable {σ ι ρ : Type} [DecidableEq σ] [DecidableEq ι]

/-- Replaces the content of a cell, or appends the cell if it is new. -/
def putCell (key : σ × ι) (content : Except LookupError (Move σ ι ρ)) :
    List ((σ × ι) × Except LookupError (Move σ ι ρ)) →
      List ((σ × ι) × Except LookupError (Move σ ι ρ))
  | [] => [(key, content)]
  | (k, old) :: cells =>
    if k = key then (k, content) :: cells else (k, old) :: putCell key content cells

def put (t : ExplicitTable σ ι ρ) (s : σ) (X : ι)
    (content : Except LookupError (Move σ ι ρ)) : ExplicitTable σ ι ρ :=
  { t with cells := putCell (s, X) content t.cells }

/-- A cell that was not written is an error. -/
def move (t : ExplicitTable σ ι ρ) (s : σ) (X : ι) : Except LookupError (Move σ ι ρ) :=
  (t.cells.lookup (s, X)).getD (.ok .error)

/-- The symbols with a cell in state `s` that is not an error. -/
def expected (t : ExplicitTable σ ι ρ) (s : σ) : List ι :=
  t.cells.filterMap fun ((state, X), content) =>
    if state = s then
      match content with
      | .ok .error => none
      | _ => some X
    else none

def parseTable (t : ExplicitTable σ ι ρ) : ParseTable σ ι ρ := ⟨t.initial, t.move, t.expected⟩

end ExplicitTable
end ShiftReduce
