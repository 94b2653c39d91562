namespace ShiftReduce

/-- First in, first out. What is waiting is kept a second time, apart from its order, to turn away a
value that already waits. -/
structure Worklist (α : Type) where
  /-- The waiting values, the next one first. -/
  line : List α
  /-- The same values in no particular order. -/
  waiting : List α
deriving DecidableEq, Repr

namespace Worklist

variable {α : Type}

def empty : Worklist α := ⟨[], []⟩

def isEmpty (q : Worklist α) : Bool := q.line.isEmpty

variable [DecidableEq α]

/-- Puts `a` at the end of the line unless it is waiting; says whether it was put there. -/
def push (q : Worklist α) (a : α) : Bool × Worklist α :=
  if a ∈ q.waiting then (false, q) else (true, ⟨q.line ++ [a], a :: q.waiting⟩)

/-- Takes the value at the head of the line. -/
def pop (q : Worklist α) : Option (α × Worklist α) :=
  match q.line with
  | [] => none
  | a :: line => some (a, ⟨line, q.waiting.erase a⟩)

/-- Takes `a` out and moves the last value to its place, so that no other value moves. -/
def swapErase (a : α) : List α → List α
  | [] => []
  | b :: l => if b = a then l.getLast?.toList ++ l.dropLast else b :: swapErase a l

/-- `push` where the set puts a new value behind the others. -/
def pushIndexed (q : Worklist α) (a : α) : Bool × Worklist α :=
  if a ∈ q.waiting then (false, q) else (true, ⟨q.line ++ [a], q.waiting ++ [a]⟩)

/-- `pop` where the last value of the set fills the place of the one that goes. -/
def popIndexed (q : Worklist α) : Option (α × Worklist α) :=
  match q.line with
  | [] => none
  | a :: line => some (a, ⟨line, swapErase a q.waiting⟩)

end Worklist
end ShiftReduce
