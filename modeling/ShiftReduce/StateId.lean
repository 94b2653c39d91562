import ShiftReduce.Text

namespace ShiftReduce

/-- The place of a state among the states of an automaton. -/
structure StateId where
  number : Nat
deriving DecidableEq, Repr

namespace StateId

/-- The state that holds the closure of the augmented item. -/
def start : StateId := ⟨0⟩

/-- There are this many state numbers, as many as 32 bits can tell apart. -/
def capacity : Nat := 4294967296

def tag (s : StateId) : String := "S#" ++ threeDigits s.number

/-- The line that opens the text of a state. -/
def heading (s : StateId) : String := "#### State " ++ s.tag ++ "\n"

def le (s t : StateId) : Bool := s.number ≤ t.number

end StateId
end ShiftReduce
