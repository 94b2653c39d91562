import ShiftReduce.Symbol
import ShiftReduce.Text

namespace ShiftReduce

/-- The place of a production among the productions of a grammar. -/
structure ProductionId where
  number : Nat
deriving DecidableEq, Repr

namespace ProductionId

/-- The augmented production, which comes first in every grammar. -/
def augmented : ProductionId := ⟨0⟩

def tag (p : ProductionId) : String := "P#" ++ threeDigits p.number

def le (p q : ProductionId) : Bool := p.number ≤ q.number

end ProductionId

/-- A rule by which `head` stands for `tail`. -/
structure Production where
  head : Nonterminal
  tail : List Symbol
deriving DecidableEq, Repr

end ShiftReduce
