import ShiftReduce.Production
import ShiftReduce.StateId

namespace ShiftReduce

/-- A number to which the grammar or automaton at hand gives no meaning. An operation that needs the
meaning has no answer. -/
inductive Dangling where
  | production (p : ProductionId)
  | nonterminal (n : Nonterminal)
  | state (s : StateId)
deriving DecidableEq, Repr

end ShiftReduce
