import ShiftReduce.Conflict
import ShiftReduce.Misuse
import ShiftReduce.GrammarFault

namespace ShiftReduce

inductive BuildError where
  | grammar (e : GrammarFault)
  | misuse (e : Misuse)
  | conflict (conflicts : List Conflict)
  /-- The work broke off at a number without a meaning. -/
  | dangling (d : Dangling)
deriving DecidableEq, Repr

/-- The sort of the error; the error inside has its own message. Work that broke off has none. -/
def BuildError.message? : BuildError → Option String
  | grammar _ => some "structural grammar error"
  | misuse _ => some "contract violation"
  | conflict _ => some "error during constructing the transition table"
  | dangling _ => none

end ShiftReduce
