import ShiftReduce.Event
import ShiftReduce.Analysis

namespace ShiftReduce

def SetName.text (g : Grammar) : SetName → String
  | first n => "FIRST(" ++ g.nameOf (.nonterminal n) ++ ")"
  | follow n => "FOLLOW(" ++ g.nameOf (.nonterminal n) ++ ")"

/-- The names of the members, by ascending number. -/
def Grammar.memberNames (g : Grammar) (s : TerminalSet) : List String :=
  s.toList.map fun t => g.nameOf (.terminal t)

/-- The events of all computations so far. -/
def Analysis.events (g : Grammar) (a : Analysis) : List Event :=
  a.known.map fun (q, s) => .setComputed (q.text g) (g.memberNames s)

end ShiftReduce
