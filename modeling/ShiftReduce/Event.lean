import ShiftReduce.StateId

namespace ShiftReduce

inductive Level where
  | warn
  | debug
  | trace
deriving DecidableEq, Repr

/-- A noteworthy moment. Symbols, sets and actions come as the text that the report shows. -/
inductive Event where
  | duplicateProduction (head : String)
  | noProduction (nonterminal : String)
  | stateFound (state source : StateId) (symbol : String)
  | automatonComplete (states : Nat)
  | setComputed (set : String) (members : List String)
  | conflictFound (conflict : String)
  | tableComplete (rows : Nat)
  | shifted (symbol : String) (position : Nat) (target : String)
  | reduced (head target : String)
  | rejected (position : Nat) (symbol : String)
deriving DecidableEq, Repr

def Level.name : Level → String
  | warn => "WARN"
  | debug => "DEBUG"
  | trace => "TRACE"

namespace Event

def level : Event → Level
  | duplicateProduction _ => .warn
  | noProduction _ => .warn
  | stateFound .. => .trace
  | automatonComplete _ => .debug
  | setComputed .. => .trace
  | conflictFound _ => .debug
  | tableComplete _ => .debug
  | shifted .. => .trace
  | reduced .. => .trace
  | rejected .. => .debug

def message : Event → String
  | duplicateProduction head => "duplicate production for " ++ quoted head
  | noProduction nonterminal =>
    "the nonterminal " ++ quoted nonterminal ++ " has no associated production"
  | stateFound state source symbol =>
    "new state " ++ state.tag ++ " from " ++ source.tag ++ " under " ++ quoted symbol
  | automatonComplete states => "LR(0) automaton has " ++ toString states ++ " states"
  | setComputed set members => set ++ " = \x7b" ++ ", ".intercalate members ++ "\x7d"
  | conflictFound conflict => "conflict: " ++ conflict
  | tableComplete rows => "transition table has " ++ toString rows ++ " rows"
  | shifted symbol position target =>
    "shift " ++ symbol ++ " at " ++ toString position ++ ", goto " ++ target
  | reduced head target => "reduce to " ++ head ++ ", goto " ++ target
  | rejected position symbol => "syntax error at " ++ toString position ++ " on " ++ symbol

/-- The line that an event takes in a log. -/
def line (e : Event) : String := e.level.name ++ " " ++ e.message

end Event
end ShiftReduce
