import ShiftReduce.Action

namespace ShiftReduce

structure Conflict where
  state : StateId
  symbol : Symbol
  /-- The name of the symbol. -/
  name : String
  /-- The action that the cell holds. -/
  existing : Action
  /-- A different action that it should also hold. -/
  incoming : Action
deriving DecidableEq, Repr

inductive Conflict.Kind where
  | shiftReduce
  | reduceReduce
  | other
deriving DecidableEq, Repr

namespace Conflict

def kind (c : Conflict) : Kind :=
  match c.existing, c.incoming with
  | .shift _, .reduce _ => .shiftReduce
  | .reduce _, .shift _ => .shiftReduce
  | .reduce _, .reduce _ => .reduceReduce
  | _, _ => .other

/-- The place of a conflict and its two actions in a given spelling. -/
def line (c : Conflict) (existing incoming : String) : String :=
  c.state.tag ++ " on " ++ quoted c.name ++ ": " ++ existing ++ " vs " ++ incoming

def message (c : Conflict) : String := c.line c.existing.tag c.incoming.tag

/-- The text that spells productions out. -/
def render (g : Grammar) (c : Conflict) : Except Dangling String :=
  match c.existing.render g with
  | .error d => .error d
  | .ok existing =>
    match c.incoming.render g with
    | .error d => .error d
    | .ok incoming => .ok (c.line existing incoming)

/-- One text for all conflicts of a table. -/
def summary (conflicts : List Conflict) : String :=
  "detected " ++ toString conflicts.length ++ " conflict(s)" ++
    String.join (conflicts.map fun c => "\n- " ++ c.message)

end Conflict
end ShiftReduce
