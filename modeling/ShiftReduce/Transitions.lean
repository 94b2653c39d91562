import ShiftReduce.Misuse

namespace ShiftReduce

/-- The recorded transitions, grouped by source. Sources and the edges of a source stand in the
order in which they were first recorded. -/
structure Transitions where
  rows : List (StateId × List (Symbol × StateId))
  /-- The number of transitions. -/
  size : Nat
deriving DecidableEq, Repr

namespace Transitions

def empty : Transitions := ⟨[], 0⟩

/-- The transitions out of `source` in the order of their recording. -/
def edgesFrom (m : Transitions) (source : StateId) : List (Symbol × StateId) :=
  (m.rows.lookup source).getD []

def get? (m : Transitions) (source : StateId) (X : Symbol) : Option StateId :=
  (m.edgesFrom source).lookup X

def contains (m : Transitions) (source : StateId) (X : Symbol) : Bool := (m.get? source X).isSome

/-- Appends an edge to the row of its source, which is a new row for a new source. -/
def addEdge (source : StateId) (edge : Symbol × StateId) :
    List (StateId × List (Symbol × StateId)) → List (StateId × List (Symbol × StateId))
  | [] => [(source, [edge])]
  | (s, edges) :: rows =>
    if s = source then (s, edges ++ [edge]) :: rows else (s, edges) :: addEdge source edge rows

/-- Records a transition. Source and symbol determine the target, so a second one is refused. -/
def insert (m : Transitions) (source : StateId) (X : Symbol) (target : StateId) :
    Except Misuse Transitions :=
  match m.get? source X with
  | some recorded => .error (.transitionRecorded source X recorded)
  | none => .ok ⟨addEdge source (X, target) m.rows, m.size + 1⟩

/-- Opens an empty row for a source that has none. -/
def openRow (source : StateId) :
    List (StateId × List (Symbol × StateId)) → List (StateId × List (Symbol × StateId))
  | [] => [(source, [])]
  | row :: rows => if row.1 = source then row :: rows else row :: openRow source rows

/-- `insert` in place: the row of the source is opened before the symbol is looked up in it, and a
refusal takes nothing back. -/
def enter (m : Transitions) (source : StateId) (X : Symbol) (target : StateId) :
    Except Misuse Unit × Transitions :=
  let rows := openRow source m.rows
  match ((rows.lookup source).getD []).lookup X with
  | some recorded => (.error (.transitionRecorded source X recorded), ⟨rows, m.size⟩)
  | none => (.ok (), ⟨addEdge source (X, target) rows, m.size + 1⟩)

/-- All transitions as source, symbol and target. -/
def edges (m : Transitions) : List (StateId × Symbol × StateId) :=
  m.rows.flatMap fun (source, edges) => edges.map fun (X, target) => (source, X, target)

def isEmpty (m : Transitions) : Bool := m.size = 0

end Transitions
end ShiftReduce
