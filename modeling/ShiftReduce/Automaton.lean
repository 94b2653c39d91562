import ShiftReduce.BuildError
import ShiftReduce.Closure
import ShiftReduce.Worklist
import ShiftReduce.Transitions

namespace ShiftReduce

/-- States are item sets, and two states of an automaton differ in their items. -/
structure Automaton where
  /-- The place of a state is its number. -/
  states : List ItemSet
  transitions : Transitions
deriving DecidableEq, Repr

/-- The automaton while states are still being found. -/
structure Exploration where
  found : List ItemSet
  transitions : Transitions
  /-- The states whose transitions are still to be looked for. -/
  pending : Worklist StateId

namespace Exploration

/-- The place of an item set, and whether that place is a new one at the end. -/
def place (found : List ItemSet) (items : ItemSet) : Nat × Bool :=
  match found.idxOf? items with
  | some i => (i, false)
  | none => (found.length, true)

/-- Records that `X` leads from `source` to `items`. -/
def record (e : Exploration) (source : StateId) (X : Symbol) (items : ItemSet) :
    Except BuildError Exploration :=
  let (index, new) := place e.found items
  if index < StateId.capacity then
    match e.transitions.insert source X ⟨index⟩ with
    | .error c => .error (.misuse c)
    | .ok transitions =>
      if new then .ok ⟨e.found ++ [items], transitions, (e.pending.push ⟨index⟩).2⟩
      else .ok { e with transitions }
  else .error (.misuse (.tooManyStates index))

/-- Looks for the transition from `source` under `X`. -/
def step (g : Grammar) (source : StateId) (e : Exploration) (X : Symbol) :
    Except BuildError Exploration :=
  match e.found[source.number]? with
  | none => .error (.dangling (.state source))
  | some items =>
    match g.goto items.toList X with
    | .error d => .error (.dangling d)
    | .ok target => if target.isEmpty then .ok e else e.record source X target

/-- Looks for the transitions from `source` under all of `symbols`. -/
def steps (g : Grammar) (source : StateId) :
    List Symbol → Exploration → Except BuildError Exploration
  | [], e => .ok e
  | X :: symbols, e =>
    match e.step g source X with
    | .error x => .error x
    | .ok e => e.steps g source symbols

/-- Takes one pending state after the other. A state becomes pending once, when it is found, so the
number of state numbers bounds the work. -/
def run (g : Grammar) : Nat → Exploration → Except BuildError Exploration
  | 0, e => .error (.misuse (.tooManyStates e.found.length))
  | budget + 1, e =>
    match e.pending.pop with
    | none => .ok e
    | some (source, pending) =>
      match steps g source g.symbols { e with pending } with
      | .error x => .error x
      | .ok e => e.run g budget

end Exploration

/-- The automaton of a grammar, explored from the closure of its augmented item. -/
def Grammar.automaton (g : Grammar) : Except BuildError Automaton :=
  match g.closure [startItem] with
  | .error d => .error (.dangling d)
  | .ok start =>
    match Exploration.run g (StateId.capacity + 1)
        ⟨[start], .empty, (Worklist.empty.push StateId.start).2⟩ with
    | .error x => .error x
    | .ok e => .ok ⟨e.found, e.transitions⟩

def Automaton.state? (a : Automaton) (s : StateId) : Option ItemSet := a.states[s.number]?

end ShiftReduce
