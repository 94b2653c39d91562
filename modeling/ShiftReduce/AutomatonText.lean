import ShiftReduce.Automaton
import ShiftReduce.Event
import ShiftReduce.ItemText

namespace ShiftReduce
namespace Automaton

def stateText (g : Grammar) (s : StateId) (items : ItemSet) : String :=
  s.heading ++ String.join (items.toList.map fun item => "- " ++ g.itemText item ++ "\n")

/-- All states with their transitions, parted by empty lines. -/
def render (a : Automaton) (g : Grammar) : String :=
  "\n".intercalate (a.states.zipIdx.map fun (items, i) =>
    stateText g ⟨i⟩ items ++
      String.join ((a.transitions.edgesFrom ⟨i⟩).map fun (X, target) =>
        "  " ++ g.nameOf X ++ " => " ++ target.tag ++ "\n"))

/-- The edges that lead to a state not yet seen. -/
def discoveries (seen : List StateId) :
    List (StateId × Symbol × StateId) → List (StateId × Symbol × StateId)
  | [] => []
  | (source, X, target) :: edges =>
    if target ∈ seen then discoveries seen edges
    else (source, X, target) :: discoveries (target :: seen) edges

/-- The events of the construction of `a`. -/
def events (a : Automaton) (g : Grammar) : List Event :=
  ((discoveries [.start] a.transitions.edges).map fun (source, X, target) =>
    .stateFound target source (g.nameOf X)) ++ [.automatonComplete a.states.length]

/-- The pairs of places at which two automata have the same item set. -/
def sharedStates (a b : Automaton) : List (Nat × Nat) :=
  a.states.zipIdx.flatMap fun (items, i) =>
    (b.states.zipIdx.filter fun (others, _) => items = others).map fun (_, j) => (i, j)

/-- The number of different item sets in two automata taken together. -/
def distinctStates (a b : Automaton) : Nat := (a.states ++ b.states).eraseDups.length

end Automaton
end ShiftReduce
