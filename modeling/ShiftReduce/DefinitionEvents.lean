import ShiftReduce.Definition
import ShiftReduce.Event

namespace ShiftReduce
namespace Definition

/-- The warnings of a declaration that is about to be made. -/
def events (d : Definition) : Declaration → List Event
  | .rule head tail =>
    match d.names.checkRule head tail with
    | .ok p =>
      if p ∈ d.rules then [.duplicateProduction (d.nameOf (.nonterminal p.head))] else []
    | .error _ => []
  | _ => []

/-- The warnings of the step from a definition to its grammar. -/
def finishEvents (d : Definition) : List Event :=
  match d.finish with
  | .error _ => []
  | .ok _ =>
    (d.nonterminals.zipIdx.filter fun (_, i) =>
      i ≠ Nonterminal.start.number && d.rules.all fun p => p.head ≠ ⟨i⟩).map fun (name, _) =>
        .noProduction name

end Definition
end ShiftReduce
