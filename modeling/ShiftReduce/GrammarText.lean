import ShiftReduce.Grammar

namespace ShiftReduce
namespace Grammar

/-- A production as `head -> tail`, with the names that this grammar has for its symbols. -/
def productionText (g : Grammar) (p : Production) : String :=
  g.nameOf (.nonterminal p.head) ++ " ->" ++
    String.join (p.tail.map fun X => " " ++ g.nameOf X)

/-- The text of a production of any grammar. A head must have a name here; a tail symbol without one
is shown as unknown. -/
def renderProduction (g : Grammar) (p : Production) : Except Dangling String :=
  if g.contains (.nonterminal p.head) then .ok (g.productionText p)
  else .error (.nonterminal p.head)

/-- The text of one of the grammar's own productions, by number. -/
def renderProductionId (g : Grammar) (p : ProductionId) : Except Dangling String :=
  match g.production p with
  | .error d => .error d
  | .ok production => g.renderProduction production

/-- The grammar in three sections, with the root marked. -/
def render (g : Grammar) : String :=
  "## terminals:\n" ++ String.join (g.terminals.map fun name => name ++ "\n") ++
  "\n## nonterminals:\n" ++
    String.join (g.nonterminals.zipIdx.map fun (name, i) =>
      name ++ (if i = g.root.number then " (root)" else "") ++ "\n") ++
  "\n## productions:\n" ++ String.join (g.productions.map fun p => g.productionText p ++ "\n")

end Grammar
end ShiftReduce
