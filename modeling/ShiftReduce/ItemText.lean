import ShiftReduce.Misuse
import ShiftReduce.Item

namespace ShiftReduce
namespace Grammar

/-- A production with a dot. A dot past the end is not shown, and of an unknown production only the
numbers are. -/
def itemText (g : Grammar) (item : Item) : String :=
  match g.production? item.production with
  | none => item.production.tag ++ " . " ++ toString item.index
  | some p =>
    g.nameOf (.nonterminal p.head) ++ " ->" ++
      String.join (p.tail.zipIdx.map fun (X, i) =>
        (if i = item.index then " ." else "") ++ " " ++ g.nameOf X) ++
      if item.index = p.tail.length then " ." else ""

/-- The symbol after the dot, or why there is none. -/
def afterDot (g : Grammar) (item : Item) : Except Misuse Symbol :=
  match g.production? item.production with
  | none => .error (.unknownProduction item.production)
  | some p =>
    match p.tail[item.index]? with
    | some X => .ok X
    | none => .error (.nothingAfterDot (g.itemText item))

/-- The item with its dot moved over a symbol, if there is one to move over. -/
def advance (g : Grammar) (item : Item) : Except Misuse Item :=
  match g.production? item.production with
  | none => .error (.unknownProduction item.production)
  | some p =>
    if item.index < p.tail.length then .ok item.next
    else .error (.dotAtEnd (g.itemText item))

end Grammar
end ShiftReduce
