import ShiftReduce.Item

namespace ShiftReduce
namespace Grammar

/-- With the dot before a nonterminal, all its productions with the dot in front; none for a dot at
or past the end. -/
def expansion (g : Grammar) (item : Item) : List Item :=
  match g.afterDot? item with
  | some (.nonterminal n) => (g.alternatives n).map fun p => ⟨p, 0⟩
  | _ => []

/-- Adds expansions, at most `rounds` times, until nothing new comes. -/
def saturate (g : Grammar) : Nat → ItemSet → ItemSet
  | 0, items => items
  | rounds + 1, items =>
    let larger := items.insertAll (items.toList.flatMap g.expansion)
    if larger = items then items else g.saturate rounds larger

/-- The closure of known items. Each round that adds something adds a production with its dot in
front, so there are enough rounds. -/
def expand (g : Grammar) (items : List Item) : ItemSet :=
  g.saturate g.productions.length (.ofList items)

/-- The first item whose production the grammar does not know. -/
def firstDangling? (g : Grammar) (items : List Item) : Option Dangling :=
  (items.find? fun item => (g.production? item.production).isNone).map fun item =>
    .production item.production

/-- The items and all that their dots can stand before. -/
def closure (g : Grammar) (items : List Item) : Except Dangling ItemSet :=
  match g.firstDangling? items with
  | some d => .error d
  | none => .ok (g.expand items)

/-- The items with `X` after the dot, with their dots moved over it. -/
def kernel (g : Grammar) (items : List Item) (X : Symbol) : List Item :=
  (items.filter fun item => g.afterDot? item = some X).map Item.next

/-- The item set that `X` leads to; empty when no dot stands before `X`. -/
def goto (g : Grammar) (items : List Item) (X : Symbol) : Except Dangling ItemSet :=
  match g.firstDangling? items with
  | some d => .error d
  | none => .ok (g.expand (g.kernel items X))

end Grammar
end ShiftReduce
