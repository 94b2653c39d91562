import ShiftReduce.OrderedSet
import ShiftReduce.Grammar

namespace ShiftReduce

/-- A production with a dot before the tail symbol at `index`. -/
structure Item where
  production : ProductionId
  index : Nat
deriving DecidableEq, Repr

/-- Items go by production, then by the place of the dot. -/
instance : LT Item :=
  ⟨fun a b => a.production.number < b.production.number ∨
    (a.production.number = b.production.number ∧ a.index < b.index)⟩

instance : DecidableLT Item := fun a b =>
  inferInstanceAs (Decidable (a.production.number < b.production.number ∨
    (a.production.number = b.production.number ∧ a.index < b.index)))

theorem Item.lt_iff {a b : Item} : a < b ↔ a.production.number < b.production.number ∨
    (a.production.number = b.production.number ∧ a.index < b.index) := Iff.rfl

instance : LinearLT Item where
  irrefl a := by rw [Item.lt_iff]; omega
  trans := by intro a b c; simp only [Item.lt_iff]; omega
  eq_of_not_lt := by
    rintro ⟨⟨p⟩, i⟩ ⟨⟨q⟩, j⟩
    simp only [Item.lt_iff, Item.mk.injEq, ProductionId.mk.injEq]
    omega

abbrev ItemSet : Type := OrderedSet Item

namespace Item

def le (a b : Item) : Bool := ¬ b < a

def tag (item : Item) : String :=
  "Item \x7b production: " ++ item.production.tag ++ ", index: " ++ toString item.index ++ " \x7d"

/-- The same production with the dot one symbol further. -/
def next (item : Item) : Item := ⟨item.production, item.index + 1⟩

end Item

namespace Grammar

/-- `$start -> . root $`, where every parse begins. -/
def startItem : Item := ⟨.augmented, 0⟩

/-- `$start -> root . $`, where every parse ends. -/
def finalItem : Item := ⟨.augmented, 1⟩

/-- The symbol after the dot, if the grammar knows the production and the dot is not at its end. -/
def afterDot? (g : Grammar) (item : Item) : Option Symbol :=
  match g.production? item.production with
  | some p => p.tail[item.index]?
  | none => none

def isFinal (g : Grammar) (item : Item) : Bool :=
  item.production = .augmented && item.index + 1 = g.augmentedProduction.tail.length

/-- All items of a production, from the dot in front to the dot at the end. -/
def itemsOf (g : Grammar) (p : ProductionId) : List Item :=
  match g.production? p with
  | some production => (List.range (production.tail.length + 1)).map fun i => ⟨p, i⟩
  | none => []

end Grammar
end ShiftReduce
