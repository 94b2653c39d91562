/-! Finite sets as ascending lists, so that sets with the same members are equal. -/
namespace ShiftReduce

/-- A strict linear order, with just the three laws that a sorted list needs. -/
class LinearLT (α : Type) [LT α] : Prop where
  irrefl : ∀ a : α, ¬ a < a
  trans : ∀ {a b c : α}, a < b → b < c → a < c
  eq_of_not_lt : ∀ {a b : α}, ¬ a < b → ¬ b < a → a = b

/-- A finite set, held as the strictly ascending list of its members. -/
structure OrderedSet (α : Type) [LT α] where
  toList : List α
  ascending : toList.Pairwise (· < ·)
deriving DecidableEq, Repr

namespace OrderedSet

variable {α : Type} [LT α]

theorem eq_of_toList_eq {s t : OrderedSet α} (h : s.toList = t.toList) : s = t := by
  cases s; cases t; simpa using h

instance : Membership α (OrderedSet α) := ⟨fun s a => a ∈ s.toList⟩

theorem mem_def {a : α} {s : OrderedSet α} : a ∈ s ↔ a ∈ s.toList := Iff.rfl

instance [DecidableEq α] (a : α) (s : OrderedSet α) : Decidable (a ∈ s) :=
  inferInstanceAs (Decidable (a ∈ s.toList))

instance : EmptyCollection (OrderedSet α) := ⟨⟨[], .nil⟩⟩

@[simp] theorem toList_empty : (∅ : OrderedSet α).toList = [] := rfl

@[simp] theorem mem_empty {a : α} : ¬ a ∈ (∅ : OrderedSet α) := by
  simp [mem_def]

def isEmpty (s : OrderedSet α) : Bool := s.toList.isEmpty

theorem isEmpty_eq_false_iff {s : OrderedSet α} : s.isEmpty = false ↔ ∃ a, a ∈ s := by
  rw [isEmpty, List.isEmpty_eq_false_iff_exists_mem]
  exact Iff.rfl

def size (s : OrderedSet α) : Nat := s.toList.length

variable [DecidableLT α]

/-- Puts `a` at its place in an ascending list, and changes nothing when it is there already. -/
def place (a : α) : List α → List α
  | [] => [a]
  | b :: bs => if a < b then a :: b :: bs else if b < a then b :: place a bs else b :: bs

variable [LinearLT α]

@[simp] theorem mem_place {a b : α} {l : List α} : b ∈ place a l ↔ b = a ∨ b ∈ l := by
  induction l with
  | nil => simp [place]
  | cons c l ih =>
    unfold place
    split
    · simp
    · split
      · simp only [List.mem_cons, ih]
        constructor
        · rintro (h | h | h) <;> simp [h]
        · rintro (h | h | h) <;> simp [h]
      · rename_i h₁ h₂
        have := LinearLT.eq_of_not_lt h₁ h₂
        subst this
        simp

theorem place_ascending (a : α) {l : List α} (h : l.Pairwise (· < ·)) :
    (place a l).Pairwise (· < ·) := by
  induction l with
  | nil => simp [place]
  | cons c l ih =>
    rw [List.pairwise_cons] at h
    unfold place
    split
    · rename_i hac
      refine List.pairwise_cons.mpr ⟨?_, List.pairwise_cons.mpr h⟩
      intro b hb
      rcases List.mem_cons.mp hb with rfl | hb
      · exact hac
      · exact LinearLT.trans hac (h.1 b hb)
    · split
      · rename_i hca
        refine List.pairwise_cons.mpr ⟨?_, ih h.2⟩
        intro b hb
        rcases mem_place.mp hb with rfl | hb
        · exact hca
        · exact h.1 b hb
      · exact List.pairwise_cons.mpr h

def insert (s : OrderedSet α) (a : α) : OrderedSet α :=
  ⟨place a s.toList, place_ascending a s.ascending⟩

def insertAll (s : OrderedSet α) (l : List α) : OrderedSet α := l.foldl insert s

def ofList (l : List α) : OrderedSet α := insertAll ∅ l

def singleton (a : α) : OrderedSet α := insert ∅ a

def union (s t : OrderedSet α) : OrderedSet α := s.insertAll t.toList

@[simp] theorem mem_insert {a b : α} {s : OrderedSet α} : b ∈ s.insert a ↔ b = a ∨ b ∈ s := by
  simp [mem_def, insert]

@[simp] theorem mem_insertAll {b : α} {s : OrderedSet α} {l : List α} :
    b ∈ s.insertAll l ↔ b ∈ s ∨ b ∈ l := by
  induction l generalizing s with
  | nil => simp [insertAll]
  | cons a l ih =>
    have hi : s.insertAll (a :: l) = (s.insert a).insertAll l := rfl
    rw [hi, ih, mem_insert, List.mem_cons]
    constructor
    · rintro ((h | h) | h) <;> simp [h]
    · rintro (h | h | h) <;> simp [h]

@[simp] theorem mem_ofList {b : α} {l : List α} : b ∈ ofList l ↔ b ∈ l := by
  simp [ofList]

@[simp] theorem mem_singleton {a b : α} : b ∈ singleton a ↔ b = a := by
  simp [singleton]

@[simp] theorem mem_union {a : α} {s t : OrderedSet α} : a ∈ s.union t ↔ a ∈ s ∨ a ∈ t := by
  simp [union, mem_def (s := t)]

omit [DecidableLT α] in
/-- An ascending list is determined by its members. -/
theorem eq_of_ascending {l m : List α} (hl : l.Pairwise (· < ·)) (hm : m.Pairwise (· < ·))
    (h : ∀ a, a ∈ l ↔ a ∈ m) : l = m := by
  induction l generalizing m with
  | nil =>
    cases m with
    | nil => rfl
    | cons b m => exact absurd ((h b).mpr (by simp)) (by simp)
  | cons a l ih =>
    cases m with
    | nil => exact absurd ((h a).mp (by simp)) (by simp)
    | cons b m =>
      rw [List.pairwise_cons] at hl hm
      have hab : a = b := by
        rcases List.mem_cons.mp ((h a).mp (by simp)) with hab | ham
        · exact hab
        rcases List.mem_cons.mp ((h b).mpr (by simp)) with hba | hbl
        · exact hba.symm
        exact absurd (LinearLT.trans (hl.1 b hbl) (hm.1 a ham)) (LinearLT.irrefl a)
      subst hab
      congr 1
      refine ih hl.2 hm.2 fun c => ?_
      constructor
      · intro hc
        rcases List.mem_cons.mp ((h c).mp (List.mem_cons_of_mem _ hc)) with rfl | hcm
        · exact absurd (hl.1 c hc) (LinearLT.irrefl c)
        · exact hcm
      · intro hc
        rcases List.mem_cons.mp ((h c).mpr (List.mem_cons_of_mem _ hc)) with rfl | hcl
        · exact absurd (hm.1 c hc) (LinearLT.irrefl c)
        · exact hcl

omit [DecidableLT α] in
theorem ext_mem {s t : OrderedSet α} (h : ∀ a, a ∈ s ↔ a ∈ t) : s = t :=
  eq_of_toList_eq (eq_of_ascending s.ascending t.ascending h)

end OrderedSet
end ShiftReduce
