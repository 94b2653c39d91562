import ShiftReduce.Closure
import ShiftReduce.Proofs.Productions
import Mathlib.Data.Finset.Card
import Mathlib.Data.Finset.Range

/-! The rounds that the saturation is given suffice: each of them but the last adds a production
with its dot in front. -/
namespace ShiftReduce.Grammar

/-- The items that `items` bring with them: themselves, and the expansions of what they bring. -/
inductive Entails (g : Grammar) (items : List Item) : Item → Prop
  | kernel {i : Item} : i ∈ items → Entails g items i
  | expansion {i j : Item} : Entails g items i → j ∈ g.expansion i → Entails g items j

theorem mem_expansion (g : Grammar) {i j : Item} :
    j ∈ g.expansion i ↔ ∃ n, g.afterDot? i = some (.nonterminal n) ∧
      ∃ q, g.production? j.production = some q ∧ q.head = n ∧ j.index = 0 := by
  unfold expansion
  constructor
  · intro hj
    split at hj
    · rename_i n hn
      obtain ⟨p, hp, rfl⟩ := List.mem_map.mp hj
      obtain ⟨q, hq, hhead⟩ := g.mem_alternatives.mp hp
      exact ⟨n, hn, q, hq, hhead, rfl⟩
    · exact False.elim (List.not_mem_nil hj)
  · intro ⟨n, hn, q, hq, hhead, hindex⟩
    rw [hn]
    refine List.mem_map.mpr ⟨j.production, g.mem_alternatives.mpr ⟨q, hq, hhead⟩, ?_⟩
    rw [← hindex]

/-- The numbers of the productions that are not yet in the set with their dot in front. -/
def missing (g : Grammar) (items : ItemSet) : Finset Nat :=
  (Finset.range g.productions.length).filter fun i => ⟨⟨i⟩, 0⟩ ∉ items

theorem mem_missing_of_expansion (g : Grammar) {items : ItemSet} {i j : Item}
    (hj : j ∈ g.expansion i) (hnew : j ∉ items) : j.production.number ∈ g.missing items := by
  obtain ⟨n, -, q, hq, -, hindex⟩ := g.mem_expansion.mp hj
  have hlt : j.production.number < g.productions.length :=
    (List.getElem?_eq_some_iff.mp hq).choose
  have hfront : (⟨⟨j.production.number⟩, 0⟩ : Item) = j := by rw [← hindex]
  exact Finset.mem_filter.mpr ⟨Finset.mem_range.mpr hlt, hfront ▸ hnew⟩

/-- One round of saturation. -/
def enlarge (g : Grammar) (items : ItemSet) : ItemSet :=
  items.insertAll (items.toList.flatMap g.expansion)

theorem saturate_succ (g : Grammar) (rounds : Nat) (items : ItemSet) :
    g.saturate (rounds + 1) items =
      if g.enlarge items = items then items else g.saturate rounds (g.enlarge items) := rfl

theorem mem_enlarge (g : Grammar) {items : ItemSet} {j : Item} :
    j ∈ g.enlarge items ↔ j ∈ items ∨ ∃ i ∈ items, j ∈ g.expansion i := by
  rw [enlarge, OrderedSet.mem_insertAll, List.mem_flatMap]
  exact Iff.rfl

/-- A round that changes the set leaves fewer productions missing. -/
theorem card_missing_enlarge (g : Grammar) {items : ItemSet} (h : g.enlarge items ≠ items) :
    (g.missing (g.enlarge items)).card < (g.missing items).card := by
  have hnew : ∃ j, j ∈ g.enlarge items ∧ j ∉ items := by
    by_contra hnone
    apply h
    apply OrderedSet.ext_mem
    intro j
    refine ⟨fun hj => ?_, fun hj => g.mem_enlarge.mpr (Or.inl hj)⟩
    by_contra hj'
    exact hnone ⟨j, hj, hj'⟩
  obtain ⟨j, hj, hj'⟩ := hnew
  obtain ⟨i, -, hij⟩ := (g.mem_enlarge.mp hj).resolve_left hj'
  have hsubset : g.missing (g.enlarge items) ⊆ g.missing items := by
    intro k hk
    have hk' := Finset.mem_filter.mp hk
    exact Finset.mem_filter.mpr ⟨hk'.1, fun hin => hk'.2 (g.mem_enlarge.mpr (Or.inl hin))⟩
  have hgone : j.production.number ∉ g.missing (g.enlarge items) := by
    intro hk
    obtain ⟨n, -, q, -, -, hindex⟩ := g.mem_expansion.mp hij
    apply (Finset.mem_filter.mp hk).2
    rw [← hindex]
    exact hj
  apply Finset.card_lt_card
  apply (Finset.ssubset_iff_of_subset hsubset).mpr
  exact ⟨j.production.number, g.mem_missing_of_expansion hij hj', hgone⟩

theorem subset_saturate (g : Grammar) (rounds : Nat) {items : ItemSet} {i : Item}
    (hi : i ∈ items) : i ∈ g.saturate rounds items := by
  induction rounds generalizing items with
  | zero => exact hi
  | succ rounds ih =>
    rw [saturate_succ]
    split
    · exact hi
    · exact ih (g.mem_enlarge.mpr (Or.inl hi))

theorem entails_of_mem_saturate (g : Grammar) (rounds : Nat) (kernel : List Item)
    {items : ItemSet} (h : ∀ i ∈ items, g.Entails kernel i) {j : Item}
    (hj : j ∈ g.saturate rounds items) : g.Entails kernel j := by
  induction rounds generalizing items with
  | zero => exact h j hj
  | succ rounds ih =>
    rw [saturate_succ] at hj
    split at hj
    · exact h j hj
    · refine ih ?_ hj
      intro k hk
      rcases g.mem_enlarge.mp hk with hk | ⟨i, hi, hik⟩
      · exact h k hk
      · exact .expansion (h i hi) hik

/-- With as many rounds as productions are missing, the saturation holds its own expansions. -/
theorem saturate_closed (g : Grammar) (rounds : Nat) {items : ItemSet}
    (h : (g.missing items).card ≤ rounds) {i j : Item} (hi : i ∈ g.saturate rounds items)
    (hj : j ∈ g.expansion i) : j ∈ g.saturate rounds items := by
  -- A round that changes the set takes one off the missing productions, and once none is missing
  -- there is nothing left to expand to.
  induction rounds generalizing items with
  | zero =>
    have hnone : g.missing items = ∅ := Finset.card_eq_zero.mp (Nat.le_zero.mp h)
    by_contra hj'
    have hmem : j.production.number ∈ g.missing items := g.mem_missing_of_expansion hj hj'
    rw [hnone] at hmem
    exact Finset.notMem_empty _ hmem
  | succ rounds ih =>
    rw [saturate_succ] at hi ⊢
    split at hi
    · rename_i hsame
      rw [if_pos hsame]
      have hlarger : j ∈ g.enlarge items := g.mem_enlarge.mpr (Or.inr ⟨i, hi, hj⟩)
      exact hsame ▸ hlarger
    · rename_i hchange
      rw [if_neg hchange]
      have hless := g.card_missing_enlarge hchange
      exact ih (by omega) hi

/-- The closure holds exactly what its items entail. -/
theorem mem_expand (g : Grammar) {items : List Item} {j : Item} :
    j ∈ g.expand items ↔ g.Entails items j := by
  have hcard : (g.missing (.ofList items)).card ≤ g.productions.length := by
    have hle := Finset.card_filter_le (Finset.range g.productions.length)
      fun i => (⟨⟨i⟩, 0⟩ : Item) ∉ OrderedSet.ofList items
    rwa [Finset.card_range] at hle
  constructor
  · intro hj
    refine g.entails_of_mem_saturate _ items ?_ hj
    intro i hi
    exact .kernel (OrderedSet.mem_ofList.mp hi)
  · intro hj
    induction hj with
    | kernel hi => exact g.subset_saturate _ (OrderedSet.mem_ofList.mpr hi)
    | expansion _ hij ih => exact g.saturate_closed _ hcard ih hij

theorem mem_expand_of_mem (g : Grammar) {items : List Item} {i : Item} (hi : i ∈ items) :
    i ∈ g.expand items := g.mem_expand.mpr (.kernel hi)

theorem front_mem_expand (g : Grammar) {items : List Item} {i : Item} {n : Nonterminal}
    {p : ProductionId} {q : Production} (hi : i ∈ g.expand items)
    (hn : g.afterDot? i = some (.nonterminal n)) (hq : g.production? p = some q)
    (hhead : q.head = n) : ⟨p, 0⟩ ∈ g.expand items := by
  refine g.mem_expand.mpr (.expansion (g.mem_expand.mp hi) ?_)
  exact g.mem_expansion.mpr ⟨n, hn, q, hq, hhead, rfl⟩

/-- What is in a closure without being in its kernel is the front of a production that an item of
the closure calls for. -/
theorem mem_expand_cases (g : Grammar) {items : List Item} {j : Item} (hj : j ∈ g.expand items) :
    j ∈ items ∨ (j.index = 0 ∧ ∃ i ∈ g.expand items, ∃ q, g.production? j.production = some q ∧
      g.afterDot? i = some (.nonterminal q.head)) := by
  cases g.mem_expand.mp hj with
  | kernel hi => exact Or.inl hi
  | expansion hi hij =>
    rename_i i
    obtain ⟨n, hn, q, hq, hhead, hindex⟩ := g.mem_expansion.mp hij
    subst hhead
    exact Or.inr ⟨hindex, i, g.mem_expand.mpr hi, q, hq, hn⟩

/-- The productions of all items belong to the grammar. -/
def Knows (g : Grammar) (items : List Item) : Prop :=
  ∀ i ∈ items, ∃ q, g.production? i.production = some q

theorem firstDangling?_eq_none (g : Grammar) {items : List Item} (h : g.Knows items) :
    g.firstDangling? items = none := by
  unfold firstDangling?
  rw [Option.map_eq_none_iff, List.find?_eq_none]
  intro i hi
  obtain ⟨q, hq⟩ := h i hi
  simp [hq]

theorem closure_eq_ok (g : Grammar) {items : List Item} (h : g.Knows items) :
    g.closure items = .ok (g.expand items) := by
  simp only [closure, g.firstDangling?_eq_none h]

/-- The item set that `X` leads to from a set of known items. -/
def successor (g : Grammar) (items : ItemSet) (X : Symbol) : ItemSet :=
  g.expand (g.kernel items.toList X)

theorem goto_eq_ok (g : Grammar) {items : ItemSet} (h : g.Knows items.toList) (X : Symbol) :
    g.goto items.toList X = .ok (g.successor items X) := by
  simp only [goto, g.firstDangling?_eq_none h, successor]

theorem mem_kernel (g : Grammar) {items : List Item} {X : Symbol} {j : Item} :
    j ∈ g.kernel items X ↔ ∃ i ∈ items, g.afterDot? i = some X ∧ j = i.next := by
  simp only [kernel, List.mem_map, List.mem_filter, decide_eq_true_eq]
  constructor
  · intro ⟨i, hi, hj⟩
    exact ⟨i, hi.1, hi.2, hj.symm⟩
  · intro ⟨i, hi, hX, hj⟩
    exact ⟨i, ⟨hi, hX⟩, hj.symm⟩

/-- The item is a production of the grammar with a dot in its tail or at its end. -/
def HasItem (g : Grammar) (i : Item) : Prop :=
  ∃ q, g.production? i.production = some q ∧ i.index ≤ q.tail.length

theorem knows_of_hasItem (g : Grammar) {items : List Item} (h : ∀ i ∈ items, g.HasItem i) :
    g.Knows items := by
  intro i hi
  obtain ⟨q, hq, -⟩ := h i hi
  exact ⟨q, hq⟩

theorem hasItem_expand (g : Grammar) {items : List Item} (h : ∀ i ∈ items, g.HasItem i) {j : Item}
    (hj : j ∈ g.expand items) : g.HasItem j := by
  rcases g.mem_expand_cases hj with hj | ⟨hindex, i, -, q, hq, -⟩
  · exact h j hj
  · exact ⟨q, hq, by omega⟩

theorem hasItem_kernel (g : Grammar) {items : List Item} {X : Symbol} {j : Item}
    (hj : j ∈ g.kernel items X) : g.HasItem j := by
  obtain ⟨i, -, hX, rfl⟩ := g.mem_kernel.mp hj
  obtain ⟨q, hq, hget⟩ := g.afterDot?_eq_some_iff.mp hX
  exact ⟨q, hq, (List.getElem?_eq_some_iff.mp hget).choose⟩

theorem hasItem_successor (g : Grammar) (items : ItemSet) (X : Symbol) {j : Item}
    (hj : j ∈ g.successor items X) : g.HasItem j :=
  g.hasItem_expand (fun _ hk => g.hasItem_kernel hk) hj

/-- An item whose dot is before `X` goes on into the set that `X` leads to. -/
theorem next_mem_successor (g : Grammar) {items : ItemSet} {X : Symbol} {i : Item}
    (hi : i ∈ items) (hX : g.afterDot? i = some X) : i.next ∈ g.successor items X :=
  g.mem_expand_of_mem (g.mem_kernel.mpr ⟨i, hi, hX, rfl⟩)

/-- An item whose dot is not in front has come over the symbol before its dot. -/
theorem of_mem_successor (g : Grammar) {items : ItemSet} {X : Symbol} {p : ProductionId} {k : Nat}
    (h : ⟨p, k + 1⟩ ∈ g.successor items X) :
    ⟨p, k⟩ ∈ items ∧ g.afterDot? ⟨p, k⟩ = some X := by
  rcases g.mem_expand_cases h with hk | ⟨hindex, -⟩
  · obtain ⟨⟨p', k'⟩, hi, hX, hnext⟩ := g.mem_kernel.mp hk
    simp only [Item.next, Item.mk.injEq, Nat.add_right_cancel_iff] at hnext
    obtain ⟨rfl, rfl⟩ := hnext
    exact ⟨hi, hX⟩
  · exact False.elim (Nat.succ_ne_zero k hindex)

theorem isEmpty_successor_iff (g : Grammar) {items : ItemSet} {X : Symbol} :
    (g.successor items X).isEmpty = false ↔ ∃ i ∈ items, g.afterDot? i = some X := by
  rw [OrderedSet.isEmpty_eq_false_iff]
  constructor
  · intro ⟨j, hj⟩
    have hentails := g.mem_expand.mp hj
    induction hentails with
    | kernel hk =>
      obtain ⟨i, hi, hX, -⟩ := g.mem_kernel.mp hk
      exact ⟨i, hi, hX⟩
    | expansion hi _ ih => exact ih (g.mem_expand.mpr hi)
  · intro ⟨i, hi, hX⟩
    exact ⟨i.next, g.next_mem_successor hi hX⟩

end ShiftReduce.Grammar
