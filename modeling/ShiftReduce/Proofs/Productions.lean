import ShiftReduce.Item

namespace ShiftReduce.Grammar

theorem production?_augmented (g : Grammar) :
    g.production? .augmented = some g.augmentedProduction := rfl

theorem production?_cases (g : Grammar) {p : ProductionId} {q : Production}
    (h : g.production? p = some q) :
    (p = .augmented ∧ q = g.augmentedProduction) ∨ (p ≠ .augmented ∧ q ∈ g.rules) := by
  rcases p with ⟨_ | i⟩
  · left
    refine ⟨rfl, ?_⟩
    simpa [production?, productions] using h.symm
  · right
    refine ⟨by simp [ProductionId.augmented], ?_⟩
    have hi : g.rules[i]? = some q := by simpa [production?, productions] using h
    exact List.mem_of_getElem? hi

theorem mem_rules_of_ne_augmented (g : Grammar) {p : ProductionId} {q : Production}
    (h : g.production? p = some q) (hp : p ≠ .augmented) : q ∈ g.rules := by
  rcases g.production?_cases h with ⟨rfl, -⟩ | ⟨-, hq⟩
  · exact False.elim (hp rfl)
  · exact hq

theorem mem_productions_iff (g : Grammar) {q : Production} :
    q ∈ g.productions ↔ ∃ p, g.production? p = some q := by
  constructor
  · intro hq
    obtain ⟨i, hi⟩ := List.getElem?_of_mem hq
    exact ⟨⟨i⟩, hi⟩
  · rintro ⟨p, hp⟩
    exact List.mem_of_getElem? hp

theorem mem_alternatives (g : Grammar) {p : ProductionId} {n : Nonterminal} :
    p ∈ g.alternatives n ↔ ∃ q, g.production? p = some q ∧ q.head = n := by
  have hget (q : Production) (i : Nat) :
      (q, i) ∈ g.productions.zipIdx ↔ g.production? ⟨i⟩ = some q := by
    rw [List.mem_zipIdx_iff_getElem?]
    rfl
  simp only [alternatives, numberedProductions, List.mem_map, List.mem_filter, Prod.exists,
    decide_eq_true_eq]
  constructor
  · rintro ⟨p', q, ⟨⟨q', i, hi, he⟩, hn⟩, rfl⟩
    cases he
    exact ⟨q, (hget q i).mp hi, hn⟩
  · rintro ⟨q, hq, hn⟩
    exact ⟨p, q, ⟨⟨q, p.number, (hget q p.number).mpr hq, rfl⟩, hn⟩, rfl⟩

theorem root_ne_start (g : Grammar) : g.root ≠ .start := by
  obtain ⟨q, hq, hroot⟩ := g.root_heads
  exact hroot ▸ (g.rules_allowed q hq).head_ne_start

theorem contains_start (g : Grammar) : g.contains (.nonterminal .start) := by
  rw [← g.valid.mem_symbols]
  exact g.valid.reserved_symbols.subset (by simp [Symbol.start])

theorem contains_endOfInput (g : Grammar) : g.contains .endOfInput := by
  rw [← g.valid.mem_symbols]
  exact g.valid.reserved_symbols.subset (by simp)

theorem contains_head (g : Grammar) {p : ProductionId} {q : Production}
    (h : g.production? p = some q) : g.contains (.nonterminal q.head) := by
  rcases g.production?_cases h with ⟨-, rfl⟩ | ⟨-, hq⟩
  · exact g.contains_start
  · exact (g.rules_allowed q hq).head_declared

theorem contains_of_mem_tail (g : Grammar) {p : ProductionId} {q : Production} {X : Symbol}
    (h : g.production? p = some q) (hX : X ∈ q.tail) : g.contains X := by
  rcases g.production?_cases h with ⟨-, rfl⟩ | ⟨-, hq⟩
  · obtain ⟨r, hr, hroot⟩ := g.root_heads
    simp only [augmentedProduction, List.mem_cons, List.not_mem_nil, or_false] at hX
    rcases hX with rfl | rfl
    · exact hroot ▸ (g.rules_allowed r hr).head_declared
    · exact g.contains_endOfInput
  · exact (g.rules_allowed q hq).tail_declared X hX

theorem tail_ne_nil (g : Grammar) {p : ProductionId} {q : Production}
    (h : g.production? p = some q) : q.tail ≠ [] := by
  rcases g.production?_cases h with ⟨-, rfl⟩ | ⟨-, hq⟩
  · simp [augmentedProduction]
  · exact (g.rules_allowed q hq).tail_ne_nil

theorem start_not_mem_tail (g : Grammar) {p : ProductionId} {q : Production}
    (h : g.production? p = some q) : .start ∉ q.tail := by
  intro hmem
  rcases g.production?_cases h with ⟨-, rfl⟩ | ⟨-, hq⟩
  · have hroot := g.root_ne_start.symm
    simp [augmentedProduction, Symbol.start, Symbol.endOfInput, hroot] at hmem
  · exact (g.rules_allowed q hq).tail_not_reserved _ hmem (by simp [Symbol.isReserved])

theorem endOfInput_not_mem_tail (g : Grammar) {p : ProductionId} {q : Production}
    (h : g.production? p = some q) (hp : p ≠ .augmented) : .endOfInput ∉ q.tail := by
  intro hmem
  have hq := g.mem_rules_of_ne_augmented h hp
  exact (g.rules_allowed q hq).tail_not_reserved _ hmem (by simp [Symbol.isReserved])

theorem head_ne_start (g : Grammar) {p : ProductionId} {q : Production}
    (h : g.production? p = some q) (hp : p ≠ .augmented) : q.head ≠ .start :=
  (g.rules_allowed q (g.mem_rules_of_ne_augmented h hp)).head_ne_start

theorem afterDot?_eq_some_iff (g : Grammar) {item : Item} {X : Symbol} :
    g.afterDot? item = some X ↔
      ∃ q, g.production? item.production = some q ∧ q.tail[item.index]? = some X := by
  unfold afterDot?
  split
  · rename_i q hq
    simp [hq]
  · rename_i hq
    simp [hq]

theorem start_not_afterDot (g : Grammar) (item : Item) :
    g.afterDot? item ≠ some (.nonterminal .start) := by
  intro h
  obtain ⟨q, hq, hX⟩ := g.afterDot?_eq_some_iff.mp h
  exact g.start_not_mem_tail hq (List.mem_of_getElem? hX)

theorem mem_symbols_of_afterDot (g : Grammar) {item : Item} {X : Symbol}
    (h : g.afterDot? item = some X) : X ∈ g.symbols := by
  obtain ⟨q, hq, hX⟩ := g.afterDot?_eq_some_iff.mp h
  exact (g.valid.mem_symbols X).mpr (g.contains_of_mem_tail hq (List.mem_of_getElem? hX))

end ShiftReduce.Grammar
