import ShiftReduce.Proofs.TransitionLookup

namespace ShiftReduce

namespace Transitions

/-- The transitions from `s` under the symbols, in the order of the symbols. -/
def scanRow (m : Transitions) (symbols : List Symbol) (s : StateId) :
    List (StateId × Symbol × StateId) :=
  symbols.filterMap fun X => (m.get? s X).map fun target => (s, X, target)

/-- The transitions from the first `count` states, source by source, and for each source in the
order of the symbols. -/
def scan (m : Transitions) (symbols : List Symbol) (count : Nat) :
    List (StateId × Symbol × StateId) :=
  (List.range count).flatMap fun i => m.scanRow symbols ⟨i⟩

theorem mem_scanRow (m : Transitions) (symbols : List Symbol) (s source target : StateId)
    (X : Symbol) :
    (source, X, target) ∈ m.scanRow symbols s ↔
      source = s ∧ X ∈ symbols ∧ m.get? s X = some target := by
  simp only [scanRow, List.mem_filterMap, Option.map_eq_some_iff, Prod.mk.injEq]
  constructor
  · intro ⟨Y, hY, target', hget, hs, hX, ht⟩
    subst hs hX ht
    exact ⟨rfl, hY, hget⟩
  · intro ⟨hs, hX, hget⟩
    exact ⟨X, hX, target, hget, hs.symm, rfl, rfl⟩

theorem mem_scan (m : Transitions) (symbols : List Symbol) (count : Nat)
    (source target : StateId) (X : Symbol) :
    (source, X, target) ∈ m.scan symbols count ↔
      source.number < count ∧ X ∈ symbols ∧ m.get? source X = some target := by
  simp only [scan, List.mem_flatMap, List.mem_range, mem_scanRow]
  constructor
  · intro ⟨i, hi, hs, hX, hget⟩
    subst hs
    exact ⟨hi, hX, hget⟩
  · intro ⟨hi, hX, hget⟩
    exact ⟨source.number, hi, rfl, hX, hget⟩

theorem scanRow_append (m : Transitions) (symbols more : List Symbol) (s : StateId) :
    m.scanRow (symbols ++ more) s = m.scanRow symbols s ++ m.scanRow more s :=
  List.filterMap_append

theorem scan_succ (m : Transitions) (symbols : List Symbol) (count : Nat) :
    m.scan symbols (count + 1) = m.scan symbols count ++ m.scanRow symbols ⟨count⟩ := by
  rw [scan, List.range_succ, List.flatMap_append, List.flatMap_singleton]
  rfl

theorem scanRow_congr (m n : Transitions) (symbols : List Symbol) (s : StateId)
    (h : ∀ X ∈ symbols, n.get? s X = m.get? s X) : n.scanRow symbols s = m.scanRow symbols s := by
  apply List.filterMap_congr
  intro X hX
  rw [h X hX]

theorem scan_congr (m n : Transitions) (symbols : List Symbol) (count : Nat)
    (h : ∀ s X, s.number < count → n.get? s X = m.get? s X) :
    n.scan symbols count = m.scan symbols count := by
  apply List.flatMap_congr
  intro i hi
  exact scanRow_congr m n symbols ⟨i⟩ fun X _ => h ⟨i⟩ X (List.mem_range.mp hi)

/-- The rows stand in the order of their sources, and none comes after `s`. -/
structure Ascending (m : Transitions) (s : StateId) : Prop where
  rows : m.rows.Pairwise fun row row' => row.1.number < row'.1.number
  upTo : ∀ row ∈ m.rows, row.1.number ≤ s.number

/-- An edge of the last source goes to the end. -/
theorem addEdge_of_ascending (source target : StateId) (X : Symbol)
    (rows : List (StateId × List (Symbol × StateId)))
    (hrows : rows.Pairwise fun row row' => row.1.number < row'.1.number)
    (hupTo : ∀ row ∈ rows, row.1.number ≤ source.number) :
    (∃ front edges, rows = front ++ [(source, edges)] ∧
      addEdge source (X, target) rows = front ++ [(source, edges ++ [(X, target)])]) ∨
    ((∀ row ∈ rows, row.1.number < source.number) ∧
      addEdge source (X, target) rows = rows ++ [(source, [(X, target)])]) := by
  induction rows with
  | nil => exact Or.inr ⟨by simp, rfl⟩
  | cons row rows ih =>
    obtain ⟨s, edges⟩ := row
    rw [List.pairwise_cons] at hrows
    by_cases hs : s = source
    · subst hs
      have hnil : rows = [] := by
        rw [List.eq_nil_iff_forall_not_mem]
        intro row hrow
        have hlt : s.number < row.1.number := hrows.1 row hrow
        have hle := hupTo row (List.mem_cons_of_mem _ hrow)
        omega
      subst hnil
      left
      refine ⟨[], edges, rfl, ?_⟩
      rw [addEdge, if_pos rfl]
      rfl
    · have hlt : s.number < source.number := by
        have hle : s.number ≤ source.number := hupTo (s, edges) List.mem_cons_self
        have hne : s.number ≠ source.number := fun h => hs (congrArg StateId.mk h)
        omega
      rw [addEdge, if_neg hs]
      rcases ih hrows.2 (fun row hrow => hupTo row (List.mem_cons_of_mem _ hrow)) with
        ⟨front, old, hrest, hadd⟩ | ⟨hbefore, hadd⟩
      · left
        refine ⟨(s, edges) :: front, old, ?_, ?_⟩
        · rw [hrest, List.cons_append]
        · rw [hadd, List.cons_append]
      · right
        refine ⟨List.forall_mem_cons.mpr ⟨hlt, hbefore⟩, ?_⟩
        rw [hadd, List.cons_append]

section
variable {m n : Transitions} {source target : StateId} {X : Symbol}
  (hm : m.Ascending source) (h : m.insert source X target = .ok n)
include hm h

theorem edges_insert : n.edges = m.edges ++ [(source, X, target)] := by
  obtain ⟨-, rfl⟩ := insert_eq_ok m n source X target h
  rcases addEdge_of_ascending source target X m.rows hm.rows hm.upTo with
    ⟨front, edges, hrows, hadd⟩ | ⟨-, hadd⟩
  · rw [Transitions.edges, Transitions.edges, hadd, hrows]
    simp
  · rw [Transitions.edges, Transitions.edges, hadd]
    simp

theorem ascending_insert : n.Ascending source := by
  obtain ⟨-, rfl⟩ := insert_eq_ok m n source X target h
  have hrows := hm.rows
  have hupTo := hm.upTo
  rcases addEdge_of_ascending source target X m.rows hm.rows hm.upTo with
    ⟨front, edges, hsplit, hadd⟩ | ⟨hbefore, hadd⟩
  · rw [hsplit] at hrows hupTo
    refine ⟨?_, ?_⟩
    · rw [hadd]
      rw [List.pairwise_append] at hrows ⊢
      exact ⟨hrows.1, List.pairwise_singleton _ _, by simpa using hrows.2.2⟩
    · rw [hadd]
      simpa [or_imp, forall_and] using hupTo
  · refine ⟨?_, ?_⟩
    · rw [hadd, List.pairwise_append]
      exact ⟨hrows, List.pairwise_singleton _ _, by simpa using hbefore⟩
    · rw [hadd]
      intro row hrow
      rcases List.mem_append.mp hrow with hrow | hrow
      · exact hupTo row hrow
      · rw [List.mem_singleton] at hrow
        exact hrow ▸ Nat.le_refl source.number

end

/-- All transitions of the states before `k` are recorded, and those of state `k` under the symbols
in `done`, in that order and no others. -/
structure Listed (m : Transitions) (symbols : List Symbol) (k : Nat) (done : List Symbol) :
    Prop where
  ascending : m.Ascending ⟨k⟩
  edges : m.edges = m.scan symbols k ++ m.scanRow done ⟨k⟩
  unrecorded : ∀ s X, k < s.number ∨ (s.number = k ∧ X ∉ done) → m.get? s X = none

theorem listed_empty (symbols : List Symbol) : empty.Listed symbols 0 [] :=
  ⟨⟨List.Pairwise.nil, by simp [empty]⟩, rfl, fun _ _ _ => rfl⟩

theorem listed_skip {m : Transitions} {symbols done : List Symbol} {k : Nat} {X : Symbol}
    (h : m.Listed symbols k done) (hX : X ∉ done) : m.Listed symbols k (done ++ [X]) := by
  have hnone : m.get? ⟨k⟩ X = none := h.unrecorded ⟨k⟩ X (Or.inr ⟨rfl, hX⟩)
  refine ⟨h.ascending, ?_, ?_⟩
  · have hrow : m.scanRow [X] ⟨k⟩ = [] := by simp [scanRow, hnone]
    rw [scanRow_append, hrow, List.append_nil]
    exact h.edges
  · intro s Y hs
    rcases hs with hs | ⟨hs, hY⟩
    · exact h.unrecorded s Y (Or.inl hs)
    · exact h.unrecorded s Y (Or.inr ⟨hs, fun hmem => hY (List.mem_append_left _ hmem)⟩)

theorem listed_insert {m n : Transitions} {symbols done : List Symbol} {k : Nat} {X : Symbol}
    {target : StateId} (hm : m.Listed symbols k done) (hX : X ∉ done)
    (h : m.insert ⟨k⟩ X target = .ok n) : n.Listed symbols k (done ++ [X]) := by
  have hget (s : StateId) (Y : Symbol) := get?_insert m n ⟨k⟩ s X Y target h
  refine ⟨ascending_insert hm.ascending h, ?_, ?_⟩
  · have hscan : n.scan symbols k = m.scan symbols k := by
      apply scan_congr
      intro s Y hlt
      have hne : s ≠ ⟨k⟩ := fun hs => Nat.lt_irrefl k (by rwa [hs] at hlt)
      rw [hget, if_neg fun hs => hne hs.1]
    have hdone : n.scanRow done ⟨k⟩ = m.scanRow done ⟨k⟩ := by
      apply scanRow_congr
      intro Y hY
      have hne : Y ≠ X := fun hYX => hX (hYX ▸ hY)
      rw [hget, if_neg fun hs => hne hs.2]
    have hrow : n.scanRow [X] ⟨k⟩ = [(⟨k⟩, X, target)] := by
      simp [scanRow, hget]
    rw [edges_insert hm.ascending h, hm.edges, scanRow_append, hscan, hdone, hrow,
      List.append_assoc]
  · intro s Y hs
    have hne : ¬ (s = ⟨k⟩ ∧ Y = X) := by
      intro ⟨hsk, hYX⟩
      subst hsk hYX
      rcases hs with hs | ⟨-, hY⟩
      · exact Nat.lt_irrefl k hs
      · exact hY (List.mem_append_right _ (List.mem_singleton.mpr rfl))
    rw [hget, if_neg hne]
    rcases hs with hs | ⟨hs, hY⟩
    · exact hm.unrecorded s Y (Or.inl hs)
    · exact hm.unrecorded s Y (Or.inr ⟨hs, fun hmem => hY (List.mem_append_left _ hmem)⟩)

theorem listed_succ {m : Transitions} {symbols : List Symbol} {k : Nat}
    (h : m.Listed symbols k symbols) : m.Listed symbols (k + 1) [] := by
  refine ⟨⟨h.ascending.rows, ?_⟩, ?_, ?_⟩
  · intro row hrow
    exact Nat.le_succ_of_le (h.ascending.upTo row hrow)
  · rw [scan_succ]
    simpa [scanRow] using h.edges
  · intro s X hs
    apply h.unrecorded s X
    left
    rcases hs with hs | ⟨hs, -⟩ <;> omega

end Transitions

/-- The edges lead first to state 1, then to state 2 and so on, and to each of them first from a
state before it. -/
structure Discovers (edges : List (StateId × Symbol × StateId)) (count : Nat) : Prop where
  numbered : (StateId.start :: edges.map fun edge => edge.2.2).eraseDups =
    (List.range count).map StateId.mk
  earlier : ∀ j : StateId, 0 < j.number → j.number < count → ∃ before source X after,
    edges = before ++ (source, X, j) :: after ∧ (∀ edge ∈ before, edge.2.2 ≠ j) ∧
      source.number < j.number

namespace Discovers

theorem start : Discovers [] 1 := by
  refine ⟨rfl, ?_⟩
  intro j hpos hlt
  omega

variable {edges : List (StateId × Symbol × StateId)} {count : Nat} {source : StateId} {X : Symbol}

theorem mem_iff (h : Discovers edges count) (j : StateId) :
    j ∈ StateId.start :: edges.map (fun edge => edge.2.2) ↔ j.number < count := by
  rw [← List.mem_eraseDups, h.numbered, List.mem_map]
  constructor
  · intro ⟨i, hi, hj⟩
    rw [← hj]
    exact List.mem_range.mp hi
  · intro hj
    exact ⟨j.number, List.mem_range.mpr hj, rfl⟩

theorem eraseDups_append_singleton {α : Type} [DecidableEq α] (l : List α) (a : α) :
    (l ++ [a]).eraseDups = l.eraseDups ++ if a ∈ l then [] else [a] := by
  rw [List.eraseDups_append]
  by_cases ha : a ∈ l
  · simp [List.removeAll, ha]
  · simp [List.removeAll, ha, List.eraseDups_cons]

theorem earlier_append (h : Discovers edges count) (more : List (StateId × Symbol × StateId))
    (j : StateId) (hpos : 0 < j.number) (hlt : j.number < count) : ∃ before source X after,
      edges ++ more = before ++ (source, X, j) :: after ∧ (∀ edge ∈ before, edge.2.2 ≠ j) ∧
        source.number < j.number := by
  obtain ⟨before, source, X, after, hedges, hbefore, hsource⟩ := h.earlier j hpos hlt
  refine ⟨before, source, X, after ++ more, ?_, hbefore, hsource⟩
  rw [hedges, List.append_assoc, List.cons_append]

/-- An edge to a state that was found before discovers nothing. -/
theorem old (h : Discovers edges count) {target : StateId} (ht : target.number < count) :
    Discovers (edges ++ [(source, X, target)]) count := by
  refine ⟨?_, h.earlier_append _⟩
  rw [List.map_append, List.map_singleton, ← List.cons_append, eraseDups_append_singleton,
    if_pos ((h.mem_iff target).mpr ht), List.append_nil]
  exact h.numbered

/-- An edge from a state that was found before to the next number discovers that number. -/
theorem new (h : Discovers edges count) (hs : source.number < count) :
    Discovers (edges ++ [(source, X, ⟨count⟩)]) (count + 1) := by
  have hfresh : (⟨count⟩ : StateId) ∉ StateId.start :: edges.map (fun edge => edge.2.2) := by
    rw [h.mem_iff]
    exact Nat.lt_irrefl count
  refine ⟨?_, ?_⟩
  · rw [List.map_append, List.map_singleton, ← List.cons_append, eraseDups_append_singleton,
      if_neg hfresh, h.numbered, List.range_succ, List.map_append, List.map_singleton]
  · intro j hpos hlt
    by_cases hj : j.number < count
    · exact h.earlier_append _ j hpos hj
    · have hnew : j = ⟨count⟩ := congrArg StateId.mk (show j.number = count by omega)
      subst hnew
      refine ⟨edges, source, X, [], rfl, ?_, hs⟩
      intro edge hedge he
      exact hfresh (List.mem_cons_of_mem _ (List.mem_map.mpr ⟨edge, hedge, he⟩))

end Discovers

end ShiftReduce
