import ShiftReduce.Proofs.CellCandidates

namespace ShiftReduce

/-- The symbols lead from the start state through the states; both have their tops in front. -/
inductive Automaton.Path (a : Automaton) : List StateId → List Symbol → Prop
  | start : Path a [.start] []
  | step {s target : StateId} {below : List StateId} {X : Symbol} {symbols : List Symbol} :
      Path a (s :: below) symbols → a.transitions.get? s X = some target →
      Path a (target :: s :: below) (X :: symbols)

namespace Automaton.Path

variable {g : Grammar} {a : Automaton} {s : StateId} {states below : List StateId}
  {symbols : List Symbol} {items : ItemSet}

theorem exists_top (h : a.Path states symbols) : ∃ s below, states = s :: below := by
  cases h with
  | start => exact ⟨_, _, rfl⟩
  | step => exact ⟨_, _, rfl⟩

theorem states_eq {states' : List StateId} (h : a.Path states symbols)
    (h' : a.Path states' symbols) : states = states' := by
  induction h generalizing states' with
  | start =>
    cases h'
    rfl
  | step _ hget ih =>
    cases h' with
    | step hpath' hget' =>
      cases ih hpath'
      rw [hget] at hget'
      cases hget'
      rfl

theorem exists_kernel (ha : a.Canonical g) (h : a.Path (s :: below) symbols) :
    ∃ kernel, a.state? s = some (g.expand kernel) := by
  cases h with
  | start => exact ⟨_, ha.start⟩
  | step _ hget =>
    obtain ⟨_, _, _, htarget⟩ := ha.edge _ _ _ hget
    exact ⟨_, htarget⟩

theorem exists_item (ha : a.Canonical g) (h : a.Path (s :: below) symbols)
    (hs : a.state? s = some items) : ∃ item, item ∈ items := by
  cases h with
  | start =>
    rw [ha.start] at hs
    cases hs
    exact ⟨_, g.mem_expand_of_mem (List.mem_singleton.mpr rfl)⟩
  | step _ hget =>
    obtain ⟨_, _, hfull, htarget⟩ := ha.edge _ _ _ hget
    rw [htarget] at hs
    cases hs
    exact OrderedSet.isEmpty_eq_false_iff.mp hfull

/-- Under an item with its dot at `k` lie the first `k` symbols of its tail, and under these is a
state with the dot in front. -/
theorem uncover (ha : a.Canonical g) {p : ProductionId} {q : Production} {k : Nat}
    (h : a.Path (s :: below) symbols) (hs : a.state? s = some items) (hitem : ⟨p, k⟩ ∈ items)
    (hq : g.production? p = some q) :
    ∃ rest uncovered deeper front, symbols = (q.tail.take k).reverse ++ rest ∧
      (s :: below).drop k = uncovered :: deeper ∧ a.Path (uncovered :: deeper) rest ∧
      a.state? uncovered = some front ∧ ⟨p, 0⟩ ∈ front := by
  induction k generalizing s below symbols items with
  | zero => exact ⟨symbols, s, below, items, rfl, rfl, h, hs, hitem⟩
  | succ k ih =>
    cases h with
    | start =>
      rw [ha.start] at hs
      cases hs
      rcases g.mem_expand_cases hitem with hk | ⟨hindex, -⟩
      · rw [List.mem_singleton] at hk
        cases hk
      · exact False.elim (Nat.succ_ne_zero k hindex)
    | @step before _ _ X rest hpath hget =>
      obtain ⟨items', hs', -, htarget⟩ := ha.edge before X s hget
      rw [htarget] at hs
      cases hs
      obtain ⟨hitem', hX⟩ := g.of_mem_successor hitem
      obtain ⟨rest', uncovered, deeper, front, rfl, hdrop, hrest⟩ := ih hpath hs' hitem'
      obtain ⟨q', hq', hget'⟩ := g.afterDot?_eq_some_iff.mp hX
      rw [hq] at hq'
      cases hq'
      refine ⟨rest', uncovered, deeper, front, ?_, hdrop, hrest⟩
      rw [List.take_add_one, hget', Option.toList_some, List.reverse_append, List.reverse_singleton,
        List.singleton_append, List.cons_append]

/-- An item with its dot in front is the start item below all symbols, or some item of its state has
its dot before the head. -/
theorem front_cases (ha : a.Canonical g) {p : ProductionId} (h : a.Path (s :: below) symbols)
    (hs : a.state? s = some items) (hitem : ⟨p, 0⟩ ∈ items) :
    (p = .augmented ∧ symbols = []) ∨ ∃ i ∈ items, ∃ q, g.production? p = some q ∧
      g.afterDot? i = some (.nonterminal q.head) := by
  cases h with
  | start =>
    rw [ha.start] at hs
    cases hs
    rcases g.mem_expand_cases hitem with hk | ⟨-, hi⟩
    · rw [List.mem_singleton] at hk
      cases hk
      exact Or.inl ⟨rfl, rfl⟩
    · exact Or.inr hi
  | @step before _ _ X rest hpath hget =>
    obtain ⟨items', hs', -, htarget⟩ := ha.edge before X s hget
    rw [htarget] at hs
    cases hs
    rcases g.mem_expand_cases hitem with hk | ⟨-, hi⟩
    · obtain ⟨i, -, -, hnext⟩ := g.mem_kernel.mp hk
      exact False.elim (Nat.succ_ne_zero i.index (congrArg Item.index hnext).symm)
    · exact Or.inr hi

/-- Under a complete production lies its tail, and from the state under that there is an edge for
its head. -/
theorem of_reducible (ha : a.Canonical g) {p : ProductionId} {q : Production}
    (h : a.Path (s :: below) symbols) (hs : a.state? s = some items) (hp : p ≠ .augmented)
    (hq : g.production? p = some q) (hitem : ⟨p, q.tail.length⟩ ∈ items) :
    ∃ rest uncovered deeper target, symbols = q.tail.reverse ++ rest ∧
      (s :: below).drop q.tail.length = uncovered :: deeper ∧
      a.Path (uncovered :: deeper) rest ∧
      a.transitions.get? uncovered (.nonterminal q.head) = some target := by
  obtain ⟨rest, uncovered, deeper, front, hsymbols, hdrop, hpath, hfront, hitem'⟩ :=
    h.uncover ha hs hitem hq
  rw [List.take_length] at hsymbols
  rcases hpath.front_cases ha hfront hitem' with ⟨haugmented, -⟩ | ⟨i, hi, q', hq', hX⟩
  · exact False.elim (hp haugmented)
  · rw [hq] at hq'
    cases hq'
    obtain ⟨target, next, htarget, -, -⟩ := ha.follow_item hfront hi hX
    exact ⟨rest, uncovered, deeper, target, hsymbols, hdrop, hpath, htarget⟩

theorem of_finalItem (ha : a.Canonical g) (h : a.Path (s :: below) symbols)
    (hs : a.state? s = some items) (hitem : Grammar.finalItem ∈ items) :
    symbols = [.nonterminal g.root] := by
  obtain ⟨rest, uncovered, deeper, front, hsymbols, -, hpath, hfront, hitem'⟩ :=
    h.uncover ha hs hitem g.production?_augmented
  rcases hpath.front_cases ha hfront hitem' with ⟨-, hrest⟩ | ⟨i, -, q, hq, hX⟩
  · rw [hsymbols, hrest]
    rfl
  · rw [g.production?_augmented] at hq
    cases hq
    exact False.elim (g.start_not_afterDot i hX)

end Automaton.Path
end ShiftReduce
