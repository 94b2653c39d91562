import ShiftReduce.Proofs.StackPaths
import ShiftReduce.SampleGrammars

/-! An item is valid for a string when its nonterminal can stand at some place of the string and the
rest of the string is what the item has before its dot. -/
namespace ShiftReduce
namespace Grammar

/-- The symbols can stand in front of the nonterminal: they are what can stand in front of a head,
and then its tail up to the nonterminal. -/
inductive Context (g : Grammar) : List Symbol → Nonterminal → Prop
  | start : Context g [] .start
  | tail {before left right : List Symbol} {p : ProductionId} {q : Production} {n : Nonterminal} :
      Context g before q.head → g.production? p = some q →
      q.tail = left ++ .nonterminal n :: right → Context g (before ++ left) n

/-- The symbols are a context of the item's head and then the tail up to the dot. -/
def ValidFor (g : Grammar) (symbols : List Symbol) (item : Item) : Prop :=
  ∃ q before, g.production? item.production = some q ∧ item.index ≤ q.tail.length ∧
    g.Context before q.head ∧ symbols = before ++ q.tail.take item.index

theorem validFor_startItem (g : Grammar) : g.ValidFor [] startItem :=
  ⟨g.augmentedProduction, [], rfl, Nat.zero_le _, .start, rfl⟩

/-- What stands before the dot is a context of the nonterminal after it. -/
theorem context_of_validFor (g : Grammar) {symbols : List Symbol} {item : Item} {n : Nonterminal}
    (h : g.ValidFor symbols item) (hn : g.afterDot? item = some (.nonterminal n)) :
    g.Context symbols n := by
  obtain ⟨q, before, hq, -, hbefore, rfl⟩ := h
  obtain ⟨q', hq', hget⟩ := g.afterDot?_eq_some_iff.mp hn
  rw [hq] at hq'
  cases hq'
  obtain ⟨hlt, hX⟩ := List.getElem?_eq_some_iff.mp hget
  have hsplit : q.tail =
      q.tail.take item.index ++ .nonterminal n :: q.tail.drop (item.index + 1) := by
    rw [← hX, List.getElem_cons_drop, List.take_append_drop]
  exact .tail hbefore hq hsplit

theorem validFor_front (g : Grammar) {symbols : List Symbol} {p : ProductionId} {q : Production}
    (h : g.Context symbols q.head) (hq : g.production? p = some q) : g.ValidFor symbols ⟨p, 0⟩ :=
  ⟨q, symbols, hq, Nat.zero_le _, h, (List.append_nil _).symm⟩

theorem validFor_expansion (g : Grammar) {symbols : List Symbol} {i j : Item}
    (h : g.ValidFor symbols i) (hj : j ∈ g.expansion i) : g.ValidFor symbols j := by
  obtain ⟨n, hn, q, hq, rfl, hindex⟩ := g.mem_expansion.mp hj
  have hfront := g.validFor_front (g.context_of_validFor h hn) hq
  rw [← hindex] at hfront
  exact hfront

theorem validFor_next (g : Grammar) {symbols : List Symbol} {i : Item} {X : Symbol}
    (h : g.ValidFor symbols i) (hX : g.afterDot? i = some X) :
    g.ValidFor (symbols ++ [X]) i.next := by
  obtain ⟨q, before, hq, -, hbefore, rfl⟩ := h
  obtain ⟨q', hq', hget⟩ := g.afterDot?_eq_some_iff.mp hX
  rw [hq] at hq'
  cases hq'
  refine ⟨q, before, hq, (List.getElem?_eq_some_iff.mp hget).choose, hbefore, ?_⟩
  rw [Item.next, List.take_add_one, hget, Option.toList_some, List.append_assoc]

/-- An item with its dot behind a symbol comes from the item with its dot before it. -/
theorem of_validFor_succ (g : Grammar) {symbols : List Symbol} {p : ProductionId} {k : Nat}
    (h : g.ValidFor symbols ⟨p, k + 1⟩) : ∃ front X, symbols = front ++ [X] ∧
      g.ValidFor front ⟨p, k⟩ ∧ g.afterDot? ⟨p, k⟩ = some X := by
  obtain ⟨q, before, hq, hlt, hbefore, rfl⟩ := h
  have hget : q.tail[k]? = some q.tail[k] := List.getElem?_eq_getElem hlt
  refine ⟨before ++ q.tail.take k, q.tail[k], ?_,
    ⟨q, before, hq, Nat.le_of_succ_le hlt, hbefore, rfl⟩,
    g.afterDot?_eq_some_iff.mpr ⟨q, hq, hget⟩⟩
  rw [List.take_add_one, hget, Option.toList_some, List.append_assoc]

theorem eq_augmented_of_head (g : Grammar) {p : ProductionId} {q : Production}
    (hq : g.production? p = some q) (hhead : q.head = .start) : p = .augmented := by
  by_contra hp
  exact g.head_ne_start hq hp hhead

/-- The dot may stand at any place of a tail whose head has a context. -/
theorem validFor_of_tail (g : Grammar) {before left right : List Symbol} {p : ProductionId}
    {q : Production} (hbefore : g.Context before q.head) (hq : g.production? p = some q)
    (htail : q.tail = left ++ right) : g.ValidFor (before ++ left) ⟨p, left.length⟩ := by
  refine ⟨q, before, hq, ?_, hbefore, ?_⟩
  · rw [htail, List.length_append]
    exact Nat.le_add_right _ _
  · rw [htail, List.take_left]

/-- A closure that holds what is valid behind a symbol holds the productions of every nonterminal
that its symbols are a context of. -/
theorem front_mem_expand_of_context (g : Grammar) {symbols : List Symbol} {kernel : List Item}
    (hstart : symbols = [] → startItem ∈ kernel)
    (hkernel : ∀ p k, g.ValidFor symbols ⟨p, k + 1⟩ → ⟨p, k + 1⟩ ∈ kernel) {n : Nonterminal}
    (hn : g.Context symbols n) {p : ProductionId} {q : Production}
    (hq : g.production? p = some q) (hhead : q.head = n) : ⟨p, 0⟩ ∈ g.expand kernel := by
  -- By induction on the context: an item with its dot before the nonterminal is in the kernel, or
  -- its own dot is in front and it is there by the context of its head.
  induction hn generalizing p q with
  | start =>
    rw [g.eq_augmented_of_head hq hhead]
    exact g.mem_expand_of_mem (hstart rfl)
  | @tail before left right p' q' n hbefore hq' htail ih =>
    have hX : g.afterDot? ⟨p', left.length⟩ = some (.nonterminal n) := by
      refine g.afterDot?_eq_some_iff.mpr ⟨q', hq', ?_⟩
      rw [htail, List.getElem?_append_right (Nat.le_refl _), Nat.sub_self]
      rfl
    have hitem : ⟨p', left.length⟩ ∈ g.expand kernel := by
      cases left with
      | nil =>
        rw [List.append_nil] at hstart hkernel
        exact ih hstart hkernel hq' rfl
      | cons X left =>
        exact g.mem_expand_of_mem (hkernel p' left.length (g.validFor_of_tail hbefore hq' htail))
    exact g.front_mem_expand hitem hX hq hhead

theorem mem_expand_of_validFor (g : Grammar) {symbols : List Symbol} {kernel : List Item}
    (hstart : symbols = [] → startItem ∈ kernel)
    (hkernel : ∀ p k, g.ValidFor symbols ⟨p, k + 1⟩ → ⟨p, k + 1⟩ ∈ kernel) {item : Item}
    (h : g.ValidFor symbols item) : item ∈ g.expand kernel := by
  obtain ⟨p, _ | k⟩ := item
  · obtain ⟨q, before, hq, -, hbefore, hsymbols⟩ := h
    rw [List.take_zero, List.append_nil] at hsymbols
    subst hsymbols
    exact g.front_mem_expand_of_context hstart hkernel hbefore hq rfl
  · exact g.mem_expand_of_mem (hkernel p k h)

theorem validFor_of_mem_expand (g : Grammar) {symbols : List Symbol} {kernel : List Item}
    (h : ∀ i ∈ kernel, g.ValidFor symbols i) {item : Item} (hitem : item ∈ g.expand kernel) :
    g.ValidFor symbols item := by
  have hentails := g.mem_expand.mp hitem
  clear hitem
  induction hentails with
  | kernel hi => exact h _ hi
  | expansion _ hij ih => exact g.validFor_expansion ih hij

/-- In the closure of the augmented item are the items valid for no symbols at all. -/
theorem mem_start_iff_validFor (g : Grammar) (item : Item) :
    item ∈ g.expand [startItem] ↔ g.ValidFor [] item := by
  constructor
  · refine fun hitem => g.validFor_of_mem_expand ?_ hitem
    intro i hi
    rw [List.mem_singleton] at hi
    exact hi ▸ g.validFor_startItem
  · refine fun h => g.mem_expand_of_validFor (fun _ => List.mem_singleton.mpr rfl) ?_ h
    intro p k hk
    obtain ⟨front, X, hnil, -, -⟩ := g.of_validFor_succ hk
    exact False.elim (List.append_ne_nil_of_right_ne_nil front (List.cons_ne_nil X []) hnil.symm)

/-- One more symbol leads from the items valid for some symbols to those valid for them all. -/
theorem mem_successor_iff_validFor (g : Grammar) {symbols : List Symbol} {items : ItemSet}
    (h : ∀ item, item ∈ items ↔ g.ValidFor symbols item) (X : Symbol) (item : Item) :
    item ∈ g.successor items X ↔ g.ValidFor (symbols ++ [X]) item := by
  constructor
  · refine fun hitem => g.validFor_of_mem_expand ?_ hitem
    intro j hj
    obtain ⟨i, hi, hX, rfl⟩ := g.mem_kernel.mp hj
    exact g.validFor_next ((h i).mp hi) hX
  · refine fun hitem => g.mem_expand_of_validFor ?_ ?_ hitem
    · intro hnil
      exact False.elim (List.append_ne_nil_of_right_ne_nil symbols (List.cons_ne_nil X []) hnil)
    · intro p k hk
      obtain ⟨front, Y, hsymbols, hfront, hY⟩ := g.of_validFor_succ hk
      obtain ⟨rfl, hXY⟩ := List.append_inj' hsymbols rfl
      cases hXY
      exact g.mem_kernel.mpr ⟨⟨p, k⟩, (h _).mpr hfront, hY, rfl⟩

/-- What is read before a nonterminal ends with a symbol before some dot. -/
theorem exists_validFor_of_context (g : Grammar) {symbols : List Symbol} {n : Nonterminal}
    (h : g.Context symbols n) (hne : symbols ≠ []) : ∃ p k, g.ValidFor symbols ⟨p, k + 1⟩ := by
  induction h with
  | start => exact False.elim (hne rfl)
  | @tail before left right p q n hbefore hq htail ih =>
    cases left with
    | nil =>
      rw [List.append_nil] at hne ⊢
      exact ih hne
    | cons X left => exact ⟨p, left.length, g.validFor_of_tail hbefore hq htail⟩

theorem exists_validFor_succ (g : Grammar) {symbols : List Symbol} {item : Item}
    (h : g.ValidFor symbols item) (hne : symbols ≠ []) :
    ∃ p k, g.ValidFor symbols ⟨p, k + 1⟩ := by
  obtain ⟨p, _ | k⟩ := item
  · obtain ⟨q, before, -, -, hbefore, hsymbols⟩ := h
    rw [List.take_zero, List.append_nil] at hsymbols
    subst hsymbols
    exact g.exists_validFor_of_context hbefore hne
  · exact ⟨p, k, h⟩

end Grammar

namespace Automaton

variable {g : Grammar} {a : Automaton}

theorem Path.exists_valid (ha : a.Canonical g) {states : List StateId} {symbols : List Symbol}
    (h : a.Path states symbols) : ∃ s below items, states = s :: below ∧
      a.state? s = some items ∧ ∀ item, item ∈ items ↔ g.ValidFor symbols.reverse item := by
  induction h with
  | start => exact ⟨_, _, _, rfl, ha.start, g.mem_start_iff_validFor⟩
  | @step s target below X symbols _ hget ih =>
    obtain ⟨_, _, items, hstates, hs, hitems⟩ := ih
    cases hstates
    obtain ⟨items', hs', -, htarget⟩ := ha.edge s X target hget
    rw [hs] at hs'
    cases hs'
    refine ⟨target, _, _, rfl, htarget, ?_⟩
    rw [List.reverse_cons]
    exact g.mem_successor_iff_validFor hitems X

theorem exists_path_of_validFor (ha : a.Canonical g) (symbols : List Symbol) (item : Item)
    (h : g.ValidFor symbols item) : ∃ states, a.Path states symbols.reverse := by
  induction symbols using List.reverseRecOn generalizing item with
  | nil => exact ⟨_, .start⟩
  | append_singleton symbols X ih =>
    have hne := List.append_ne_nil_of_right_ne_nil symbols (List.cons_ne_nil X [])
    obtain ⟨p, k, hk⟩ := g.exists_validFor_succ h hne
    obtain ⟨front, Y, hsymbols, hfront, hY⟩ := g.of_validFor_succ hk
    obtain ⟨rfl, hXY⟩ := List.append_inj' hsymbols rfl
    cases hXY
    obtain ⟨states, hpath⟩ := ih _ hfront
    obtain ⟨s, below, items, rfl, hs, hitems⟩ := hpath.exists_valid ha
    rw [List.reverse_reverse] at hitems
    obtain ⟨target, -, hget, -, -⟩ := ha.follow_item hs ((hitems _).mpr hfront) hY
    rw [List.reverse_append, List.reverse_singleton, List.singleton_append]
    exact ⟨_, .step hpath hget⟩

/-- The state that the symbols lead to from the start state, if all transitions are there. -/
def walk (a : Automaton) (symbols : List Symbol) : Option StateId :=
  symbols.foldlM (fun s X => a.transitions.get? s X) .start

theorem walk_eq_some_iff (symbols : List Symbol) (s : StateId) :
    a.walk symbols = some s ↔ ∃ below, a.Path (s :: below) symbols.reverse := by
  induction symbols using List.reverseRecOn generalizing s with
  | nil =>
    constructor
    · intro h
      cases h
      exact ⟨[], .start⟩
    · intro ⟨below, h⟩
      cases h
      rfl
  | append_singleton symbols X ih =>
    have hwalk : a.walk (symbols ++ [X]) = some s ↔
        ∃ middle, a.walk symbols = some middle ∧ a.transitions.get? middle X = some s := by
      simp [walk, List.foldlM_append, Option.bind_eq_some_iff]
    rw [hwalk, List.reverse_append, List.reverse_singleton, List.singleton_append]
    constructor
    · intro ⟨middle, hmiddle, hget⟩
      obtain ⟨below, hpath⟩ := (ih middle).mp hmiddle
      exact ⟨_, .step hpath hget⟩
    · intro ⟨below, hpath⟩
      cases hpath with
      | step hpath hget => exact ⟨_, (ih _).mpr ⟨_, hpath⟩, hget⟩

end Automaton

/-- Following a string from the start state succeeds exactly when some item is valid for it, and
ends in the state of the valid items. -/
theorem walk_exact (g : Grammar) (a : Automaton) (ha : g.automaton = .ok a)
    (symbols : List Symbol) :
    ((∃ s, a.walk symbols = some s) ↔ ∃ item, g.ValidFor symbols item) ∧
    ∀ s, a.walk symbols = some s → ∃ items, a.state? s = some items ∧
      ∀ item, item ∈ items ↔ g.ValidFor symbols item := by
  have hcanonical := g.automaton_canonical a ha
  have hreached (s : StateId) (hs : a.walk symbols = some s) : ∃ items, a.state? s = some items ∧
      ∀ item, item ∈ items ↔ g.ValidFor symbols item := by
    obtain ⟨below, hpath⟩ := (a.walk_eq_some_iff symbols s).mp hs
    obtain ⟨_, _, items, hstates, hitems, hvalid⟩ := hpath.exists_valid hcanonical
    cases hstates
    rw [List.reverse_reverse] at hvalid
    exact ⟨items, hitems, hvalid⟩
  refine ⟨⟨?_, ?_⟩, hreached⟩
  · intro ⟨s, hs⟩
    obtain ⟨items, hitems, hvalid⟩ := hreached s hs
    obtain ⟨below, hpath⟩ := (a.walk_eq_some_iff symbols s).mp hs
    obtain ⟨item, hitem⟩ := hpath.exists_item hcanonical hitems
    exact ⟨item, (hvalid item).mp hitem⟩
  · intro ⟨item, hitem⟩
    obtain ⟨states, hpath⟩ := Automaton.exists_path_of_validFor hcanonical symbols item hitem
    obtain ⟨s, below, rfl⟩ := hpath.exists_top
    exact ⟨s, (a.walk_eq_some_iff symbols s).mpr ⟨below, hpath⟩⟩

theorem Grammar.exists_automaton (declarations : List Declaration)
    (P : Grammar → Automaton → Prop) [∀ g a, Decidable (P g a)]
    (h : (match Grammar.define declarations with
      | .error _ => false
      | .ok g =>
        match g.automaton with
        | .error _ => false
        | .ok a => decide (P g a)) = true) :
    ∃ g a, Grammar.define declarations = .ok g ∧ g.automaton = .ok a ∧ P g a := by
  split at h
  · cases h
  · rename_i g hg
    split at h
    · cases h
    · rename_i a ha
      exact ⟨g, a, hg, ha, of_decide_eq_true h⟩

theorem walk_exact_list : ∃ g a s items, Grammar.define SampleGrammars.list = .ok g ∧
    g.automaton = .ok a ∧
    a.walk [.terminal ⟨1⟩, .terminal ⟨2⟩, .terminal ⟨1⟩, .terminal ⟨2⟩] = some s ∧
    a.state? s = some items ∧
    (∃ item, g.ValidFor [.terminal ⟨1⟩, .terminal ⟨2⟩, .terminal ⟨1⟩, .terminal ⟨2⟩] item) ∧
    ∀ item, item ∈ items ↔
      g.ValidFor [.terminal ⟨1⟩, .terminal ⟨2⟩, .terminal ⟨1⟩, .terminal ⟨2⟩] item := by
  obtain ⟨g, a, hg, ha, hwalk⟩ := Grammar.exists_automaton SampleGrammars.list
    (fun _ a => (a.walk [.terminal ⟨1⟩, .terminal ⟨2⟩, .terminal ⟨1⟩, .terminal ⟨2⟩]).isSome)
    (by decide +kernel)
  obtain ⟨s, hs⟩ := Option.isSome_iff_exists.mp hwalk
  obtain ⟨hvalid, hitems⟩ := walk_exact g a ha
    [.terminal ⟨1⟩, .terminal ⟨2⟩, .terminal ⟨1⟩, .terminal ⟨2⟩]
  obtain ⟨items, hstate, hmem⟩ := hitems s hs
  exact ⟨g, a, s, items, hg, ha, hs, hstate, hvalid.mp ⟨s, hs⟩, hmem⟩

end ShiftReduce
