import ShiftReduce.Candidates
import ShiftReduce.Proofs.CanonicalCollection
import ShiftReduce.Proofs.SetResolution

namespace ShiftReduce
namespace Grammar

/-- The item is a complete production of `n`, and not the augmented one. -/
def Reducible (g : Grammar) (item : Item) (n : Nonterminal) : Prop :=
  item.production ≠ .augmented ∧
    ∃ q, g.production? item.production = some q ∧ q.head = n ∧ item.index = q.tail.length

/-- The candidates of the cell of state `s` and a symbol. -/
inductive Asks (g : Grammar) (a : Automaton) (s : StateId) : Symbol → Action → Prop
  | shift {items : ItemSet} {item : Item} {t : Terminal} {target : StateId} :
      a.state? s = some items → item ∈ items → g.afterDot? item = some (.terminal t) →
      t ≠ .endOfInput → a.transitions.get? s (.terminal t) = some target →
      Asks g a s (.terminal t) (.shift target)
  | reduce {items : ItemSet} {item : Item} {n : Nonterminal} {follow : TerminalSet}
      {sets : Analysis} {t : Terminal} :
      a.state? s = some items → item ∈ items → g.Reducible item n →
      g.follow (.nonterminal n) .empty = (.ok follow, sets) → t ∈ follow →
      Asks g a s (.terminal t) (.reduce item.production)
  | accept {items : ItemSet} : a.state? s = some items → finalItem ∈ items →
      Asks g a s .endOfInput .accept
  | goto {n : Nonterminal} {target : StateId} :
      a.transitions.get? s (.nonterminal n) = some target →
      Asks g a s (.nonterminal n) (.goto target)

/-- What a single item of state `s` asks for. -/
inductive ItemAsks (g : Grammar) (a : Automaton) (s : StateId) (item : Item) :
    Symbol → Action → Prop
  | shift {t : Terminal} {target : StateId} :
      g.afterDot? item = some (.terminal t) → t ≠ .endOfInput →
      a.transitions.get? s (.terminal t) = some target →
      ItemAsks g a s item (.terminal t) (.shift target)
  | reduce {n : Nonterminal} {t : Terminal} :
      g.Reducible item n → g.Collects (.follow n) t →
      ItemAsks g a s item (.terminal t) (.reduce item.production)

theorem contains_of_reducible (g : Grammar) {item : Item} {n : Nonterminal}
    (h : g.Reducible item n) : g.contains (.nonterminal n) := by
  obtain ⟨-, q, hq, rfl, -⟩ := h
  exact g.contains_head hq

theorem reducible_unique (g : Grammar) {item : Item} {n m : Nonterminal}
    (hn : g.Reducible item n) (hm : g.Reducible item m) : n = m := by
  obtain ⟨-, q, hq, rfl, -⟩ := hn
  obtain ⟨-, r, hr, rfl, -⟩ := hm
  rw [hq] at hr
  cases hr
  rfl

theorem not_reducible_of_afterDot (g : Grammar) {item : Item} {X : Symbol} {n : Nonterminal}
    (hX : g.afterDot? item = some X) : ¬ g.Reducible item n := by
  intro ⟨_, q, hq, _, hindex⟩
  obtain ⟨r, hr, hget⟩ := g.afterDot?_eq_some_iff.mp hX
  rw [hq] at hr
  cases hr
  rw [hindex, List.getElem?_eq_none (Nat.le_refl _)] at hget
  cases hget

/-- The end of input stands before no dot but that of the augmented production. -/
theorem production_augmented_of_endOfInput (g : Grammar) {item : Item}
    (h : g.afterDot? item = some .endOfInput) : item.production = .augmented := by
  obtain ⟨q, hq, hget⟩ := g.afterDot?_eq_some_iff.mp h
  by_contra hne
  exact g.endOfInput_not_mem_tail hq hne (List.mem_of_getElem? hget)

theorem afterDot?_eq_none (g : Grammar) {item : Item} {q : Production}
    (hq : g.production? item.production = some q) (h : q.tail[item.index]? = none) :
    g.afterDot? item = none := by
  unfold afterDot?
  rw [hq]
  exact h

theorem itemAsks_of_nonterminal (g : Grammar) (a : Automaton) (s : StateId) (item : Item)
    (n : Nonterminal) (h : g.afterDot? item = some (.nonterminal n)) (X : Symbol) (c : Action) :
    ¬ g.ItemAsks a s item X c := by
  intro hasks
  cases hasks with
  | shift ht => rw [h] at ht; cases ht
  | reduce hn => exact g.not_reducible_of_afterDot h hn

theorem itemAsks_of_terminal (g : Grammar) (a : Automaton) (s target : StateId) (item : Item)
    (t : Terminal) (h : g.afterDot? item = some (.terminal t)) (ht : t ≠ .endOfInput)
    (hget : a.transitions.get? s (.terminal t) = some target) (X : Symbol) (c : Action) :
    g.ItemAsks a s item X c ↔ (X, c) = (.terminal t, .shift target) := by
  constructor
  · intro hasks
    cases hasks with
    | shift ht' _ hget' =>
      rw [h] at ht'
      cases ht'
      rw [hget] at hget'
      cases hget'
      rfl
    | reduce hn => exact False.elim (g.not_reducible_of_afterDot h hn)
  · intro he
    cases he
    exact .shift h ht hget

theorem itemAsks_of_endOfInput (g : Grammar) (a : Automaton) (s : StateId) (item : Item)
    (h : g.afterDot? item = some .endOfInput) (X : Symbol) (c : Action) :
    ¬ g.ItemAsks a s item X c := by
  intro hasks
  cases hasks with
  | shift ht hne =>
    rw [h] at ht
    cases ht
    exact hne rfl
  | reduce hn => exact g.not_reducible_of_afterDot h hn

theorem itemAsks_of_reducible (g : Grammar) (a : Automaton) (s : StateId) (item : Item)
    (n : Nonterminal) (h : g.Reducible item n) (X : Symbol) (c : Action) :
    g.ItemAsks a s item X c ↔
      ∃ t, g.Collects (.follow n) t ∧ (.terminal t, .reduce item.production) = (X, c) := by
  constructor
  · intro hasks
    cases hasks with
    | shift ht => exact False.elim (g.not_reducible_of_afterDot ht h)
    | reduce hn ht => exact ⟨_, g.reducible_unique hn h ▸ ht, rfl⟩
  · intro ⟨t, ht, he⟩
    cases he
    exact .reduce h ht

theorem itemAsks_of_augmented (g : Grammar) (a : Automaton) (s : StateId) (item : Item)
    (h : g.afterDot? item = none) (hp : item.production = .augmented) (X : Symbol) (c : Action) :
    ¬ g.ItemAsks a s item X c := by
  intro hasks
  cases hasks with
  | shift ht => rw [h] at ht; cases ht
  | reduce hn => exact hn.1 hp

/-- What is found for an item: all that it asks for, once FOLLOW of its head resolves. -/
def AllAsked (g : Grammar) (a : Automaton) (s : StateId) (item : Item)
    (candidates : List Candidate) : Prop :=
  (∀ n, g.Reducible item n → g.Resolves (.follow n)) ∧
    ∀ X c, (X, c) ∈ candidates ↔ g.ItemAsks a s item X c

theorem allAsked_nil (g : Grammar) (a : Automaton) (s : StateId) (item : Item)
    (hr : ∀ n, ¬ g.Reducible item n) (h : ∀ X c, ¬ g.ItemAsks a s item X c) :
    g.AllAsked a s item [] := by
  refine ⟨fun n hn => False.elim (hr n hn), ?_⟩
  intro X c
  exact ⟨fun hmem => False.elim (List.not_mem_nil hmem), fun hasks => False.elim (h X c hasks)⟩

/-- The candidates of one item: they are missing only where FOLLOW of its head is. -/
theorem itemCandidates_leaves (g : Grammar) (a : Automaton) (ha : a.Canonical g) (s : StateId)
    (items : ItemSet) (hs : a.state? s = some items) (item : Item) (hitem : item ∈ items)
    (sets : Analysis) (hsets : sets.Sound g) (hidle : sets.underway = []) :
    sets.Leaves g (g.AllAsked a s item) (∃ n, g.Reducible item n ∧ ¬ g.Resolves (.follow n))
      (g.itemCandidates a s item sets) := by
  obtain ⟨q, hq, hindex⟩ := ha.hasItem s items hs item hitem
  unfold itemCandidates
  rw [hq]
  simp only
  cases hX : q.tail[item.index]? with
  | some X =>
    have hafter : g.afterDot? item = some X := g.afterDot?_eq_some_iff.mpr ⟨q, hq, hX⟩
    have hr (n : Nonterminal) : ¬ g.Reducible item n := g.not_reducible_of_afterDot hafter
    cases X with
    | nonterminal n =>
      exact ⟨hsets, rfl, g.allAsked_nil a s item hr (g.itemAsks_of_nonterminal a s item n hafter)⟩
    | terminal t =>
      by_cases ht : t = .endOfInput
      · -- The end of input behind the root is accepted and not shifted.
        subst ht
        have haugmented := g.production_augmented_of_endOfInput hafter
        simp only [haugmented, and_self, if_true]
        exact ⟨hsets, rfl, g.allAsked_nil a s item hr (g.itemAsks_of_endOfInput a s item hafter)⟩
      · obtain ⟨target, next, htarget, -, -⟩ := ha.follow_item hs hitem hafter
        simp only [ht, and_false, if_false, htarget]
        refine ⟨hsets, rfl, fun n hn => False.elim (hr n hn), ?_⟩
        intro X c
        rw [List.mem_singleton, g.itemAsks_of_terminal a s target item t hafter ht htarget]
  | none =>
    have hlength : item.index = q.tail.length := by
      have hle := List.getElem?_eq_none_iff.mp hX
      omega
    by_cases haugmented : item.production = .augmented
    · simp only [if_pos haugmented]
      refine ⟨hsets, rfl, g.allAsked_nil a s item (fun n hn => hn.1 haugmented) ?_⟩
      exact g.itemAsks_of_augmented a s item (g.afterDot?_eq_none hq hX) haugmented
    · have hhead : g.Reducible item q.head := ⟨haugmented, q, hq, rfl, hlength⟩
      have hanswer := g.follow_answers q.head sets (g.contains_head hq) hsets hidle
      simp only [if_neg haugmented]
      rcases hanswer.cases with ⟨e, b, hx, hb, hbu, hfail⟩ | ⟨follow, b, hx, hb, hbu, hres, hfollow⟩
      · rw [hx]
        exact ⟨hb, hbu, q.head, hhead, hfail⟩
      · rw [hx]
        refine ⟨hb, hbu, fun n hn => g.reducible_unique hn hhead ▸ hres, ?_⟩
        intro X c
        rw [List.mem_map, g.itemAsks_of_reducible a s item q.head hhead]
        simp only [← hfollow]
        exact Iff.rfl

/-- FOLLOW resolves for the heads of all complete items. -/
def FollowsResolve (g : Grammar) (items : List Item) : Prop :=
  ∀ item ∈ items, ∀ n, g.Reducible item n → g.Resolves (.follow n)

theorem not_followsResolve (g : Grammar) {items : List Item} {item : Item} (hitem : item ∈ items)
    (h : ∃ n, g.Reducible item n ∧ ¬ g.Resolves (.follow n)) : ¬ g.FollowsResolve items := by
  intro hres
  obtain ⟨n, hn, hfail⟩ := h
  exact hfail (hres item hitem n hn)

theorem itemsCandidates_leaves (g : Grammar) (a : Automaton) (ha : a.Canonical g) (s : StateId)
    (state : ItemSet) (hs : a.state? s = some state) (items : List Item)
    (hitems : ∀ item ∈ items, item ∈ state) (sets : Analysis) (hsets : sets.Sound g)
    (hidle : sets.underway = []) :
    sets.Leaves g
      (fun candidates => g.FollowsResolve items ∧
        ∀ X c, (X, c) ∈ candidates ↔ ∃ item ∈ items, g.ItemAsks a s item X c)
      (¬ g.FollowsResolve items) (g.itemsCandidates a s items sets) := by
  induction items generalizing sets with
  | nil => exact ⟨hsets, rfl, by simp [FollowsResolve], by simp⟩
  | cons item items ih =>
    have hitem := g.itemCandidates_leaves a ha s state hs item (hitems item List.mem_cons_self)
      sets hsets hidle
    rw [itemsCandidates]
    rcases hitem.cases with ⟨e, b, hx, hb, hbu, hfail⟩ | ⟨candidates, b, hx, hb, hbu, hres, hmem⟩
    · rw [hx]
      exact ⟨hb, hbu, g.not_followsResolve List.mem_cons_self hfail⟩
    · have hrest := ih (fun i hi => hitems i (List.mem_cons_of_mem _ hi)) b hb (hbu.trans hidle)
      rw [hx]
      simp only
      rcases hrest.cases with ⟨e, c, hy, hc, hcu, hfail⟩ | ⟨rest, c, hy, hc, hcu, hrest, hmemrest⟩
      · rw [hy]
        refine ⟨hc, hcu.trans hbu, ?_⟩
        intro hall
        exact hfail fun i hi => hall i (List.mem_cons_of_mem _ hi)
      · rw [hy]
        refine ⟨hc, hcu.trans hbu, List.forall_mem_cons.mpr ⟨hres, hrest⟩, ?_⟩
        intro X d
        rw [List.mem_append, hmem, hmemrest]
        simp only [List.mem_cons, exists_eq_or_imp]

/-- A complete item asks for its reduction on all that FOLLOW of its head collects. -/
theorem asks_of_collects (g : Grammar) {a : Automaton} {s : StateId} {items : ItemSet} {item : Item}
    {n : Nonterminal} {t : Terminal} (hs : a.state? s = some items) (hitem : item ∈ items)
    (hn : g.Reducible item n) (hres : g.Resolves (.follow n)) (ht : g.Collects (.follow n) t) :
    g.Asks a s (.terminal t) (.reduce item.production) := by
  have hd := g.contains_of_reducible hn
  obtain ⟨follow, sets, hfollow⟩ := (g.follow_ok_iff n hd).mpr hres
  exact .reduce hs hitem hn hfollow ((g.collects_iff_of_follow n _ _ hfollow t).mpr ht)

/-- The candidates of a cell come from the items, from acceptance and from the edges. -/
theorem asks_iff (g : Grammar) (a : Automaton) (s : StateId) (items : ItemSet)
    (hs : a.state? s = some items) (hres : g.FollowsResolve items.toList) (X : Symbol)
    (c : Action) :
    g.Asks a s X c ↔ (∃ item ∈ items.toList, g.ItemAsks a s item X c) ∨
      (finalItem ∈ items ∧ (X, c) = (.endOfInput, .accept)) ∨
      ∃ n target, a.transitions.get? s (.nonterminal n) = some target ∧
        (X, c) = (.nonterminal n, .goto target) := by
  constructor
  · intro hasks
    cases hasks with
    | shift hs' hitem ht hne hget =>
      rw [hs] at hs'
      cases hs'
      exact Or.inl ⟨_, hitem, .shift ht hne hget⟩
    | reduce hs' hitem hn hfollow ht =>
      rw [hs] at hs'
      cases hs'
      have hcollects := (g.collects_iff_of_follow _ _ _ hfollow _).mp ht
      exact Or.inl ⟨_, hitem, .reduce hn hcollects⟩
    | accept hs' hitem =>
      rw [hs] at hs'
      cases hs'
      exact Or.inr (Or.inl ⟨hitem, rfl⟩)
    | goto hget => exact Or.inr (Or.inr ⟨_, _, hget, rfl⟩)
  · intro h
    rcases h with ⟨item, hitem, hasks⟩ | ⟨hitem, he⟩ | ⟨n, target, hget, he⟩
    · cases hasks with
      | shift ht hne hget => exact .shift hs hitem ht hne hget
      | reduce hn ht => exact g.asks_of_collects hs hitem hn (hres item hitem _ hn) ht
    · cases he
      exact .accept hs hitem
    · cases he
      exact .goto hget

theorem asks_shift (g : Grammar) {a : Automaton} {s target : StateId} {X : Symbol}
    (h : g.Asks a s X (.shift target)) :
    ∃ t, X = .terminal t ∧ t ≠ .endOfInput ∧ a.transitions.get? s X = some target := by
  cases h with
  | shift _ _ _ hne hget => exact ⟨_, rfl, hne, hget⟩

theorem asks_reduce (g : Grammar) {a : Automaton} {s : StateId} {X : Symbol} {p : ProductionId}
    (h : g.Asks a s X (.reduce p)) :
    ∃ items q t, a.state? s = some items ∧ g.production? p = some q ∧ p ≠ .augmented ∧
      ⟨p, q.tail.length⟩ ∈ items ∧ X = .terminal t ∧ g.Resolves (.follow q.head) ∧
      g.Collects (.follow q.head) t := by
  cases h with
  | @reduce items item n follow sets t hs hitem hn hfollow ht =>
    have hd := g.contains_of_reducible hn
    have hresolves := (g.follow_ok_iff n hd).mp ⟨follow, sets, hfollow⟩
    have hcollects := (g.collects_iff_of_follow n follow sets hfollow t).mp ht
    obtain ⟨hp, q, hq, rfl, hindex⟩ := hn
    exact ⟨items, q, t, hs, hq, hp, hindex ▸ hitem, rfl, hresolves, hcollects⟩

theorem asks_goto (g : Grammar) {a : Automaton} {s target : StateId} {X : Symbol}
    (h : g.Asks a s X (.goto target)) :
    ∃ n, X = .nonterminal n ∧ a.transitions.get? s X = some target := by
  cases h with
  | goto hget => exact ⟨_, rfl, hget⟩

theorem asks_accept (g : Grammar) {a : Automaton} {s : StateId} {X : Symbol}
    (h : g.Asks a s X .accept) :
    X = .endOfInput ∧ ∃ items, a.state? s = some items ∧ finalItem ∈ items := by
  cases h with
  | accept hs hitem => exact ⟨rfl, _, hs, hitem⟩

theorem not_asks_error (g : Grammar) {a : Automaton} {s : StateId} {X : Symbol} :
    ¬ g.Asks a s X .error := by
  intro h
  cases h

theorem mem_gotoCandidates (g : Grammar) (a : Automaton) (ha : a.Canonical g) (s : StateId)
    (X : Symbol) (c : Action) :
    (X, c) ∈ gotoCandidates a s ↔
      ∃ n target, a.transitions.get? s (.nonterminal n) = some target ∧
        (X, c) = (.nonterminal n, .goto target) := by
  have hedges := fun Y target =>
    Transitions.mem_edgesFrom_iff a.transitions ha.functional s target Y
  simp only [gotoCandidates, List.mem_filterMap, Prod.exists]
  constructor
  · intro ⟨Y, target, hmem, hc⟩
    cases Y with
    | terminal t => cases hc
    | nonterminal n =>
      cases hc
      exact ⟨n, target, (hedges _ _).mp hmem, rfl⟩
  · intro ⟨n, target, hget, he⟩
    cases he
    exact ⟨.nonterminal n, target, (hedges _ _).mpr hget, rfl⟩

theorem mem_acceptCandidates (items : ItemSet) (X : Symbol) (c : Action) :
    (X, c) ∈ acceptCandidates items ↔ finalItem ∈ items ∧ (X, c) = (.endOfInput, .accept) := by
  unfold acceptCandidates
  by_cases h : finalItem ∈ items
  · rw [if_pos h, List.mem_singleton]
    exact ⟨fun he => ⟨h, he⟩, And.right⟩
  · rw [if_neg h]
    exact ⟨fun hmem => False.elim (List.not_mem_nil hmem), fun he => False.elim (h he.1)⟩

/-- The candidates that a state's row is filled with are those of its cells. -/
theorem stateCandidates_leaves (g : Grammar) (a : Automaton) (ha : a.Canonical g) (s : StateId)
    (items : ItemSet) (hs : a.state? s = some items) (sets : Analysis) (hsets : sets.Sound g)
    (hidle : sets.underway = []) :
    sets.Leaves g
      (fun candidates => g.FollowsResolve items.toList ∧
        ∀ X c, (X, c) ∈ candidates ↔ g.Asks a s X c)
      (¬ g.FollowsResolve items.toList) (g.stateCandidates a s items sets) := by
  have hitems := g.itemsCandidates_leaves a ha s items hs items.toList (fun _ h => h) sets hsets
    hidle
  unfold stateCandidates
  rcases hitems.cases with ⟨e, b, hx, hb, hbu, hfail⟩ | ⟨candidates, b, hx, hb, hbu, hres, hmem⟩
  · rw [hx]
    exact ⟨hb, hbu, hfail⟩
  · rw [hx]
    refine ⟨hb, hbu, hres, ?_⟩
    intro X c
    rw [List.mem_append, List.mem_append, hmem, mem_acceptCandidates, g.mem_gotoCandidates a ha,
      g.asks_iff a s items hs hres, or_assoc]

end Grammar
end ShiftReduce
