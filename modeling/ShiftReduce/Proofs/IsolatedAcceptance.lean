import ShiftReduce.Proofs.ConflictReports
import ShiftReduce.Proofs.StateNumbering

/-! The state in which the root is complete has no other item, since the root is in no tail of a
rule. So acceptance shares no cell with another action. -/
namespace ShiftReduce

/-- The root is complete in the state and nowhere else. -/
structure Automaton.Accepting (g : Grammar) (a : Automaton) (s : StateId) : Prop where
  root : a.transitions.get? .start (.nonterminal g.root) = some s
  items : a.state? s = some (.singleton Grammar.finalItem)
  unique : ∀ s' items, a.state? s' = some items → Grammar.finalItem ∈ items → s' = s
  only : ∀ source X, a.transitions.get? source X = some s →
    source = .start ∧ X = .nonterminal g.root

namespace Grammar

theorem afterDot?_startItem (g : Grammar) :
    g.afterDot? startItem = some (.nonterminal g.root) := rfl

theorem afterDot?_finalItem (g : Grammar) : g.afterDot? finalItem = some .endOfInput := rfl

/-- The root is in the tail of the augmented production alone. -/
theorem eq_startItem_of_afterDot (g : Grammar) {i : Item}
    (h : g.afterDot? i = some (.nonterminal g.root)) : i = startItem := by
  obtain ⟨q, hq, hX⟩ := g.afterDot?_eq_some_iff.mp h
  rcases g.production?_cases hq with ⟨hp, rfl⟩ | ⟨-, hrule⟩
  · obtain ⟨p, index⟩ := i
    obtain rfl : p = .augmented := hp
    match index, hX with
    | 0, _ => rfl
    | 1, hX => cases hX
    | index + 2, hX => cases hX
  · exact False.elim (g.root_not_derived q hrule (List.mem_of_getElem? hX))

/-- Where the root has just been read there is nothing else to go on with. -/
theorem successor_root (g : Grammar) {items : ItemSet} (h : startItem ∈ items) :
    g.successor items (.nonterminal g.root) = .singleton finalItem := by
  apply OrderedSet.ext_mem
  intro j
  rw [OrderedSet.mem_singleton]
  constructor
  · intro hj
    have hentails := g.mem_expand.mp hj
    induction hentails with
    | kernel hk =>
      obtain ⟨i, -, hX, rfl⟩ := g.mem_kernel.mp hk
      rw [g.eq_startItem_of_afterDot hX]
      rfl
    | expansion hi hij ih =>
      obtain ⟨n, hn, -⟩ := g.mem_expansion.mp hij
      rw [ih (g.mem_expand.mpr hi), g.afterDot?_finalItem] at hn
      cases hn
  · intro hj
    rw [hj]
    exact g.next_mem_successor h g.afterDot?_startItem

end Grammar

namespace Automaton.Path

variable {g : Grammar} {a : Automaton} {s : StateId} {below : List StateId}
  {symbols : List Symbol} {items : ItemSet}

/-- The start item is only where nothing has been read. -/
theorem of_startItem (ha : a.Canonical g) (h : a.Path (s :: below) symbols)
    (hs : a.state? s = some items) (hitem : Grammar.startItem ∈ items) : s = .start := by
  rcases h.front_cases ha hs hitem with ⟨-, rfl⟩ | ⟨i, -, q, hq, hX⟩
  · cases h
    rfl
  · rw [g.production?_augmented] at hq
    cases hq
    exact False.elim (g.start_not_afterDot i hX)

end Automaton.Path

namespace Grammar

/-- An automaton has one state in which the root is complete, which the root alone leads to. -/
theorem exists_accepting (g : Grammar) {a : Automaton} (h : g.automaton = .ok a) :
    ∃ s, a.Accepting g s := by
  have ha := g.automaton_canonical a h
  have hstart : startItem ∈ g.expand [startItem] :=
    g.mem_expand_of_mem (List.mem_singleton.mpr rfl)
  obtain ⟨s, -, hget, -⟩ := ha.follow_item ha.start hstart g.afterDot?_startItem
  have hpath : a.Path [s, .start] [.nonterminal g.root] := .step .start hget
  have hitems : a.state? s = some (.singleton finalItem) := by
    obtain ⟨items, hs, -, htarget⟩ := ha.edge _ _ _ hget
    rw [ha.start] at hs
    cases hs
    rw [htarget, g.successor_root hstart]
  refine ⟨s, hget, hitems, ?_, ?_⟩
  · intro s' items hs' hfinal
    obtain ⟨below, symbols, hpath'⟩ := g.exists_path h hs'
    rw [hpath'.of_finalItem ha hs' hfinal] at hpath'
    cases hpath'.states_eq hpath
    rfl
  · intro source X hX
    obtain ⟨items, hsource, -, htarget⟩ := ha.edge source X s hX
    rw [hitems] at htarget
    have hfinal : finalItem ∈ g.successor items X := by
      rw [← Option.some.inj htarget]
      exact OrderedSet.mem_singleton.mpr rfl
    obtain ⟨hitem, hroot⟩ : startItem ∈ items ∧ g.afterDot? startItem = some X :=
      g.of_mem_successor hfinal
    obtain ⟨below, symbols, hpath'⟩ := g.exists_path h hsource
    rw [g.afterDot?_startItem] at hroot
    exact ⟨hpath'.of_startItem ha hsource hitem, (Option.some.inj hroot).symm⟩

end Grammar

namespace Automaton.Accepting

variable {g : Grammar} {a : Automaton} {s : StateId}

theorem not_itemAsks (h : a.Accepting g s) {items : ItemSet} (hs : a.state? s = some items)
    {item : Item} (hitem : item ∈ items) (X : Symbol) (c : Action) :
    ¬ g.ItemAsks a s item X c := by
  rw [h.items] at hs
  cases hs
  rw [OrderedSet.mem_singleton.mp hitem]
  exact g.itemAsks_of_endOfInput a s Grammar.finalItem g.afterDot?_finalItem X c

theorem not_get? (h : a.Accepting g s) (ha : a.Canonical g) (n : Nonterminal) (target : StateId) :
    a.transitions.get? s (.nonterminal n) ≠ some target := by
  intro hget
  obtain ⟨items, hs, hfull, -⟩ := ha.edge s _ target hget
  obtain ⟨i, hi, hX⟩ := g.isEmpty_successor_iff.mp hfull
  rw [h.items] at hs
  cases hs
  rw [OrderedSet.mem_singleton.mp hi, g.afterDot?_finalItem] at hX
  cases hX

theorem asks_eq (h : a.Accepting g s) (ha : a.Canonical g) {X : Symbol} {c : Action}
    (hasks : g.Asks a s X c) : X = .endOfInput ∧ c = .accept := by
  cases hasks with
  | shift hs hitem ht hne hget =>
    exact False.elim (h.not_itemAsks hs hitem _ _ (.shift ht hne hget))
  | reduce hs hitem hn hfollow ht =>
    have hcollects := (g.collects_iff_of_follow _ _ _ hfollow _).mp ht
    exact False.elim (h.not_itemAsks hs hitem _ _ (.reduce hn hcollects))
  | accept => exact ⟨rfl, rfl⟩
  | goto hget => exact False.elim (h.not_get? ha _ _ hget)

/-- Acceptance is asked for on the end of input in the accepting state, and nowhere else. -/
theorem asks_accept_iff (h : a.Accepting g s) {s' : StateId} {X : Symbol} :
    g.Asks a s' X .accept ↔ s' = s ∧ X = .endOfInput := by
  constructor
  · intro hasks
    obtain ⟨hX, items, hs', hfinal⟩ := g.asks_accept hasks
    exact ⟨h.unique s' items hs' hfinal, hX⟩
  · rintro ⟨rfl, rfl⟩
    exact .accept h.items (OrderedSet.mem_singleton.mpr rfl)

theorem not_clash (h : a.Accepting g s) (ha : a.Canonical g) {e : Conflict} (he : g.Clash a e) :
    e.state ≠ s := by
  intro hs
  have hasked := he.asked
  have hfirst := he.first
  have hdiffers := he.differs
  rw [hs] at hasked hfirst
  obtain ⟨-, hincoming⟩ := h.asks_eq ha hasked
  cases hfirst with
  | item hstate hitem hitemAsks _ => exact h.not_itemAsks hstate hitem _ _ hitemAsks
  | rest _ _ hrest =>
    obtain ⟨-, hexisting⟩ := h.asks_eq ha hrest
    rw [hexisting, hincoming] at hdiffers
    exact hdiffers rfl

end Automaton.Accepting

namespace Grammar

/-- The action goes on with the terminal: along an edge, or with a reduction. -/
inductive Proceeds (a : Automaton) (s : StateId) (X : Symbol) : Action → Prop
  | shift {target : StateId} : a.transitions.get? s X = some target → Proceeds a s X (.shift target)
  | reduce (p : ProductionId) : Proceeds a s X (.reduce p)

theorem proceeds_of_itemAsks (g : Grammar) {a : Automaton} {s : StateId} {item : Item} {X : Symbol}
    {c : Action} (h : g.ItemAsks a s item X c) : X.isTerminal ∧ Proceeds a s X c := by
  cases h with
  | shift _ _ hget => exact ⟨rfl, .shift hget⟩
  | reduce => exact ⟨rfl, .reduce _⟩

theorem proceeds_of_asks (g : Grammar) {a : Automaton} {s : StateId} {t : Terminal} {c : Action}
    (h : g.Asks a s (.terminal t) c) (hc : c ≠ .accept) : Proceeds a s (.terminal t) c := by
  cases h with
  | shift _ _ _ _ hget => exact .shift hget
  | reduce => exact .reduce _
  | accept => exact False.elim (hc rfl)

theorem asks_nonterminal_unique (g : Grammar) {a : Automaton} {s : StateId} {n : Nonterminal}
    {c d : Action} (hc : g.Asks a s (.nonterminal n) c) (hd : g.Asks a s (.nonterminal n) d) :
    c = d := by
  cases hc with
  | goto hget =>
    cases hd with
    | goto hget' =>
      rw [hget] at hget'
      cases hget'
      rfl

/-- Two actions for a cell are for a terminal, and both go on with it. -/
theorem Clash.proceeds {g : Grammar} {a : Automaton} {s : StateId} (hs : a.Accepting g s)
    (ha : a.Canonical g) {e : Conflict} (he : g.Clash a e) :
    e.symbol.isTerminal ∧ Proceeds a e.state e.symbol e.existing ∧
      Proceeds a e.state e.symbol e.incoming := by
  have helsewhere := hs.not_clash ha he
  have hnot {c : Action} (hasks : g.Asks a e.state e.symbol c) : c ≠ .accept := by
    intro hc
    rw [hc] at hasks
    exact helsewhere (hs.asks_accept_iff.mp hasks).1
  have hasked := he.asked
  cases hX : e.symbol with
  | terminal t =>
    rw [hX] at hasked hnot
    refine ⟨rfl, ?_, g.proceeds_of_asks hasked (hnot hasked)⟩
    have hfirst := he.first
    rw [hX] at hfirst
    cases hfirst with
    | item _ _ hitem _ => exact (g.proceeds_of_itemAsks hitem).2
    | rest _ _ hrest => exact g.proceeds_of_asks hrest (hnot hrest)
  | nonterminal n =>
    exfalso
    have hfirst := he.first
    rw [hX] at hasked hfirst
    cases hfirst with
    | item _ _ hitem _ => cases (g.proceeds_of_itemAsks hitem).1
    | rest _ _ hrest => exact he.differs (g.asks_nonterminal_unique hrest hasked)

/-- One of two different actions that go on with a terminal is a reduction. -/
theorem kind_of_proceeds {a : Automaton} {e : Conflict}
    (hexisting : Proceeds a e.state e.symbol e.existing)
    (hincoming : Proceeds a e.state e.symbol e.incoming) (hdiffers : e.existing ≠ e.incoming) :
    e.kind = .shiftReduce ∨ e.kind = .reduceReduce := by
  obtain ⟨state, symbol, name, existing, incoming⟩ := e
  cases hexisting with
  | shift hget =>
    cases hincoming with
    | shift hget' =>
      have hsame := Option.some.inj (hget.symm.trans hget')
      exact False.elim (hdiffers (congrArg Action.shift hsame))
    | reduce p => exact Or.inl rfl
  | reduce p =>
    cases hincoming with
    | shift => exact Or.inl rfl
    | reduce p' => exact Or.inr rfl

/-- On the end of input the states other than the accepting one reduce or refuse. -/
theorem action_endOfInput (g : Grammar) {t : Table} (hfits : t.Fits g) {s s' : StateId}
    (h : t.automaton.Accepting g s) {items : ItemSet} (hs' : t.automaton.state? s' = some items)
    (hne : s' ≠ s) :
    (∃ p, t.action s' .endOfInput = .ok (.reduce p)) ∨ t.action s' .endOfInput = .ok .error := by
  rcases hfits.action_cases hs' .endOfInput with ⟨c, hc, haction⟩ | herror
  · left
    cases c with
    | reduce p => exact ⟨p, haction⟩
    | shift target =>
      obtain ⟨t, ht, hend, -⟩ := g.asks_shift hc
      cases ht
      exact False.elim (hend rfl)
    | goto target =>
      obtain ⟨n, hn, -⟩ := g.asks_goto hc
      cases hn
    | accept => exact False.elim (hne (h.asks_accept_iff.mp hc).1)
    | error => exact False.elim (g.not_asks_error hc)
  · exact Or.inr herror

theorem action_accept_iff (g : Grammar) {t : Table} (hfits : t.Fits g) {s : StateId}
    (h : t.automaton.Accepting g s) (s' : StateId) (X : Symbol) :
    t.action s' X = .ok .accept ↔ s' = s ∧ X = .endOfInput := by
  rw [← h.asks_accept_iff]
  constructor
  · intro haction
    cases hs' : t.automaton.state? s' with
    | none =>
      rw [hfits.action_of_no_state hs'] at haction
      cases haction
    | some items =>
      rcases hfits.action_cases hs' X with ⟨c, hc, hcell⟩ | hcell
      · rw [hcell] at haction
        cases haction
        exact hc
      · rw [hcell] at haction
        cases haction
  · exact hfits.action_of_asks

/-- One state completes the root, and only the root leads to it, from the start state. Acceptance
has one cell of the table and no conflicts. -/
theorem acceptance_isolated (g : Grammar) :
    ({items | g.CanonicalSet items}.encard ≤ StateId.capacity → ∃ a, g.automaton = .ok a) ∧
    (∀ a, g.automaton = .ok a → ∃ s, a.Accepting g s) ∧
    (∀ o conflicts, g.table o = .error (.conflict conflicts) → ∀ e ∈ conflicts,
      e.symbol.isTerminal ∧ (e.kind = .shiftReduce ∨ e.kind = .reduceReduce) ∧
      ∀ c, c = e.existing ∨ c = e.incoming → c ≠ .accept ∧ ∀ target, c ≠ .goto target) ∧
    (∀ o t, g.table o = .ok t → ∃ s, t.automaton.Accepting g s ∧
      (∀ s' X, t.action s' X = .ok .accept ↔ s' = s ∧ X = .endOfInput) ∧
      ∀ s' items, t.automaton.state? s' = some items → s' ≠ s →
        (∃ p, t.action s' .endOfInput = .ok (.reduce p)) ∨
          t.action s' .endOfInput = .ok .error) := by
  refine ⟨g.exists_automaton_of_few, fun a ha => g.exists_accepting ha, ?_, ?_⟩
  · intro o conflicts h e he
    obtain ⟨a, ha, hclash⟩ := g.clash_of_table o conflicts h
    obtain ⟨s, hs⟩ := g.exists_accepting ha
    obtain ⟨hterminal, hexisting, hincoming⟩ :=
      (hclash e he).proceeds hs (g.automaton_canonical a ha)
    refine ⟨hterminal, kind_of_proceeds hexisting hincoming (hclash e he).differs, ?_⟩
    intro c hc
    have hproceeds : Proceeds a e.state e.symbol c := by
      rcases hc with rfl | rfl
      · exact hexisting
      · exact hincoming
    cases hproceeds with
    | shift => exact ⟨by simp, by simp⟩
    | reduce => exact ⟨by simp, by simp⟩
  · intro o t ht
    have hfits := g.table_fits o t ht
    obtain ⟨s, hs⟩ := g.exists_accepting hfits.automaton
    exact ⟨s, hs, g.action_accept_iff hfits hs, fun s' items hs' hne =>
      g.action_endOfInput hfits hs hs' hne⟩

end Grammar
end ShiftReduce
