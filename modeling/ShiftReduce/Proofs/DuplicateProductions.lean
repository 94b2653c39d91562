import ShiftReduce.Proofs.BuildFailures
import ShiftReduce.Proofs.ReachableHeads

/-! Productions that say the same have items valid for the same strings. The reduction with the
greater number never comes first, and so it is always in conflict. -/
namespace ShiftReduce

theorem OrderedSet.exists_least {α : Type} [LT α] [LinearLT α] (s : OrderedSet α) (P : α → Prop)
    (h : ∃ a ∈ s, P a) : ∃ a ∈ s, P a ∧ ∀ b ∈ s, b < a → ¬ P b := by
  have hlist (l : List α) (hl : l.Pairwise (· < ·)) (h : ∃ a ∈ l, P a) :
      ∃ a ∈ l, P a ∧ ∀ b ∈ l, b < a → ¬ P b := by
    induction l with
    | nil =>
      obtain ⟨a, ha, -⟩ := h
      exact False.elim (List.not_mem_nil ha)
    | cons x l ih =>
      obtain ⟨hfirst, hl⟩ := List.pairwise_cons.mp hl
      by_cases hx : P x
      · refine ⟨x, List.mem_cons_self, hx, ?_⟩
        intro b hb hlt
        rcases List.mem_cons.mp hb with rfl | hb
        · exact False.elim (LinearLT.irrefl b hlt)
        · exact False.elim (LinearLT.irrefl b (LinearLT.trans hlt (hfirst b hb)))
      · have hrest : ∃ a ∈ l, P a := by
          obtain ⟨a, ha, hPa⟩ := h
          rcases List.mem_cons.mp ha with rfl | ha
          · exact False.elim (hx hPa)
          · exact ⟨a, ha, hPa⟩
        obtain ⟨a, ha, hPa, hleast⟩ := ih hl hrest
        exact ⟨a, List.mem_cons_of_mem x ha, hPa, List.forall_mem_cons.mpr ⟨fun _ => hx, hleast⟩⟩
  exact hlist s.toList s.ascending h

namespace Grammar

theorem exists_context_of_leadsTo (g : Grammar) {n : Nonterminal} (h : g.LeadsTo g.root n) :
    ∃ symbols, g.Context symbols n := by
  induction h with
  | refl =>
    have htail : g.augmentedProduction.tail = [] ++ .nonterminal g.root :: [.endOfInput] := rfl
    exact ⟨_, .tail .start g.production?_augmented htail⟩
  | tail _ hrefers ih =>
    obtain ⟨before, hbefore⟩ := ih
    obtain ⟨p, q, hq, rfl, hmem⟩ := hrefers
    obtain ⟨left, right, htail⟩ := List.append_of_mem hmem
    exact ⟨_, .tail hbefore hq htail⟩

/-- In a cell for which an item asks for something, something is written first. -/
theorem exists_asksFirst (g : Grammar) {a : Automaton} {s : StateId} {items : ItemSet}
    (hs : a.state? s = some items) {item : Item} (hitem : item ∈ items) {X : Symbol} {c : Action}
    (h : g.ItemAsks a s item X c) : ∃ first, g.AsksFirst a s X first := by
  obtain ⟨i, hi, ⟨first, hfirst⟩, hleast⟩ :=
    items.exists_least (fun i => ∃ c, g.ItemAsks a s i X c) ⟨item, hitem, c, h⟩
  refine ⟨first, .item hs hi hfirst ?_⟩
  intro j hj hlt d hd
  exact hleast j hj hlt ⟨d, hd⟩

/-- Two productions of different numbers say the same. -/
structure Duplicates (g : Grammar) (p q : ProductionId) (r : Production) : Prop where
  earlier : g.production? p = some r
  later : g.production? q = some r
  lt : p.number < q.number

namespace Duplicates

variable {g : Grammar} {p q : ProductionId} {r : Production} (h : g.Duplicates p q r)
include h

theorem ne_augmented : p ≠ .augmented ∧ q ≠ .augmented := by
  have hq : q ≠ .augmented := by
    intro he
    have hlt := h.lt
    rw [he] at hlt
    exact Nat.not_lt_zero p.number hlt
  refine ⟨?_, hq⟩
  intro he
  have hr := h.earlier
  rw [he, g.production?_augmented] at hr
  cases hr
  exact g.head_ne_start h.later hq rfl

/-- Both are complete after their tail, behind any context of their head. -/
theorem exists_state {a : Automaton} (ha : a.Canonical g) (hreach : g.LeadsTo g.root r.head) :
    ∃ s items, a.state? s = some items ∧ ⟨p, r.tail.length⟩ ∈ items ∧
      ⟨q, r.tail.length⟩ ∈ items := by
  obtain ⟨before, hbefore⟩ := g.exists_context_of_leadsTo hreach
  have htail : r.tail = r.tail ++ [] := (List.append_nil r.tail).symm
  have hp := g.validFor_of_tail hbefore h.earlier htail
  have hq := g.validFor_of_tail hbefore h.later htail
  obtain ⟨states, hpath⟩ := Automaton.exists_path_of_validFor ha _ _ hp
  obtain ⟨s, below, items, -, hs, hitems⟩ := hpath.exists_valid ha
  rw [List.reverse_reverse] at hitems
  exact ⟨s, items, hs, (hitems _).mpr hp, (hitems _).mpr hq⟩

section
variable {a : Automaton} {s : StateId} {items : ItemSet} (hs : a.state? s = some items)
  (hp : ⟨p, r.tail.length⟩ ∈ items) (hq : ⟨q, r.tail.length⟩ ∈ items) {t : Terminal}
  (ht : g.Collects (.follow r.head) t)

include ht in
theorem itemAsks : g.ItemAsks a s ⟨p, r.tail.length⟩ (.terminal t) (.reduce p) :=
  .reduce ⟨h.ne_augmented.1, r, h.earlier, rfl, rfl⟩ ht

include hs hp hq ht in
theorem asks (hres : g.Resolves (.follow r.head)) :
    g.Asks a s (.terminal t) (.reduce p) ∧ g.Asks a s (.terminal t) (.reduce q) :=
  ⟨g.asks_of_collects hs hp ⟨h.ne_augmented.1, r, h.earlier, rfl, rfl⟩ hres ht,
    g.asks_of_collects hs hq ⟨h.ne_augmented.2, r, h.later, rfl, rfl⟩ hres ht⟩

include hs hp ht in
/-- The later reduction is not written first, since the item of the earlier one comes before. -/
theorem not_asksFirst : ¬ g.AsksFirst a s (.terminal t) (.reduce q) := by
  have hasks : g.ItemAsks a s ⟨p, r.tail.length⟩ (.terminal t) (.reduce p) := h.itemAsks ht
  intro hfirst
  cases hfirst with
  | @item items' item hs' hitem hitemAsks hleast =>
    rw [hs] at hs'
    cases hs'
    cases hitemAsks with
    | reduce hn =>
      have hlt : (⟨p, r.tail.length⟩ : Item) < item := Item.lt_iff.mpr (Or.inl h.lt)
      exact hleast _ hp hlt _ hasks
  | rest hs' hnone =>
    rw [hs] at hs'
    cases hs'
    exact hnone _ hp _ hasks

include hs hp hq ht in
/-- Whatever is written first into the cell clashes with the later reduction. -/
theorem exists_clash (hres : g.Resolves (.follow r.head)) :
    ∃ first, g.Clash a ⟨s, .terminal t, g.nameOf (.terminal t), first, .reduce q⟩ := by
  have hasks : g.ItemAsks a s ⟨p, r.tail.length⟩ (.terminal t) (.reduce p) := h.itemAsks ht
  obtain ⟨first, hfirst⟩ := g.exists_asksFirst hs hp hasks
  refine ⟨first, rfl, hfirst, (h.asks hs hp hq ht hres).2, ?_⟩
  intro he
  have hnot := h.not_asksFirst hs hp ht
  have hfirst' : g.AsksFirst a s (.terminal t) first := hfirst
  rw [show first = .reduce q from he] at hfirst'
  exact hnot hfirst'

end

theorem table_ne_ok (hreach : g.LeadsTo g.root r.head) {t : Terminal}
    (ht : g.Collects (.follow r.head) t) (hres : g.Resolves (.follow r.head)) (o : BuildOptions)
    (table : Table) : g.table o ≠ .ok table := by
  intro htable
  have hfits := g.table_fits o table htable
  obtain ⟨s, items, hs, hp, hq⟩ := h.exists_state hfits.canonical hreach
  obtain ⟨hearlier, hlater⟩ := h.asks hs hp hq ht hres
  have hclear := hfits.clear s.number items hs
  rw [Nat.zero_add] at hclear
  cases hclear.single _ _ _ hearlier hlater
  exact Nat.lt_irrefl _ h.lt

end Duplicates

/-- The table of an automaton of the grammar is refused for a fault of the grammar or for
conflicts. -/
theorem error_of_tableOf (g : Grammar) (o : BuildOptions) {a : Automaton} (ha : a.Canonical g)
    {x : BuildError} (h : g.tableOf o a = .error x) :
    (∃ fault, x = .grammar fault) ∨ ∃ conflicts, x = .conflict conflicts := by
  have hrefused := (g.tableOf_ends a o).1 x h
  cases hrefused with
  | grammar fault => exact Or.inl ⟨fault, rfl⟩
  | foreignProduction hs hitem hforeign =>
    obtain ⟨q, hq, -⟩ := ha.hasItem _ _ hs _ hitem
    rw [hforeign] at hq
    cases hq
  | missingTransition hs hitem hafter hnone =>
    obtain ⟨target, next, hget, -⟩ := ha.follow_item hs hitem hafter
    rw [hnone] at hget
    cases hget
  | conflict _ => exact Or.inr ⟨_, rfl⟩

theorem mem_conflicts_of_clash (g : Grammar) {conflicts : List Conflict} {a : Automaton}
    (ha : g.automaton = .ok a) (h : g.table .thorough = .error (.conflict conflicts))
    {e : Conflict} (he : g.Clash a e) : e ∈ conflicts := by
  obtain ⟨b, rows, sets, hb, hfilled⟩ := g.conflicts_of_table .thorough conflicts h
  rw [ha] at hb
  cases hb
  have hcanonical := g.automaton_canonical a ha
  have hreported := (g.fillRows_reported a hcanonical a.states 0 rfl .empty sets g.sound_empty rfl
    rows conflicts hfilled e).1 (Nat.zero_le _)
  obtain ⟨items, hitems⟩ := g.state_of_asks a hcanonical _ _ _ he.asked
  apply List.count_pos_iff.mp
  rw [hreported.1 items hitems he]
  exact g.timesWritten_pos hitems he.asked

theorem resolves_of_follow (g : Grammar) {a : Analysis} (ha : a.Sound g) (hidle : a.underway = [])
    {n : Nonterminal} {follow : TerminalSet} (hn : g.contains (.nonterminal n))
    (h : (g.follow (.nonterminal n) a).1 = .ok follow) : g.Resolves (.follow n) := by
  rcases (g.follow_answers n a hn ha hidle).cases with ⟨x, b, hx, -⟩ | ⟨s, b, -, -, -, hres, -⟩
  · rw [hx] at h
    cases h
  · exact hres

/-- Where a reachable head with a FOLLOW has the same production twice, the later reduction is in
conflict on all of FOLLOW, and there is no table. -/
theorem duplicates_conflict (g : Grammar) (p q : ProductionId) (r : Production)
    (h : g.Duplicates p q r) (hreach : g.LeadsTo g.root r.head) (queries : List Query)
    (follow : TerminalSet)
    (hfollow : (g.follow (.nonterminal r.head) (g.askAll .empty queries)).1 = .ok follow)
    (hsome : follow.isEmpty = false) :
    (∀ o t, g.table o ≠ .ok t) ∧
    ((∃ fault, g.table .thorough = .error (.grammar fault)) ∨
      (∃ conflicts s, g.table .thorough = .error (.conflict conflicts) ∧
        ∀ t ∈ follow, ∃ e ∈ conflicts, e.state = s ∧ e.symbol = .terminal t ∧
          e.incoming = .reduce q) ∨
      (StateId.capacity < {items | g.CanonicalSet items}.encard ∧
        g.table .thorough = .error (.misuse (.tooManyStates StateId.capacity)))) := by
  obtain ⟨hsound, hidle⟩ := g.askAll_sound .empty queries g.sound_empty rfl
  have hres := g.resolves_of_follow hsound hidle (g.contains_head h.later) hfollow
  have hcollects (t : Terminal) : t ∈ follow ↔ g.Collects (.follow r.head) t :=
    g.mem_follow_iff hsound hidle hfollow t
  obtain ⟨u, hu⟩ := OrderedSet.isEmpty_eq_false_iff.mp hsome
  have hnone (o : BuildOptions) (t : Table) : g.table o ≠ .ok t :=
    h.table_ne_ok hreach ((hcollects u).mp hu) hres o t
  refine ⟨hnone, ?_⟩
  cases ha : g.automaton with
  | error x =>
    have hfull := g.error_of_automaton ha
    refine Or.inr (Or.inr ⟨?_, ?_⟩)
    · rw [← not_le]
      intro hfew
      obtain ⟨a, ha'⟩ := g.exists_automaton_of_few hfew
      rw [ha] at ha'
      cases ha'
    · simp only [table, ha, hfull]
  | ok a =>
    have hcanonical := g.automaton_canonical a ha
    have htable : g.table .thorough = g.tableOf .thorough a := by simp only [table, ha]
    obtain ⟨s, items, hs, hp, hq⟩ := h.exists_state hcanonical hreach
    cases hx : g.tableOf .thorough a with
    | ok t => exact False.elim (hnone .thorough t (htable.trans hx))
    | error x =>
      rcases g.error_of_tableOf .thorough hcanonical hx with ⟨fault, rfl⟩ | ⟨conflicts, rfl⟩
      · exact Or.inl ⟨fault, htable.trans hx⟩
      · have hconflicts := htable.trans hx
        refine Or.inr (Or.inl ⟨conflicts, s, hconflicts, ?_⟩)
        intro t ht
        obtain ⟨first, hclash⟩ := h.exists_clash hs hp hq ((hcollects t).mp ht) hres
        exact ⟨_, g.mem_conflicts_of_clash ha hconflicts hclash, rfl, rfl, rfl⟩

theorem duplicates_conflict_twice : ∃ g conflicts s,
    Grammar.define SampleGrammars.duplicate = .ok g ∧
    g.Duplicates ⟨2⟩ ⟨3⟩ ⟨⟨2⟩, [.terminal ⟨1⟩]⟩ ∧ g.LeadsTo g.root ⟨2⟩ ∧
    g.table .thorough = .error (.conflict conflicts) ∧
    ∃ e ∈ conflicts, e.state = s ∧ e.symbol = .endOfInput ∧ e.incoming = .reduce ⟨3⟩ := by
  obtain ⟨g, conflicts, hg, hconflicts, hroot, hone, htwo, hthree, hfollow⟩ :=
    exists_conflicts SampleGrammars.duplicate
      (fun g _ => g.root = ⟨1⟩ ∧ g.production? ⟨1⟩ = some ⟨⟨1⟩, [.nonterminal ⟨2⟩]⟩ ∧
        g.production? ⟨2⟩ = some ⟨⟨2⟩, [.terminal ⟨1⟩]⟩ ∧
        g.production? ⟨3⟩ = some ⟨⟨2⟩, [.terminal ⟨1⟩]⟩ ∧
        (g.follow (.nonterminal ⟨2⟩) (g.askAll .empty [])).1 = .ok (.singleton .endOfInput))
      (by decide +kernel)
  have hduplicates : g.Duplicates ⟨2⟩ ⟨3⟩ ⟨⟨2⟩, [.terminal ⟨1⟩]⟩ := ⟨htwo, hthree, by decide⟩
  have hreach : g.LeadsTo g.root ⟨2⟩ := by
    rw [hroot]
    exact .single ⟨⟨1⟩, _, hone, rfl, List.mem_singleton_self _⟩
  have hall := (g.duplicates_conflict ⟨2⟩ ⟨3⟩ _ hduplicates hreach [] _ hfollow rfl).2
  rw [hconflicts] at hall
  rcases hall with ⟨fault, hfault⟩ | ⟨found, s, hfound, hentries⟩ | ⟨-, hfull⟩
  · cases hfault
  · cases hfound
    exact ⟨g, conflicts, s, hg, hduplicates, hreach, hconflicts,
      hentries .endOfInput (OrderedSet.mem_singleton.mpr rfl)⟩
  · cases hfull

end Grammar
end ShiftReduce
