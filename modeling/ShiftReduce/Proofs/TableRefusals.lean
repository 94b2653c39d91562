import ShiftReduce.Proofs.CyclicSets
import ShiftReduce.Proofs.SLRTable

namespace ShiftReduce

/-- The errors that can come before the conflicts. -/
inductive BuildError.Early : BuildError → Prop
  | grammar (f : GrammarFault) : Early (.grammar f)
  | misuse (m : Misuse) : Early (.misuse m)
  | dangling (d : Dangling) : Early (.dangling d)

namespace Exploration

theorem early_of_record (e : Exploration) (source : StateId) (X : Symbol) (items : ItemSet)
    (x : BuildError) (h : e.record source X items = .error x) : x.Early := by
  unfold record at h
  generalize place e.found items = placed at h
  obtain ⟨index, new⟩ := placed
  simp only at h
  split at h
  · split at h
    · cases h
      exact .misuse _
    · split at h
      · cases h
      · cases h
  · cases h
    exact .misuse _

theorem early_of_step (g : Grammar) (e : Exploration) (source : StateId) (X : Symbol)
    (x : BuildError) (h : e.step g source X = .error x) : x.Early := by
  unfold step at h
  split at h
  · cases h
    exact .dangling _
  · split at h
    · cases h
      exact .dangling _
    · split at h
      · cases h
      · exact e.early_of_record source X _ x h

theorem early_of_steps (g : Grammar) (source : StateId) (symbols : List Symbol) (e : Exploration)
    (x : BuildError) (h : e.steps g source symbols = .error x) : x.Early := by
  induction symbols generalizing e with
  | nil => cases h
  | cons X symbols ih =>
    rw [steps] at h
    split at h
    · rename_i hstep
      cases h
      exact e.early_of_step g source X _ hstep
    · exact ih _ h

theorem early_of_run (g : Grammar) (budget : Nat) (e : Exploration) (x : BuildError)
    (h : e.run g budget = .error x) : x.Early := by
  induction budget generalizing e with
  | zero =>
    cases h
    exact .misuse _
  | succ budget ih =>
    rw [run] at h
    split at h
    · cases h
    · split at h
      · rename_i hsteps
        cases h
        exact early_of_steps g _ g.symbols _ _ hsteps
      · exact ih _ h

end Exploration

namespace Grammar

theorem early_of_automaton (g : Grammar) (x : BuildError) (h : g.automaton = .error x) :
    x.Early := by
  unfold automaton at h
  split at h
  · cases h
    exact .dangling _
  · split at h
    · rename_i hrun
      cases h
      exact Exploration.early_of_run g _ _ _ hrun
    · cases h

/-- A row is refused for nothing but FOLLOW of the head of an item. -/
theorem fault_of_itemCandidates (g : Grammar) (a : Automaton) (ha : a.Canonical g) (s : StateId)
    (items : ItemSet) (hs : a.state? s = some items) (item : Item) (hitem : item ∈ items)
    (sets b : Analysis) (hsets : sets.Sound g) (hidle : sets.underway = []) (x : BuildError)
    (h : g.itemCandidates a s item sets = (.error x, b)) : ∃ fault, x = .grammar fault := by
  obtain ⟨q, hq, -⟩ := ha.hasItem s items hs item hitem
  unfold itemCandidates at h
  rw [hq] at h
  simp only at h
  split at h
  · cases h
  · rename_i t ht
    obtain ⟨target, -, htarget, -⟩ :=
      ha.follow_item hs hitem (g.afterDot?_eq_some_iff.mpr ⟨q, hq, ht⟩)
    rw [htarget] at h
    split at h
    · cases h
    · cases h
  · split at h
    · cases h
    · split at h
      · rename_i hfollow
        cases h
        have hd := g.contains_head hq
        have hlookUp : g.follow (.nonterminal q.head) sets =
          g.lookUp g.setCount (.follow q.head) sets := if_pos hd
        rw [hlookUp] at hfollow
        obtain ⟨u, -, rfl⟩ := g.circles_of_lookUp g.setCount (.follow q.head) sets hd
          (g.ready_of_idle _ sets hsets hidle) x (congrArg Prod.fst hfollow)
        exact ⟨_, rfl⟩
      · cases h

theorem fault_of_itemsCandidates (g : Grammar) (a : Automaton) (ha : a.Canonical g) (s : StateId)
    (state : ItemSet) (hs : a.state? s = some state) (items : List Item)
    (hitems : ∀ item ∈ items, item ∈ state) (sets b : Analysis) (hsets : sets.Sound g)
    (hidle : sets.underway = []) (x : BuildError)
    (h : g.itemsCandidates a s items sets = (.error x, b)) : ∃ fault, x = .grammar fault := by
  induction items generalizing sets with
  | nil => cases h
  | cons item items ih =>
    have hmem := hitems item List.mem_cons_self
    have hitem := g.itemCandidates_leaves a ha s state hs item hmem sets hsets hidle
    rw [itemsCandidates] at h
    rcases hitem.cases with ⟨e, c, hx, -⟩ | ⟨part, c, hx, hc, hcu, -⟩
    · rw [hx] at h
      cases h
      exact g.fault_of_itemCandidates a ha s state hs item hmem sets _ hsets hidle _ hx
    · rw [hx] at h
      simp only at h
      split at h
      · rename_i hrest
        cases h
        exact ih (fun i hi => hitems i (List.mem_cons_of_mem _ hi)) c hc (hcu.trans hidle) hrest
      · cases h

theorem fault_of_stateCandidates (g : Grammar) (a : Automaton) (ha : a.Canonical g) (s : StateId)
    (items : ItemSet) (hs : a.state? s = some items) (sets b : Analysis) (hsets : sets.Sound g)
    (hidle : sets.underway = []) (x : BuildError)
    (h : g.stateCandidates a s items sets = (.error x, b)) : ∃ fault, x = .grammar fault := by
  unfold stateCandidates at h
  split at h
  · rename_i hitems
    cases h
    exact g.fault_of_itemsCandidates a ha s items hs items.toList (fun _ hi => hi) sets _ hsets
      hidle _ hitems
  · cases h

theorem fault_of_fillRows (g : Grammar) (o : BuildOptions) (a : Automaton) (ha : a.Canonical g)
    (states : List ItemSet) (s : Nat)
    (hstates : ∀ i items, states[i]? = some items → a.state? ⟨s + i⟩ = some items)
    (sets b : Analysis) (hsets : sets.Sound g) (hidle : sets.underway = []) (x : BuildError)
    (h : g.fillRows o a s states sets = (.error x, b)) : ∃ fault, x = .grammar fault := by
  induction states generalizing s sets with
  | nil => cases h
  | cons items states ih =>
    obtain ⟨hitems, hstates⟩ :=
      (forall_numbered_cons (fun i items => a.state? ⟨i⟩ = some items) s items states).mp hstates
    have hcandidates := g.stateCandidates_leaves a ha ⟨s⟩ items hitems sets hsets hidle
    have hfills := g.fills o a s items states sets
    rw [h] at hfills
    cases hfills with
    | refused hx => exact g.fault_of_stateCandidates a ha ⟨s⟩ items hitems sets _ hsets hidle _ hx
    | failed hx hrest =>
      rw [hx] at hcandidates
      obtain ⟨hc, hcu, -⟩ := hcandidates
      exact ih (s + 1) hstates _ hc (hcu.trans hidle) hrest

/-- The conflicts that a table is refused for are those of the rows of the automaton. -/
theorem conflicts_of_table (g : Grammar) (o : BuildOptions) (conflicts : List Conflict)
    (h : g.table o = .error (.conflict conflicts)) :
    ∃ a rows sets, g.automaton = .ok a ∧
      g.fillRows o a 0 a.states .empty = (.ok (rows, conflicts), sets) := by
  unfold table at h
  split at h
  · rename_i hautomaton
    cases h
    cases g.early_of_automaton _ hautomaton
  · rename_i a ha
    unfold tableOf at h
    generalize hfilled : g.fillRows o a 0 a.states .empty = filled at h
    obtain ⟨outcome, sets⟩ := filled
    cases outcome with
    | error x =>
      cases h
      obtain ⟨fault, hfault⟩ := g.fault_of_fillRows o a (g.automaton_canonical a ha) a.states 0
        a.state?_zero_add .empty sets g.sound_empty rfl _ hfilled
      cases hfault
    | ok filled =>
      obtain ⟨rows, found⟩ := filled
      cases found with
      | nil => cases h
      | cons conflict more =>
        simp only at h
        split at h
        · cases h
        · cases h
          exact ⟨a, rows, sets, ha, hfilled⟩

end Grammar
end ShiftReduce
