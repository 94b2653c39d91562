import ShiftReduce.Automaton
import ShiftReduce.Proofs.ClosureFixpoint
import ShiftReduce.Proofs.TransitionLookup
import ShiftReduce.Proofs.WorklistOrder

/-! Exploration keeps the edges true to the item sets, and a state leaves the worklist only when all
its edges are recorded. -/
namespace ShiftReduce

/-- What the automaton of a grammar is. -/
structure Automaton.Canonical (g : Grammar) (a : Automaton) : Prop where
  start : a.state? .start = some (g.expand [Grammar.startItem])
  hasItem : ∀ s items, a.state? s = some items → ∀ i ∈ items, g.HasItem i
  nodup : a.states.Nodup
  functional : a.transitions.Functional
  /-- An edge leads to the state of all that its symbol leads to. -/
  edge : ∀ s X target, a.transitions.get? s X = some target →
    ∃ items, a.state? s = some items ∧ (g.successor items X).isEmpty = false ∧
      a.state? target = some (g.successor items X)
  /-- Where a symbol leads anywhere, there is an edge. -/
  total : ∀ s items X, a.state? s = some items → (g.successor items X).isEmpty = false →
    ∃ target, a.transitions.get? s X = some target

namespace Exploration

/-- The item sets and edges found so far are right. -/
structure Sound (g : Grammar) (e : Exploration) : Prop where
  start : e.found[0]? = some (g.expand [Grammar.startItem])
  hasItem : ∀ items ∈ e.found, ∀ i ∈ items, g.HasItem i
  nodup : e.found.Nodup
  pending : e.pending.Valid
  functional : e.transitions.Functional
  edge : ∀ s X target, e.transitions.get? s X = some target →
    ∃ items, e.found[s.number]? = some items ∧ (g.successor items X).isEmpty = false ∧
      e.found[target.number]? = some (g.successor items X)

/-- If `X` leads anywhere from state `s`, then the edge is recorded. -/
def Covers (g : Grammar) (e : Exploration) (s : StateId) (X : Symbol) : Prop :=
  ∀ items, e.found[s.number]? = some items → (g.successor items X).isEmpty = false →
    ∃ target, e.transitions.get? s X = some target

/-- Every state is pending, or its edges are recorded but for those still to do. -/
def Complete (g : Grammar) (e : Exploration) (todo : StateId → Symbol → Prop) : Prop :=
  ∀ s X, s.number < e.found.length → s ∈ e.pending.line ∨ todo s X ∨ e.Covers g s X

theorem place_eq (found : List ItemSet) (items : ItemSet) (index : Nat) (new : Bool)
    (h : place found items = (index, new)) :
    (new = false ∧ found[index]? = some items) ∨
      (new = true ∧ items ∉ found ∧ index = found.length) := by
  unfold place at h
  split at h
  · rename_i i hi
    cases h
    left
    refine ⟨rfl, ?_⟩
    obtain ⟨hlt, hget, -⟩ := List.findIdx?_eq_some_iff_getElem.mp hi
    rw [List.getElem?_eq_getElem hlt]
    simpa using hget
  · rename_i hnone
    cases h
    right
    exact ⟨rfl, List.idxOf?_eq_none_iff.mp hnone, rfl⟩

/-- A record adds one edge, to a set that was found before or is new and then pending. -/
theorem record_cases (e e' : Exploration) (source : StateId) (X : Symbol) (items : ItemSet)
    (h : e.record source X items = .ok e') :
    ∃ target : StateId, e.transitions.insert source X target = .ok e'.transitions ∧
      ((e'.found = e.found ∧ e'.pending = e.pending ∧ e.found[target.number]? = some items) ∨
        (items ∉ e.found ∧ target.number = e.found.length ∧ e'.found = e.found ++ [items] ∧
          e'.pending = (e.pending.push target).2)) := by
  unfold record at h
  generalize hplace : place e.found items = placed at h
  obtain ⟨index, new⟩ := placed
  simp only at h
  split at h
  · split at h
    · cases h
    · rename_i transitions hinsert
      rcases place_eq e.found items index new hplace with ⟨rfl, hget⟩ | ⟨rfl, hnew, rfl⟩
      · cases h
        exact ⟨⟨index⟩, hinsert, Or.inl ⟨rfl, rfl, hget⟩⟩
      · cases h
        exact ⟨⟨e.found.length⟩, hinsert, Or.inr ⟨hnew, rfl, rfl, rfl⟩⟩
  · cases h

theorem step_cases (g : Grammar) (e e' : Exploration) (source : StateId) (X : Symbol)
    (hs : e.Sound g) (h : e.step g source X = .ok e') :
    ∃ items, e.found[source.number]? = some items ∧
      (((g.successor items X).isEmpty = true ∧ e' = e) ∨
        ((g.successor items X).isEmpty = false ∧
          e.record source X (g.successor items X) = .ok e')) := by
  unfold step at h
  split at h
  · cases h
  · rename_i items hitems
    refine ⟨items, hitems, ?_⟩
    have hknown := g.knows_of_hasItem (hs.hasItem items (List.mem_of_getElem? hitems))
    rw [g.goto_eq_ok hknown X] at h
    simp only at h
    split at h
    · rename_i hempty
      cases h
      exact Or.inl ⟨hempty, rfl⟩
    · rename_i hne
      exact Or.inr ⟨by simpa using hne, h⟩

theorem getElem?_of_append (found more : List ItemSet) (i : Nat) (items : ItemSet)
    (h : found[i]? = some items) : (found ++ more)[i]? = some items := by
  rw [List.getElem?_append_left (List.getElem?_eq_some_iff.mp h).choose]
  exact h

section
variable {e e' : Exploration} {source : StateId} {X : Symbol} {items : ItemSet}
  (h : e.record source X items = .ok e')
include h

theorem found_of_record {i : Nat} {old : ItemSet} (hold : e.found[i]? = some old) :
    e'.found[i]? = some old := by
  obtain ⟨target, -, ⟨hfound, -, -⟩ | ⟨-, -, hfound, -⟩⟩ := record_cases e e' source X items h
  · rw [hfound]
    exact hold
  · rw [hfound]
    exact getElem?_of_append _ _ _ _ hold

theorem edges_of_record (hf : e.transitions.Functional) :
    ∃ target : StateId, e'.found[target.number]? = some items ∧ e'.transitions.Functional ∧
      ∀ s Y, e'.transitions.get? s Y =
        if s = source ∧ Y = X then some target else e.transitions.get? s Y := by
  obtain ⟨target, hinsert, hcases⟩ := record_cases e e' source X items h
  refine ⟨target, ?_, Transitions.functional_insert _ _ source X target hf hinsert,
    fun s Y => Transitions.get?_insert _ _ source s X Y target hinsert⟩
  rcases hcases with ⟨hfound, -, hget⟩ | ⟨-, htarget, hfound, -⟩
  · rw [hfound]
    exact hget
  · rw [hfound, htarget]
    simp

theorem pending_of_record (hq : e.pending.Valid) {s : StateId} (hlt : s.number < e'.found.length)
    (hs : s.number < e.found.length → s ∈ e.pending.line) : s ∈ e'.pending.line := by
  obtain ⟨target, -, ⟨hfound, hpending, -⟩ | ⟨-, htarget, hfound, hpending⟩⟩ :=
    record_cases e e' source X items h
  · rw [hfound] at hlt
    rw [hpending]
    exact hs hlt
  · rw [hfound, List.length_append, List.length_singleton] at hlt
    rw [hpending, Worklist.mem_line_push _ hq]
    by_cases hnew : s.number < e.found.length
    · exact Or.inl (hs hnew)
    · right
      have hnumber : s.number = target.number := by omega
      obtain ⟨i⟩ := s
      obtain ⟨j⟩ := target
      exact congrArg StateId.mk hnumber

end

theorem sound_record (g : Grammar) (e e' : Exploration) (source : StateId) (X : Symbol)
    (items : ItemSet) (hs : e.Sound g) (hitems : e.found[source.number]? = some items)
    (hne : (g.successor items X).isEmpty = false)
    (h : e.record source X (g.successor items X) = .ok e') : e'.Sound g := by
  obtain ⟨target, htarget, hfunctional, hget⟩ := edges_of_record h hs.functional
  have hedge (s : StateId) (Y : Symbol) (t : StateId) (ht : e'.transitions.get? s Y = some t) :
      ∃ old, e'.found[s.number]? = some old ∧ (g.successor old Y).isEmpty = false ∧
        e'.found[t.number]? = some (g.successor old Y) := by
    rw [hget s Y] at ht
    by_cases hnew : s = source ∧ Y = X
    · rw [if_pos hnew] at ht
      cases ht
      obtain ⟨rfl, rfl⟩ := hnew
      exact ⟨items, found_of_record h hitems, hne, htarget⟩
    · rw [if_neg hnew] at ht
      obtain ⟨old, hold, hne', ht'⟩ := hs.edge s Y t ht
      exact ⟨old, found_of_record h hold, hne', found_of_record h ht'⟩
  obtain ⟨place, -, ⟨hfound, hpending, -⟩ | ⟨hnew, -, hfound, hpending⟩⟩ :=
    record_cases e e' source X _ h
  · exact ⟨hfound ▸ hs.start, hfound ▸ hs.hasItem, hfound ▸ hs.nodup, hpending ▸ hs.pending,
      hfunctional, hedge⟩
  · refine ⟨found_of_record h hs.start, ?_, ?_, hpending ▸ Worklist.valid_push _ hs.pending _,
      hfunctional, hedge⟩
    · intro found hmem
      rw [hfound, List.mem_append, List.mem_singleton] at hmem
      rcases hmem with hmem | rfl
      · exact hs.hasItem found hmem
      · exact fun i hi => g.hasItem_successor items X hi
    · rw [hfound, ← List.concat_eq_append]
      exact hs.nodup.concat hnew

/-- Work that was done stays done, and the recorded edge is the work for its symbol. -/
theorem covers_of_record (g : Grammar) {e e' : Exploration} {source : StateId} {X : Symbol}
    {items : ItemSet} (hs : e.Sound g) (h : e.record source X items = .ok e') (s : StateId)
    (Y : Symbol) (hlt : s.number < e.found.length)
    (hc : (s = source ∧ Y = X) ∨ e.Covers g s Y) : e'.Covers g s Y := by
  intro found hfound hfull
  obtain ⟨target, -, -, hget⟩ := edges_of_record h hs.functional
  rw [hget s Y]
  by_cases hedge : s = source ∧ Y = X
  · rw [if_pos hedge]
    exact ⟨target, rfl⟩
  · rw [if_neg hedge]
    have hsame := found_of_record h (List.getElem?_eq_getElem hlt)
    rw [hfound] at hsame
    rw [Option.some.inj hsame] at hfull
    exact hc.resolve_left hedge _ (List.getElem?_eq_getElem hlt) hfull

/-- A step does the work for its symbol and leaves no other work undone. -/
theorem complete_step (g : Grammar) (e e' : Exploration) (source : StateId) (X : Symbol)
    (symbols : List Symbol) (hs : e.Sound g)
    (hc : e.Complete g fun s Y => s = source ∧ Y ∈ X :: symbols)
    (h : e.step g source X = .ok e') :
    e'.Sound g ∧ e'.Complete g fun s Y => s = source ∧ Y ∈ symbols := by
  have htodo (s : StateId) (Y : Symbol) (hlt : s.number < e.found.length) :
      s ∈ e.pending.line ∨ (s = source ∧ Y ∈ symbols) ∨
        ((s = source ∧ Y = X) ∨ e.Covers g s Y) := by
    rcases hc s Y hlt with hline | ⟨rfl, hY⟩ | hcovers
    · exact Or.inl hline
    · rcases List.mem_cons.mp hY with hY | hY
      · exact Or.inr (Or.inr (Or.inl ⟨rfl, hY⟩))
      · exact Or.inr (Or.inl ⟨rfl, hY⟩)
    · exact Or.inr (Or.inr (Or.inr hcovers))
  obtain ⟨items, hitems, ⟨hempty, rfl⟩ | ⟨hne, hrecord⟩⟩ := step_cases g e e' source X hs h
  · refine ⟨hs, ?_⟩
    intro s Y hlt
    rcases htodo s Y hlt with hline | hY | ⟨rfl, rfl⟩ | hcovers
    · exact Or.inl hline
    · exact Or.inr (Or.inl hY)
    · refine Or.inr (Or.inr ?_)
      intro found hfound hfull
      rw [hitems] at hfound
      cases hfound
      rw [hempty] at hfull
      cases hfull
    · exact Or.inr (Or.inr hcovers)
  · refine ⟨sound_record g e e' source X items hs hitems hne hrecord, ?_⟩
    intro s Y hlt
    by_cases hold : s.number < e.found.length
    · rcases htodo s Y hold with hline | hY | hcovers
      · exact Or.inl (pending_of_record hrecord hs.pending hlt fun _ => hline)
      · exact Or.inr (Or.inl hY)
      · exact Or.inr (Or.inr (covers_of_record g hs hrecord s Y hold hcovers))
    · exact Or.inl (pending_of_record hrecord hs.pending hlt fun h => False.elim (hold h))

theorem complete_steps (g : Grammar) (source : StateId) (symbols : List Symbol)
    (e e' : Exploration) (hs : e.Sound g)
    (hc : e.Complete g fun s Y => s = source ∧ Y ∈ symbols)
    (h : e.steps g source symbols = .ok e') :
    e'.Sound g ∧ e'.Complete g fun _ _ => False := by
  induction symbols generalizing e with
  | nil =>
    cases h
    refine ⟨hs, ?_⟩
    intro s X hlt
    rcases hc s X hlt with hline | ⟨-, hX⟩ | hcovers
    · exact Or.inl hline
    · exact False.elim (List.not_mem_nil hX)
    · exact Or.inr (Or.inr hcovers)
  | cons X symbols ih =>
    unfold steps at h
    split at h
    · cases h
    · rename_i e₁ hstep
      obtain ⟨hs₁, hc₁⟩ := complete_step g e e₁ source X symbols hs hc hstep
      exact ih e₁ hs₁ hc₁ h

theorem complete_run (g : Grammar) (budget : Nat) (e e' : Exploration) (hs : e.Sound g)
    (hc : e.Complete g fun _ _ => False) (h : e.run g budget = .ok e') :
    e'.Sound g ∧ ∀ s X, s.number < e'.found.length → e'.Covers g s X := by
  -- Between two states all work is done but that of the pending states.
  induction budget generalizing e with
  | zero => cases h
  | succ budget ih =>
    unfold run at h
    split at h
    · rename_i hpop
      cases h
      refine ⟨hs, ?_⟩
      intro s X hlt
      rcases hc s X hlt with hline | hfalse | hcovers
      · rw [Worklist.pop_eq_none _ hpop] at hline
        exact False.elim (List.not_mem_nil hline)
      · exact False.elim hfalse
      · exact hcovers
    · rename_i source pending hpop
      split at h
      · cases h
      · rename_i e₁ hsteps
        obtain ⟨hline, -⟩ := Worklist.pop_eq_some _ _ _ hpop
        have hs' : Sound g { e with pending } :=
          { hs with pending := Worklist.valid_pop _ _ hs.pending _ hpop }
        have hc' : Complete g { e with pending } fun s Y => s = source ∧ Y ∈ g.symbols := by
          intro s X hlt
          rcases hc s X hlt with hmem | hfalse | hcovers
          · rw [hline, List.mem_cons] at hmem
            rcases hmem with rfl | hmem
            · right
              by_cases hX : X ∈ g.symbols
              · exact Or.inl ⟨rfl, hX⟩
              · right
                intro items _ hfull
                obtain ⟨i, -, hi⟩ := g.isEmpty_successor_iff.mp hfull
                exact False.elim (hX (g.mem_symbols_of_afterDot hi))
            · exact Or.inl hmem
          · exact False.elim hfalse
          · exact Or.inr (Or.inr hcovers)
        obtain ⟨hs₁, hc₁⟩ := complete_steps g source g.symbols _ e₁ hs' hc' hsteps
        exact ih e₁ hs₁ hc₁ h

end Exploration

theorem Grammar.hasItem_startItem (g : Grammar) : ∀ i ∈ [startItem], g.HasItem i := by
  intro i hi
  rw [List.mem_singleton] at hi
  exact ⟨g.augmentedProduction, hi ▸ g.production?_augmented, hi ▸ Nat.zero_le _⟩

/-- The exploration of a grammar begins with its start state pending and no edges. -/
theorem Exploration.sound_start (g : Grammar) :
    Sound g ⟨[g.expand [Grammar.startItem]], .empty, (Worklist.empty.push StateId.start).2⟩ where
  start := rfl
  hasItem items hitems i hi := by
    rw [List.mem_singleton] at hitems
    rw [hitems] at hi
    exact g.hasItem_expand g.hasItem_startItem hi
  nodup := by simp
  pending := Worklist.valid_push _ Worklist.valid_empty _
  functional := Transitions.functional_empty
  edge s X target h := by cases h

theorem Exploration.complete_start (g : Grammar) :
    Complete g ⟨[g.expand [Grammar.startItem]], .empty, (Worklist.empty.push StateId.start).2⟩
      fun _ _ => False := by
  intro s X hlt
  left
  have hzero : s = .start := by
    obtain ⟨i⟩ := s
    have hi : i = 0 := by simpa using hlt
    exact congrArg StateId.mk hi
  rw [hzero]
  simp [Worklist.push, Worklist.empty]

theorem Grammar.automaton_canonical (g : Grammar) (a : Automaton) (h : g.automaton = .ok a) :
    a.Canonical g := by
  unfold Grammar.automaton at h
  rw [g.closure_eq_ok (g.knows_of_hasItem g.hasItem_startItem)] at h
  simp only at h
  split at h
  · cases h
  · rename_i e hrun
    cases h
    obtain ⟨hs, hcovers⟩ := Exploration.complete_run g _ _ e (Exploration.sound_start g)
      (Exploration.complete_start g) hrun
    refine ⟨hs.start, ?_, hs.nodup, hs.functional, hs.edge, ?_⟩
    · intro s items hitems
      exact hs.hasItem items (List.mem_of_getElem? hitems)
    · intro s items X hitems hfull
      exact hcovers s X (List.getElem?_eq_some_iff.mp hitems).choose items hitems hfull

namespace Automaton.Canonical

/-- From a state with an item whose dot is before `X` there is an edge under `X`, and the item goes
along it. -/
theorem follow_item {g : Grammar} {a : Automaton} (ha : a.Canonical g) {s : StateId}
    {items : ItemSet} {i : Item} {X : Symbol} (hitems : a.state? s = some items) (hi : i ∈ items)
    (hX : g.afterDot? i = some X) :
    ∃ target next, a.transitions.get? s X = some target ∧ a.state? target = some next ∧
      i.next ∈ next := by
  obtain ⟨target, htarget⟩ :=
    ha.total s items X hitems (g.isEmpty_successor_iff.mpr ⟨i, hi, hX⟩)
  obtain ⟨items', hitems', -, hnext⟩ := ha.edge s X target htarget
  rw [hitems] at hitems'
  cases hitems'
  exact ⟨target, _, htarget, hnext, g.next_mem_successor hi hX⟩

end Automaton.Canonical

end ShiftReduce
