import ShiftReduce.Proofs.EdgeOrder
import ShiftReduce.Proofs.ValidItems
import Mathlib.Data.Set.Card

/-! The worklist is all the time a run of consecutive numbers that ends with the newest state. So
the states are taken up in the order of their numbers. -/
namespace ShiftReduce

/-- The item sets of the canonical collection: the closure of the augmented item, and whatever a
symbol leads to from one of them. -/
inductive Grammar.CanonicalSet (g : Grammar) : ItemSet → Prop
  | start {items : ItemSet} : g.closure [startItem] = .ok items → CanonicalSet g items
  | goto {items next : ItemSet} {X : Symbol} : CanonicalSet g items →
      g.goto items.toList X = .ok next → next.isEmpty = false → CanonicalSet g next

namespace Exploration

/-- The states from number `next` on are pending, one after the other. -/
structure Waits (e : Exploration) (next : Nat) : Prop where
  le : next ≤ e.found.length
  line : e.pending.line = (List.range' next (e.found.length - next)).map StateId.mk

/-- What has been found is numbered breadth first, where state `k` has been looked at under the
symbols in `done`. -/
structure Numbered (g : Grammar) (k : Nat) (done : List Symbol) (e : Exploration) : Prop where
  sound : e.Sound g
  canonical : ∀ items ∈ e.found, g.CanonicalSet items
  capacity : e.found.length ≤ StateId.capacity
  listed : e.transitions.Listed g.symbols k done
  discovers : Discovers e.transitions.edges e.found.length

section
variable {e e' : Exploration} {source : StateId} {X : Symbol} {items : ItemSet}

theorem capacity_of_record (h : e.record source X items = .ok e')
    (hcapacity : e.found.length ≤ StateId.capacity) : e'.found.length ≤ StateId.capacity := by
  unfold record at h
  generalize hplace : place e.found items = placed at h
  obtain ⟨index, new⟩ := placed
  simp only at h
  split at h
  · rename_i hlt
    split at h
    · cases h
    · rcases place_eq e.found items index new hplace with ⟨rfl, -⟩ | ⟨rfl, -, rfl⟩
      · cases h
        exact hcapacity
      · cases h
        rw [List.length_append, List.length_singleton]
        exact hlt
  · cases h

theorem exists_record (hnone : e.transitions.get? source X = none)
    (hcapacity : e.found.length ≤ StateId.capacity)
    (hnew : items ∉ e.found → e.found.length < StateId.capacity) :
    ∃ e', e.record source X items = .ok e' := by
  unfold record
  generalize hplace : place e.found items = placed
  obtain ⟨index, new⟩ := placed
  have hlt : index < StateId.capacity := by
    rcases place_eq e.found items index new hplace with ⟨-, hget⟩ | ⟨-, hfresh, rfl⟩
    · exact Nat.lt_of_lt_of_le (List.getElem?_eq_some_iff.mp hget).choose hcapacity
    · exact hnew hfresh
  simp only [if_pos hlt, Transitions.insert, hnone]
  cases new
  · exact ⟨_, rfl⟩
  · exact ⟨_, rfl⟩

theorem waits_of_record {next : Nat} (hw : e.Waits next) (hq : e.pending.Valid)
    (h : e.record source X items = .ok e') : e'.Waits next := by
  obtain ⟨target, -, ⟨hfound, hpending, -⟩ | ⟨-, htarget, hfound, hpending⟩⟩ :=
    record_cases e e' source X items h
  · exact ⟨hfound ▸ hw.le, by rw [hpending, hfound, hw.line]⟩
  · have hle := hw.le
    have hlength : e'.found.length = e.found.length + 1 := by
      rw [hfound, List.length_append, List.length_singleton]
    have hfresh : target ∉ e.pending.line := by
      rw [hw.line, List.mem_map]
      intro ⟨i, hi, hit⟩
      have hnumber : i = e.found.length := (congrArg StateId.number hit).trans htarget
      rw [List.mem_range'_1] at hi
      omega
    refine ⟨by omega, ?_⟩
    have hcount : e'.found.length - next = e.found.length - next + 1 := by omega
    have hlast : next + (e.found.length - next) = target.number := by omega
    rw [hpending, Worklist.line_push_of_not_mem _ hq _ hfresh, hw.line, hcount,
      List.range'_1_concat, List.map_append, List.map_singleton, hlast]

end

theorem numbered_record (g : Grammar) (e e' : Exploration) (k : Nat) (done : List Symbol)
    (X : Symbol) (items : ItemSet) (hn : e.Numbered g k done) (hX : X ∉ done)
    (hitems : e.found[k]? = some items) (hfull : (g.successor items X).isEmpty = false)
    (h : e.record ⟨k⟩ X (g.successor items X) = .ok e') : e'.Numbered g k (done ++ [X]) := by
  have hsound := sound_record g e e' ⟨k⟩ X items hn.sound hitems hfull h
  have hcapacity := capacity_of_record h hn.capacity
  have hk : k < e.found.length := (List.getElem?_eq_some_iff.mp hitems).choose
  obtain ⟨target, hinsert, hcases⟩ := record_cases e e' ⟨k⟩ X _ h
  have hlisted := Transitions.listed_insert hn.listed hX hinsert
  have hedges := Transitions.edges_insert hn.listed.ascending hinsert
  rcases hcases with ⟨hfound, -, hget⟩ | ⟨-, htarget, hfound, -⟩
  · refine ⟨hsound, hfound ▸ hn.canonical, hcapacity, hlisted, ?_⟩
    rw [hedges, hfound]
    exact hn.discovers.old (List.getElem?_eq_some_iff.mp hget).choose
  · refine ⟨hsound, ?_, hcapacity, hlisted, ?_⟩
    · have hknown := g.knows_of_hasItem (hn.sound.hasItem items (List.mem_of_getElem? hitems))
      have hnew := (hn.canonical items (List.mem_of_getElem? hitems)).goto
        (g.goto_eq_ok hknown X) hfull
      intro set hset
      rw [hfound, List.mem_append, List.mem_singleton] at hset
      rcases hset with hset | rfl
      · exact hn.canonical set hset
      · exact hnew
    · have hnumber : target = ⟨e.found.length⟩ := congrArg StateId.mk htarget
      rw [hedges, hfound, List.length_append, List.length_singleton, hnumber]
      exact hn.discovers.new hk

theorem numbered_step (g : Grammar) (e e' : Exploration) (k : Nat) (done : List Symbol)
    (X : Symbol) (hn : e.Numbered g k done) (hw : e.Waits (k + 1)) (hX : X ∉ done)
    (h : e.step g ⟨k⟩ X = .ok e') : e'.Numbered g k (done ++ [X]) ∧ e'.Waits (k + 1) := by
  obtain ⟨items, hitems, ⟨-, rfl⟩ | ⟨hfull, hrecord⟩⟩ := step_cases g e e' ⟨k⟩ X hn.sound h
  · exact ⟨{ hn with listed := Transitions.listed_skip hn.listed hX }, hw⟩
  · exact ⟨numbered_record g e e' k done X items hn hX hitems hfull hrecord,
      waits_of_record hw hn.sound.pending hrecord⟩

theorem not_mem_done {g : Grammar} {X : Symbol} {todo done : List Symbol}
    (h : g.symbols = done ++ X :: todo) : X ∉ done := by
  have hnodup := g.valid.symbols_nodup
  rw [h] at hnodup
  exact fun hmem => (List.disjoint_of_nodup_append hnodup) hmem List.mem_cons_self

theorem numbered_steps (g : Grammar) (k : Nat) (todo done : List Symbol) (e e' : Exploration)
    (hsymbols : g.symbols = done ++ todo) (hn : e.Numbered g k done) (hw : e.Waits (k + 1))
    (h : e.steps g ⟨k⟩ todo = .ok e') : e'.Numbered g k g.symbols ∧ e'.Waits (k + 1) := by
  induction todo generalizing e done with
  | nil =>
    cases h
    rw [hsymbols, List.append_nil]
    exact ⟨hn, hw⟩
  | cons X todo ih =>
    unfold steps at h
    split at h
    · cases h
    · rename_i e₁ hstep
      have hX := not_mem_done hsymbols
      obtain ⟨hn₁, hw₁⟩ := numbered_step g e e₁ k done X hn hw hX hstep
      refine ih (done ++ [X]) e₁ ?_ hn₁ hw₁ h
      rw [hsymbols, List.append_assoc, List.singleton_append]

/-- What waits is the state whose turn it is and then the states after it. -/
theorem waits_of_pop {e : Exploration} {k : Nat} {source : StateId} {pending : Worklist StateId}
    (hw : e.Waits k) (hpop : e.pending.pop = some (source, pending)) :
    source = ⟨k⟩ ∧ Waits { e with pending } (k + 1) := by
  obtain ⟨hline, -⟩ := Worklist.pop_eq_some _ _ _ hpop
  have hle := hw.le
  rw [hw.line] at hline
  cases hcount : e.found.length - k with
  | zero =>
    rw [hcount] at hline
    cases hline
  | succ count =>
    rw [hcount, List.range'_succ, List.map_cons, List.cons.injEq] at hline
    obtain ⟨hsource, hrest⟩ := hline
    refine ⟨hsource.symm, ?_, ?_⟩
    · show k + 1 ≤ e.found.length
      omega
    · have hless : e.found.length - (k + 1) = count := by omega
      rw [← hrest, hless]

theorem length_of_pop {e : Exploration} {k : Nat} (hw : e.Waits k)
    (hpop : e.pending.pop = none) : k = e.found.length := by
  have hline := Worklist.pop_eq_none _ hpop
  have hle := hw.le
  rw [hw.line, List.map_eq_nil_iff, List.range'_eq_nil_iff] at hline
  omega

theorem numbered_pop {g : Grammar} {e : Exploration} {k : Nat} {source : StateId}
    {pending : Worklist StateId} (hn : e.Numbered g k [])
    (hpop : e.pending.pop = some (source, pending)) : Numbered g k [] { e with pending } :=
  { hn with sound := { hn.sound with pending := Worklist.valid_pop _ _ hn.sound.pending _ hpop } }

theorem numbered_succ {g : Grammar} {e : Exploration} {k : Nat} (hn : e.Numbered g k g.symbols) :
    e.Numbered g (k + 1) [] :=
  { hn with listed := Transitions.listed_succ hn.listed }

theorem numbered_run (g : Grammar) (budget : Nat) (e e' : Exploration) (k : Nat)
    (hn : e.Numbered g k []) (hw : e.Waits k) (h : e.run g budget = .ok e') :
    e'.Numbered g e'.found.length [] := by
  induction budget generalizing e k with
  | zero => cases h
  | succ budget ih =>
    unfold run at h
    split at h
    · rename_i hpop
      cases h
      have hk := length_of_pop hw hpop
      rwa [hk] at hn
    · rename_i source pending hpop
      split at h
      · cases h
      · rename_i e₁ hsteps
        obtain ⟨rfl, hw'⟩ := waits_of_pop hw hpop
        obtain ⟨hn₁, hw₁⟩ :=
          numbered_steps g k g.symbols [] _ e₁ rfl (numbered_pop hn hpop) hw' hsteps
        exact ih e₁ (k + 1) (numbered_succ hn₁) hw₁ h

section
variable {g : Grammar}
  (hfew : {items | g.CanonicalSet items}.encard ≤ StateId.capacity)
include hfew

/-- Different sets of the collection can all be numbered. -/
theorem length_le_of_few {found : List ItemSet} (hnodup : found.Nodup)
    (hfound : ∀ items ∈ found, g.CanonicalSet items) : found.length ≤ StateId.capacity := by
  have hcard : ({items | items ∈ found} : Set ItemSet).encard = found.length := by
    rw [← List.coe_toFinset, Set.encard_coe_eq_coe_finsetCard, List.toFinset_card_of_nodup hnodup]
  have hsubset : ({items | items ∈ found} : Set ItemSet) ⊆ {items | g.CanonicalSet items} := hfound
  have hle := (Set.encard_le_encard hsubset).trans hfew
  rw [hcard] at hle
  exact_mod_cast hle

theorem exists_step {e : Exploration} {k : Nat} {done : List Symbol} {X : Symbol}
    (hn : e.Numbered g k done) (hX : X ∉ done) (hk : k < e.found.length) :
    ∃ e', e.step g ⟨k⟩ X = .ok e' := by
  obtain ⟨items, hitems⟩ : ∃ items, e.found[k]? = some items :=
    ⟨_, List.getElem?_eq_getElem hk⟩
  have hmem := List.mem_of_getElem? hitems
  have hknown := g.knows_of_hasItem (hn.sound.hasItem items hmem)
  have hgoto := g.goto_eq_ok hknown X
  simp only [step, hitems, hgoto]
  split
  · exact ⟨e, rfl⟩
  · rename_i hfull
    refine exists_record (hn.listed.unrecorded ⟨k⟩ X (Or.inr ⟨rfl, hX⟩)) hn.capacity ?_
    intro hnew
    have hset := (hn.canonical items hmem).goto hgoto (by simpa using hfull)
    have hlength := length_le_of_few hfew (hn.sound.nodup.concat hnew) (by
      intro set hmem'
      rw [List.concat_eq_append, List.mem_append, List.mem_singleton] at hmem'
      rcases hmem' with hmem' | rfl
      · exact hn.canonical set hmem'
      · exact hset)
    rw [List.length_concat] at hlength
    exact hlength

theorem exists_steps {k : Nat} (todo : List Symbol) {done : List Symbol} {e : Exploration}
    (hsymbols : g.symbols = done ++ todo) (hn : e.Numbered g k done) (hw : e.Waits (k + 1)) :
    ∃ e', e.steps g ⟨k⟩ todo = .ok e' := by
  induction todo generalizing e done with
  | nil => exact ⟨e, rfl⟩
  | cons X todo ih =>
    have hX := not_mem_done hsymbols
    obtain ⟨e₁, hstep⟩ := exists_step hfew hn hX hw.le
    obtain ⟨hn₁, hw₁⟩ := numbered_step g e e₁ k done X hn hw hX hstep
    obtain ⟨e', hsteps⟩ := ih (by rw [hsymbols, List.append_assoc, List.singleton_append]) hn₁ hw₁
    refine ⟨e', ?_⟩
    rw [steps, hstep]
    exact hsteps

/-- Each state is taken up once, so that the budget lasts. -/
theorem exists_run {budget k : Nat} {e : Exploration} (hbudget : StateId.capacity < budget + k)
    (hn : e.Numbered g k []) (hw : e.Waits k) : ∃ e', e.run g budget = .ok e' := by
  induction budget generalizing e k with
  | zero =>
    have hle := hw.le
    have hcapacity := hn.capacity
    omega
  | succ budget ih =>
    rw [run]
    cases hpop : e.pending.pop with
    | none => exact ⟨e, rfl⟩
    | some popped =>
      obtain ⟨source, pending⟩ := popped
      obtain ⟨rfl, hw'⟩ := waits_of_pop hw hpop
      have hn' := numbered_pop hn hpop
      obtain ⟨e₁, hsteps⟩ := exists_steps hfew g.symbols rfl hn' hw'
      obtain ⟨hn₁, hw₁⟩ := numbered_steps g k g.symbols [] _ e₁ rfl hn' hw' hsteps
      simp only [hsteps]
      exact ih (by omega) (numbered_succ hn₁) hw₁

end

/-- An exploration begins with state 0 found and waiting. -/
theorem numbered_start (g : Grammar) : Numbered g 0 []
    ⟨[g.expand [Grammar.startItem]], .empty, (Worklist.empty.push StateId.start).2⟩ where
  sound := sound_start g
  canonical items hitems := by
    rw [List.mem_singleton] at hitems
    rw [hitems]
    exact .start (g.closure_eq_ok (g.knows_of_hasItem g.hasItem_startItem))
  capacity := by
    show 1 ≤ StateId.capacity
    decide
  listed := Transitions.listed_empty g.symbols
  discovers := Discovers.start

theorem waits_start (g : Grammar) : Waits
    ⟨[g.expand [Grammar.startItem]], .empty, (Worklist.empty.push StateId.start).2⟩ 0 :=
  ⟨Nat.zero_le _, rfl⟩

end Exploration

theorem Grammar.automaton_numbered (g : Grammar) (a : Automaton) (h : g.automaton = .ok a) :
    ∃ e : Exploration, e.Numbered g e.found.length [] ∧ a = ⟨e.found, e.transitions⟩ := by
  unfold Grammar.automaton at h
  rw [g.closure_eq_ok (g.knows_of_hasItem g.hasItem_startItem)] at h
  simp only at h
  split at h
  · cases h
  · rename_i e hrun
    cases h
    exact ⟨e, Exploration.numbered_run g _ _ e 0 (Exploration.numbered_start g)
      (Exploration.waits_start g) hrun, rfl⟩

theorem Grammar.exists_automaton_of_few (g : Grammar)
    (hfew : {items | g.CanonicalSet items}.encard ≤ StateId.capacity) :
    ∃ a, g.automaton = .ok a := by
  have hbudget : StateId.capacity < StateId.capacity + 1 + 0 := Nat.lt_succ_self _
  obtain ⟨e, hrun⟩ := Exploration.exists_run hfew hbudget (Exploration.numbered_start g)
    (Exploration.waits_start g)
  refine ⟨⟨e.found, e.transitions⟩, ?_⟩
  unfold Grammar.automaton
  rw [g.closure_eq_ok (g.knows_of_hasItem g.hasItem_startItem)]
  simp only [hrun]

namespace Automaton

/-- The states of the automaton are those of the canonical collection, and its transitions are all
that there are between them. -/
structure IsCollection (g : Grammar) (a : Automaton) : Prop where
  start : ∃ items, g.closure [Grammar.startItem] = .ok items ∧ a.state? .start = some items
  /-- There is a number for each place. -/
  length : a.states.length ≤ StateId.capacity
  nonempty : ∀ items ∈ a.states, items.isEmpty = false
  nodup : a.states.Nodup
  reachable : ∀ s items, a.state? s = some items → ∃ symbols, a.walk symbols = some s
  transition : ∀ s items X, a.state? s = some items → ∃ next, g.goto items.toList X = .ok next ∧
    ((∃ target, a.transitions.get? s X = some target) ↔ next.isEmpty = false) ∧
    ∀ target, a.transitions.get? s X = some target → a.state? target = some next
  only : ∀ s X target, a.transitions.get? s X = some target →
    (∃ items, a.state? s = some items) ∧ X ∈ g.symbols

/-- The states are numbered as a search first comes to them that goes by sources and then by
symbols, and the edges stand in that order. -/
structure BreadthFirst (g : Grammar) (a : Automaton) : Prop where
  edges : a.transitions.edges = a.transitions.scan g.symbols a.states.length
  discovers : Discovers (a.transitions.scan g.symbols a.states.length) a.states.length

/-- Each state is on a path, as the state from which it was first found is. -/
theorem exists_path_of_discovers {a : Automaton} {symbols : List Symbol} {count : Nat}
    (h : Discovers (a.transitions.scan symbols count) count) (s : StateId)
    (hs : s.number < count) : ∃ below path, a.Path (s :: below) path := by
  induction hnumber : s.number using Nat.strong_induction_on generalizing s with
  | _ number ih =>
    by_cases hzero : s.number = 0
    · have hstart : s = .start := congrArg StateId.mk hzero
      rw [hstart]
      exact ⟨[], [], .start⟩
    · obtain ⟨before, source, X, after, hscan, -, hless⟩ :=
        h.earlier s (Nat.pos_of_ne_zero hzero) hs
      have hmem : (source, X, s) ∈ a.transitions.scan symbols count := by
        rw [hscan]
        exact List.mem_append_right _ List.mem_cons_self
      obtain ⟨hsource, -, hget⟩ := (Transitions.mem_scan _ _ _ _ _ _).mp hmem
      obtain ⟨below, path, hpath⟩ := ih source.number (hnumber ▸ hless) source hsource rfl
      exact ⟨_, _, .step hpath hget⟩

theorem Canonical.mem_states {g : Grammar} {a : Automaton} (ha : a.Canonical g) {items : ItemSet}
    (h : g.CanonicalSet items) : items ∈ a.states := by
  induction h with
  | start hclosure =>
    rw [g.closure_eq_ok (g.knows_of_hasItem g.hasItem_startItem)] at hclosure
    cases hclosure
    exact List.mem_of_getElem? ha.start
  | @goto items next X _ hgoto hfull ih =>
    obtain ⟨i, hi⟩ := List.getElem?_of_mem ih
    rw [g.goto_eq_ok (g.knows_of_hasItem (ha.hasItem ⟨i⟩ items hi)) X] at hgoto
    cases hgoto
    obtain ⟨target, hget⟩ := ha.total ⟨i⟩ items X hi hfull
    obtain ⟨items', hi', -, htarget⟩ := ha.edge ⟨i⟩ X target hget
    have hsame : some items = some items' := hi.symm.trans hi'
    cases hsame
    exact List.mem_of_getElem? htarget

theorem Canonical.encard_le {g : Grammar} {a : Automaton} (ha : a.Canonical g) :
    {items | g.CanonicalSet items}.encard ≤ a.states.length := by
  have hsubset : {items | g.CanonicalSet items} ⊆ (a.states.toFinset : Set ItemSet) := by
    intro items hitems
    exact List.mem_toFinset.mpr (ha.mem_states hitems)
  calc
    _ ≤ (a.states.toFinset : Set ItemSet).encard := Set.encard_le_encard hsubset
    _ = a.states.toFinset.card := Set.encard_coe_eq_coe_finsetCard _
    _ ≤ a.states.length := by exact_mod_cast List.toFinset_card_le a.states

theorem isCollection_of_discovers {g : Grammar} {a : Automaton} (ha : a.Canonical g)
    (hlength : a.states.length ≤ StateId.capacity)
    (h : Discovers (a.transitions.scan g.symbols a.states.length) a.states.length) :
    a.IsCollection g := by
  have hpath (s : StateId) (items : ItemSet) (hs : a.state? s = some items) :
      ∃ below path, a.Path (s :: below) path :=
    exists_path_of_discovers h s (List.getElem?_eq_some_iff.mp hs).choose
  refine ⟨?_, hlength, ?_, ha.nodup, ?_, ?_, ?_⟩
  · exact ⟨_, g.closure_eq_ok (g.knows_of_hasItem g.hasItem_startItem), ha.start⟩
  · intro items hitems
    obtain ⟨i, hi⟩ := List.getElem?_of_mem hitems
    obtain ⟨below, path, hp⟩ := hpath ⟨i⟩ items hi
    exact OrderedSet.isEmpty_eq_false_iff.mpr (hp.exists_item ha hi)
  · intro s items hs
    obtain ⟨below, path, hp⟩ := hpath s items hs
    refine ⟨path.reverse, (a.walk_eq_some_iff path.reverse s).mpr ⟨below, ?_⟩⟩
    rw [List.reverse_reverse]
    exact hp
  · intro s items X hs
    have hgoto := g.goto_eq_ok (g.knows_of_hasItem (ha.hasItem s items hs)) X
    have hedge (target : StateId) (hget : a.transitions.get? s X = some target) :
        (g.successor items X).isEmpty = false ∧
          a.state? target = some (g.successor items X) := by
      obtain ⟨items', hs', hfull, htarget⟩ := ha.edge s X target hget
      rw [hs] at hs'
      cases hs'
      exact ⟨hfull, htarget⟩
    refine ⟨g.successor items X, hgoto, ⟨?_, ha.total s items X hs⟩, fun t ht => (hedge t ht).2⟩
    intro ⟨target, hget⟩
    exact (hedge target hget).1
  · intro s X target hget
    obtain ⟨items, hs, hfull, -⟩ := ha.edge s X target hget
    obtain ⟨i, -, hX⟩ := g.isEmpty_successor_iff.mp hfull
    exact ⟨⟨items, hs⟩, g.mem_symbols_of_afterDot hX⟩

end Automaton

theorem Grammar.automaton_breadthFirst (g : Grammar) (a : Automaton) (ha : g.automaton = .ok a) :
    a.states.length ≤ StateId.capacity ∧ a.BreadthFirst g := by
  obtain ⟨e, he, rfl⟩ := g.automaton_numbered a ha
  have hedges := he.listed.edges
  have hdiscovers := he.discovers
  rw [Transitions.scanRow, List.filterMap_nil, List.append_nil] at hedges
  rw [hedges] at hdiscovers
  exact ⟨he.capacity, hedges, hdiscovers⟩

theorem Grammar.exists_path (g : Grammar) {a : Automaton} (ha : g.automaton = .ok a) {s : StateId}
    {items : ItemSet} (hs : a.state? s = some items) :
    ∃ below symbols, a.Path (s :: below) symbols :=
  Automaton.exists_path_of_discovers (g.automaton_breadthFirst a ha).2.discovers s
    (List.getElem?_eq_some_iff.mp hs).choose

/-- A grammar has an automaton exactly when its canonical collection does not outnumber the state
numbers; then it is that collection, numbered breadth first. -/
theorem automaton_exact (g : Grammar) :
    ((∃ a, g.automaton = .ok a) ↔
      {items | g.CanonicalSet items}.encard ≤ StateId.capacity) ∧
    ∀ a, g.automaton = .ok a → a.IsCollection g ∧ a.BreadthFirst g := by
  refine ⟨⟨?_, g.exists_automaton_of_few⟩, ?_⟩
  · rintro ⟨a, ha⟩
    have hle := (g.automaton_canonical a ha).encard_le
    have hcapacity : (a.states.length : ℕ∞) ≤ StateId.capacity := by
      exact_mod_cast (g.automaton_breadthFirst a ha).1
    exact hle.trans hcapacity
  · intro a ha
    obtain ⟨hlength, hbreadth⟩ := g.automaton_breadthFirst a ha
    exact ⟨Automaton.isCollection_of_discovers (g.automaton_canonical a ha) hlength
      hbreadth.discovers, hbreadth⟩

end ShiftReduce
