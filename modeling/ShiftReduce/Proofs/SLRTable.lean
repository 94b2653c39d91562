import ShiftReduce.Definition
import ShiftReduce.ParseTable
import ShiftReduce.TableBuild
import ShiftReduce.Proofs.CellCandidates

namespace ShiftReduce

namespace RowDraft

theorem lookup_write (g : Grammar) (s : StateId) (draft : RowDraft) (candidate : Candidate)
    (X : Symbol) :
    (draft.write g s candidate).cells.lookup X =
      (draft.cells.lookup X).or ([candidate].lookup X) := by
  obtain ⟨Y, c⟩ := candidate
  unfold write
  cases h : draft.cells.lookup Y with
  | none => rw [List.lookup_append]
  | some existing =>
    have hsame : draft.cells.lookup X = (draft.cells.lookup X).or ([(Y, c)].lookup X) := by
      by_cases hX : X = Y
      · subst hX
        simp [h]
      · have hX' : (X == Y) = false := by simpa using hX
        simp [List.lookup_cons, hX']
    simp only
    split
    · exact hsame
    · exact hsame

theorem conflicts_write (g : Grammar) (s : StateId) (draft : RowDraft) (X : Symbol) (c : Action) :
    (draft.write g s (X, c)).conflicts = [] ↔
      draft.conflicts = [] ∧ (draft.cells.lookup X).getD c = c := by
  unfold write
  cases h : draft.cells.lookup X with
  | none => simp
  | some existing =>
    simp only
    split
    · rename_i he
      simp [he]
    · rename_i hne
      simp [hne]

theorem lookup_foldl (g : Grammar) (s : StateId) (candidates : List Candidate) (draft : RowDraft)
    (X : Symbol) :
    (candidates.foldl (write g s) draft).cells.lookup X =
      (draft.cells.lookup X).or (candidates.lookup X) := by
  induction candidates generalizing draft with
  | nil => simp
  | cons candidate candidates ih =>
    calc
      _ = ((draft.write g s candidate).cells.lookup X).or (candidates.lookup X) := ih _
      _ = ((draft.cells.lookup X).or ([candidate].lookup X)).or (candidates.lookup X) := by
        rw [lookup_write]
      _ = (draft.cells.lookup X).or ((candidate :: candidates).lookup X) := by
        rw [Option.or_assoc, ← List.lookup_append, List.singleton_append]

theorem conflicts_foldl (g : Grammar) (s : StateId) (candidates : List Candidate)
    (draft : RowDraft) :
    (candidates.foldl (write g s) draft).conflicts = [] ↔ draft.conflicts = [] ∧
      ∀ X c, (X, c) ∈ candidates → (draft.cells.lookup X).or (candidates.lookup X) = some c := by
  induction candidates generalizing draft with
  | nil => simp
  | cons candidate candidates ih =>
    obtain ⟨Y, d⟩ := candidate
    have hlookup (X : Symbol) : ((draft.write g s (Y, d)).cells.lookup X).or (candidates.lookup X) =
        (draft.cells.lookup X).or (((Y, d) :: candidates).lookup X) := by
      rw [lookup_write, Option.or_assoc, ← List.lookup_append, List.singleton_append]
    have hfirst : (draft.cells.lookup Y).getD d = d ↔
        (draft.cells.lookup Y).or (((Y, d) :: candidates).lookup Y) = some d := by
      rw [List.lookup_cons_self]
      cases draft.cells.lookup Y <;> simp
    rw [List.foldl_cons, ih, conflicts_write, hfirst, and_assoc]
    simp only [hlookup, List.mem_cons, Prod.mk.injEq]
    constructor
    · intro ⟨hnil, hY, hrest⟩
      refine ⟨hnil, ?_⟩
      intro X c hmem
      rcases hmem with ⟨rfl, rfl⟩ | hmem
      · exact hY
      · exact hrest X c hmem
    · intro ⟨hnil, hall⟩
      exact ⟨hnil, hall Y d (Or.inl ⟨rfl, rfl⟩), fun X c hmem => hall X c (Or.inr hmem)⟩

theorem lookup_ofCandidates (g : Grammar) (s : StateId) (candidates : List Candidate)
    (X : Symbol) : (ofCandidates g s candidates).cells.lookup X = candidates.lookup X := by
  rw [ofCandidates, lookup_foldl]
  rfl

/-- A row has no conflict exactly when its candidates agree on every cell. -/
theorem conflicts_ofCandidates (g : Grammar) (s : StateId) (candidates : List Candidate) :
    (ofCandidates g s candidates).conflicts = [] ↔
      ∀ X c d, (X, c) ∈ candidates → (X, d) ∈ candidates → c = d := by
  rw [ofCandidates, conflicts_foldl]
  constructor
  · intro ⟨_, hall⟩ X c d hc hd
    exact Option.some.inj ((hall X c hc).symm.trans (hall X d hd))
  · intro hagree
    refine ⟨rfl, ?_⟩
    intro X c hc
    obtain ⟨d, hd⟩ := exists_lookup_of_mem candidates X c hc
    rw [hagree X c d hc (mem_of_lookup_eq_some candidates X d hd)]
    exact hd

theorem map_fst_row (g : Grammar) (draft : RowDraft) : (draft.row g).map Prod.fst = g.symbols := by
  simp [row, Function.comp_def]

theorem lookup_row (g : Grammar) (draft : RowDraft) (X : Symbol) :
    ((draft.row g).lookup X).getD .error =
      if X ∈ g.symbols then (draft.cells.lookup X).getD .error else .error := by
  unfold row
  induction g.symbols with
  | nil => simp
  | cons Y symbols ih =>
    by_cases hX : X = Y
    · subst hX
      simp
    · have hX' : (X == Y) = false := by simpa using hX
      simpa [List.lookup_cons, hX, hX'] using ih

end RowDraft

namespace Grammar

/-- No cell of the state has two candidates, and none lacks one for want of FOLLOW. -/
structure Clear (g : Grammar) (a : Automaton) (s : StateId) (items : ItemSet) : Prop where
  follows : g.FollowsResolve items.toList
  single : ∀ X c d, g.Asks a s X c → g.Asks a s X d → c = d

/-- The row has a cell for every symbol, and in each cell what the state asks for. -/
structure RowFits (g : Grammar) (a : Automaton) (s : StateId) (row : Row) : Prop where
  keys : row.map Prod.fst = g.symbols
  asked : ∀ X c, g.Asks a s X c → (row.lookup X).getD .error = c
  unasked : ∀ X, (∀ c, ¬ g.Asks a s X c) → (row.lookup X).getD .error = .error

theorem mem_symbols_of_asks (g : Grammar) (a : Automaton) (ha : a.Canonical g) (s : StateId)
    (X : Symbol) (c : Action) (h : g.Asks a s X c) : X ∈ g.symbols := by
  cases h with
  | shift _ _ ht => exact g.mem_symbols_of_afterDot ht
  | reduce _ _ hn hfollow ht =>
    have hcollects := g.collects_iff_of_follow _ _ _ hfollow
    exact g.mem_symbols_of_collects ((hcollects _).mp ht)
  | accept => exact (g.valid.mem_symbols _).mpr g.contains_endOfInput
  | goto hget =>
    obtain ⟨items, -, hfull, -⟩ := ha.edge s _ _ hget
    obtain ⟨i, -, hi⟩ := g.isEmpty_successor_iff.mp hfull
    exact g.mem_symbols_of_afterDot hi

theorem rowFits_ofCandidates (g : Grammar) (a : Automaton) (ha : a.Canonical g) (s : StateId)
    (candidates : List Candidate) (hmem : ∀ X c, (X, c) ∈ candidates ↔ g.Asks a s X c)
    (hsingle : ∀ X c d, g.Asks a s X c → g.Asks a s X d → c = d) :
    g.RowFits a s ((RowDraft.ofCandidates g s candidates).row g) := by
  refine ⟨RowDraft.map_fst_row g _, ?_, ?_⟩
  · intro X c hc
    have hlookup : candidates.lookup X = some c := by
      obtain ⟨d, hd⟩ := exists_lookup_of_mem candidates X c ((hmem X c).mpr hc)
      rw [hd, hsingle X d c ((hmem X d).mp (mem_of_lookup_eq_some candidates X d hd)) hc]
    rw [RowDraft.lookup_row, if_pos (g.mem_symbols_of_asks a ha s X c hc),
      RowDraft.lookup_ofCandidates, hlookup]
    rfl
  · intro X hnone
    have hlookup : candidates.lookup X = none := by
      rw [Option.eq_none_iff_forall_ne_some]
      intro d hd
      exact hnone d ((hmem X d).mp (mem_of_lookup_eq_some candidates X d hd))
    rw [RowDraft.lookup_row, RowDraft.lookup_ofCandidates, hlookup]
    simp

theorem forall_numbered_cons {α : Type} (P : Nat → α → Prop) (s : Nat) (x : α) (xs : List α) :
    (∀ i y, (x :: xs)[i]? = some y → P (s + i) y) ↔
      P s x ∧ ∀ i y, xs[i]? = some y → P (s + 1 + i) y := by
  constructor
  · intro h
    refine ⟨h 0 x rfl, ?_⟩
    intro i y hy
    have hi := h (i + 1) y hy
    rwa [show s + (i + 1) = s + 1 + i by omega] at hi
  · intro ⟨hzero, hrest⟩ i y hy
    cases i with
    | zero =>
      cases hy
      exact hzero
    | succ i =>
      have hi := hrest i y hy
      rwa [show s + 1 + i = s + (i + 1) by omega] at hi

/-- The states of a list are clear; the first of them has number `s`. -/
def AllClear (g : Grammar) (a : Automaton) (s : Nat) (states : List ItemSet) : Prop :=
  ∀ i items, states[i]? = some items → g.Clear a ⟨s + i⟩ items

theorem allClear_cons (g : Grammar) (a : Automaton) (s : Nat) (items : ItemSet)
    (states : List ItemSet) :
    g.AllClear a s (items :: states) ↔ g.Clear a ⟨s⟩ items ∧ g.AllClear a (s + 1) states :=
  forall_numbered_cons (fun i items => g.Clear a ⟨i⟩ items) s items states

/-- The rows of a list of states; there is no conflict exactly when the states are clear, and then
the rows fit. -/
structure Filled (g : Grammar) (a : Automaton) (s : Nat) (states : List ItemSet)
    (filled : List Row × List Conflict) : Prop where
  clear : filled.2 = [] ↔ g.AllClear a s states
  length : filled.2 = [] → filled.1.length = states.length
  fits : filled.2 = [] → ∀ i row, filled.1[i]? = some row → g.RowFits a ⟨s + i⟩ row

theorem filled_nil (g : Grammar) (a : Automaton) (s : Nat) : g.Filled a s [] ([], []) := by
  refine ⟨?_, fun _ => rfl, ?_⟩
  · simp [AllClear]
  · simp

theorem filled_conflict (g : Grammar) (a : Automaton) (s : Nat) (items : ItemSet)
    (states : List ItemSet) (rows : List Row) (conflicts : List Conflict)
    (hne : conflicts ≠ []) (hclear : ¬ g.Clear a ⟨s⟩ items) :
    g.Filled a s (items :: states) (rows, conflicts) := by
  refine ⟨?_, fun h => False.elim (hne h), fun h => False.elim (hne h)⟩
  rw [allClear_cons]
  exact ⟨fun h => False.elim (hne h), fun h => False.elim (hclear h.1)⟩

theorem filled_cons (g : Grammar) (a : Automaton) (s : Nat) (items : ItemSet)
    (states : List ItemSet) (row : Row) (rows : List Row) (conflicts more : List Conflict)
    (hclear : conflicts = [] ↔ g.Clear a ⟨s⟩ items)
    (hrow : g.Clear a ⟨s⟩ items → g.RowFits a ⟨s⟩ row)
    (hrest : g.Filled a (s + 1) states (rows, more)) :
    g.Filled a s (items :: states) (row :: rows, conflicts ++ more) := by
  refine ⟨?_, ?_, ?_⟩
  · rw [allClear_cons, ← hclear, ← hrest.clear, List.append_eq_nil_iff]
  · intro hnil
    rw [List.length_cons, List.length_cons, hrest.length (List.append_eq_nil_iff.mp hnil).2]
  · intro hnil
    obtain ⟨hfirst, hmore⟩ := List.append_eq_nil_iff.mp hnil
    exact (forall_numbered_cons (fun i row => g.RowFits a ⟨i⟩ row) s row rows).mpr
      ⟨hrow (hclear.mp hfirst), hrest.fits hmore⟩

/-- At a state the candidates are refused, or the search is done with a conflict, or it depends on
the states behind. -/
inductive Fills (g : Grammar) (o : BuildOptions) (a : Automaton) (s : Nat) (items : ItemSet)
    (states : List ItemSet) (sets : Analysis) :
    Except BuildError (List Row × List Conflict) × Analysis → Prop
  | refused {x : BuildError} {b : Analysis} :
      g.stateCandidates a ⟨s⟩ items sets = (.error x, b) →
      Fills g o a s items states sets (.error x, b)
  | stopped {candidates : List Candidate} {b : Analysis} {conflict : Conflict}
      {own : List Conflict} :
      o.stopAtConflict = true → g.stateCandidates a ⟨s⟩ items sets = (.ok candidates, b) →
      (RowDraft.ofCandidates g ⟨s⟩ candidates).conflicts = conflict :: own →
      Fills g o a s items states sets
        (.ok ([(RowDraft.ofCandidates g ⟨s⟩ candidates).row g], [conflict]), b)
  | failed {candidates : List Candidate} {b c : Analysis} {x : BuildError} :
      g.stateCandidates a ⟨s⟩ items sets = (.ok candidates, b) →
      g.fillRows o a (s + 1) states b = (.error x, c) →
      Fills g o a s items states sets (.error x, c)
  | filled {candidates : List Candidate} {b c : Analysis} {rows : List Row}
      {more : List Conflict} :
      g.stateCandidates a ⟨s⟩ items sets = (.ok candidates, b) →
      g.fillRows o a (s + 1) states b = (.ok (rows, more), c) →
      Fills g o a s items states sets
        (.ok ((RowDraft.ofCandidates g ⟨s⟩ candidates).row g :: rows,
          (RowDraft.ofCandidates g ⟨s⟩ candidates).conflicts ++ more), c)

theorem fills (g : Grammar) (o : BuildOptions) (a : Automaton) (s : Nat) (items : ItemSet)
    (states : List ItemSet) (sets : Analysis) :
    g.Fills o a s items states sets (g.fillRows o a s (items :: states) sets) := by
  rw [fillRows]
  rcases hx : g.stateCandidates a ⟨s⟩ items sets with ⟨x | candidates, b⟩
  · exact .refused hx
  · simp only
    split
    · rename_i hstop hown
      exact .stopped hstop hx hown
    · rcases hrest : g.fillRows o a (s + 1) states b with ⟨x | ⟨rows, more⟩, c⟩
      · exact .failed hx hrest
      · exact .filled hx hrest

/-- Whether the search stops at a conflict makes no difference to the rows that are of use. -/
theorem fillRows_leaves (g : Grammar) (o : BuildOptions) (a : Automaton) (ha : a.Canonical g)
    (states : List ItemSet) (s : Nat)
    (hstates : ∀ i items, states[i]? = some items → a.state? ⟨s + i⟩ = some items)
    (sets : Analysis) (hsets : sets.Sound g) (hidle : sets.underway = []) :
    sets.Leaves g (g.Filled a s states) (¬ g.AllClear a s states)
      (g.fillRows o a s states sets) := by
  induction states generalizing s sets with
  | nil => exact ⟨hsets, rfl, g.filled_nil a s⟩
  | cons items states ih =>
    obtain ⟨hitems, hstates⟩ :=
      (forall_numbered_cons (fun i items => a.state? ⟨i⟩ = some items) s items states).mp hstates
    have hcandidates := g.stateCandidates_leaves a ha ⟨s⟩ items hitems sets hsets hidle
    have hclear {candidates : List Candidate} (hres : g.FollowsResolve items.toList)
        (hmem : ∀ X c, (X, c) ∈ candidates ↔ g.Asks a ⟨s⟩ X c) :
        (RowDraft.ofCandidates g ⟨s⟩ candidates).conflicts = [] ↔ g.Clear a ⟨s⟩ items := by
      rw [RowDraft.conflicts_ofCandidates]
      simp only [hmem]
      exact ⟨fun hsingle => ⟨hres, hsingle⟩, Clear.single⟩
    have hfills := g.fills o a s items states sets
    generalize g.fillRows o a s (items :: states) sets = result at hfills ⊢
    cases hfills with
    | refused hx =>
      rw [hx] at hcandidates
      obtain ⟨hb, hbu, hfail⟩ := hcandidates
      refine ⟨hb, hbu, ?_⟩
      rw [allClear_cons]
      exact fun h => hfail h.1.follows
    | stopped _ hx hown =>
      rw [hx] at hcandidates
      obtain ⟨hb, hbu, hres, hmem⟩ := hcandidates
      have hfail : ¬ g.Clear a ⟨s⟩ items := by
        rw [← hclear hres hmem, hown]
        exact List.cons_ne_nil _ _
      exact ⟨hb, hbu, g.filled_conflict a s items states _ _ (List.cons_ne_nil _ _) hfail⟩
    | @failed _ b _ _ hx hrest =>
      rw [hx] at hcandidates
      obtain ⟨hb, hbu, -, -⟩ := hcandidates
      have hleaves := ih (s + 1) hstates b hb (hbu.trans hidle)
      rw [hrest] at hleaves
      obtain ⟨hc, hcu, hfail⟩ := hleaves
      refine ⟨hc, hcu.trans hbu, ?_⟩
      rw [allClear_cons]
      exact fun h => hfail h.2
    | @filled candidates b _ _ _ hx hrest =>
      rw [hx] at hcandidates
      obtain ⟨hb, hbu, hres, hmem⟩ := hcandidates
      have hrow (h : g.Clear a ⟨s⟩ items) :
          g.RowFits a ⟨s⟩ ((RowDraft.ofCandidates g ⟨s⟩ candidates).row g) :=
        g.rowFits_ofCandidates a ha ⟨s⟩ candidates hmem h.single
      have hleaves := ih (s + 1) hstates b hb (hbu.trans hidle)
      rw [hrest] at hleaves
      obtain ⟨hc, hcu, hfilled⟩ := hleaves
      exact ⟨hc, hcu.trans hbu,
        g.filled_cons a s items states _ _ _ _ (hclear hres hmem) hrow hfilled⟩

end Grammar

/-- The table of the grammar, as its states ask for it. -/
structure Table.Fits (g : Grammar) (t : Table) : Prop where
  automaton : g.automaton = .ok t.automaton
  productions : t.productions = g.productions
  clear : g.AllClear t.automaton 0 t.automaton.states
  length : t.rows.length = t.automaton.states.length
  fits : ∀ i row, t.rows[i]? = some row → g.RowFits t.automaton ⟨i⟩ row

theorem Automaton.state?_zero_add (a : Automaton) (i : Nat) (items : ItemSet)
    (h : a.states[i]? = some items) : a.state? ⟨0 + i⟩ = some items := by
  rw [Nat.zero_add]
  exact h

namespace Grammar

theorem fillRows_automaton (g : Grammar) (o : BuildOptions) (a : Automaton)
    (ha : g.automaton = .ok a) :
    Analysis.empty.Leaves g (g.Filled a 0 a.states) (¬ g.AllClear a 0 a.states)
      (g.fillRows o a 0 a.states .empty) :=
  g.fillRows_leaves o a (g.automaton_canonical a ha) a.states 0 a.state?_zero_add .empty
    g.sound_empty rfl

theorem table_fits (g : Grammar) (o : BuildOptions) (t : Table) (h : g.table o = .ok t) :
    t.Fits g := by
  unfold table at h
  split at h
  · cases h
  · rename_i a ha
    unfold tableOf at h
    rcases (g.fillRows_automaton o a ha).cases with ⟨e, b, hx, -⟩ |
      ⟨⟨rows, _ | ⟨conflict, conflicts⟩⟩, b, hx, -, -, hfilled⟩
    · rw [hx] at h
      cases h
    · rw [hx] at h
      cases h
      refine ⟨ha, rfl, hfilled.clear.mp rfl, hfilled.length rfl, ?_⟩
      intro i row hrow
      have hfits := hfilled.fits rfl i row hrow
      rwa [Nat.zero_add] at hfits
    · rw [hx] at h
      simp only at h
      split at h
      · cases h
      · cases h

theorem table_of_allClear (g : Grammar) (o : BuildOptions) (a : Automaton)
    (ha : g.automaton = .ok a) (hclear : g.AllClear a 0 a.states) : ∃ t, g.table o = .ok t := by
  rcases (g.fillRows_automaton o a ha).cases with ⟨e, b, -, -, -, hfail⟩ |
    ⟨⟨rows, conflicts⟩, b, hx, -, -, hfilled⟩
  · exact False.elim (hfail hclear)
  · have hnil : conflicts = [] := hfilled.clear.mpr hclear
    subst hnil
    refine ⟨⟨a, rows, g.productions⟩, ?_⟩
    unfold table
    rw [ha]
    unfold tableOf
    simp only [hx]

theorem state_of_asks (g : Grammar) (a : Automaton) (ha : a.Canonical g) (s : StateId) (X : Symbol)
    (c : Action) (h : g.Asks a s X c) : ∃ items, a.state? s = some items := by
  cases h with
  | shift hs => exact ⟨_, hs⟩
  | reduce hs => exact ⟨_, hs⟩
  | accept hs => exact ⟨_, hs⟩
  | goto hget =>
    obtain ⟨items, hs, -, -⟩ := ha.edge s _ _ hget
    exact ⟨items, hs⟩

/-- All states are clear exactly when FOLLOW succeeds where it is asked for and no cell has two
different candidates. -/
theorem allClear_iff (g : Grammar) (a : Automaton) (ha : a.Canonical g) :
    g.AllClear a 0 a.states ↔
      (∀ s items item n, a.state? s = some items → item ∈ items → g.Reducible item n →
        ∃ follow sets, g.follow (.nonterminal n) .empty = (.ok follow, sets)) ∧
      ∀ s X c d, g.Asks a s X c → g.Asks a s X d → c = d := by
  constructor
  · intro hclear
    constructor
    · intro s items item n hs hitem hn
      have hitems := hclear s.number items hs
      exact (g.follow_ok_iff n (g.contains_of_reducible hn)).mpr (hitems.follows item hitem n hn)
    · intro s X c d hc hd
      obtain ⟨items, hs⟩ := g.state_of_asks a ha s X c hc
      have hitems := hclear s.number items hs
      rw [Nat.zero_add] at hitems
      exact hitems.single X c d hc hd
  · intro ⟨hfollow, hsingle⟩ i items hitems
    rw [Nat.zero_add]
    refine ⟨?_, hsingle ⟨i⟩⟩
    intro item hitem n hn
    exact (g.follow_ok_iff n (g.contains_of_reducible hn)).mp
      (hfollow ⟨i⟩ items item n hitems hitem hn)

end Grammar

namespace Table.Fits

theorem canonical {g : Grammar} {t : Table} (h : t.Fits g) : t.automaton.Canonical g :=
  g.automaton_canonical t.automaton h.automaton

theorem row {g : Grammar} {t : Table} (h : t.Fits g) {s : StateId} {items : ItemSet}
    (hs : t.automaton.state? s = some items) :
    ∃ row, t.row s = .ok row ∧ g.RowFits t.automaton s row := by
  have hlt : s.number < t.rows.length := by
    rw [h.length]
    exact (List.getElem?_eq_some_iff.mp hs).choose
  refine ⟨t.rows[s.number], ?_, h.fits s.number _ (List.getElem?_eq_getElem hlt)⟩
  rw [Table.row, List.getElem?_eq_getElem hlt]

theorem action_of_asks {g : Grammar} {t : Table} (h : t.Fits g) {s : StateId} {X : Symbol}
    {c : Action} (hc : g.Asks t.automaton s X c) : t.action s X = .ok c := by
  obtain ⟨items, hs⟩ := g.state_of_asks t.automaton h.canonical s X c hc
  obtain ⟨row, hrow, hfits⟩ := h.row hs
  simp only [action, hrow, hfits.asked X c hc]

theorem action_of_none {g : Grammar} {t : Table} (h : t.Fits g) {s : StateId} {items : ItemSet}
    {X : Symbol} (hs : t.automaton.state? s = some items)
    (hX : ∀ c, ¬ g.Asks t.automaton s X c) : t.action s X = .ok .error := by
  obtain ⟨row, hrow, hfits⟩ := h.row hs
  simp only [action, hrow, hfits.unasked X hX]

theorem action_of_no_state {g : Grammar} {t : Table} (h : t.Fits g) {s : StateId}
    (hs : t.automaton.state? s = none) (X : Symbol) : t.action s X = .error (.unknownState s) := by
  have hrow : t.rows[s.number]? = none := by
    rw [List.getElem?_eq_none_iff, h.length]
    exact List.getElem?_eq_none_iff.mp hs
  rw [action, Table.row, hrow]

/-- A cell holds its candidate, or an error where there is none. -/
theorem action_cases {g : Grammar} {t : Table} (h : t.Fits g) {s : StateId} {items : ItemSet}
    (hs : t.automaton.state? s = some items) (X : Symbol) :
    (∃ c, g.Asks t.automaton s X c ∧ t.action s X = .ok c) ∨ t.action s X = .ok .error := by
  by_cases hX : ∃ c, g.Asks t.automaton s X c
  · obtain ⟨c, hc⟩ := hX
    exact Or.inl ⟨c, hc, h.action_of_asks hc⟩
  · exact Or.inr (h.action_of_none hs fun c hc => hX ⟨c, hc⟩)

theorem move_of_reduce {g : Grammar} {t : Table} (h : t.Fits g) {s : StateId} {X : Symbol}
    {p : ProductionId} {q : Production} (hp : t.action s X = .ok (.reduce p))
    (hq : g.production? p = some q) :
    t.move s X = .ok (.reduce p (.nonterminal q.head) q.tail.length) := by
  have hq' : t.productions[p.number]? = some q := by
    rw [h.productions]
    exact hq
  rw [move, hp]
  simp only [hq']

end Table.Fits

namespace Grammar

/-- The table of a grammar is its SLR(1) table: there is one exactly when FOLLOW succeeds and no
cell has two different candidates. -/
theorem table_exact (g : Grammar) (o : BuildOptions) :
    ((∃ t, g.table o = .ok t) ↔ ∃ a, g.automaton = .ok a ∧
      (∀ s items item n, a.state? s = some items → item ∈ items → g.Reducible item n →
        ∃ follow sets, g.follow (.nonterminal n) .empty = (.ok follow, sets)) ∧
      ∀ s X c d, g.Asks a s X c → g.Asks a s X d → c = d) ∧
    ∀ t, g.table o = .ok t →
      g.automaton = .ok t.automaton ∧
      t.rows.length = t.automaton.states.length ∧
      (∀ row ∈ t.rows, row.map Prod.fst = g.symbols) ∧
      ∀ s items X, t.automaton.state? s = some items →
        (∀ c, g.Asks t.automaton s X c → t.action s X = .ok c) ∧
        ((∀ c, ¬ g.Asks t.automaton s X c) → t.action s X = .ok .error) ∧
        ∀ p, t.action s X = .ok (.reduce p) → ∃ q, g.production? p = some q ∧
          t.parseTable.move s X = .ok (.reduce p (.nonterminal q.head) q.tail.length) := by
  constructor
  · constructor
    · intro ⟨t, ht⟩
      have hfits := g.table_fits o t ht
      exact ⟨t.automaton, hfits.automaton, (g.allClear_iff _ hfits.canonical).mp hfits.clear⟩
    · intro ⟨a, ha, hwell⟩
      have hclear := (g.allClear_iff a (g.automaton_canonical a ha)).mpr hwell
      exact g.table_of_allClear o a ha hclear
  · intro t ht
    have hfits := g.table_fits o t ht
    refine ⟨hfits.automaton, hfits.length, ?_, ?_⟩
    · intro row hrow
      obtain ⟨i, hi⟩ := List.getElem?_of_mem hrow
      exact (hfits.fits i row hi).keys
    · intro s items X hs
      refine ⟨fun c hc => hfits.action_of_asks hc, fun hnone => hfits.action_of_none hs hnone, ?_⟩
      intro p hp
      rcases hfits.action_cases hs X with ⟨c, hc, haction⟩ | herror
      · rw [haction] at hp
        cases hp
        obtain ⟨-, q, -, -, hq, -⟩ := g.asks_reduce hc
        exact ⟨q, hq, hfits.move_of_reduce haction hq⟩
      · rw [herror] at hp
        cases hp

theorem exists_table (declarations : List Declaration) (P : Grammar → Table → Prop)
    [∀ g t, Decidable (P g t)]
    (h : (match Grammar.define declarations with
      | .error _ => false
      | .ok g =>
        match g.table .thorough with
        | .error _ => false
        | .ok t => decide (P g t)) = true) :
    ∃ g t, Grammar.define declarations = .ok g ∧ g.table .thorough = .ok t ∧ P g t := by
  split at h
  · cases h
  · rename_i g hg
    split at h
    · cases h
    · rename_i t ht
      exact ⟨g, t, hg, ht, of_decide_eq_true h⟩

end Grammar
end ShiftReduce
