import ShiftReduce.Proofs.TableRefusals
import ShiftReduce.Proofs.WrittenCandidates
import ShiftReduce.SampleGrammars

namespace ShiftReduce

namespace RowDraft

/-- The conflict of a candidate with what its cell holds, if there is one. -/
def clash (g : Grammar) (s : StateId) (candidate : Candidate) : Option Action → Option Conflict
  | none => none
  | some existing =>
    if existing = candidate.2 then none
    else some ⟨s, candidate.1, g.nameOf candidate.1, existing, candidate.2⟩

theorem clash_eq_some_iff (g : Grammar) (s : StateId) (candidate : Candidate)
    (held : Option Action) (e : Conflict) :
    clash g s candidate held = some e ↔ candidate = (e.symbol, e.incoming) ∧ e.state = s ∧
      e.name = g.nameOf e.symbol ∧ held = some e.existing ∧ e.existing ≠ e.incoming := by
  obtain ⟨X, c⟩ := candidate
  obtain ⟨state, symbol, name, existing, incoming⟩ := e
  cases held with
  | none => simp [clash]
  | some held =>
    simp only [clash]
    split
    · rename_i he
      subst he
      simp only [reduceCtorEq, Prod.mk.injEq, Option.some.injEq, false_iff]
      rintro ⟨⟨-, rfl⟩, -, -, rfl, hne⟩
      exact hne rfl
    · rename_i hne
      simp only [Option.some.injEq, Conflict.mk.injEq, Prod.mk.injEq]
      constructor
      · rintro ⟨rfl, rfl, rfl, rfl, rfl⟩
        exact ⟨⟨rfl, rfl⟩, rfl, rfl, rfl, hne⟩
      · rintro ⟨⟨rfl, rfl⟩, rfl, rfl, rfl, -⟩
        exact ⟨rfl, rfl, rfl, rfl, rfl⟩

theorem conflicts_write_eq (g : Grammar) (s : StateId) (draft : RowDraft) (candidate : Candidate) :
    (draft.write g s candidate).conflicts =
      draft.conflicts ++ (clash g s candidate (draft.cells.lookup candidate.1)).toList := by
  unfold write clash
  cases draft.cells.lookup candidate.1 with
  | none => exact (List.append_nil _).symm
  | some existing =>
    simp only
    split
    · exact (List.append_nil _).symm
    · rfl

/-- Each candidate is compared with what was written first into its cell, before or among the
candidates. -/
theorem conflicts_foldl_eq (g : Grammar) (s : StateId) (candidates : List Candidate)
    (draft : RowDraft) :
    (candidates.foldl (write g s) draft).conflicts = draft.conflicts ++
      candidates.filterMap fun candidate => clash g s candidate
        ((draft.cells.lookup candidate.1).or (candidates.lookup candidate.1)) := by
  induction candidates generalizing draft with
  | nil => exact (List.append_nil _).symm
  | cons candidate candidates ih =>
    have hlookup (X : Symbol) :
        ((draft.write g s candidate).cells.lookup X).or (candidates.lookup X) =
          (draft.cells.lookup X).or ((candidate :: candidates).lookup X) := by
      rw [lookup_write, Option.or_assoc, ← List.lookup_append, List.singleton_append]
    have hown : clash g s candidate
        ((draft.cells.lookup candidate.1).or ((candidate :: candidates).lookup candidate.1)) =
        clash g s candidate (draft.cells.lookup candidate.1) := by
      obtain ⟨X, c⟩ := candidate
      rw [List.lookup_cons_self]
      cases draft.cells.lookup X with
      | none => simp [clash]
      | some existing => rfl
    rw [List.foldl_cons, ih, conflicts_write_eq, List.append_assoc, List.filterMap_cons, hown]
    simp only [hlookup]
    cases clash g s candidate (draft.cells.lookup candidate.1) with
    | none => rfl
    | some e => rfl

/-- A conflict is reported as often as its incoming action is written, if it is against the action
that was written first. -/
theorem count_conflicts (g : Grammar) (s : StateId) (candidates : List Candidate) (e : Conflict)
    (hs : e.state = s) :
    ((e.name = g.nameOf e.symbol ∧ candidates.lookup e.symbol = some e.existing ∧
        e.existing ≠ e.incoming) →
      (ofCandidates g s candidates).conflicts.count e =
        candidates.count (e.symbol, e.incoming)) ∧
    (¬ (e.name = g.nameOf e.symbol ∧ candidates.lookup e.symbol = some e.existing ∧
        e.existing ≠ e.incoming) →
      (ofCandidates g s candidates).conflicts.count e = 0) := by
  have hconflicts : (ofCandidates g s candidates).conflicts = candidates.filterMap
      fun candidate => clash g s candidate (candidates.lookup candidate.1) := by
    rw [ofCandidates, conflicts_foldl_eq]
    rfl
  rw [hconflicts, List.count_filterMap]
  constructor
  · rintro ⟨hname, hfirst, hne⟩
    apply List.countP_congr
    intro candidate _
    rw [beq_iff_eq, beq_iff_eq, clash_eq_some_iff]
    constructor
    · exact And.left
    · intro hcandidate
      rw [hcandidate]
      exact ⟨rfl, hs, hname, hfirst, hne⟩
  · intro hnot
    rw [List.countP_eq_zero]
    intro candidate _
    rw [beq_iff_eq, clash_eq_some_iff]
    rintro ⟨rfl, -, hname, hfirst, hne⟩
    exact hnot ⟨hname, hfirst, hne⟩

theorem state_of_mem_conflicts (g : Grammar) (s : StateId) (candidates : List Candidate)
    (e : Conflict) (h : e ∈ (ofCandidates g s candidates).conflicts) : e.state = s := by
  rw [ofCandidates, conflicts_foldl_eq] at h
  rcases List.mem_append.mp h with hmem | hmem
  · exact False.elim (List.not_mem_nil hmem)
  · obtain ⟨candidate, -, hclash⟩ := List.mem_filterMap.mp hmem
    exact ((clash_eq_some_iff g s candidate _ e).mp hclash).2.1

end RowDraft

namespace Grammar

/-- The entry is for a cell of the automaton, the action that is written first into it, and another
one that the state asks for. -/
structure Clash (g : Grammar) (a : Automaton) (e : Conflict) : Prop where
  name : e.name = g.nameOf e.symbol
  first : g.AsksFirst a e.state e.symbol e.existing
  asked : g.Asks a e.state e.symbol e.incoming
  differs : e.existing ≠ e.incoming

/-- The entry is in the list as often as its action is written, if the action clashes. -/
def Reported (g : Grammar) (a : Automaton) (conflicts : List Conflict) (e : Conflict) : Prop :=
  (∀ items, a.state? e.state = some items → g.Clash a e →
    conflicts.count e = g.timesWritten items e.symbol e.incoming) ∧
  (¬ g.Clash a e → conflicts.count e = 0)

theorem reported_ofCandidates (g : Grammar) {a : Automaton} {s : StateId} {items : ItemSet}
    {parts : List (List Candidate)} (h : g.StateWrites a s items parts) (e : Conflict)
    (hs : e.state = s) :
    g.Reported a (RowDraft.ofCandidates g s
      (parts.flatten ++ laterCandidates a s items)).conflicts e := by
  obtain ⟨hcount, hzero⟩ := RowDraft.count_conflicts g s
    (parts.flatten ++ laterCandidates a s items) e hs
  constructor
  · intro items' hitems' he
    rw [hs, h.state] at hitems'
    cases hitems'
    have hfirst := he.first
    have hasked := he.asked
    rw [hs] at hfirst hasked
    rw [hcount ⟨he.name, (h.lookup_iff _ _).mpr hfirst, he.differs⟩]
    exact h.count_eq _ _ hasked
  · intro hnot
    by_cases hclash : e.name = g.nameOf e.symbol ∧
        (parts.flatten ++ laterCandidates a s items).lookup e.symbol = some e.existing ∧
        e.existing ≠ e.incoming
    · rw [hcount hclash, List.count_eq_zero]
      intro hmem
      obtain ⟨hname, hfirst, hne⟩ := hclash
      have hfirst := (h.lookup_iff _ _).mp hfirst
      have hasked := (h.mem _ _).mp hmem
      rw [← hs] at hfirst hasked
      exact hnot ⟨hname, hfirst, hasked, hne⟩
    · exact hzero hclash

/-- The list is the report of the states from number `s` on. -/
def ReportedFrom (g : Grammar) (a : Automaton) (s : Nat) (conflicts : List Conflict) : Prop :=
  ∀ e, (s ≤ e.state.number → g.Reported a conflicts e) ∧
    (e.state.number < s → conflicts.count e = 0)

theorem reportedFrom_nil (g : Grammar) (a : Automaton) (s : Nat) (hs : a.states.length ≤ s) :
    g.ReportedFrom a s [] := by
  intro e
  refine ⟨fun hle => ⟨?_, fun _ => rfl⟩, fun _ => rfl⟩
  intro items hitems
  have hlt := (List.getElem?_eq_some_iff.mp hitems).choose
  omega

theorem reportedFrom_append (g : Grammar) (a : Automaton) (s : Nat) (own more : List Conflict)
    (hown : ∀ e, e.state = ⟨s⟩ → g.Reported a own e) (hothers : ∀ e ∈ own, e.state = ⟨s⟩)
    (hmore : g.ReportedFrom a (s + 1) more) : g.ReportedFrom a s (own ++ more) := by
  intro e
  obtain ⟨hlater, hbefore⟩ := hmore e
  unfold Reported
  rw [List.count_append]
  by_cases hs : e.state = ⟨s⟩
  · have hnumber : e.state.number = s := congrArg StateId.number hs
    rw [hbefore (by omega), Nat.add_zero]
    exact ⟨fun _ => hown e hs, fun hlt => by omega⟩
  · have hnumber : e.state.number ≠ s := fun h => hs (congrArg StateId.mk h)
    have hnone : own.count e = 0 := List.count_eq_zero.mpr fun he => hs (hothers e he)
    rw [hnone, Nat.zero_add]
    exact ⟨fun hle => hlater (by omega), fun hlt => hbefore (by omega)⟩

/-- A thorough search reports the conflicts of all states that it goes through. -/
theorem fillRows_reported (g : Grammar) (a : Automaton) (ha : a.Canonical g) (states : List ItemSet)
    (s : Nat) (hstates : a.states.drop s = states) (sets b : Analysis) (hsets : sets.Sound g)
    (hidle : sets.underway = []) (rows : List Row) (conflicts : List Conflict)
    (h : g.fillRows .thorough a s states sets = (.ok (rows, conflicts), b)) :
    g.ReportedFrom a s conflicts := by
  induction states generalizing s sets rows conflicts with
  | nil =>
    cases h
    exact g.reportedFrom_nil a s (List.drop_eq_nil_iff.mp hstates)
  | cons items states ih =>
    have hitems : a.state? ⟨s⟩ = some items := by
      have hget := congrArg List.head? hstates
      rwa [List.head?_drop, List.head?_cons] at hget
    have hrest : a.states.drop (s + 1) = states := by
      have htail := congrArg List.tail hstates
      rwa [List.tail_drop, List.tail_cons] at htail
    have hcandidates := g.stateCandidates_leaves a ha ⟨s⟩ items hitems sets hsets hidle
    have hfills := g.fills .thorough a s items states sets
    rw [h] at hfills
    cases hfills with
    | stopped hstop => cases hstop
    | filled hx hmore =>
      rw [hx] at hcandidates
      obtain ⟨hc, hcu, -⟩ := hcandidates
      obtain ⟨parts, rfl, hwrites⟩ :=
        g.stateCandidates_writes a ha ⟨s⟩ items hitems sets _ hsets hidle _ hx
      apply g.reportedFrom_append
      · exact fun e hs => g.reported_ofCandidates hwrites e hs
      · exact RowDraft.state_of_mem_conflicts g ⟨s⟩ _
      · exact ih (s + 1) hrest _ hc (hcu.trans hidle) _ _ hmore

theorem clash_of_mem_ofCandidates (g : Grammar) {a : Automaton} {s : StateId} {items : ItemSet}
    {parts : List (List Candidate)} (h : g.StateWrites a s items parts) {e : Conflict}
    (he : e ∈ (RowDraft.ofCandidates g s
      (parts.flatten ++ laterCandidates a s items)).conflicts) : g.Clash a e := by
  by_contra hnot
  have hs := RowDraft.state_of_mem_conflicts g s _ e he
  exact List.count_eq_zero.mp ((g.reported_ofCandidates h e hs).2 hnot) he

/-- However far the search goes, all entries are for cells with different actions. -/
theorem clash_of_fillRows (g : Grammar) (o : BuildOptions) (a : Automaton) (ha : a.Canonical g)
    (states : List ItemSet) (s : Nat)
    (hstates : ∀ i items, states[i]? = some items → a.state? ⟨s + i⟩ = some items)
    (sets b : Analysis) (hsets : sets.Sound g) (hidle : sets.underway = []) (rows : List Row)
    (conflicts : List Conflict) (h : g.fillRows o a s states sets = (.ok (rows, conflicts), b)) :
    ∀ e ∈ conflicts, g.Clash a e := by
  induction states generalizing s sets rows conflicts with
  | nil =>
    cases h
    exact List.forall_mem_nil _
  | cons items states ih =>
    obtain ⟨hitems, hstates⟩ :=
      (forall_numbered_cons (fun i items => a.state? ⟨i⟩ = some items) s items states).mp hstates
    have hcandidates := g.stateCandidates_leaves a ha ⟨s⟩ items hitems sets hsets hidle
    have hown {candidates : List Candidate} {c : Analysis}
        (hx : g.stateCandidates a ⟨s⟩ items sets = (.ok candidates, c)) :
        ∀ e ∈ (RowDraft.ofCandidates g ⟨s⟩ candidates).conflicts, g.Clash a e := by
      obtain ⟨parts, rfl, hwrites⟩ :=
        g.stateCandidates_writes a ha ⟨s⟩ items hitems sets c hsets hidle candidates hx
      exact fun e he => g.clash_of_mem_ofCandidates hwrites he
    have hfills := g.fills o a s items states sets
    rw [h] at hfills
    cases hfills with
    | stopped _ hx hconflicts =>
      rw [List.forall_mem_singleton]
      apply hown hx
      rw [hconflicts]
      exact List.mem_cons_self
    | filled hx hmore =>
      rw [hx] at hcandidates
      obtain ⟨hc, hcu, -⟩ := hcandidates
      exact List.forall_mem_append.mpr
        ⟨hown hx, ih (s + 1) hstates _ hc (hcu.trans hidle) _ _ hmore⟩

theorem clash_of_table (g : Grammar) (o : BuildOptions) (conflicts : List Conflict)
    (h : g.table o = .error (.conflict conflicts)) :
    ∃ a, g.automaton = .ok a ∧ ∀ e ∈ conflicts, g.Clash a e := by
  obtain ⟨a, rows, sets, ha, hfilled⟩ := g.conflicts_of_table o conflicts h
  exact ⟨a, ha, g.clash_of_fillRows o a (g.automaton_canonical a ha) a.states 0
    a.state?_zero_add .empty sets g.sound_empty rfl rows conflicts hfilled⟩

/-- The conflicts of a table are the later actions of a cell against the first, once each, but a
shift once for each item that shifts. -/
theorem conflicts_exact (g : Grammar) (conflicts : List Conflict)
    (h : g.table .thorough = .error (.conflict conflicts)) :
    ∃ a, g.automaton = .ok a ∧ (∀ e, e ∈ conflicts ↔ g.Clash a e) ∧
      ∀ e ∈ conflicts, ((∀ target, e.incoming ≠ .shift target) → conflicts.count e = 1) ∧
        ∀ target items, e.incoming = .shift target → a.state? e.state = some items →
          conflicts.count e = items.toList.countP fun item => g.afterDot? item = some e.symbol := by
  obtain ⟨a, rows, sets, ha, hfilled⟩ := g.conflicts_of_table .thorough conflicts h
  have hcanonical := g.automaton_canonical a ha
  have hreported (e : Conflict) : g.Reported a conflicts e :=
    (g.fillRows_reported a hcanonical a.states 0 rfl .empty sets g.sound_empty rfl rows conflicts
      hfilled e).1 (Nat.zero_le _)
  have hclash (e : Conflict) (he : e ∈ conflicts) : g.Clash a e := by
    by_contra hnot
    exact List.count_eq_zero.mp ((hreported e).2 hnot) he
  refine ⟨a, ha, ?_, ?_⟩
  · intro e
    refine ⟨hclash e, ?_⟩
    intro he
    obtain ⟨items, hitems⟩ := g.state_of_asks a hcanonical _ _ _ he.asked
    apply List.count_pos_iff.mp
    rw [(hreported e).1 items hitems he]
    exact g.timesWritten_pos hitems he.asked
  · intro e he
    constructor
    · intro hother
      obtain ⟨items, hitems⟩ := g.state_of_asks a hcanonical _ _ _ (hclash e he).asked
      rw [(hreported e).1 items hitems (hclash e he)]
      exact g.timesWritten_of_ne_shift items _ _ hother
    · intro target items hincoming hitems
      rw [(hreported e).1 items hitems (hclash e he), hincoming]
      rfl

theorem exists_conflicts (declarations : List Declaration) (P : Grammar → List Conflict → Prop)
    [∀ g conflicts, Decidable (P g conflicts)]
    (h : (match Grammar.define declarations with
      | .error _ => false
      | .ok g =>
        match g.table .thorough with
        | .error (.conflict conflicts) => decide (P g conflicts)
        | _ => false) = true) :
    ∃ g conflicts, Grammar.define declarations = .ok g ∧
      g.table .thorough = .error (.conflict conflicts) ∧ P g conflicts := by
  split at h
  · cases h
  · rename_i g hg
    split at h
    · rename_i conflicts hconflicts
      exact ⟨g, conflicts, hg, hconflicts, of_decide_eq_true h⟩
    · cases h

/-- After `x` the reduction to `A` comes first, and two items ask for the shift of `y`. -/
def repeatedShift : List Declaration :=
  SampleGrammars.declarations ["x", "y"] ["S", "A"]
    [("A", ["x"]),
     ("S", ["A", "y"]),
     ("S", ["x", "y"]),
     ("S", ["x", "y", "y"])]

/-- The shift of `y` clashes with the reduction, and two items ask for it. -/
theorem conflicts_exact_repeatedShift : ∃ g conflicts a, Grammar.define repeatedShift = .ok g ∧
    g.table .thorough = .error (.conflict conflicts) ∧ g.automaton = .ok a ∧
    g.Clash a ⟨⟨1⟩, .terminal ⟨2⟩, "y", .reduce ⟨1⟩, .shift ⟨4⟩⟩ ∧
    ∀ items, a.state? ⟨1⟩ = some items →
      (items.toList.countP fun item => g.afterDot? item = some (.terminal ⟨2⟩)) = 2 := by
  obtain ⟨g, conflicts, hg, hconflicts, hmem, hcount⟩ := exists_conflicts repeatedShift
    (fun _ conflicts =>
      (⟨⟨1⟩, .terminal ⟨2⟩, "y", .reduce ⟨1⟩, .shift ⟨4⟩⟩ : Conflict) ∈ conflicts ∧
      conflicts.count ⟨⟨1⟩, .terminal ⟨2⟩, "y", .reduce ⟨1⟩, .shift ⟨4⟩⟩ = 2) (by decide +kernel)
  obtain ⟨a, ha, hclash, htimes⟩ := g.conflicts_exact conflicts hconflicts
  refine ⟨g, conflicts, a, hg, hconflicts, ha, (hclash _).mp hmem, ?_⟩
  intro items hitems
  exact ((htimes _ hmem).2 ⟨4⟩ items rfl hitems).symm.trans hcount

/-- Not every entry is there once: the shift of `y` is there twice. -/
theorem conflicts_not_once : ∃ g conflicts, Grammar.define repeatedShift = .ok g ∧
    g.table .thorough = .error (.conflict conflicts) ∧
    ¬ ∃ a, g.automaton = .ok a ∧
      ∀ e, (g.Clash a e → conflicts.count e = 1) ∧ (¬ g.Clash a e → e ∉ conflicts) := by
  obtain ⟨g, conflicts, hg, hconflicts, hcount⟩ := exists_conflicts repeatedShift
    (fun _ conflicts =>
      conflicts.count ⟨⟨1⟩, .terminal ⟨2⟩, "y", .reduce ⟨1⟩, .shift ⟨4⟩⟩ = 2) (by decide +kernel)
  refine ⟨g, conflicts, hg, hconflicts, ?_⟩
  rintro ⟨a, -, honce⟩
  obtain ⟨hclash, hnot⟩ := honce ⟨⟨1⟩, .terminal ⟨2⟩, "y", .reduce ⟨1⟩, .shift ⟨4⟩⟩
  by_cases he : g.Clash a ⟨⟨1⟩, .terminal ⟨2⟩, "y", .reduce ⟨1⟩, .shift ⟨4⟩⟩
  · have hone := hclash he
    omega
  · have hnone := List.count_eq_zero.mpr (hnot he)
    omega

end Grammar
end ShiftReduce
