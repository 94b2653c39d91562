import ShiftReduce.Proofs.ConflictReports

namespace ShiftReduce
namespace Grammar

/-- How the outcomes of the thorough and of the stopping search through the same states differ. -/
inductive Stops : Except BuildError (List Row × List Conflict) →
    Except BuildError (List Row × List Conflict) → Prop
  | clear (rows : List Row) : Stops (.ok (rows, [])) (.ok (rows, []))
  | refused (x : BuildError) : Stops (.error x) (.error x)
  | found (rows rows' : List Row) (conflict : Conflict) (more : List Conflict) :
      Stops (.ok (rows, conflict :: more)) (.ok (rows', [conflict]))
  | hidden (fault : GrammarFault) (rows : List Row) (conflict : Conflict) :
      Stops (.error (.grammar fault)) (.ok (rows, [conflict]))

/-- A row without a conflict in front of the others. -/
def withRow (row : Row) : Except BuildError (List Row × List Conflict) →
    Except BuildError (List Row × List Conflict)
  | .error x => .error x
  | .ok (rows, conflicts) => .ok (row :: rows, conflicts)

theorem Stops.withRow {x y : Except BuildError (List Row × List Conflict)} (h : Stops x y)
    (row : Row) : Stops (withRow row x) (withRow row y) := by
  cases h with
  | clear rows => exact .clear _
  | refused x => exact .refused x
  | found rows rows' conflict more => exact .found _ _ conflict more
  | hidden fault rows conflict => exact .hidden fault _ conflict

/-- A state without a conflict adds its row, however far the search goes. -/
theorem fillRows_of_clear (g : Grammar) (o : BuildOptions) (a : Automaton) (s : Nat)
    (items : ItemSet) (states : List ItemSet) (sets b : Analysis) (candidates : List Candidate)
    (hx : g.stateCandidates a ⟨s⟩ items sets = (.ok candidates, b))
    (hclear : (RowDraft.ofCandidates g ⟨s⟩ candidates).conflicts = []) :
    (g.fillRows o a s (items :: states) sets).1 =
      withRow ((RowDraft.ofCandidates g ⟨s⟩ candidates).row g)
        (g.fillRows o a (s + 1) states b).1 := by
  rw [fillRows, hx]
  simp only [hclear]
  generalize g.fillRows o a (s + 1) states b = rest
  split
  · rename_i hnone
    cases hnone
  · obtain ⟨filled, c⟩ := rest
    cases filled with
    | error x => rfl
    | ok filled => rfl

/-- At a state with conflicts one search is done, and the other keeps the first of them in front. -/
theorem stops_of_conflict (g : Grammar) (a : Automaton) (ha : a.Canonical g) (s : Nat)
    (items : ItemSet) (states : List ItemSet)
    (hstates : ∀ i items, states[i]? = some items → a.state? ⟨s + 1 + i⟩ = some items)
    (sets b : Analysis) (hb : b.Sound g) (hidle : b.underway = []) (candidates : List Candidate)
    (hx : g.stateCandidates a ⟨s⟩ items sets = (.ok candidates, b))
    (conflict : Conflict) (own : List Conflict)
    (hown : (RowDraft.ofCandidates g ⟨s⟩ candidates).conflicts = conflict :: own) :
    Stops (g.fillRows .thorough a s (items :: states) sets).1
      (g.fillRows .stopping a s (items :: states) sets).1 := by
  have hgoes : BuildOptions.thorough.stopAtConflict = false := rfl
  have hstopping : (g.fillRows .stopping a s (items :: states) sets).1 =
      .ok ([(RowDraft.ofCandidates g ⟨s⟩ candidates).row g], [conflict]) := by
    rw [fillRows, hx]
    simp only [BuildOptions.stopping, hown]
  rw [hstopping, fillRows, hx]
  simp only [hgoes, hown]
  cases hrest : g.fillRows .thorough a (s + 1) states b with
  | mk filled c =>
    cases filled with
    | error x =>
      obtain ⟨fault, rfl⟩ :=
        g.fault_of_fillRows .thorough a ha states (s + 1) hstates b c hb hidle x hrest
      exact .hidden fault _ conflict
    | ok filled => exact .found _ _ conflict _

/-- The two searches go through the same states with the same sets, up to the first conflict. -/
theorem fillRows_stops (g : Grammar) (a : Automaton) (ha : a.Canonical g) (states : List ItemSet)
    (s : Nat) (hstates : ∀ i items, states[i]? = some items → a.state? ⟨s + i⟩ = some items)
    (sets : Analysis) (hsets : sets.Sound g) (hidle : sets.underway = []) :
    Stops (g.fillRows .thorough a s states sets).1 (g.fillRows .stopping a s states sets).1 := by
  induction states generalizing s sets with
  | nil => exact .clear []
  | cons items states ih =>
    obtain ⟨hitems, hstates⟩ :=
      (forall_numbered_cons (fun i items => a.state? ⟨i⟩ = some items) s items states).mp hstates
    have hcandidates := g.stateCandidates_leaves a ha ⟨s⟩ items hitems sets hsets hidle
    rcases hcandidates.cases with ⟨e, b, hx, -⟩ | ⟨candidates, b, hx, hb, hbu, -⟩
    · rw [fillRows, fillRows, hx]
      exact .refused e
    · cases hown : (RowDraft.ofCandidates g ⟨s⟩ candidates).conflicts with
      | nil =>
        rw [g.fillRows_of_clear _ a s items states sets b candidates hx hown,
          g.fillRows_of_clear _ a s items states sets b candidates hx hown]
        exact (ih (s + 1) hstates b hb (hbu.trans hidle)).withRow _
      | cons conflict own =>
        exact g.stops_of_conflict a ha s items states hstates sets b hb (hbu.trans hidle)
          candidates hx conflict own hown

theorem render_of_production (g : Grammar) {p : ProductionId} {q : Production}
    (hq : g.production? p = some q) : ∃ text, (Action.reduce p).render g = .ok text := by
  simp only [Action.render, renderProductionId, production, hq, renderProduction,
    if_pos (g.contains_head hq)]
  exact ⟨_, rfl⟩

theorem render_of_asks (g : Grammar) {a : Automaton} {s : StateId} {X : Symbol} {c : Action}
    (h : g.Asks a s X c) : ∃ text, c.render g = .ok text := by
  cases c with
  | reduce p =>
    obtain ⟨-, q, -, -, hq, -⟩ := g.asks_reduce h
    exact g.render_of_production hq
  | shift target => exact ⟨_, rfl⟩
  | goto target => exact ⟨_, rfl⟩
  | accept => exact ⟨_, rfl⟩
  | error => exact ⟨_, rfl⟩

theorem render_of_asksFirst (g : Grammar) {a : Automaton} {s : StateId} {X : Symbol} {c : Action}
    (h : g.AsksFirst a s X c) : ∃ text, c.render g = .ok text := by
  cases h with
  | item _ _ hasks _ =>
    cases hasks with
    | shift => exact ⟨_, rfl⟩
    | reduce hn =>
      obtain ⟨-, q, hq, -⟩ := hn
      exact g.render_of_production hq
  | rest _ _ hasks => exact g.render_of_asks hasks

theorem exists_conflictTexts (g : Grammar) (conflicts : List Conflict)
    (h : ∀ e ∈ conflicts, (∃ text, e.existing.render g = .ok text) ∧
      ∃ text, e.incoming.render g = .ok text) :
    ∃ texts, g.conflictTexts conflicts = .ok texts := by
  induction conflicts with
  | nil => exact ⟨[], rfl⟩
  | cons e conflicts ih =>
    obtain ⟨⟨⟨existing, hexisting⟩, incoming, hincoming⟩, hrest⟩ := List.forall_mem_cons.mp h
    obtain ⟨texts, htexts⟩ := ih hrest
    simp only [conflictTexts, Conflict.render, hexisting, hincoming, htexts]
    exact ⟨_, rfl⟩

theorem conflictTexts_of_clash (g : Grammar) {a : Automaton} (conflicts : List Conflict)
    (h : ∀ e ∈ conflicts, g.Clash a e) : ∃ texts, g.conflictTexts conflicts = .ok texts := by
  apply g.exists_conflictTexts
  intro e he
  exact ⟨g.render_of_asksFirst (h e he).first, g.render_of_asks (h e he).asked⟩

theorem tableOf_of_conflicts (g : Grammar) (o : BuildOptions) (a : Automaton) (ha : a.Canonical g)
    (rows : List Row) (conflict : Conflict) (more : List Conflict)
    (h : (g.fillRows o a 0 a.states .empty).1 = .ok (rows, conflict :: more)) :
    g.tableOf o a = .error (.conflict (conflict :: more)) := by
  have hclash := g.clash_of_fillRows o a ha a.states 0 a.state?_zero_add .empty _ g.sound_empty rfl
    rows (conflict :: more) (Prod.ext h rfl)
  obtain ⟨texts, htexts⟩ := g.conflictTexts_of_clash _ hclash
  simp only [tableOf, h, htexts]

theorem table_stops (g : Grammar) :
    (g.table .thorough = g.table .stopping ∧
      ∀ conflicts, g.table .stopping ≠ .error (.conflict conflicts)) ∨
    (∃ conflict more, g.table .thorough = .error (.conflict (conflict :: more)) ∧
      g.table .stopping = .error (.conflict [conflict])) ∨
    ∃ fault conflict, g.table .thorough = .error (.grammar fault) ∧
      g.table .stopping = .error (.conflict [conflict]) := by
  cases hautomaton : g.automaton with
  | error x =>
    have htable (o : BuildOptions) : g.table o = .error x := by simp only [table, hautomaton]
    refine Or.inl ⟨(htable _).trans (htable _).symm, ?_⟩
    intro conflicts hconflicts
    rw [htable] at hconflicts
    cases hconflicts
    cases g.early_of_automaton _ hautomaton
  | ok a =>
    have ha := g.automaton_canonical a hautomaton
    have htable (o : BuildOptions) : g.table o = g.tableOf o a := by simp only [table, hautomaton]
    have hstops := g.fillRows_stops a ha a.states 0 a.state?_zero_add .empty g.sound_empty rfl
    rw [htable, htable]
    generalize hthorough : (g.fillRows .thorough a 0 a.states .empty).1 = thorough at hstops
    generalize hstopping : (g.fillRows .stopping a 0 a.states .empty).1 = stopping at hstops
    cases hstops with
    | clear rows =>
      left
      simp [tableOf, hthorough, hstopping]
    | refused x =>
      left
      obtain ⟨fault, rfl⟩ := g.fault_of_fillRows .stopping a ha a.states 0 a.state?_zero_add .empty
        _ g.sound_empty rfl x (Prod.ext hstopping rfl)
      simp [tableOf, hthorough, hstopping]
    | found rows rows' conflict more =>
      exact Or.inr (Or.inl ⟨conflict, more,
        g.tableOf_of_conflicts .thorough a ha rows conflict more hthorough,
        g.tableOf_of_conflicts .stopping a ha rows' conflict [] hstopping⟩)
    | hidden fault rows conflict =>
      refine Or.inr (Or.inr ⟨fault, conflict, ?_,
        g.tableOf_of_conflicts .stopping a ha rows conflict [] hstopping⟩)
      simp only [tableOf, hthorough]

/-- A stopping search gives the table that a thorough one gives. It finds the first conflict alone,
which a later fault may hide from the other. -/
theorem stopping_exact (g : Grammar) :
    (∀ t, g.table .thorough = .ok t ↔ g.table .stopping = .ok t) ∧
    (∀ conflicts, g.table .thorough = .error (.conflict conflicts) →
      ∃ conflict more, conflicts = conflict :: more ∧
        g.table .stopping = .error (.conflict [conflict])) ∧
    (∀ conflicts, g.table .stopping = .error (.conflict conflicts) →
      ∃ conflict, conflicts = [conflict] ∧
        ((∃ more, g.table .thorough = .error (.conflict (conflict :: more))) ∨
          ∃ fault, g.table .thorough = .error (.grammar fault))) ∧
    (∀ fault, g.table .stopping = .error (.grammar fault) →
      g.table .thorough = .error (.grammar fault)) := by
  rcases g.table_stops with ⟨hsame, hnone⟩ | ⟨conflict, more, hthorough, hstopping⟩ |
    ⟨fault, conflict, hthorough, hstopping⟩
  · rw [hsame]
    refine ⟨fun t => Iff.rfl, ?_, ?_, fun fault => id⟩
    · exact fun conflicts h => False.elim (hnone conflicts h)
    · exact fun conflicts h => False.elim (hnone conflicts h)
  · rw [hthorough, hstopping]
    refine ⟨by simp, ?_, ?_, by simp⟩
    · intro conflicts h
      cases h
      exact ⟨conflict, more, rfl, rfl⟩
    · intro conflicts h
      cases h
      exact ⟨conflict, rfl, Or.inl ⟨more, rfl⟩⟩
  · rw [hthorough, hstopping]
    refine ⟨by simp, by simp, ?_, by simp⟩
    intro conflicts h
    cases h
    exact ⟨conflict, rfl, Or.inr ⟨fault, rfl⟩⟩

end Grammar
end ShiftReduce
