import ShiftReduce.Registry
import ShiftReduce.Proofs.WellFormedDefinitions

namespace ShiftReduce

namespace Registry

theorem run_ofExcept_ok {α : Type} (a : α) (r : Registry) :
    (ofExcept (.ok a) : Entry α).run r = .ok a r := rfl

theorem run_ofExcept_error {α : Type} (e : GrammarFault) (r : Registry) :
    (ofExcept (.error e) : Entry α).run r = .error e r := rfl

/-- A counter that has run out stays where it is. -/
theorem run_allocate (r : Registry) (kind : Counted) :
    (allocate kind).run r =
      if r.next kind < idCapacity then .ok (r.next kind) (r.advance kind)
      else .error (.capacityExceeded kind) r := by
  by_cases hfits : r.next kind < idCapacity
  · simp only [allocate, EStateM.run_bind, EStateM.run_get, if_pos hfits, EStateM.run_modify,
      EStateM.run_pure]
  · simp only [allocate, EStateM.run_bind, EStateM.run_get, if_neg hfits]
    rfl

/-- The check comes first, then the counter, and the writing last. -/
theorem run_enter (r : Registry) (c : Declaration) :
    (enter c).run r =
      match r.names.check c with
      | .error e => .error e r
      | .ok addition =>
        if r.next addition.kind < idCapacity then
          .ok (addition.declared (r.next addition.kind))
            ((r.advance addition.kind).write (r.next addition.kind) addition)
        else .error (.capacityExceeded addition.kind) r := by
  cases hcheck : r.names.check c with
  | error e => simp only [enter, EStateM.run_bind, EStateM.run_get, hcheck, run_ofExcept_error]
  | ok addition =>
    by_cases hfits : r.next addition.kind < idCapacity
    · simp only [enter, EStateM.run_bind, EStateM.run_get, hcheck, run_ofExcept_ok, run_allocate,
        if_pos hfits, EStateM.run_modify, EStateM.run_pure]
    · simp only [enter, EStateM.run_bind, EStateM.run_get, hcheck, run_ofExcept_ok, run_allocate,
        if_neg hfits]

/-- An entry that fails has written nothing, whatever the registry holds. -/
theorem unchanged_of_refused {r r' : Registry} {c : Declaration} {e : GrammarFault}
    (h : (enter c).run r = .error e r') : r' = r := by
  rw [run_enter] at h
  cases hcheck : r.names.check c with
  | error fault =>
    simp only [hcheck] at h
    cases h
    rfl
  | ok addition =>
    by_cases hfits : r.next addition.kind < idCapacity
    · simp only [hcheck, if_pos hfits] at h
      cases h
    · simp only [hcheck, if_neg hfits] at h
      cases h
      rfl

section Numbered

variable {κ α : Type} [DecidableEq κ] (key : Nat → κ)

theorem lookup_numbered (hkey : key.Injective) (start n : Nat) (values : List α) :
    (numbered key start values).lookup (key (start + n)) = values[n]? := by
  induction values generalizing start n with
  | nil => rfl
  | cons value rest ih =>
    cases n with
    | zero => simp [numbered]
    | succ n =>
      have hlater : key (start + (n + 1)) ≠ key start := fun h => by
        have := hkey h
        omega
      rw [numbered, List.lookup_cons, beq_eq_false_iff_ne.mpr hlater, List.getElem?_cons_succ,
        ← ih (start + 1) n, Nat.add_assoc, Nat.add_comm 1 n]

theorem numbered_concat (hkey : key.Injective) (start : Nat) (values : List α) (value : α) :
    numbered key start (values ++ [value]) =
      assign (key (start + values.length)) value (numbered key start values) := by
  induction values generalizing start with
  | nil => rfl
  | cons first rest ih =>
    have hlater : key start ≠ key (start + (first :: rest).length) := fun h => by
      have := hkey h
      rw [List.length_cons] at this
      omega
    rw [numbered, assign, if_neg hlater, List.cons_append, numbered, ih (start + 1),
      List.length_cons, Nat.add_assoc, Nat.add_comm 1]

omit [DecidableEq κ] in
theorem any_numbered [DecidableEq α] (start : Nat) (values : List α) (value : α) :
    (numbered key start values).any (fun entry => entry.2 = value) = decide (value ∈ values) := by
  induction values generalizing start with
  | nil => rfl
  | cons first rest ih =>
    rw [numbered, List.any_cons, ih, ← Bool.decide_or]
    exact decide_eq_decide.mpr (by rw [List.mem_cons, eq_comm])

end Numbered

end Registry

namespace Definition

variable (d : Definition)

theorem name?_registry (X : Symbol) : d.registry.name? X = d.name? X := by
  rcases X with ⟨⟨t⟩⟩ | ⟨⟨n⟩⟩
  · have := Registry.lookup_numbered Terminal.mk (fun _ _ => Terminal.mk.inj) 0 t
      d.terminals
    rwa [Nat.zero_add] at this
  · have := Registry.lookup_numbered Nonterminal.mk (fun _ _ => Nonterminal.mk.inj) 0 n
      d.nonterminals
    rwa [Nat.zero_add] at this

theorem names_registry : d.registry.names = d.names := by
  have hterminals (name : String) :
      d.registry.terminals.any (·.2 = name) = decide (name ∈ d.terminals) :=
    Registry.any_numbered Terminal.mk 0 d.terminals name
  have hnonterminals (name : String) :
      d.registry.nonterminals.any (·.2 = name) = decide (name ∈ d.nonterminals) :=
    Registry.any_numbered Nonterminal.mk 0 d.nonterminals name
  have htaken : d.registry.names.taken = d.declares := by
    funext name
    exact congrArg₂ or (hterminals name) (hnonterminals name)
  have hnames : d.registry.names.name? = d.name? := funext d.name?_registry
  exact congrArg₂ Names.mk htaken hnames

theorem next_registry (kind : Counted) : d.registry.next kind = d.next kind := by
  cases kind with
  | terminals | nonterminals | productions => rfl

theorem registry_add (addition : Addition) (h : d.Admits addition) :
    (d.add addition h).registry =
      (d.registry.advance addition.kind).write (d.next addition.kind) addition := by
  have hterminals := Registry.numbered_concat Terminal.mk (fun _ _ => Terminal.mk.inj) 0 d.terminals
  have hnonterminals :=
    Registry.numbered_concat Nonterminal.mk (fun _ _ => Nonterminal.mk.inj) 0 d.nonterminals
  have hproductions :=
    Registry.numbered_concat ProductionId.mk (fun _ _ => ProductionId.mk.inj) 1 d.rules
  rw [Nat.zero_add] at hterminals hnonterminals
  rw [Nat.add_comm] at hproductions
  cases addition with
  | terminal | nonterminal | production =>
    simp only [registry, add, Alphabet.addTerminal, Alphabet.addNonterminal, Registry.write,
      Registry.advance, next, Addition.kind, List.length_append, List.length_singleton, hterminals,
      hnonterminals, hproductions]

/-- What an entry does to the registry of a definition is what the declaration does to the
definition. -/
theorem run_enter_registry (c : Declaration) :
    (Registry.enter c).run d.registry =
      match d.declare c with
      | .ok (new, d') => .ok new d'.registry
      | .error e => .error e d.registry := by
  rw [Registry.run_enter, names_registry]
  obtain ⟨e, hcheck, hc⟩ | ⟨addition, hcheck, hfull, hc⟩ | ⟨addition, hadmits, hcheck, hfits, hc⟩ :=
    d.declare_outcome c
  · simp only [hcheck, hc]
  · simp only [hcheck, hc, next_registry, if_neg hfull]
  · simp only [hcheck, hc, next_registry, if_pos hfits, registry_add]

theorem enterEach_registry (cs : List Declaration) :
    d.registry.enterEach cs = ((d.declareEach cs).1, (d.declareEach cs).2.registry) := by
  induction cs generalizing d with
  | nil => rfl
  | cons c cs ih =>
    rw [Registry.enterEach, declareEach, run_enter_registry]
    cases d.declare c with
    | error e => simp only [ih]
    | ok made => simp only [ih]

theorem length_declareEach (cs : List Declaration) :
    (d.declareEach cs).1.length = cs.length := by
  induction cs generalizing d with
  | nil => rfl
  | cons c cs ih =>
    rw [declareEach, List.length_cons]
    cases d.declare c with
    | error e => exact congrArg (· + 1) (ih d)
    | ok made => exact congrArg (· + 1) (ih made.2)

end Definition

/-- The declarations that were not refused. -/
def Declaration.accepted (cs : List Declaration) (results : List (Except GrammarFault Declared)) :
    List Declaration :=
  ((cs.zip results).filter (·.2.isOk)).map Prod.fst

namespace Definition

/-- Without the refused ones all declarations are accepted, with the same results. -/
theorem declare_accepted (d : Definition) (cs : List Declaration) :
    d.declareEach (Declaration.accepted cs (d.declareEach cs).1) =
        ((d.declareEach cs).1.filter (·.isOk), (d.declareEach cs).2) ∧
      d.declareAll (Declaration.accepted cs (d.declareEach cs).1) = .ok (d.declareEach cs).2 := by
  induction cs generalizing d with
  | nil => exact ⟨rfl, rfl⟩
  | cons c cs ih =>
    cases hc : d.declare c with
    | error e =>
      simp only [declareEach, hc]
      exact ih d
    | ok made =>
      obtain ⟨new, d₁⟩ := made
      obtain ⟨heach, hall⟩ := ih d₁
      have hkept : Declaration.accepted (c :: cs) (.ok new :: (d₁.declareEach cs).1) =
          c :: Declaration.accepted cs (d₁.declareEach cs).1 := rfl
      simp only [declareEach, declareAll, hc, hkept, heach, hall, List.filter_cons, and_true]
      rfl

end Definition

/-- A refused entry leaves any registry as it was. The accepted declarations alone write the same
registry and finish as the same grammar. -/
theorem Registry.refused_without_trace (cs : List Declaration) :
    (∀ (r r' : Registry) (c : Declaration) (e : GrammarFault),
      (enter c).run r = .error e r' → r' = r) ∧
    ∃ results d,
      initial.enterEach cs = (results, d.registry) ∧
      Definition.empty.declareEach cs = (results, d) ∧
      results.length = cs.length ∧
      initial.enterEach (Declaration.accepted cs results) =
        (results.filter (·.isOk), d.registry) ∧
      Definition.empty.declareEach (Declaration.accepted cs results) =
        (results.filter (·.isOk), d) ∧
      Definition.empty.declareAll (Declaration.accepted cs results) = .ok d ∧
      Grammar.define (Declaration.accepted cs results) = d.finish := by
  refine ⟨fun r r' c e h => unchanged_of_refused h, ?_⟩
  obtain ⟨heach, hall⟩ := Definition.empty.declare_accepted cs
  have hinitial : initial = Definition.empty.registry := rfl
  refine ⟨_, _, Definition.empty.enterEach_registry cs, rfl,
    Definition.empty.length_declareEach cs, ?_, heach, hall, ?_⟩
  · rw [hinitial, Definition.enterEach_registry, heach]
  · rw [Grammar.define, hall]

end ShiftReduce
