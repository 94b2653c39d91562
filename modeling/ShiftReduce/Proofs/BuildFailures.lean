import ShiftReduce.Proofs.FirstSets
import ShiftReduce.Proofs.StateNumbering
import ShiftReduce.Proofs.StoppingSearch

/-! The table may be built from any automaton, with items and edges that mean nothing to the
grammar. Its rows are refused at the first item without a production. -/
namespace ShiftReduce

namespace Exploration

section
variable {g : Grammar} {e : Exploration} {k : Nat} {done : List Symbol} {X : Symbol}
  {x : BuildError}

/-- A new edge is refused only when the numbers are used up. -/
theorem error_of_record {source : StateId} {items : ItemSet}
    (hnone : e.transitions.get? source X = none) (hcapacity : e.found.length ≤ StateId.capacity)
    (h : e.record source X items = .error x) :
    x = .misuse (.tooManyStates StateId.capacity) := by
  unfold record at h
  generalize hplace : place e.found items = placed at h
  obtain ⟨index, new⟩ := placed
  by_cases hlt : index < StateId.capacity
  · simp only [if_pos hlt, Transitions.insert, hnone] at h
    cases new
    · cases h
    · cases h
  · simp only [if_neg hlt] at h
    cases h
    rcases place_eq e.found items index new hplace with ⟨-, hget⟩ | ⟨-, -, rfl⟩
    · have hfound := (List.getElem?_eq_some_iff.mp hget).choose
      omega
    · have hfull : e.found.length = StateId.capacity := by omega
      rw [hfull]

theorem error_of_step (hn : e.Numbered g k done) (hX : X ∉ done) (hk : k < e.found.length)
    (h : e.step g ⟨k⟩ X = .error x) : x = .misuse (.tooManyStates StateId.capacity) := by
  have hitems : e.found[k]? = some e.found[k] := List.getElem?_eq_getElem hk
  have hknown := g.knows_of_hasItem (hn.sound.hasItem _ (List.mem_of_getElem? hitems))
  simp only [step, hitems, g.goto_eq_ok hknown X] at h
  split at h
  · cases h
  · exact error_of_record (hn.listed.unrecorded ⟨k⟩ X (Or.inr ⟨rfl, hX⟩)) hn.capacity h

theorem error_of_steps (todo : List Symbol) (hsymbols : g.symbols = done ++ todo)
    (hn : e.Numbered g k done) (hw : e.Waits (k + 1)) (h : e.steps g ⟨k⟩ todo = .error x) :
    x = .misuse (.tooManyStates StateId.capacity) := by
  induction todo generalizing e done with
  | nil => cases h
  | cons X todo ih =>
    have hX := not_mem_done hsymbols
    rw [steps] at h
    cases hstep : e.step g ⟨k⟩ X with
    | error y =>
      rw [hstep] at h
      cases h
      exact error_of_step hn hX hw.le hstep
    | ok e₁ =>
      rw [hstep] at h
      obtain ⟨hn₁, hw₁⟩ := numbered_step g e e₁ k done X hn hw hX hstep
      exact ih (by rw [hsymbols, List.append_assoc, List.singleton_append]) hn₁ hw₁ h

theorem error_of_run {budget : Nat} (hbudget : StateId.capacity < budget + k)
    (hn : e.Numbered g k []) (hw : e.Waits k) (h : e.run g budget = .error x) :
    x = .misuse (.tooManyStates StateId.capacity) := by
  induction budget generalizing e k with
  | zero =>
    have hle := hw.le
    have hcapacity := hn.capacity
    omega
  | succ budget ih =>
    rw [run] at h
    cases hpop : e.pending.pop with
    | none =>
      rw [hpop] at h
      cases h
    | some popped =>
      obtain ⟨source, pending⟩ := popped
      obtain ⟨rfl, hw'⟩ := waits_of_pop hw hpop
      have hn' := numbered_pop hn hpop
      rw [hpop] at h
      simp only at h
      cases hsteps : steps g ⟨k⟩ g.symbols { e with pending } with
      | error y =>
        rw [hsteps] at h
        cases h
        exact error_of_steps g.symbols rfl hn' hw' hsteps
      | ok e₁ =>
        rw [hsteps] at h
        obtain ⟨hn₁, hw₁⟩ := numbered_steps g k g.symbols [] _ e₁ rfl hn' hw' hsteps
        exact ih (by omega) (numbered_succ hn₁) hw₁ h

end

end Exploration

namespace Grammar

/-- The exploration of an automaton ends, or it runs out of state numbers. -/
theorem error_of_automaton (g : Grammar) {x : BuildError} (h : g.automaton = .error x) :
    x = .misuse (.tooManyStates StateId.capacity) := by
  have hbudget : StateId.capacity < StateId.capacity + 1 + 0 := Nat.lt_succ_self _
  unfold automaton at h
  rw [g.closure_eq_ok (g.knows_of_hasItem g.hasItem_startItem)] at h
  simp only at h
  split at h
  · rename_i hrun
    cases h
    exact Exploration.error_of_run hbudget (Exploration.numbered_start g)
      (Exploration.waits_start g) hrun
  · cases h

/-- What a query is refused for: a symbol that the grammar does not have, FOLLOW of a terminal, or
a set that is needed for itself. -/
inductive QueryRefused (g : Grammar) : Query → BuildError → Prop
  | foreignFirst {X : Symbol} : ¬ g.contains X →
      QueryRefused g (.first X) (.misuse (.foreignSymbol X))
  | foreignFollow {X : Symbol} : ¬ g.contains X →
      QueryRefused g (.follow X) (.misuse (.foreignSymbol X))
  | followOfTerminal {t : Terminal} : g.contains (.terminal t) →
      QueryRefused g (.follow (.terminal t))
        (.misuse (.followOfTerminal (g.nameOf (.terminal t))))
  | cycle {q u : SetName} : g.Circles q u → QueryRefused g q.query (.grammar (u.cycle g))

theorem queryRefused_of_lookUp (g : Grammar) {a : Analysis} (ha : a.Sound g)
    (hidle : a.underway = []) {q : SetName} (hd : g.contains (.nonterminal q.nonterminal))
    {x : BuildError} (h : (g.lookUp g.setCount q a).1 = .error x) :
    g.QueryRefused q.query x := by
  obtain ⟨u, hu, rfl⟩ :=
    g.circles_of_lookUp g.setCount q a hd (g.ready_of_idle q a ha hidle) x h
  exact .cycle hu

theorem queryRefused_of_ask (g : Grammar) {a : Analysis} (ha : a.Sound g) (hidle : a.underway = [])
    {query : Query} {x : BuildError} (h : (g.ask a query).1 = .error x) :
    g.QueryRefused query x := by
  cases query with
  | first X =>
    by_cases hX : g.contains X
    · cases X with
      | terminal t =>
        have hask : g.ask a (.first (.terminal t)) = (.ok (.singleton t), a) := if_pos hX
        rw [hask] at h
        cases h
      | nonterminal n =>
        have hd : g.contains (.nonterminal (SetName.first n).nonterminal) := hX
        rw [← SetName.query, g.ask_query a (.first n) hd] at h
        exact g.queryRefused_of_lookUp ha hidle hd h
    · have hask : g.ask a (.first X) = (.error (.misuse (.foreignSymbol X)), a) := if_neg hX
      rw [hask] at h
      cases h
      exact .foreignFirst hX
  | follow X =>
    by_cases hX : g.contains X
    · cases X with
      | terminal t =>
        have hask : g.ask a (.follow (.terminal t)) =
          (.error (.misuse (.followOfTerminal (g.nameOf (.terminal t)))), a) := if_pos hX
        rw [hask] at h
        cases h
        exact .followOfTerminal hX
      | nonterminal n =>
        have hd : g.contains (.nonterminal (SetName.follow n).nonterminal) := hX
        rw [← SetName.query, g.ask_query a (.follow n) hd] at h
        exact g.queryRefused_of_lookUp ha hidle hd h
    · have hask : g.ask a (.follow X) = (.error (.misuse (.foreignSymbol X)), a) := if_neg hX
      rw [hask] at h
      cases h
      exact .foreignFollow hX

/-- What a table is refused for, whatever automaton it is built from. -/
inductive TableRefused (g : Grammar) (a : Automaton) : BuildError → Prop
  | grammar (fault : GrammarFault) : TableRefused g a (.grammar fault)
  | foreignProduction {s : StateId} {items : ItemSet} {item : Item} :
      a.state? s = some items → item ∈ items → g.production? item.production = none →
      TableRefused g a (.misuse (.foreignProduction s item.production))
  | missingTransition {s : StateId} {items : ItemSet} {item : Item} {t : Terminal} :
      a.state? s = some items → item ∈ items → g.afterDot? item = some (.terminal t) →
      a.transitions.get? s (.terminal t) = none →
      TableRefused g a (.misuse (.missingTransition s (g.nameOf (.terminal t))))
  | conflict {conflicts : List Conflict} : conflicts ≠ [] →
      TableRefused g a (.conflict conflicts)

/-- The action can be put into words. -/
def Worded (g : Grammar) (c : Action) : Prop := ∃ text, c.render g = .ok text

/-- All items are of productions of the grammar. -/
def KnownItems (g : Grammar) (items : List Item) : Prop :=
  ∀ item ∈ items, ∃ q, g.production? item.production = some q

/-- A part of the work is refused for a reason, or what it finds is as described. No set is left
underway. -/
def Ends {α : Type} (g : Grammar) (a : Automaton) (found : α → Prop) :
    Except BuildError α × Analysis → Prop
  | (.error x, sets) => sets.Sound g ∧ sets.underway = [] ∧ g.TableRefused a x
  | (.ok v, sets) => sets.Sound g ∧ sets.underway = [] ∧ found v

theorem Ends.cases {α : Type} {g : Grammar} {a : Automaton} {found : α → Prop}
    {outcome : Except BuildError α × Analysis} (h : g.Ends a found outcome) :
    (∃ x sets, outcome = (.error x, sets) ∧ sets.Sound g ∧ sets.underway = [] ∧
      g.TableRefused a x) ∨
    ∃ v sets, outcome = (.ok v, sets) ∧ sets.Sound g ∧ sets.underway = [] ∧ found v := by
  rcases outcome with ⟨x | v, sets⟩
  · exact Or.inl ⟨x, sets, rfl, h⟩
  · exact Or.inr ⟨v, sets, rfl, h⟩

section
variable (g : Grammar) (a : Automaton) (s : StateId) {state : ItemSet}

/-- What an item asks for is refused, or the item is known and its actions have words. -/
theorem itemCandidates_ends (hs : a.state? s = some state) (item : Item) (hitem : item ∈ state)
    (sets : Analysis) (hsets : sets.Sound g) (hidle : sets.underway = []) :
    g.Ends a (fun candidates => (∃ q, g.production? item.production = some q) ∧
      ∀ candidate ∈ candidates, g.Worded candidate.2) (g.itemCandidates a s item sets) := by
  unfold itemCandidates
  cases hq : g.production? item.production with
  | none => exact ⟨hsets, hidle, .foreignProduction hs hitem hq⟩
  | some q =>
    simp only
    cases hX : q.tail[item.index]? with
    | some X =>
      cases X with
      | nonterminal n => exact ⟨hsets, hidle, ⟨q, rfl⟩, List.forall_mem_nil _⟩
      | terminal t =>
        simp only
        split
        · exact ⟨hsets, hidle, ⟨q, rfl⟩, List.forall_mem_nil _⟩
        · cases hget : a.transitions.get? s (.terminal t) with
          | none =>
            have hafter : g.afterDot? item = some (.terminal t) :=
              g.afterDot?_eq_some_iff.mpr ⟨q, hq, hX⟩
            exact ⟨hsets, hidle, .missingTransition hs hitem hafter hget⟩
          | some target =>
            exact ⟨hsets, hidle, ⟨q, rfl⟩, List.forall_mem_singleton.mpr ⟨_, rfl⟩⟩
    | none =>
      simp only
      split
      · exact ⟨hsets, hidle, ⟨q, rfl⟩, List.forall_mem_nil _⟩
      · have hd := g.contains_head hq
        have hanswer := g.follow_answers q.head sets hd hsets hidle
        have hlookUp : g.follow (.nonterminal q.head) sets =
          g.lookUp g.setCount (.follow q.head) sets := if_pos hd
        rcases hanswer.cases with ⟨x, b, hx, hb, hbu, -⟩ | ⟨follow, b, hx, hb, hbu, -⟩
        · obtain ⟨u, -, rfl⟩ := g.circles_of_lookUp g.setCount (.follow q.head) sets hd
            (g.ready_of_idle _ sets hsets hidle) x (congrArg Prod.fst (hlookUp.symm.trans hx))
          rw [hx]
          exact ⟨hb, hbu.trans hidle, .grammar _⟩
        · rw [hx]
          refine ⟨hb, hbu.trans hidle, ⟨q, rfl⟩, ?_⟩
          intro candidate hcandidate
          obtain ⟨t, -, rfl⟩ := List.mem_map.mp hcandidate
          exact g.render_of_production hq

theorem itemsCandidates_ends (hs : a.state? s = some state) (items : List Item)
    (hitems : ∀ item ∈ items, item ∈ state) (sets : Analysis) (hsets : sets.Sound g)
    (hidle : sets.underway = []) :
    g.Ends a (fun candidates => g.KnownItems items ∧ ∀ candidate ∈ candidates,
      g.Worded candidate.2) (g.itemsCandidates a s items sets) := by
  induction items generalizing sets with
  | nil => exact ⟨hsets, hidle, List.forall_mem_nil _, List.forall_mem_nil _⟩
  | cons item items ih =>
    have hitem := g.itemCandidates_ends a s hs item (hitems item List.mem_cons_self) sets hsets
      hidle
    rw [itemsCandidates]
    rcases hitem.cases with ⟨x, b, hx, hrefused⟩ | ⟨candidates, b, hx, hb, hbu, hknown, hworded⟩
    · rw [hx]
      exact hrefused
    · have hrest := ih (fun i hi => hitems i (List.mem_cons_of_mem _ hi)) b hb hbu
      rw [hx]
      simp only
      rcases hrest.cases with ⟨x, c, hy, hrefused⟩ | ⟨rest, c, hy, hc, hcu, hknowns, hwords⟩
      · rw [hy]
        exact hrefused
      · rw [hy]
        exact ⟨hc, hcu, List.forall_mem_cons.mpr ⟨hknown, hknowns⟩,
          List.forall_mem_append.mpr ⟨hworded, hwords⟩⟩

theorem stateCandidates_ends (hs : a.state? s = some state) (sets : Analysis)
    (hsets : sets.Sound g) (hidle : sets.underway = []) :
    g.Ends a (fun candidates => g.KnownItems state.toList ∧ ∀ candidate ∈ candidates,
      g.Worded candidate.2) (g.stateCandidates a s state sets) := by
  have hitems := g.itemsCandidates_ends a s hs state.toList (fun _ hi => hi) sets hsets hidle
  unfold stateCandidates
  rcases hitems.cases with ⟨x, b, hx, hrefused⟩ | ⟨candidates, b, hx, hb, hbu, hknown, hworded⟩
  · rw [hx]
    exact hrefused
  · rw [hx]
    refine ⟨hb, hbu, hknown, List.forall_mem_append.mpr ⟨List.forall_mem_append.mpr
      ⟨hworded, ?_⟩, ?_⟩⟩
    · intro ⟨X, c⟩ hcandidate
      obtain ⟨-, he⟩ := (mem_acceptCandidates state X c).mp hcandidate
      cases he
      exact ⟨_, rfl⟩
    · intro candidate hcandidate
      obtain ⟨⟨X, target⟩, -, hedge⟩ := List.mem_filterMap.mp hcandidate
      cases X with
      | terminal t => cases hedge
      | nonterminal n =>
        cases hedge
        exact ⟨_, rfl⟩

/-- Both actions of a conflict are among the candidates. -/
theorem worded_conflicts (candidates : List Candidate)
    (h : ∀ candidate ∈ candidates, g.Worded candidate.2) :
    ∀ e ∈ (RowDraft.ofCandidates g s candidates).conflicts,
      g.Worded e.existing ∧ g.Worded e.incoming := by
  intro e he
  rw [RowDraft.ofCandidates, RowDraft.conflicts_foldl_eq] at he
  rcases List.mem_append.mp he with he | he
  · exact False.elim (List.not_mem_nil he)
  · obtain ⟨candidate, hcandidate, hclash⟩ := List.mem_filterMap.mp he
    obtain ⟨rfl, -, -, hfirst, -⟩ := (RowDraft.clash_eq_some_iff g s candidate _ e).mp hclash
    exact ⟨h _ (mem_of_lookup_eq_some candidates e.symbol e.existing hfirst), h _ hcandidate⟩

/-- The rows are refused, or their conflicts have words; and where there is none, all items of all
states are known. -/
theorem fillRows_ends (o : BuildOptions) (states : List ItemSet) (s : Nat)
    (hstates : ∀ i items, states[i]? = some items → a.state? ⟨s + i⟩ = some items)
    (sets : Analysis) (hsets : sets.Sound g) (hidle : sets.underway = []) :
    g.Ends a (fun filled =>
      (∀ e ∈ filled.2, g.Worded e.existing ∧ g.Worded e.incoming) ∧
        (filled.2 = [] → ∀ items ∈ states, g.KnownItems items.toList))
      (g.fillRows o a s states sets) := by
  induction states generalizing s sets with
  | nil => exact ⟨hsets, hidle, List.forall_mem_nil _, fun _ => List.forall_mem_nil _⟩
  | cons items states ih =>
    obtain ⟨hitems, hstates⟩ :=
      (forall_numbered_cons (fun i items => a.state? ⟨i⟩ = some items) s items states).mp hstates
    have hstate := g.stateCandidates_ends a ⟨s⟩ hitems sets hsets hidle
    have hfills := g.fills o a s items states sets
    generalize g.fillRows o a s (items :: states) sets = outcome at hfills
    cases hfills with
    | refused hx =>
      rw [hx] at hstate
      exact hstate
    | stopped hstop hx hown =>
      rw [hx] at hstate
      obtain ⟨hb, hbu, -, hworded⟩ := hstate
      have hconflicts := g.worded_conflicts ⟨s⟩ _ hworded
      rw [hown] at hconflicts
      refine ⟨hb, hbu, List.forall_mem_singleton.mpr (hconflicts _ List.mem_cons_self), ?_⟩
      intro hnone
      cases hnone
    | failed hx hrest =>
      rw [hx] at hstate
      obtain ⟨hb, hbu, -⟩ := hstate
      have hbehind := ih (s + 1) hstates _ hb hbu
      rw [hrest] at hbehind
      exact hbehind
    | filled hx hrest =>
      rw [hx] at hstate
      obtain ⟨hb, hbu, hknown, hworded⟩ := hstate
      have hbehind := ih (s + 1) hstates _ hb hbu
      rw [hrest] at hbehind
      obtain ⟨hc, hcu, hwords, hknowns⟩ := hbehind
      refine ⟨hc, hcu, List.forall_mem_append.mpr ⟨g.worded_conflicts ⟨s⟩ _ hworded, hwords⟩, ?_⟩
      intro hnone
      exact List.forall_mem_cons.mpr ⟨hknown, hknowns (List.append_eq_nil_iff.mp hnone).2⟩

/-- A table is refused for one of the reasons, or all items that it is built from are known. -/
theorem tableOf_ends (o : BuildOptions) :
    (∀ x, g.tableOf o a = .error x → g.TableRefused a x) ∧
      ∀ t, g.tableOf o a = .ok t → ∀ items ∈ a.states, g.KnownItems items.toList := by
  have hends := g.fillRows_ends a o a.states 0 a.state?_zero_add .empty g.sound_empty rfl
  unfold tableOf
  rcases hends.cases with ⟨y, sets, hy, -, -, hrefused⟩ |
    ⟨⟨rows, conflicts⟩, sets, hy, -, -, hworded, hknown⟩
  · rw [hy]
    refine ⟨?_, fun t ht => by cases ht⟩
    intro x hx
    cases hx
    exact hrefused
  · rw [hy]
    cases conflicts with
    | nil => exact ⟨fun x hx => (by cases hx), fun t _ => hknown rfl⟩
    | cons conflict more =>
      obtain ⟨texts, htexts⟩ := g.exists_conflictTexts (conflict :: more) hworded
      simp only [htexts]
      refine ⟨?_, fun t ht => by cases ht⟩
      intro x hx
      cases hx
      exact .conflict (List.cons_ne_nil conflict more)

end

/-- Nothing breaks off at a reference that leads nowhere: automata, queries, and tables of whatever
automaton are answered or refused with a reason. -/
theorem build_never_dangles (g : Grammar) :
    (∀ x, g.automaton = .error x → x = .misuse (.tooManyStates StateId.capacity)) ∧
    (∀ queries query x, (g.ask (g.askAll .empty queries) query).1 = .error x →
      (∀ d, x ≠ .dangling d) ∧ g.QueryRefused query x) ∧
    ∀ (a : Automaton) (o : BuildOptions),
      (∀ x, g.tableOf o a = .error x → (∀ d, x ≠ .dangling d) ∧ g.TableRefused a x) ∧
      ∀ s items item, a.state? s = some items → item ∈ items →
        g.production? item.production = none → ∀ t, g.tableOf o a ≠ .ok t := by
  refine ⟨fun x hx => g.error_of_automaton hx, ?_, ?_⟩
  · intro queries query x hx
    obtain ⟨hsound, hidle⟩ := g.askAll_sound .empty queries g.sound_empty rfl
    have hrefused := g.queryRefused_of_ask hsound hidle hx
    refine ⟨?_, hrefused⟩
    intro d hd
    rw [hd] at hrefused
    cases hrefused
  · intro a o
    obtain ⟨hrefused, hknown⟩ := g.tableOf_ends a o
    constructor
    · intro x hx
      refine ⟨?_, hrefused x hx⟩
      intro d hd
      have hdangling := hrefused x hx
      rw [hd] at hdangling
      cases hdangling
    · intro s items item hs hitem hforeign t ht
      obtain ⟨q, hq⟩ := hknown t ht items (List.mem_of_getElem? hs) item hitem
      rw [hforeign] at hq
      cases hq

/-- The grammar of lists does not know all productions of the one of expressions. -/
theorem build_never_dangles_list : ∃ g h a s items item,
    Grammar.define SampleGrammars.list = .ok g ∧
    Grammar.define SampleGrammars.expression = .ok h ∧ h.automaton = .ok a ∧
    a.state? s = some items ∧ item ∈ items ∧ g.production? item.production = none ∧
    (∀ d, g.tableOf .thorough a ≠ .error (.dangling d)) ∧ ∀ t, g.tableOf .thorough a ≠ .ok t := by
  obtain ⟨g, hg, hforeign⟩ := exists_grammar SampleGrammars.list
    (fun g => g.production? ⟨7⟩ = none) (by decide +kernel)
  obtain ⟨h, a, hh, ha, items, hitems, hitem⟩ := exists_automaton SampleGrammars.expression
    (fun _ a => ∃ items ∈ a.states, (⟨⟨7⟩, 0⟩ : Item) ∈ items.toList) (by decide +kernel)
  obtain ⟨i, hi⟩ := List.getElem?_of_mem hitems
  obtain ⟨hrefused, hnone⟩ := g.build_never_dangles.2.2 a .thorough
  exact ⟨g, h, a, ⟨i⟩, items, ⟨⟨7⟩, 0⟩, hg, hh, ha, hi, hitem, hforeign,
    fun d hd => (hrefused _ hd).1 d rfl, hnone ⟨i⟩ items ⟨⟨7⟩, 0⟩ hi hitem hforeign⟩

end Grammar
end ShiftReduce
