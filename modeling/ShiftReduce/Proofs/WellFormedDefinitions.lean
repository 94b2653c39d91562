import ShiftReduce.Proofs.AdmissibleDeclarations
import ShiftReduce.Proofs.Productions

namespace ShiftReduce

theorem eraseDups_eq_singleton {α : Type} [DecidableEq α] {a : α} {l : List α} (ha : a ∈ l)
    (hall : ∀ b ∈ l, b = a) : l.eraseDups = [a] := by
  cases l with
  | nil => cases ha
  | cons b l =>
    obtain ⟨rfl, hrest⟩ := List.forall_mem_cons.mp hall
    have hnone : l.filter (fun c => !c == b) = [] := by
      apply List.filter_eq_nil_iff.mpr
      intro c hc
      simp [hrest c hc]
    rw [List.eraseDups_cons, hnone, List.eraseDups_nil]

namespace Definition

variable {d d' : Definition} {before : List Declaration}

/-- A declaration is refused by its check, or for want of a number, or it is made. -/
theorem declare_outcome (d : Definition) (c : Declaration) :
    (∃ e, d.names.check c = .error e ∧ d.declare c = .error e) ∨
    (∃ addition, d.names.check c = .ok addition ∧ ¬ d.next addition.kind < idCapacity ∧
      d.declare c = .error (.capacityExceeded addition.kind)) ∨
    ∃ addition hadmits, d.names.check c = .ok addition ∧ d.next addition.kind < idCapacity ∧
      d.declare c = .ok (addition.declared (d.next addition.kind), d.add addition hadmits) := by
  unfold declare
  split
  · rename_i e hcheck
    exact Or.inl ⟨e, hcheck, rfl⟩
  · rename_i addition hcheck
    by_cases hfits : d.next addition.kind < idCapacity
    · rw [if_pos hfits]
      exact Or.inr (Or.inr ⟨addition, Alphabet.admits_of_check hcheck, hcheck, hfits, rfl⟩)
    · rw [if_neg hfits]
      exact Or.inr (Or.inl ⟨addition, hcheck, hfits, rfl⟩)

/-- The definition is the one that the declarations before have made. -/
structure Made (d : Definition) (before : List Declaration) : Prop where
  terminals : d.terminals = "$" :: before.filterMap Declaration.terminal?
  nonterminals : d.nonterminals = "$start" :: before.filterMap Declaration.nonterminal?
  symbols : d.symbols = .endOfInput :: .start :: Declaration.symbols before
  names : d.symbols.map d.name? =
    ("$" :: "$start" :: before.filterMap Declaration.name?).map some
  rules : d.rules.map (fun p => (.nonterminal p.head, p.tail)) =
    before.filterMap Declaration.rule?

theorem made_empty : empty.Made [] := ⟨rfl, rfl, rfl, rfl, rfl⟩

namespace Made

theorem mem_symbols (h : d.Made before) (X : Symbol) :
    X ∈ Declaration.symbols before ↔ d.contains X ∧ ¬ X.isReserved := by
  have hnodup := d.valid.symbols_nodup
  rw [h.symbols, List.nodup_cons, List.nodup_cons] at hnodup
  obtain ⟨hend, hstart, -⟩ := hnodup
  rw [← d.valid.mem_symbols, h.symbols, List.mem_cons, List.mem_cons]
  constructor
  · intro hX
    refine ⟨Or.inr (Or.inr hX), ?_⟩
    intro hreserved
    rw [Symbol.isReserved, Bool.or_eq_true, decide_eq_true_eq, decide_eq_true_eq] at hreserved
    rcases hreserved with rfl | rfl
    · exact hend (List.mem_cons_of_mem _ hX)
    · exact hstart hX
  · rintro ⟨rfl | rfl | hX, hreserved⟩
    · exact False.elim (hreserved rfl)
    · exact False.elim (hreserved rfl)
    · exact hX

theorem checkName_iff (h : d.Made before) (name : String) :
    d.names.checkName name = .ok () ↔
      name ≠ "" ∧ name ≠ "$" ∧ name ≠ "$start" ∧ name ∉ before.filterMap Declaration.name? := by
  have hdeclares : d.names.taken name ↔ name ∈ d.terminals ∨ name ∈ d.nonterminals := by
    simp [Alphabet.names, Alphabet.declares]
  rw [Names.checkName_eq_ok, hdeclares, h.terminals, h.nonterminals, Declaration.mem_names, not_or,
    not_or, List.mem_cons, List.mem_cons, not_or, not_or]
  constructor
  · rintro ⟨hempty, ⟨hend, hterminal⟩, hstart, hnonterminal⟩
    exact ⟨hempty, hend, hstart, hterminal, hnonterminal⟩
  · rintro ⟨hempty, hend, hstart, hterminal, hnonterminal⟩
    exact ⟨hempty, ⟨hend, hterminal⟩, hstart, hnonterminal⟩

theorem checkRule_iff (h : d.Made before) (head : Symbol) (tail : List Symbol) :
    (∃ q, d.names.checkRule head tail = .ok q) ↔
      Declaration.Admissible before (.rule head tail) := by
  constructor
  · rintro ⟨q, hq⟩
    obtain ⟨rfl, rfl, hallows⟩ := (d.checkRule_iff_allows head tail q).mp hq
    have hne : Symbol.nonterminal q.head ≠ .start := fun hstart =>
      hallows.head_ne_start (Symbol.nonterminal.inj hstart)
    have hreserved : ¬ (Symbol.nonterminal q.head).isReserved := by
      simp [Symbol.isReserved, Symbol.endOfInput, hne]
    refine ⟨⟨q.head, rfl⟩, hne, ?_, hallows.tail_ne_nil, ?_⟩
    · exact (h.mem_symbols _).mpr ⟨hallows.head_declared, hreserved⟩
    · intro X hX
      exact (h.mem_symbols X).mpr ⟨hallows.tail_declared X hX, hallows.tail_not_reserved X hX⟩
  · rintro ⟨⟨n, rfl⟩, hne, hhead, htail, hdeclared⟩
    refine ⟨⟨n, tail⟩, (d.checkRule_iff_allows _ _ _).mpr ⟨rfl, rfl, ?_⟩⟩
    refine ⟨((h.mem_symbols _).mp hhead).1, ?_, htail, ?_, ?_⟩
    · rintro rfl
      exact hne rfl
    · exact fun X hX => ((h.mem_symbols X).mp (hdeclared X hX)).1
    · exact fun X hX => ((h.mem_symbols X).mp (hdeclared X hX)).2

/-- One more symbol, of either kind. -/
theorem symbol (h : d.Made before) {c : Declaration} {X : Symbol} {name : String}
    (hX : c.brings before = .symbol X) (hname : [c].filterMap Declaration.name? = [name])
    (hrule : [c].filterMap Declaration.rule? = [])
    (hterminals : d'.terminals = d.terminals ++ [c].filterMap Declaration.terminal?)
    (hnonterminals : d'.nonterminals = d.nonterminals ++ [c].filterMap Declaration.nonterminal?)
    (hsymbols : d'.symbols = d.symbols ++ [X]) (hnamed : d'.name? X = some name)
    (hrules : d'.rules = d.rules) : d'.Made (before ++ [c]) where
  terminals := by
    rw [hterminals, h.terminals, List.filterMap_append, List.cons_append]
  nonterminals := by
    rw [hnonterminals, h.nonterminals, List.filterMap_append, List.cons_append]
  symbols := by
    rw [hsymbols, h.symbols, Declaration.symbols_append, hX]
    rfl
  names := by
    have hnames := Alphabet.names_append d.valid (hterminals ▸ List.prefix_append _ _)
      (hnonterminals ▸ List.prefix_append _ _) hsymbols hnamed
    rw [hnames, h.names, List.filterMap_append, hname]
    simp
  rules := by
    rw [hrules, h.rules, List.filterMap_append, hrule, List.append_nil]

theorem rule (h : d.Made before) (q : Production) (halphabet : d'.toAlphabet = d.toAlphabet)
    (hrules : d'.rules = d.rules ++ [q]) :
    d'.Made (before ++ [.rule (.nonterminal q.head) q.tail]) where
  terminals := by
    rw [halphabet, h.terminals, List.filterMap_append]
    exact (List.append_nil _).symm
  nonterminals := by
    rw [halphabet, h.nonterminals, List.filterMap_append]
    exact (List.append_nil _).symm
  symbols := by
    rw [halphabet, h.symbols, Declaration.symbols_append]
    exact (List.append_nil _).symm
  names := by
    rw [halphabet, h.names, List.filterMap_append]
    simp [Declaration.name?]
  rules := by
    rw [hrules, List.map_append, h.rules, List.filterMap_append]
    rfl

theorem check_iff (h : d.Made before) (c : Declaration) :
    (∃ addition, d.names.check c = .ok addition) ↔ c.Admissible before := by
  constructor
  · rintro ⟨addition, hcheck⟩
    obtain ⟨name, rfl, -, hname⟩ | ⟨name, rfl, -, hname⟩ | ⟨head, tail, q, rfl, -, hrule⟩ :=
      Names.check_cases hcheck
    · exact (h.checkName_iff name).mp hname
    · exact (h.checkName_iff name).mp hname
    · exact (h.checkRule_iff head tail).mp ⟨q, hrule⟩
  · intro hadmissible
    cases c with
    | terminal name => exact ⟨_, congrArg (Except.map _) ((h.checkName_iff name).mpr hadmissible)⟩
    | nonterminal name =>
      exact ⟨_, congrArg (Except.map _) ((h.checkName_iff name).mpr hadmissible)⟩
    | rule head tail =>
      obtain ⟨q, hrule⟩ := (h.checkRule_iff head tail).mpr hadmissible
      exact ⟨_, congrArg (Except.map _) hrule⟩

/-- What has passed its check gets the number that the declarations before leave for it. -/
theorem add (h : d.Made before) {c : Declaration} {addition : Addition}
    (hcheck : d.names.check c = .ok addition) (hadmits : d.Admits addition) :
    addition.declared (d.next addition.kind) = c.brings before ∧
      (d.add addition hadmits).Made (before ++ [c]) := by
  obtain ⟨name, rfl, rfl, -⟩ | ⟨name, rfl, rfl, -⟩ | ⟨head, tail, q, rfl, rfl, hrule⟩ :=
    Names.check_cases hcheck
  · have hnumber : d.terminals.length = (before.filterMap Declaration.terminal?).length + 1 := by
      rw [h.terminals, List.length_cons]
    have hbrings := congrArg (Declared.symbol <| Symbol.terminal <| Terminal.mk ·) hnumber
    exact ⟨hbrings, h.symbol hbrings.symm rfl rfl rfl (List.append_nil _).symm rfl
      List.getElem?_concat_length rfl⟩
  · have hnumber : d.nonterminals.length =
        (before.filterMap Declaration.nonterminal?).length + 1 := by
      rw [h.nonterminals, List.length_cons]
    have hbrings := congrArg (Declared.symbol <| Symbol.nonterminal <| Nonterminal.mk ·) hnumber
    exact ⟨hbrings, h.symbol hbrings.symm rfl rfl (List.append_nil _).symm rfl rfl
      List.getElem?_concat_length rfl⟩
  · have hnumber : d.rules.length = (before.filterMap Declaration.rule?).length := by
      rw [← h.rules, List.length_map]
    obtain ⟨rfl, rfl, -⟩ := (d.checkRule_iff_allows head tail q).mp hrule
    exact ⟨congrArg (Declared.production <| ProductionId.mk <| · + 1) hnumber, h.rule q rfl rfl⟩

/-- What a declaration comes to: it is accepted exactly if it is admissible and its number is within
the capacity. -/
theorem declare_cases (h : d.Made before) (c : Declaration) :
    (∃ d', d.declare c = .ok (c.brings before, d') ∧
      ((c.brings before).number < idCapacity ∧ c.Admissible before) ∧ d'.Made (before ++ [c])) ∨
    ((∃ e, d.declare c = .error e) ∧
      ¬ ((c.brings before).number < idCapacity ∧ c.Admissible before)) := by
  rw [← h.check_iff]
  obtain ⟨e, hcheck, hc⟩ | ⟨addition, hcheck, hfull, hc⟩ | ⟨addition, hadmits, hcheck, hfits, hc⟩ :=
    d.declare_outcome c
  · refine Or.inr ⟨⟨e, hc⟩, ?_⟩
    rintro ⟨-, addition, hok⟩
    cases hcheck.symm.trans hok
  · obtain ⟨hbrings, -⟩ := h.add hcheck (Alphabet.admits_of_check hcheck)
    refine Or.inr ⟨⟨_, hc⟩, ?_⟩
    rw [← hbrings, Addition.number_declared]
    exact fun hfits => hfull hfits.1
  · obtain ⟨hbrings, hmade⟩ := h.add hcheck hadmits
    refine Or.inl ⟨_, ?_, ⟨?_, addition, hcheck⟩, hmade⟩
    · rw [hc, hbrings]
    · rwa [← hbrings, Addition.number_declared]

theorem declareAll_cases (h : d.Made before) (cs : List Declaration) :
    (∃ d', d.declareAll cs = .ok d' ∧
      (d.declareEach cs).1 = (Declaration.brought before cs).map .ok ∧
      Declaration.AcceptedAfter before cs ∧ d'.Made (before ++ cs)) ∨
    ((∃ e, d.declareAll cs = .error e) ∧ ¬ Declaration.AcceptedAfter before cs) := by
  induction cs generalizing d before with
  | nil =>
    rw [List.append_nil]
    exact Or.inl ⟨d, rfl, rfl, Declaration.acceptedAfter_nil before, h⟩
  | cons c cs ih =>
    rw [Declaration.acceptedAfter_cons, declareAll, declareEach]
    rcases h.declare_cases c with ⟨d₁, hc, hok, hmade⟩ | ⟨⟨e, hc⟩, hnot⟩
    · simp only [hc]
      rcases ih hmade with ⟨d', hcs, hnumbers, haccepted, hmade'⟩ | ⟨hcs, hnot⟩
      · rw [List.append_assoc, List.singleton_append] at hmade'
        exact Or.inl ⟨d', hcs, congrArg (Except.ok (c.brings before) :: ·) hnumbers,
          ⟨hok, haccepted⟩, hmade'⟩
      · exact Or.inr ⟨hcs, fun haccepted => hnot haccepted.2⟩
    · simp only [hc]
      exact Or.inr ⟨⟨e, rfl⟩, fun haccepted => hnot haccepted.1⟩

theorem mem_roots_iff (h : d.Made before) (n : Nonterminal) :
    n ∈ d.roots ↔ Declaration.IsRoot before n := by
  rw [mem_roots, Declaration.IsRoot, ← h.rules]
  simp only [List.mem_map, exists_exists_and_eq_and, forall_exists_index, and_imp,
    forall_apply_eq_imp_iff₂, Symbol.nonterminal.injEq]

end Made

theorem finish_cases (d : Definition) :
    (∃ g, d.finish = .ok g ∧ g.toAlphabet = d.toAlphabet ∧ g.rules = d.rules ∧
      ∃ n, n ∈ d.roots ∧ ∀ m ∈ d.roots, m = n) ∨
    ((∃ e, d.finish = .error e) ∧ ¬ ∃ n, n ∈ d.roots ∧ ∀ m ∈ d.roots, m = n) := by
  unfold finish
  split
  · rename_i hnone
    right
    refine ⟨⟨_, rfl⟩, ?_⟩
    rintro ⟨n, hn, -⟩
    rw [hnone] at hn
    cases hn
  · rename_i root hroot
    left
    refine ⟨_, rfl, rfl, rfl, root, ?_, ?_⟩
    · rw [hroot]
      exact List.mem_singleton_self root
    · intro m hm
      rw [hroot] at hm
      exact List.mem_singleton.mp hm
  · rename_i hnone hsingle
    right
    refine ⟨⟨_, rfl⟩, ?_⟩
    rintro ⟨n, hn, hunique⟩
    exact hsingle n (eraseDups_eq_singleton (List.mem_eraseDups.mp hn)
      fun m hm => hunique m (List.mem_eraseDups.mpr hm))

end Definition

namespace Grammar

/-- The numbers of the alternatives are some of the numbers of all productions, in order. -/
theorem alternatives_ascending (g : Grammar) (n : Nonterminal) :
    (g.alternatives n).Pairwise fun p q => p.number < q.number := by
  have hnumbers : g.numberedProductions.map (fun numbered => numbered.1.number) =
      List.range g.productions.length := by
    rw [numberedProductions, List.map_map, List.range_eq_range', ← List.zipIdx_map_snd 0]
    rfl
  have hsublist : ((g.alternatives n).map ProductionId.number).Sublist
      (List.range g.productions.length) := by
    rw [← hnumbers, alternatives, List.map_map]
    exact List.filter_sublist.map _
  exact List.pairwise_map.mp (List.pairwise_lt_range.sublist hsublist)

/-- The grammar says what the declarations say. -/
structure Presents (g : Grammar) (cs : List Declaration) : Prop where
  /-- What every declaration returns is the next number of its kind. -/
  returned : (Definition.empty.declareEach cs).1 = (Declaration.brought [] cs).map .ok
  symbols : g.symbols = .endOfInput :: .start :: Declaration.symbols cs
  names : g.symbols.map g.nameOf = "$" :: "$start" :: cs.filterMap Declaration.name?
  find_nameOf : ∀ X ∈ g.symbols, g.find (g.nameOf X) = some X
  root : Declaration.IsRoot cs g.root
  augmented : g.production? .augmented = some ⟨.start, [.nonterminal g.root, .endOfInput]⟩
  rules : ∀ k, (g.production? ⟨k + 1⟩).map (fun q => (.nonterminal q.head, q.tail)) =
    (cs.filterMap Declaration.rule?)[k]?
  alternatives : ∀ n, (g.alternatives n).Pairwise (fun p q => p.number < q.number) ∧
    ∀ p, p ∈ g.alternatives n ↔ ∃ q, g.production? p = some q ∧ q.head = n
  tails : ∀ p q, g.production? p = some q → .start ∉ q.tail ∧
    (p ≠ .augmented → .endOfInput ∉ q.tail ∧ .nonterminal g.root ∉ q.tail)

theorem presents_of_made {d : Definition} {cs : List Declaration} {g : Grammar} (h : d.Made cs)
    (hreturned : (Definition.empty.declareEach cs).1 = (Declaration.brought [] cs).map .ok)
    (halphabet : g.toAlphabet = d.toAlphabet) (hrules : g.rules = d.rules) : g.Presents cs where
  returned := hreturned
  symbols := by
    rw [halphabet]
    exact h.symbols
  names := by
    have hnames := congrArg (List.map (Option.getD · "<unknown>")) h.names
    rw [List.map_map, List.map_map] at hnames
    rw [halphabet]
    exact hnames.trans (List.map_id _)
  find_nameOf X hX := g.valid.find_nameOf hX
  root := by
    rw [Declaration.IsRoot, ← h.rules, ← hrules]
    refine ⟨?_, ?_⟩
    · obtain ⟨p, hp, hhead⟩ := g.root_heads
      exact ⟨_, List.mem_map_of_mem hp, congrArg Symbol.nonterminal hhead⟩
    · intro r hr
      obtain ⟨p, hp, rfl⟩ := List.mem_map.mp hr
      exact g.root_not_derived p hp
  augmented := rfl
  rules k := by
    rw [← h.rules, ← hrules, List.getElem?_map]
    rfl
  alternatives n := ⟨g.alternatives_ascending n, fun _ => g.mem_alternatives⟩
  tails p q hq := by
    refine ⟨g.start_not_mem_tail hq, fun hp => ⟨g.endOfInput_not_mem_tail hq hp, ?_⟩⟩
    exact g.root_not_derived q (g.mem_rules_of_ne_augmented hq hp)

/-- What the declarations come to: a grammar that says what they say, or none. -/
theorem define_cases (cs : List Declaration) :
    (∃ g, define cs = .ok g ∧ g.Presents cs ∧ Declaration.AcceptedAfter [] cs ∧
      ∃ n, Declaration.IsRoot cs n ∧ ∀ m, Declaration.IsRoot cs m → m = n) ∨
    ((∃ e, define cs = .error e) ∧ ¬ (Declaration.AcceptedAfter [] cs ∧
      ∃ n, Declaration.IsRoot cs n ∧ ∀ m, Declaration.IsRoot cs m → m = n)) := by
  unfold define
  rcases Definition.made_empty.declareAll_cases cs with
    ⟨d, hcs, hreturned, haccepted, hmade⟩ | ⟨⟨e, hcs⟩, hnot⟩
  · have hmade' : d.Made cs := hmade
    have hfinish := d.finish_cases
    simp only [hmade'.mem_roots_iff] at hfinish
    simp only [hcs]
    rcases hfinish with ⟨g, hg, halphabet, hrules, hroot⟩ | ⟨he, hnot⟩
    · exact Or.inl ⟨g, hg, presents_of_made hmade' hreturned halphabet hrules, haccepted, hroot⟩
    · exact Or.inr ⟨he, fun h => hnot h.2⟩
  · simp only [hcs]
    exact Or.inr ⟨⟨e, rfl⟩, fun h => hnot h.1⟩

theorem presents_of_define {cs : List Declaration} {g : Grammar} (h : define cs = .ok g) :
    g.Presents cs := by
  rcases define_cases cs with ⟨g', hg', hpresents, -⟩ | ⟨⟨e, he⟩, -⟩
  · cases h.symm.trans hg'
    exact hpresents
  · cases h.symm.trans he

/-- The declarations that define a grammar are the well-formed ones, as long as the numbers last,
and the grammar says what they say. -/
theorem define_exact (cs : List Declaration) :
    ((∃ g, define cs = .ok g) ↔ Declaration.WithinCapacity cs ∧ Declaration.WellFormed cs) ∧
    ∀ g, define cs = .ok g → g.Presents cs := by
  refine ⟨?_, fun g hg => presents_of_define hg⟩
  have hcases := define_cases cs
  rw [Declaration.acceptedAfter_nil_iff] at hcases
  constructor
  · rintro ⟨g, hg⟩
    rcases hcases with ⟨-, -, -, ⟨hfits, hadmissible⟩, hroot⟩ | ⟨⟨e, he⟩, -⟩
    · exact ⟨hfits, hadmissible, hroot⟩
    · cases hg.symm.trans he
  · rintro ⟨hfits, hadmissible, hroot⟩
    rcases hcases with ⟨g, hg, -⟩ | ⟨-, hnot⟩
    · exact ⟨g, hg⟩
    · exact False.elim (hnot ⟨⟨hfits, hadmissible⟩, hroot⟩)

end Grammar
end ShiftReduce
