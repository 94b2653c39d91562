import ShiftReduce.Proofs.RenamedProductions
import ShiftReduce.Proofs.SLRTable
import ShiftReduce.Proofs.WellFormedDefinitions
import ShiftReduce.SampleGrammars

namespace ShiftReduce

/-- The action with another number for the production of a reduction. -/
def Action.rename (r : ProductionId → ProductionId) : Action → Action
  | .shift target => .shift target
  | .reduce p => .reduce (r p)
  | .goto target => .goto target
  | .accept => .accept
  | .error => .error

namespace Grammar.Renames

variable {g h : Grammar} {r : ProductionId → ProductionId} (hr : g.Renames h r)
include hr

theorem mem_productions (q : Production) : q ∈ g.productions ↔ q ∈ h.productions := by
  rw [mem_productions_iff, mem_productions_iff]
  constructor
  · intro ⟨p, hp⟩
    exact ⟨r p, hr.production p q hp⟩
  · intro ⟨p, hp⟩
    obtain ⟨p', -, hp'⟩ := hr.exists_production hp
    exact ⟨p', hp'⟩

theorem mem_ingredients (q : SetName) (part : Ingredient) :
    part ∈ g.ingredients q ↔ part ∈ h.ingredients q := by
  cases q with
  | first n => simp only [ingredients, List.mem_flatMap, List.mem_filter, hr.mem_productions]
  | follow n => simp only [ingredients, List.mem_flatMap, hr.mem_productions]

theorem resolves_iff (q : SetName) : g.Resolves q ↔ h.Resolves q := by
  have hparts : g.PartOf = h.PartOf := by
    funext part whole
    exact propext (hr.mem_ingredients whole (.set part))
  rw [Resolves, Resolves, hparts]

theorem collects_iff (q : SetName) (t : Terminal) : g.Collects q t ↔ h.Collects q t := by
  constructor
  · intro ht
    induction ht with
    | terminal hmem => exact .terminal ((hr.mem_ingredients _ _).mp hmem)
    | set hmem _ ih => exact .set ((hr.mem_ingredients _ _).mp hmem) ih
  · intro ht
    induction ht with
    | terminal hmem => exact .terminal ((hr.mem_ingredients _ _).mpr hmem)
    | set hmem _ ih => exact .set ((hr.mem_ingredients _ _).mpr hmem) ih

theorem ne_augmented_iff {p : ProductionId} {q : Production} (hp : g.production? p = some q) :
    r p ≠ .augmented ↔ p ≠ .augmented := by
  apply not_congr
  constructor
  · intro heq
    rw [← hr.augmented] at heq
    exact hr.bijOn.injOn ⟨q, hp⟩ ⟨_, g.production?_augmented⟩ heq
  · rintro rfl
    exact hr.augmented

theorem reducible_iff {item : Item} (hitem : g.HasItem item) (n : Nonterminal) :
    h.Reducible (item.rename r) n ↔ g.Reducible item n := by
  obtain ⟨q, hq, -⟩ := hitem
  have hq' : h.production? (item.rename r).production = some q := hr.production _ q hq
  unfold Reducible
  rw [hq, hq']
  have haugmented : (item.rename r).production ≠ .augmented ↔ item.production ≠ .augmented :=
    hr.ne_augmented_iff hq
  rw [haugmented]
  exact Iff.rfl

omit hr in
theorem state?_rename (r : ProductionId → ProductionId) (a : Automaton) (s : StateId) :
    (a.rename r).state? s = (a.state? s).map (renameItems r) := List.getElem?_map

theorem rename_finalItem : finalItem.rename r = finalItem := by
  rw [Item.rename, finalItem, hr.augmented]

theorem asks_rename {a : Automaton} (ha : a.Canonical g) {s : StateId} {X : Symbol} {c : Action}
    (hc : g.Asks a s X c) : h.Asks (a.rename r) s X (c.rename r) := by
  have hstate {items : ItemSet} (hs : a.state? s = some items) :
      (a.rename r).state? s = some (renameItems r items) := by
    rw [state?_rename, hs]
    rfl
  cases hc with
  | @shift items item t target hs hitem hdot hne hget =>
    refine .shift (hstate hs) (mem_renameItems.mpr ⟨item, hitem, rfl⟩) ?_ hne hget
    rw [hr.afterDot?_rename (ha.hasItem s items hs item hitem), hdot]
  | @reduce items item n follow sets t hs hitem hn hfollow ht =>
    have hd := g.contains_of_reducible hn
    have hres := (hr.resolves_iff _).mp ((g.follow_ok_iff n hd).mp ⟨follow, sets, hfollow⟩)
    have hcollects := (hr.collects_iff _ _).mp ((g.collects_iff_of_follow n _ _ hfollow t).mp ht)
    have hn' := (hr.reducible_iff (ha.hasItem s items hs item hitem) n).mpr hn
    exact h.asks_of_collects (hstate hs) (mem_renameItems.mpr ⟨item, hitem, rfl⟩) hn' hres hcollects
  | accept hs hitem =>
    exact .accept (hstate hs) (mem_renameItems.mpr ⟨finalItem, hitem, hr.rename_finalItem⟩)
  | goto hget => exact .goto hget

theorem exists_asks {a : Automaton} (ha : a.Canonical g) {s : StateId} {X : Symbol} {d : Action}
    (hd : h.Asks (a.rename r) s X d) : ∃ c, g.Asks a s X c ∧ c.rename r = d := by
  have hstate {items' : ItemSet} (hs : (a.rename r).state? s = some items') :
      ∃ items, a.state? s = some items ∧ renameItems r items = items' := by
    rw [state?_rename] at hs
    exact Option.map_eq_some_iff.mp hs
  cases hd with
  | shift hs' hitem' hdot hne hget =>
    obtain ⟨items, hs, rfl⟩ := hstate hs'
    obtain ⟨item, hitem, rfl⟩ := mem_renameItems.mp hitem'
    rw [hr.afterDot?_rename (ha.hasItem s items hs item hitem)] at hdot
    exact ⟨_, .shift hs hitem hdot hne hget, rfl⟩
  | @reduce _ _ n follow sets t hs' hitem' hn' hfollow ht =>
    obtain ⟨items, hs, rfl⟩ := hstate hs'
    obtain ⟨item, hitem, rfl⟩ := mem_renameItems.mp hitem'
    have hd := h.contains_of_reducible hn'
    have hres := (hr.resolves_iff _).mpr ((h.follow_ok_iff n hd).mp ⟨follow, sets, hfollow⟩)
    have hcollects := (hr.collects_iff _ _).mpr
      ((h.collects_iff_of_follow n _ _ hfollow t).mp ht)
    have hn := (hr.reducible_iff (ha.hasItem s items hs item hitem) n).mp hn'
    exact ⟨_, g.asks_of_collects hs hitem hn hres hcollects, rfl⟩
  | accept hs' hitem' =>
    obtain ⟨items, hs, rfl⟩ := hstate hs'
    obtain ⟨item, hitem, hsame⟩ := mem_renameItems.mp hitem'
    rw [← hr.rename_finalItem] at hsame
    have hknown : g.HasItem finalItem := ⟨_, g.production?_augmented, Nat.le_succ 1⟩
    have hfinal := hr.rename_injective (ha.hasItem s items hs item hitem) hknown hsame
    exact ⟨.accept, .accept hs (hfinal ▸ hitem), rfl⟩
  | goto hget => exact ⟨_, .goto hget, rfl⟩

theorem eq_of_rename_eq {a : Automaton} {s : StateId} {X : Symbol} {c d : Action}
    (hc : g.Asks a s X c) (hd : g.Asks a s X d) (hsame : c.rename r = d.rename r) : c = d := by
  have hknown {p : ProductionId} (hp : g.Asks a s X (.reduce p)) :
      ∃ q, g.production? p = some q := by
    obtain ⟨-, q, -, -, hq, -⟩ := g.asks_reduce hp
    exact ⟨q, hq⟩
  cases c with
  | reduce p =>
    cases d with
    | reduce p' => rw [hr.bijOn.injOn (hknown hc) (hknown hd) (Action.reduce.inj hsame)]
    | shift | goto | accept | error => cases hsame
  | shift | goto | accept | error =>
    cases d with
    | reduce => cases hsame
    | shift | goto | accept | error => exact hsame

theorem exists_follow_iff {n : Nonterminal} (hg : g.contains (.nonterminal n))
    (hh : h.contains (.nonterminal n)) :
    (∃ s b, h.follow (.nonterminal n) .empty = (.ok s, b)) ↔
      ∃ s b, g.follow (.nonterminal n) .empty = (.ok s, b) := by
  rw [g.follow_ok_iff n hg, h.follow_ok_iff n hh, hr.resolves_iff]

theorem allClear_iff {a : Automaton} (ha : a.Canonical g) (hb : (a.rename r).Canonical h) :
    h.AllClear (a.rename r) 0 (a.rename r).states ↔ g.AllClear a 0 a.states := by
  rw [g.allClear_iff a ha, h.allClear_iff _ hb]
  constructor
  · intro ⟨hfollows, hsingle⟩
    constructor
    · intro s items item n hs hitem hn
      have hs' : (a.rename r).state? s = some (renameItems r items) := by
        rw [state?_rename, hs]
        rfl
      have hn' := (hr.reducible_iff (ha.hasItem s items hs item hitem) n).mpr hn
      have hfollow := hfollows s _ _ n hs' (mem_renameItems.mpr ⟨item, hitem, rfl⟩) hn'
      exact (hr.exists_follow_iff (g.contains_of_reducible hn)
        (h.contains_of_reducible hn')).mp hfollow
    · intro s X c d hc hd
      apply hr.eq_of_rename_eq hc hd
      exact hsingle s X _ _ (hr.asks_rename ha hc) (hr.asks_rename ha hd)
  · intro ⟨hfollows, hsingle⟩
    constructor
    · intro s items' item' n hs' hitem' hn'
      rw [state?_rename] at hs'
      obtain ⟨items, hs, rfl⟩ := Option.map_eq_some_iff.mp hs'
      obtain ⟨item, hitem, rfl⟩ := mem_renameItems.mp hitem'
      have hn := (hr.reducible_iff (ha.hasItem s items hs item hitem) n).mp hn'
      exact (hr.exists_follow_iff (g.contains_of_reducible hn)
        (h.contains_of_reducible hn')).mpr (hfollows s items item n hs hitem hn)
    · intro s X c' d' hc' hd'
      obtain ⟨c, hc, rfl⟩ := hr.exists_asks ha hc'
      obtain ⟨d, hd, rfl⟩ := hr.exists_asks ha hd'
      rw [hsingle s X c d hc hd]

theorem exists_table_iff (hsymbols : g.symbols = h.symbols) (o : BuildOptions) :
    (∃ t, h.table o = .ok t) ↔ ∃ t, g.table o = .ok t := by
  have hautomaton := hr.automaton hsymbols
  constructor
  · intro ⟨u, hu⟩
    have hfits := h.table_fits o u hu
    rw [hfits.automaton] at hautomaton
    cases ha : g.automaton with
    | error e =>
      rw [ha] at hautomaton
      cases hautomaton
    | ok a =>
      rw [ha] at hautomaton
      have hsame : u.automaton = a.rename r := Except.ok.inj hautomaton
      have hclear := hfits.clear
      have hcanonical := hfits.canonical
      rw [hsame] at hclear hcanonical
      exact g.table_of_allClear o a ha
        ((hr.allClear_iff (g.automaton_canonical a ha) hcanonical).mp hclear)
  · intro ⟨t, ht⟩
    have hfits := g.table_fits o t ht
    rw [hfits.automaton] at hautomaton
    have hb : h.automaton = .ok (t.automaton.rename r) := hautomaton
    exact h.table_of_allClear o _ hb
      ((hr.allClear_iff hfits.canonical (h.automaton_canonical _ hb)).mpr hfits.clear)

/-- The cells hold the same actions but for the numbers of productions. -/
theorem action_rename (hsymbols : g.symbols = h.symbols) {t u : Table} (ht : t.Fits g)
    (hu : u.Fits h) (s : StateId) (X : Symbol) :
    u.action s X = (t.action s X).map (Action.rename r) := by
  have hautomaton := hr.automaton hsymbols
  rw [ht.automaton, hu.automaton] at hautomaton
  have hsame : u.automaton = t.automaton.rename r := Except.ok.inj hautomaton
  have hstate := state?_rename r t.automaton s
  rw [← hsame] at hstate
  cases hs : t.automaton.state? s with
  | none =>
    rw [hs] at hstate
    rw [ht.action_of_no_state hs, hu.action_of_no_state hstate]
    rfl
  | some items =>
    rw [hs] at hstate
    by_cases hasks : ∃ c, g.Asks t.automaton s X c
    · obtain ⟨c, hc⟩ := hasks
      have hc' := hr.asks_rename ht.canonical hc
      rw [← hsame] at hc'
      rw [ht.action_of_asks hc, hu.action_of_asks hc']
      rfl
    · have hnone (d : Action) : ¬ h.Asks u.automaton s X d := by
        intro hd
        rw [hsame] at hd
        obtain ⟨c, hc, -⟩ := hr.exists_asks ht.canonical hd
        exact hasks ⟨c, hc⟩
      rw [ht.action_of_none hs fun c hc => hasks ⟨c, hc⟩, hu.action_of_none hstate hnone]
      rfl

end Grammar.Renames

namespace Declaration

/-- The declarations that declare a symbol. -/
def ofSymbols (cs : List Declaration) : List Declaration := cs.filter fun c => c.name?.isSome

theorem filterMap_ofSymbols {β : Type} (f : Declaration → Option β)
    (hf : ∀ c, c.name? = none → f c = none) (cs : List Declaration) :
    (ofSymbols cs).filterMap f = cs.filterMap f := by
  rw [ofSymbols, List.filterMap_filter]
  apply List.filterMap_congr
  intro c _
  cases hname : c.name? with
  | none => simp [hf c hname]
  | some name => simp

/-- A symbol is numbered without regard to the rules before it. -/
theorem symbol_brings_ofSymbols (cs : List Declaration) (c : Declaration) :
    (c.brings (ofSymbols cs)).symbol? = (c.brings cs).symbol? := by
  cases c with
  | rule head tail => rfl
  | terminal name =>
    have hterminals : (ofSymbols cs).filterMap terminal? = cs.filterMap terminal? := by
      apply filterMap_ofSymbols
      intro c hc
      cases c with
      | terminal => cases hc
      | nonterminal | rule => rfl
    rw [brings, brings, hterminals]
  | nonterminal name =>
    have hnonterminals : (ofSymbols cs).filterMap nonterminal? = cs.filterMap nonterminal? := by
      apply filterMap_ofSymbols
      intro c hc
      cases c with
      | nonterminal => cases hc
      | terminal | rule => rfl
    rw [brings, brings, hnonterminals]

theorem symbols_ofSymbols (cs : List Declaration) : symbols (ofSymbols cs) = symbols cs := by
  induction cs using List.reverseRecOn with
  | nil => rfl
  | append_singleton cs c ih =>
    have happend : ofSymbols (cs ++ [c]) = ofSymbols cs ++ ofSymbols [c] := List.filter_append _ _
    rw [happend, symbols_append, ← symbol_brings_ofSymbols, ← ih]
    cases c with
    | terminal | nonterminal => exact symbols_append _ _
    | rule => exact (congrArg symbols (List.append_nil _)).trans (List.append_nil _).symm

end Declaration

/-- Grammars whose productions are matched by `r` have the same states, transitions and tables, if
any, but for the numbers of productions. -/
theorem rule_order_invisible (cs ds : List Declaration) (g h : Grammar)
    (hg : Grammar.define cs = .ok g) (hh : Grammar.define ds = .ok h)
    (hsame : Declaration.ofSymbols cs = Declaration.ofSymbols ds)
    (r : ProductionId → ProductionId) (hr : g.Renames h r) (o : BuildOptions) :
    ((∃ a, g.automaton = .ok a) ↔ ∃ b, h.automaton = .ok b) ∧
    (∀ a b, g.automaton = .ok a → h.automaton = .ok b →
      b.states.length = a.states.length ∧
      (∀ s items items', a.state? s = some items → b.state? s = some items' →
        ∀ j, j ∈ items' ↔ ∃ i ∈ items, i.rename r = j) ∧
      ∀ s X, b.transitions.get? s X = a.transitions.get? s X) ∧
    ((∃ t, g.table o = .ok t) ↔ ∃ u, h.table o = .ok u) ∧
    ∀ t u, g.table o = .ok t → h.table o = .ok u →
      ∀ s X, u.action s X = (t.action s X).map (Action.rename r) := by
  have hsymbols : g.symbols = h.symbols := by
    rw [(Grammar.presents_of_define hg).symbols, (Grammar.presents_of_define hh).symbols,
      ← Declaration.symbols_ofSymbols cs, hsame, Declaration.symbols_ofSymbols]
  have hautomaton := hr.automaton hsymbols
  refine ⟨?_, ?_, (hr.exists_table_iff hsymbols o).symm, ?_⟩
  · rw [hautomaton]
    cases g.automaton with
    | ok a => exact ⟨fun _ => ⟨_, rfl⟩, fun _ => ⟨a, rfl⟩⟩
    | error e =>
      constructor
      · rintro ⟨a, ha⟩
        cases ha
      · rintro ⟨b, hb⟩
        cases hb
  · intro a b ha hb
    rw [ha, hb] at hautomaton
    cases hautomaton
    refine ⟨List.length_map _, ?_, fun _ _ => rfl⟩
    intro s items items' hitems hitems' j
    rw [Grammar.Renames.state?_rename, hitems] at hitems'
    cases hitems'
    exact mem_renameItems
  · intro t u ht hu s X
    exact hr.action_rename hsymbols (g.table_fits o t ht) (h.table_fits o u hu) s X

/-- A renaming that is its own inverse matches the productions if it leads from either grammar to
the other. -/
theorem Grammar.renames_of_involutive {g h : Grammar} {r : ProductionId → ProductionId}
    (hinvolutive : Function.Involutive r) (haugmented : r .augmented = .augmented)
    (hto : ∀ p q, g.production? p = some q → h.production? (r p) = some q)
    (hback : ∀ p q, h.production? p = some q → g.production? (r p) = some q) :
    g.Renames h r where
  bijOn := by
    refine ⟨?_, hinvolutive.injective.injOn, ?_⟩
    · rintro p ⟨q, hq⟩
      exact ⟨q, hto p q hq⟩
    · rintro p ⟨q, hq⟩
      exact ⟨r p, ⟨q, hback p q hq⟩, hinvolutive p⟩
  augmented := haugmented
  production := hto

/-- The rules of the list in another order. -/
def reorderedList : List Declaration :=
  SampleGrammars.declarations ["x", ","] ["START", "LIST"]
    [("START", ["LIST"]),
     ("LIST", ["x"]),
     ("LIST", ["x", ",", "LIST"])]

/-- Exchanges productions 2 and 3. -/
def exchange : ProductionId → ProductionId
  | ⟨2⟩ => ⟨3⟩
  | ⟨3⟩ => ⟨2⟩
  | p => p

theorem rule_order_invisible_list : ∃ g h t u, Grammar.define SampleGrammars.list = .ok g ∧
    Grammar.define reorderedList = .ok h ∧ g.table .thorough = .ok t ∧
    h.table .thorough = .ok u ∧
    ∀ s X, u.action s X = (t.action s X).map (Action.rename exchange) := by
  obtain ⟨g, t, hg, ht, hproductions⟩ := Grammar.exists_table SampleGrammars.list
    (fun g _ => g.productions = [⟨⟨0⟩, [.nonterminal ⟨1⟩, .terminal ⟨0⟩]⟩,
      ⟨⟨1⟩, [.nonterminal ⟨2⟩]⟩, ⟨⟨2⟩, [.terminal ⟨1⟩, .terminal ⟨2⟩, .nonterminal ⟨2⟩]⟩,
      ⟨⟨2⟩, [.terminal ⟨1⟩]⟩]) (by decide +kernel)
  obtain ⟨h, u, hh, hu, hproductions'⟩ := Grammar.exists_table reorderedList
    (fun h _ => h.productions = [⟨⟨0⟩, [.nonterminal ⟨1⟩, .terminal ⟨0⟩]⟩,
      ⟨⟨1⟩, [.nonterminal ⟨2⟩]⟩, ⟨⟨2⟩, [.terminal ⟨1⟩]⟩,
      ⟨⟨2⟩, [.terminal ⟨1⟩, .terminal ⟨2⟩, .nonterminal ⟨2⟩]⟩]) (by decide +kernel)
  have hinvolutive : Function.Involutive exchange := by
    rintro ⟨_ | _ | _ | _ | n⟩
    all_goals rfl
  have hr : g.Renames h exchange := by
    apply Grammar.renames_of_involutive hinvolutive rfl
    · rintro ⟨_ | _ | _ | _ | n⟩ q hq
      all_goals
        rw [Grammar.production?, hproductions] at hq
        rw [Grammar.production?, hproductions']
        exact hq
    · rintro ⟨_ | _ | _ | _ | n⟩ q hq
      all_goals
        rw [Grammar.production?, hproductions'] at hq
        rw [Grammar.production?, hproductions]
        exact hq
  obtain ⟨-, -, -, haction⟩ := rule_order_invisible SampleGrammars.list reorderedList g h hg hh
    (by decide) exchange hr .thorough
  exact ⟨g, h, t, u, hg, hh, ht, hu, haction t u ht hu⟩

end ShiftReduce
