import ShiftReduce.Proofs.Derivations
import ShiftReduce.Proofs.TableSessions
import ShiftReduce.SampleGrammars

namespace ShiftReduce

/-- The terminal may come where only `after` is left of the tail of `q`. -/
def Grammar.Admits (g : Grammar) (q : Production) (after : List Symbol) (u : Terminal) : Prop :=
  match after with
  | [] => g.Collects (.follow q.head) u
  | Y :: _ => g.Begins Y u

namespace Grammar

theorem afterDot?_of_drop (g : Grammar) {p : ProductionId} {q : Production} {k : Nat} {X : Symbol}
    {rest : List Symbol} (hq : g.production? p = some q) (h : q.tail.drop k = X :: rest) :
    g.afterDot? ⟨p, k⟩ = some X ∧ q.tail.drop (k + 1) = rest := by
  constructor
  · refine g.afterDot?_eq_some_iff.mpr ⟨q, hq, ?_⟩
    rw [← List.head?_drop, h]
    rfl
  · rw [← List.tail_drop, h]
    rfl

theorem follow_of_admits (g : Grammar) {p : ProductionId} {q : Production} {n : Nonterminal}
    {before after : List Symbol} {u : Terminal} (hq : g.production? p = some q)
    (htail : q.tail = before ++ .nonterminal n :: after) (h : g.Admits q after u) :
    g.Collects (.follow n) u := by
  cases after with
  | nil => exact g.follow_of_last hq htail h
  | cons Y after => exact g.follow_of_begins hq htail h

/-- What the symbols yield may come before them. -/
theorem admits_of_yields (g : Grammar) {q : Production} {symbols after : List Symbol}
    {rules : List ProductionId} {word : List Terminal} {u : Terminal}
    (h : g.Yields symbols rules word) (hu : g.Admits q after u) :
    ∃ first rest, word ++ [u] = first :: rest ∧ g.Admits q (symbols ++ after) first := by
  cases symbols with
  | nil =>
    cases h
    exact ⟨u, [], rfl, hu⟩
  | cons X symbols =>
    obtain ⟨first, rest, rfl, hfirst⟩ := g.begins_of_yields h
    exact ⟨first, rest ++ [u], rfl, hfirst⟩

end Grammar

namespace Session

variable {τ ε ς : Type}

/-- The current state has the item. -/
def Holds (t : Table) (s : Session StateId Symbol τ ς) (item : Item) : Prop :=
  ∃ current below items, s.parser.states = current :: below ∧
    t.automaton.state? current = some items ∧ item ∈ items

variable {g : Grammar} {t : Table} {s next : Session StateId Symbol τ ς} {stack : List Symbol}
  {tok : τ} {toks toks' : List τ} {item : Item}

theorem holds_startItem (hfits : t.Fits g) (source : ς) :
    (start (τ := τ) t.parseTable source).Holds t Grammar.startItem :=
  ⟨.start, [], _, rfl, hfits.canonical.start, g.mem_expand_of_mem (List.mem_singleton.mpr rfl)⟩

variable [Token τ Symbol] [TokenSource ς ε τ]

theorem holds_next (hfits : t.Fits g) {X : Symbol} (h : s.Tracks t stack toks)
    (hitem : s.Holds t item) (hX : g.afterDot? item = some X)
    (hnext : next.Tracks t (X :: stack) toks') : next.Holds t item.next := by
  obtain ⟨current, below, items, hstates, hs, hmem⟩ := hitem
  have hpath := hnext.path
  generalize hstates' : next.parser.states = states at hpath
  cases hpath with
  | @step uncovered target deeper _ _ hbefore hget =>
    have hsame := hbefore.states_eq h.path
    rw [hstates] at hsame
    cases hsame
    obtain ⟨items', hs', -, htarget⟩ := hfits.canonical.edge current X target hget
    rw [hs] at hs'
    cases hs'
    exact ⟨target, _, _, hstates', htarget, g.next_mem_successor hmem hX⟩

theorem holds_front (hfits : t.Fits g) {p : ProductionId} {q : Production}
    (h : s.Tracks t stack toks) (hitem : s.Holds t item)
    (hX : g.afterDot? item = some (.nonterminal q.head)) (hq : g.production? p = some q) :
    s.Holds t ⟨p, 0⟩ := by
  obtain ⟨current, below, items, hstates, hs, hmem⟩ := hitem
  have hpath := h.path
  rw [hstates] at hpath
  obtain ⟨kernel, hkernel⟩ := hpath.exists_kernel hfits.canonical
  rw [hs] at hkernel
  cases hkernel
  exact ⟨current, below, _, hstates, hs, g.front_mem_expand hmem hX hq rfl⟩

theorem advances_terminal (hfits : t.Fits g) {u : Terminal} (h : s.Tracks t stack (tok :: toks))
    (hitem : s.Holds t item) (hX : g.afterDot? item = some (.terminal u)) (hne : u ≠ .endOfInput)
    (hu : Token.symbol tok = Symbol.terminal u) :
    ∃ next, Advances t.parseTable s [] next ∧ next.Tracks t (.terminal u :: stack) toks ∧
      next.Holds t item.next := by
  have hheld := hitem
  obtain ⟨current, below, items, hstates, hs, hmem⟩ := hitem
  obtain ⟨target, _, htarget, -, -⟩ := hfits.canonical.follow_item hs hmem hX
  have hasks := Grammar.Asks.shift hs hmem hX hne htarget
  rw [← hu] at hasks
  obtain ⟨next, hturn, hnext, -⟩ := turn_shift hfits h hstates hasks
  rw [hu] at hnext
  exact ⟨next, .shift hturn (.refl next), hnext, holds_next hfits h hheld hX hnext⟩

/-- A complete production is reduced before what follows its head. -/
theorem advances_complete (hfits : t.Fits g) {p : ProductionId} {q : Production} {u : Terminal}
    (h : s.Tracks t (q.tail.reverse ++ stack) (tok :: toks))
    (hitem : s.Holds t ⟨p, q.tail.length⟩) (hp : p ≠ .augmented) (hq : g.production? p = some q)
    (hu : Token.symbol tok = Symbol.terminal u) (hfollow : g.Collects (.follow q.head) u) :
    ∃ next, Advances t.parseTable s [p] next ∧
      next.Tracks t (.nonterminal q.head :: stack) (tok :: toks) := by
  obtain ⟨current, below, items, hstates, hs, hmem⟩ := hitem
  have hreducible : g.Reducible ⟨p, q.tail.length⟩ q.head := ⟨hp, q, hq, rfl, rfl⟩
  have hdeclared := g.contains_of_reducible hreducible
  have hresolves := (hfits.clear current.number items hs).follows _ hmem q.head hreducible
  obtain ⟨follow, sets, hsets⟩ := (g.follow_ok_iff q.head hdeclared).mpr hresolves
  have hmember := (g.collects_iff_of_follow q.head follow sets hsets u).mpr hfollow
  have hasks := Grammar.Asks.reduce hs hmem hreducible hsets hmember
  rw [← hu] at hasks
  obtain ⟨rest, target, next, hrest, hturn, hnext, -⟩ := turn_reduce hfits h hstates hasks hq
  rw [List.append_cancel_left hrest]
  exact ⟨next, .reduce hturn (.refl next), hnext⟩

/-- The parser reads what is yielded by the symbols after a dot. -/
theorem advances_of_yields (hfits : t.Fits g) {symbols after rest : List Symbol}
    {rules : List ProductionId} {word : List Terminal} {p : ProductionId} {q : Production} {k : Nat}
    {u : Terminal} (hyields : g.Yields symbols rules word) (h : s.Tracks t stack toks)
    (hitem : s.Holds t ⟨p, k⟩) (hq : g.production? p = some q)
    (htail : q.tail.drop k = symbols ++ after) (hend : Symbol.endOfInput ∉ symbols)
    (hu : g.Admits q after u)
    (htoks : toks.map Token.symbol = word.map Symbol.terminal ++ .terminal u :: rest) :
    ∃ last toks', Advances t.parseTable s rules.reverse last ∧
      last.Tracks t (symbols.reverse ++ stack) toks' ∧
      last.Holds t ⟨p, k + symbols.length⟩ ∧ toks'.map Token.symbol = .terminal u :: rest := by
  -- By induction on what is yielded: the word of a nonterminal is read along the item that has the
  -- dot in front of its production, and when that is reduced, the dot goes over the nonterminal.
  induction hyields generalizing s stack toks p q k after u rest with
  | nil => exact ⟨s, toks, .refl s, h, hitem, htoks⟩
  | @terminal v symbols rules word _ ih =>
    obtain ⟨hX, htail'⟩ := g.afterDot?_of_drop hq htail
    have hne : v ≠ .endOfInput := by
      intro hv
      exact hend (hv ▸ List.mem_cons_self)
    obtain ⟨tok, toks, rfl, hv, hrest⟩ := List.map_eq_cons_iff.mp htoks
    obtain ⟨next, hshift, hnext, hheld⟩ := advances_terminal hfits h hitem hX hne hv
    obtain ⟨last, toks', hadv, htracks, hlast, hfinal⟩ :=
      ih hnext hheld hq htail' (fun hmem => hend (List.mem_cons_of_mem _ hmem)) hu hrest
    refine ⟨last, toks', hshift.trans _ hadv, ?_, ?_, hfinal⟩
    · rw [List.reverse_cons, List.append_assoc]
      exact htracks
    · rw [List.length_cons, show k + (symbols.length + 1) = k + 1 + symbols.length by omega]
      exact hlast
  | @nonterminal p' q' symbols rules more word others hp' hq' htailYields hmore ihtail ih =>
    obtain ⟨hX, htail'⟩ := g.afterDot?_of_drop hq htail
    have hsplit : q.tail = q.tail.take k ++ .nonterminal q'.head :: (symbols ++ after) := by
      rw [← List.cons_append, ← htail, List.take_append_drop]
    obtain ⟨first, others', hfirst, hadmits⟩ := g.admits_of_yields hmore hu
    have hfollow := g.follow_of_admits hq hsplit hadmits
    have hafter : others.map Symbol.terminal ++ .terminal u :: rest =
        .terminal first :: (others'.map Symbol.terminal ++ rest) := by
      have hmap := congrArg (fun w => w.map Symbol.terminal ++ rest) hfirst
      simpa using hmap
    have hword : toks.map Token.symbol =
        word.map Symbol.terminal ++ .terminal first :: (others'.map Symbol.terminal ++ rest) := by
      calc
        _ = (word ++ others).map Symbol.terminal ++ .terminal u :: rest := htoks
        _ = word.map Symbol.terminal ++ (others.map Symbol.terminal ++ .terminal u :: rest) := by
          rw [List.map_append, List.append_assoc]
        _ = _ := by rw [hafter]
    obtain ⟨read, toks₁, hadv₁, htracks₁, hheld₁, htoks₁⟩ :=
      ihtail h (holds_front hfits h hitem hX hq') hq' (List.append_nil _).symm
        (g.endOfInput_not_mem_tail hq' hp') hfollow hword
    rw [Nat.zero_add] at hheld₁
    obtain ⟨tok, toks₁, rfl, hv, -⟩ := List.map_eq_cons_iff.mp htoks₁
    obtain ⟨next, hadv₂, hnext⟩ := advances_complete hfits htracks₁ hheld₁ hp' hq' hv hfollow
    have hheld := holds_next hfits h hitem hX hnext
    obtain ⟨last, toks', hadv₃, htracks, hlast, hfinal⟩ :=
      ih hnext hheld hq htail' (fun hmem => hend (List.mem_cons_of_mem _ hmem)) hu
        (htoks₁.trans hafter.symm)
    refine ⟨last, toks', ?_, ?_, ?_, hfinal⟩
    · rw [List.reverse_append, List.reverse_cons]
      exact (hadv₁.trans _ hadv₂).trans _ hadv₃
    · rw [List.reverse_cons, List.append_assoc]
      exact htracks
    · rw [List.length_cons, show k + (symbols.length + 1) = k + 1 + symbols.length by omega]
      exact hlast

theorem advances_to_accept (hfits : t.Fits g) {source : ς} {word : List Terminal}
    {rest : List Symbol} {rules : List ProductionId} (hsource : Supplies source toks)
    (htoks : toks.map Token.symbol = word.map Symbol.terminal ++ .endOfInput :: rest)
    (hderives : g.Rightmost [.nonterminal g.root] rules word) :
    ∃ last final, Advances t.parseTable (start t.parseTable source) rules.reverse last ∧
      last.turn t.parseTable = (.accepted, final) := by
  have hroot : Symbol.endOfInput ∉ [Symbol.nonterminal g.root] := by simp [Symbol.endOfInput]
  have htail : g.augmentedProduction.tail.drop 0 = [.nonterminal g.root] ++ [.endOfInput] := rfl
  have hadmits : g.Admits g.augmentedProduction [.endOfInput] .endOfInput := rfl
  obtain ⟨last, toks', hadv, htracks, hlast, hfinal⟩ :=
    advances_of_yields hfits (g.yields_of_rightmost hderives) (tracks_start t hsource)
      (holds_startItem hfits source) g.production?_augmented htail hroot hadmits htoks
  obtain ⟨tok, toks', rfl, hu, -⟩ := List.map_eq_cons_iff.mp hfinal
  obtain ⟨current, below, items, hstates, hs, hmem⟩ := hlast
  have hasks : g.Asks t.automaton current .endOfInput .accept := .accept hs hmem
  have hend : Token.symbol tok = Symbol.endOfInput := hu
  rw [← hend] at hasks
  obtain ⟨-, final, hturn, -⟩ := turn_accept hfits htracks hstates hasks
  exact ⟨last, final, hadv, hturn⟩

end Session

/-- A parse that reads a word with a rightmost derivation succeeds with its productions in reverse,
and the word has no other derivation. -/
theorem parse_complete {τ ε ς : Type} [Token τ Symbol] [TokenSource ς ε τ] (g : Grammar)
    (o : BuildOptions) (t : Table) (ht : g.table o = .ok t) (source : ς) (toks : List τ)
    (hsource : Supplies source toks) (word : List Terminal) (rest : List Symbol)
    (htoks : toks.map Token.symbol = word.map Symbol.terminal ++ .endOfInput :: rest)
    (rules : List ProductionId) (h : g.Rightmost [.nonterminal g.root] rules word) :
    (∃ budget final, (Session.start t.parseTable source).parse t.parseTable budget =
      some (.ok rules.reverse, final)) ∧
    ∀ others, g.Rightmost [.nonterminal g.root] others word → others = rules := by
  have hfits := g.table_fits o t ht
  obtain ⟨last, final, hadv, hturn⟩ := Session.advances_to_accept hfits hsource htoks h
  constructor
  · obtain ⟨budget, hparse⟩ := (Session.parse_ok_iff t.parseTable _ _ rules.reverse rfl).mpr
      ⟨last, final, hadv, hturn, rfl⟩
    exact ⟨budget, _, hparse⟩
  · intro others hothers
    obtain ⟨last', final', hadv', hturn'⟩ :=
      Session.advances_to_accept hfits hsource htoks hothers
    obtain ⟨hsame, -⟩ := hadv'.unique _ (by rw [hturn']; rfl) hadv (by rw [hturn]; rfl)
    exact List.reverse_injective hsame

theorem parse_complete_list : ∃ g t, Grammar.define SampleGrammars.list = .ok g ∧
    g.table .thorough = .ok t ∧ ∃ budget final,
      (Session.start t.parseTable
        (TokenTape.ofList [(⟨1⟩ : Terminal), ⟨2⟩, ⟨1⟩, .endOfInput])).parse t.parseTable budget =
          some (.ok [⟨3⟩, ⟨2⟩, ⟨1⟩], final) := by
  obtain ⟨g, t, hg, ht, hroot, hfirst, hsecond, hthird⟩ := Grammar.exists_table SampleGrammars.list
    (fun g _ => g.root = ⟨1⟩ ∧ g.production? ⟨1⟩ = some ⟨⟨1⟩, [.nonterminal ⟨2⟩]⟩ ∧
      g.production? ⟨2⟩ = some ⟨⟨2⟩, [.terminal ⟨1⟩, .terminal ⟨2⟩, .nonterminal ⟨2⟩]⟩ ∧
      g.production? ⟨3⟩ = some ⟨⟨2⟩, [.terminal ⟨1⟩]⟩) (by decide +kernel)
  -- `START`, `LIST`, `x , LIST` and `x , x`.
  have hlast : g.Rightmost [.terminal ⟨1⟩, .terminal ⟨2⟩, .nonterminal ⟨2⟩] [⟨3⟩] [⟨1⟩, ⟨2⟩, ⟨1⟩] :=
    @Grammar.Rightmost.step g [.terminal ⟨1⟩, .terminal ⟨2⟩] ⟨3⟩ _ [] [] _ (by decide) hthird
      (.done [⟨1⟩, ⟨2⟩, ⟨1⟩])
  have hlist : g.Rightmost [.nonterminal ⟨2⟩] [⟨2⟩, ⟨3⟩] [⟨1⟩, ⟨2⟩, ⟨1⟩] :=
    @Grammar.Rightmost.step g [] ⟨2⟩ _ [] _ _ (by decide) hsecond hlast
  have hderives : g.Rightmost [.nonterminal g.root] [⟨1⟩, ⟨2⟩, ⟨3⟩] [⟨1⟩, ⟨2⟩, ⟨1⟩] := by
    rw [hroot]
    exact @Grammar.Rightmost.step g [] ⟨1⟩ _ [] _ _ (by decide) hfirst hlist
  exact ⟨g, t, hg, ht, (parse_complete g .thorough t ht _ _ (TokenTape.supplies [] _)
    [⟨1⟩, ⟨2⟩, ⟨1⟩] [] rfl [⟨1⟩, ⟨2⟩, ⟨3⟩] hderives).1⟩

end ShiftReduce
