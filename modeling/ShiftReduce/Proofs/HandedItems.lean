import ShiftReduce.Proofs.ParserSafety
import ShiftReduce.Proofs.ParseTrees

namespace ShiftReduce

/-- A token that stands for a terminal, or a nonterminal. -/
def StackItem.Genuine {τ : Type} [Token τ Symbol] : StackItem τ Symbol → Prop
  | token tok => (Token.symbol tok).isTerminal = true
  | head X => X.isTerminal = false

theorem StackItem.Genuine.eq_head {τ : Type} [Token τ Symbol] {item : StackItem τ Symbol}
    {n : Nonterminal} (h : item.Genuine) (hn : item.symbol = .nonterminal n) :
    item = .head (.nonterminal n) := by
  cases item with
  | token tok =>
    have hterminal : (Token.symbol tok).isTerminal = true := h
    have hsymbol : Token.symbol tok = Symbol.nonterminal n := hn
    rw [hsymbol] at hterminal
    cases hterminal
  | head X => exact congrArg StackItem.head hn

def Parser.Genuine {τ : Type} [Token τ Symbol] (p : Parser StateId Symbol τ) : Prop :=
  ∀ item ∈ p.items, item.Genuine

/-- There is one item for each symbol: a token that stands for the terminal, or the nonterminal as a
head. -/
def Args.Spells {τ : Type} [Token τ Symbol] (args : Args τ Symbol) (symbols : List Symbol) : Prop :=
  args.length = symbols.length ∧ ∀ (i : Nat) (X : Symbol), symbols[i]? = some X →
    ∃ item : StackItem τ Symbol, args[i]? = some (some item) ∧ item.symbol = X ∧ item.Genuine

/-- The items on top of a stack, from right to left, spell the symbols that lie there. -/
theorem Args.spells_take {τ : Type} [Token τ Symbol] (items : List (StackItem τ Symbol))
    (symbols rest : List Symbol) (hitems : items.map StackItem.symbol = symbols.reverse ++ rest)
    (hgenuine : ∀ item ∈ items, item.Genuine) :
    Args.Spells ((items.take symbols.length).reverse.map some) symbols := by
  have hmap : (items.take symbols.length).reverse.map StackItem.symbol = symbols := by
    rw [List.map_reverse, List.map_take, hitems, List.take_left' List.length_reverse,
      List.reverse_reverse]
  refine ⟨?_, ?_⟩
  · have hlength := congrArg List.length hmap
    rwa [List.length_map] at hlength ⊢
  · intro i X hX
    rw [← hmap, List.getElem?_map, Option.map_eq_some_iff] at hX
    obtain ⟨item, hitem, hsymbol⟩ := hX
    have hmem : item ∈ items :=
      List.mem_of_mem_take (List.mem_reverse.mp (List.mem_of_getElem? hitem))
    refine ⟨item, ?_, hsymbol, hgenuine item hmem⟩
    rw [List.getElem?_map, hitem, Option.map_some]

namespace Session

variable {τ ε ς : Type} [Token τ Symbol] {g : Grammar} {t : Table}
  {s last next final : Session StateId Symbol τ ς} {rules : List ProductionId}
  {turn : Turn StateId Symbol ProductionId ε}

/-- What comes with an outcome: with a reduction the tail of its production, with acceptance the
root, and then nothing is left on the stack. -/
def Delivers (g : Grammar) (s : Session StateId Symbol τ ς) : Outcome ProductionId → Prop
  | .reduce rule => ∃ q, g.production? rule = some q ∧ s.args.Spells q.tail
  | .accept => s.args = [some (.head (.nonterminal g.root))] ∧ s.parser.items = []

/-- What the answer of the table leaves on the stack, and what it hands over. -/
theorem respond_delivers (hfits : t.Fits g) (hpath : s.parser.OnPath t)
    (hgenuine : s.parser.Genuine) {current : StateId} {below : List StateId}
    (hstates : s.parser.states = current :: below) (tok : τ)
    (h : s.respond t.parseTable tok (t.parseTable.move current (Token.symbol tok)) =
      (turn, next)) :
    next.parser.Genuine ∧
      ∀ outcome, turn.result? = some (.ok outcome) → next.Delivers g outcome := by
  have hresponded := responded (ε := ε) hfits hpath hstates tok
  rw [h] at hresponded
  generalize hresult : (turn, next) = result at hresponded
  cases hresponded with
  | shift hu =>
    cases hresult
    refine ⟨?_, fun outcome houtcome => by cases houtcome⟩
    have hterminal : (Token.symbol tok).isTerminal = true := by
      rw [hu]
      rfl
    exact List.forall_mem_cons.mpr ⟨hterminal, hgenuine⟩
  | @reduce top target deeper states p q rest items htop hasks hq hsymbols _ _ =>
    rw [hstates] at htop
    cases htop
    have hmove : t.parseTable.move current (Token.symbol tok) =
        .ok (.reduce p (.nonterminal q.head) q.tail.length) :=
      hfits.move_of_reduce (hfits.action_of_asks hasks) hq
    rw [hmove] at h
    rcases reduce_cases t.parseTable s next p _ _ turn h with ⟨e, hfailed⟩ | ⟨_, _, -, -, hnext⟩
    · cases hresult
      cases hfailed
    · cases hresult
      constructor
      · rw [hnext]
        exact List.forall_mem_cons.mpr ⟨rfl, fun item hitem =>
          hgenuine item (List.mem_of_mem_drop hitem)⟩
      · intro outcome houtcome
        cases houtcome
        exact ⟨q, hq, Args.spells_take s.parser.items q.tail rest hsymbols hgenuine⟩
  | @accept item _ hitems hroot =>
    cases hresult
    refine ⟨List.forall_mem_nil _, ?_⟩
    intro outcome houtcome
    cases houtcome
    have hitem : item.Genuine := hgenuine item (hitems ▸ List.mem_singleton.mpr rfl)
    exact ⟨congrArg (fun item => [some item]) (hitem.eq_head hroot), rfl⟩
  | goto =>
    cases hresult
    exact ⟨hgenuine, fun outcome houtcome => by cases houtcome⟩
  | reject =>
    cases hresult
    exact ⟨hgenuine, fun outcome houtcome => by cases houtcome⟩

variable [TokenSource ς ε τ]

theorem turn_delivers (hfits : t.Fits g) (hpath : s.parser.OnPath t)
    (hgenuine : s.parser.Genuine) (h : s.turn t.parseTable = (turn, next)) :
    next.parser.Genuine ∧
      ∀ outcome, turn.result? = some (.ok outcome) → next.Delivers g outcome := by
  have harises := arises t.parseTable s
  rw [h] at harises
  generalize hresult : (turn, next) = result at harises
  cases harises with
  | exceeded =>
    cases hresult
    exact ⟨hgenuine, fun outcome houtcome => by cases houtcome⟩
  | stateless =>
    cases hresult
    exact ⟨hgenuine, fun outcome houtcome => by cases houtcome⟩
  | tokenless =>
    cases hresult
    exact ⟨hgenuine, fun outcome houtcome => by cases houtcome⟩
  | @answered current below tok source _ hstates _ =>
    have hprimed : (s.counted.primed tok source).parser.OnPath t := hpath
    exact respond_delivers hfits hprimed hgenuine hstates tok hresult.symm

theorem advances_genuine (hfits : t.Fits g) (h : Advances t.parseTable s rules last)
    (hpath : s.parser.OnPath t) (hreading : s.parser.accepted = false)
    (hgenuine : s.parser.Genuine) : last.parser.Genuine := by
  induction h with
  | refl => exact hgenuine
  | shift hturn hrest ih =>
    obtain ⟨hnext, hmore⟩ := advances_onPath hfits (.shift hturn (.refl _)) hpath hreading
    exact ih hnext hmore (turn_delivers hfits hpath hgenuine hturn).1
  | reduce hturn hrest ih =>
    obtain ⟨hnext, hmore⟩ := advances_onPath hfits (.reduce hturn (.refl _)) hpath hreading
    exact ih hnext hmore (turn_delivers hfits hpath hgenuine hturn).1

theorem delivers_of_advances (hfits : t.Fits g) (h : Advances t.parseTable s rules last)
    (hpath : s.parser.OnPath t) (hreading : s.parser.accepted = false)
    (hgenuine : s.parser.Genuine) (hturn : last.turn t.parseTable = (turn, final)) :
    final.parser.Genuine ∧
      ∀ outcome, turn.result? = some (.ok outcome) → final.Delivers g outcome :=
  turn_delivers hfits (advances_onPath hfits h hpath hreading).1
    (advances_genuine hfits h hpath hreading hgenuine) hturn

theorem nextOutcome_delivers (hfits : t.Fits g) (hs : s.parser.Sound t)
    (hgenuine : s.parser.Genuine) (budget : Nat)
    (result : Except (ParseFailure ε) (Outcome ProductionId))
    (h : s.nextOutcome t.parseTable budget = some (result, final)) :
    final.parser.Genuine ∧ ∀ outcome, result = .ok outcome → final.Delivers g outcome := by
  unfold nextOutcome at h
  cases haccepted : s.parser.accepted with
  | true =>
    rw [haccepted] at h
    cases h
    exact ⟨hgenuine, fun outcome houtcome => by cases houtcome⟩
  | false =>
    rw [haccepted] at h
    obtain ⟨last, turn, hadv, hturn, hresult⟩ :=
      advances_of_toOutcome t.parseTable budget s final result h
    obtain ⟨hfinal, hdelivers⟩ :=
      delivers_of_advances hfits hadv (hs haccepted) haccepted hgenuine hturn
    exact ⟨hfinal, fun outcome houtcome =>
      hdelivers outcome (hresult.trans (congrArg some houtcome))⟩

theorem parse_genuine (hfits : t.Fits g) (hs : s.parser.Sound t) (hgenuine : s.parser.Genuine)
    (budget : Nat) (result : Except (ParseFailure ε) (List ProductionId))
    (h : s.parse t.parseTable budget = some (result, final)) : final.parser.Genuine := by
  cases haccepted : s.parser.accepted with
  | true =>
    unfold parse at h
    rw [haccepted] at h
    cases h
    exact hgenuine
  | false =>
    obtain ⟨rules, last, turn, next, hadv, hturn, -, -, -, rfl⟩ :=
      advances_of_parse t.parseTable budget s final result haccepted h
    exact (delivers_of_advances hfits hadv (hs haccepted) haccepted hgenuine hturn).1

end Session

theorem Parser.Reached.genuine {τ : Type} [Token τ Symbol] {g : Grammar} {t : Table}
    {p : Parser StateId Symbol τ} (hfits : t.Fits g) (h : p.Reached t.parseTable) : p.Genuine := by
  induction h with
  | start => exact List.forall_mem_nil _
  | reset _ _ => exact List.forall_mem_nil _
  | limitSteps _ _ ih => exact ih
  | nextOutcome hp hcall ih =>
    exact (Session.nextOutcome_delivers hfits (hp.sound hfits) ih _ _ hcall).1
  | parse hp hcall ih => exact Session.parse_genuine hfits (hp.sound hfits) ih _ _ hcall

/-- Over the table of a grammar a reduction hands over the items of its production's tail, symbol
for symbol, and acceptance the root alone. -/
theorem items_match_production {τ : Type} [Token τ Symbol] (g : Grammar) (o : BuildOptions)
    (t : Table) (ht : g.table o = .ok t) (p : Parser StateId Symbol τ)
    (hp : p.Reached t.parseTable) {ς ε : Type} [TokenSource ς ε τ] (source : ς)
    (args : Args τ Symbol) (budget : Nat) (outcome : Outcome ProductionId)
    (final : Session StateId Symbol τ ς)
    (h : Session.nextOutcome t.parseTable budget ⟨p, source, args⟩ = some (.ok outcome, final)) :
    (∀ rule, outcome = .reduce rule → ∃ q, g.production? rule = some q ∧
      final.args.length = q.tail.length ∧ ∀ (i : Nat) (X : Symbol), q.tail[i]? = some X →
        ∃ item : StackItem τ Symbol, final.args[i]? = some (some item) ∧ item.symbol = X ∧
          item.Genuine) ∧
    (outcome = .accept →
      final.args = [some (.head (.nonterminal g.root))] ∧ final.parser.items = []) := by
  have hfits := g.table_fits o t ht
  have hs : (Session.mk p source args).parser.Sound t := hp.sound hfits
  have hdelivers :=
    (Session.nextOutcome_delivers hfits hs (hp.genuine hfits) budget _ h).2 outcome rfl
  constructor
  · intro rule hrule
    rw [hrule] at hdelivers
    exact hdelivers
  · intro haccept
    rw [haccept] at hdelivers
    exact hdelivers

/-- After `x ,` and an error of its source a parser goes on with `x $`, and reduces one item and
then three. -/
theorem items_match_production_list : ∃ g t, Grammar.define SampleGrammars.list = .ok g ∧
    g.table .thorough = .ok t ∧
    ∃ (p : Parser StateId Symbol (Lexeme Symbol))
      (final : Session StateId Symbol (Lexeme Symbol) (List (Except String (Lexeme Symbol)))),
      p.Reached t.parseTable ∧
      Session.nextOutcome t.parseTable 9 ⟨p, [], []⟩ = some (.ok (.reduce ⟨2⟩), final) ∧
      final.args.length = 3 ∧ ∃ q, g.production? ⟨2⟩ = some q ∧
        final.args.length = q.tail.length ∧ ∀ (i : Nat) (X : Symbol), q.tail[i]? = some X →
          ∃ item : StackItem (Lexeme Symbol) Symbol, final.args[i]? = some (some item) ∧
            item.symbol = X ∧ item.Genuine := by
  obtain ⟨g, t, hg, ht, hrun⟩ := Grammar.exists_table SampleGrammars.list
    (fun _ t =>
      ((Session.nextOutcome (ς := List (Except String (Lexeme Symbol))) t.parseTable 9
          (.start t.parseTable
            [.ok ⟨.terminal ⟨1⟩, "x"⟩, .ok ⟨.terminal ⟨2⟩, ","⟩, .error "!"])).bind fun first =>
        (Session.nextOutcome (ς := List (Except String (Lexeme Symbol))) t.parseTable 9
            ⟨first.2.parser, [.ok ⟨.terminal ⟨1⟩, "x"⟩, .ok ⟨.endOfInput, "$"⟩], []⟩).bind
          fun second =>
            (Session.nextOutcome (ς := List (Except String (Lexeme Symbol))) t.parseTable 9
              ⟨second.2.parser, [], []⟩).map
                fun third => (first.1, third.1, third.2.args.length)) =
        some (.error (.lexer "!"), .ok (.reduce ⟨2⟩), 3)) (by decide +kernel)
  obtain ⟨first, hfirst, hrun⟩ := Option.bind_eq_some_iff.mp hrun
  obtain ⟨second, hsecond, hrun⟩ := Option.bind_eq_some_iff.mp hrun
  obtain ⟨⟨result, final⟩, hthird, hrun⟩ := Option.map_eq_some_iff.mp hrun
  simp only [Prod.mk.injEq] at hrun
  obtain ⟨-, rfl, hlength⟩ := hrun
  have hreached : second.2.parser.Reached t.parseTable :=
    .nextOutcome (.nextOutcome .start hfirst) hsecond
  obtain ⟨hreduce, -⟩ := items_match_production g .thorough t ht second.2.parser hreached [] [] 9
    (.reduce ⟨2⟩) final hthird
  exact ⟨g, t, hg, ht, second.2.parser, final, hreached, hthird, hlength, hreduce ⟨2⟩ rfl⟩

end ShiftReduce
