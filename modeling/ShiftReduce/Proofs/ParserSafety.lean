import ShiftReduce.Proofs.TableSessions
import ShiftReduce.SampleGrammars

namespace ShiftReduce

namespace Parser

/-- Calls lead from a new parser to this one. -/
inductive Reached {σ ι ρ τ : Type} [Token τ ι] (T : ParseTable σ ι ρ) : Parser σ ι τ → Prop
  | start : Reached T (.start T)
  | reset {p : Parser σ ι τ} : Reached T p → Reached T (p.reset T)
  | limitSteps {p : Parser σ ι τ} (limit : Nat) : Reached T p → Reached T (p.limitSteps limit)
  | nextOutcome {ς ε : Type} [TokenSource ς ε τ] {p : Parser σ ι τ} {source : ς}
      {args : Args τ ι} {budget : Nat} {result : Except (ParseFailure ε) (Outcome ρ)}
      {final : Session σ ι τ ς} :
      Reached T p → Session.nextOutcome T budget ⟨p, source, args⟩ = some (result, final) →
      Reached T final.parser
  | parse {ς ε : Type} [TokenSource ς ε τ] {p : Parser σ ι τ} {source : ς} {args : Args τ ι}
      {budget : Nat} {result : Except (ParseFailure ε) (List ρ)} {final : Session σ ι τ ς} :
      Reached T p → Session.parse T budget ⟨p, source, args⟩ = some (result, final) →
      Reached T final.parser

/-- How a call may fail and leave the parser. The table refuses a symbol only where the lookahead
token stands for a nonterminal. -/
def MayFail {τ ε : Type} [Token τ Symbol] (g : Grammar) (t : Table)
    (p : Parser StateId Symbol τ) : ParseFailure ε → Prop
  | .table .incorrectSymbol => ∃ tok n current below target, p.lookahead = some tok ∧
      Token.symbol tok = Symbol.nonterminal n ∧ g.contains (.nonterminal n) ∧
      p.states = current :: below ∧
      t.automaton.transitions.get? current (.nonterminal n) = some target
  | .table .incorrectState => False
  | .missingGoto => False
  | .emptyStateStack => False
  | .emptyItemStack => False
  | .lexer _ => True
  | .rejected _ => True
  | .unexpectedEnd => True
  | .stepLimitExceeded _ => True
  | .finished => True

/-- The stacks are a path, if the parser has not accepted. -/
def Sound {τ : Type} [Token τ Symbol] (t : Table) (p : Parser StateId Symbol τ) : Prop :=
  p.accepted = false → p.OnPath t

theorem sound_start {τ : Type} [Token τ Symbol] (t : Table) :
    (start (τ := τ) t.parseTable).Sound t :=
  fun _ => .start

end Parser

namespace Session

variable {τ ε ς : Type} [Token τ Symbol] [TokenSource ς ε τ] {g : Grammar} {t : Table}
  {s last next final : Session StateId Symbol τ ς} {rules : List ProductionId}
  {turn : Turn StateId Symbol ProductionId ε}

/-- Whatever a turn comes to, it accepts or leaves the stacks on a path. -/
theorem turn_onPath (hfits : t.Fits g) (hpath : s.parser.OnPath t)
    (hreading : s.parser.accepted = false) (hturn : s.turn t.parseTable = (turn, next)) :
    (turn = .accepted ∧ next.parser.accepted = true) ∨
      (next.parser.OnPath t ∧ next.parser.accepted = false ∧
        ∀ e, turn.result? = some (.error e) → next.parser.MayFail g t e) := by
  have harises := arises t.parseTable s
  rw [hturn] at harises
  generalize hresult : (turn, next) = result at harises
  cases harises with
  | exceeded =>
    cases hresult
    refine Or.inr ⟨hpath, hreading, ?_⟩
    intro e he
    cases he
    trivial
  | stateless _ hstates =>
    obtain ⟨_, _, htop⟩ := hpath.exists_top
    rw [hstates] at htop
    cases htop
  | tokenless _ _ hfailure =>
    cases hresult
    refine Or.inr ⟨hpath, hreading, ?_⟩
    intro e he
    cases he
    rcases hfailure with rfl | ⟨_, rfl⟩
    · trivial
    · trivial
  | @answered current below tok source _ hstates _ =>
    have hprimed : (s.counted.primed tok source).parser.OnPath t := hpath
    have hresponded := responded (ε := ε) hfits hprimed hstates tok
    rw [← hresult] at hresponded
    cases hresponded with
    | shift _ _ _ hnext =>
      refine Or.inr ⟨hnext, hreading, ?_⟩
      intro e he
      cases he
    | @reduce _ _ _ states _ _ _ items _ _ _ _ hnext hitems =>
      refine Or.inr ⟨?_, hreading, ?_⟩
      · have honto : t.automaton.Path states (items.map StackItem.symbol) := by
          rw [hitems]
          exact hnext
        exact honto
      · intro e he
        cases he
    | accept => exact Or.inl ⟨rfl, rfl⟩
    | @goto top target deeper n htop hn hdeclared hget =>
      refine Or.inr ⟨hpath, hreading, ?_⟩
      intro e he
      cases he
      exact ⟨tok, n, top, deeper, target, rfl, hn, hdeclared, htop, hget⟩
    | reject =>
      refine Or.inr ⟨hpath, hreading, ?_⟩
      intro e he
      cases he
      trivial

theorem advances_onPath (hfits : t.Fits g) (h : Advances t.parseTable s rules last)
    (hpath : s.parser.OnPath t) (hreading : s.parser.accepted = false) :
    last.parser.OnPath t ∧ last.parser.accepted = false := by
  induction h with
  | refl => exact ⟨hpath, hreading⟩
  | shift hturn _ ih =>
    rcases turn_onPath hfits hpath hreading hturn with ⟨haccepted, -⟩ | ⟨hnext, hmore, -⟩
    · cases haccepted
    · exact ih hnext hmore
  | reduce hturn _ ih =>
    rcases turn_onPath hfits hpath hreading hturn with ⟨haccepted, -⟩ | ⟨hnext, hmore, -⟩
    · cases haccepted
    · exact ih hnext hmore

theorem sound_of_advances (hfits : t.Fits g) (h : Advances t.parseTable s rules last)
    (hpath : s.parser.OnPath t) (hreading : s.parser.accepted = false)
    (hturn : last.turn t.parseTable = (turn, final)) :
    final.parser.Sound t ∧
      ∀ e, turn.result? = some (.error e) → final.parser.MayFail g t e := by
  obtain ⟨hlast, hmore⟩ := advances_onPath hfits h hpath hreading
  rcases turn_onPath hfits hlast hmore hturn with ⟨rfl, haccepted⟩ | ⟨hfinal, -, hfails⟩
  · constructor
    · intro hopen
      rw [haccepted] at hopen
      cases hopen
    · intro e he
      cases he
  · exact ⟨fun _ => hfinal, hfails⟩

theorem nextOutcome_keeps_sound (hfits : t.Fits g) (hs : s.parser.Sound t) (budget : Nat)
    (result : Except (ParseFailure ε) (Outcome ProductionId))
    (h : s.nextOutcome t.parseTable budget = some (result, final)) :
    final.parser.Sound t ∧ ∀ e, result = .error e → final.parser.MayFail g t e := by
  unfold nextOutcome at h
  cases haccepted : s.parser.accepted with
  | true =>
    rw [haccepted] at h
    cases h
    refine ⟨hs, ?_⟩
    intro e he
    cases he
    trivial
  | false =>
    rw [haccepted] at h
    obtain ⟨last, turn, hadv, hturn, hresult⟩ :=
      advances_of_toOutcome t.parseTable budget s final result h
    obtain ⟨hfinal, hfails⟩ := sound_of_advances hfits hadv (hs haccepted) haccepted hturn
    refine ⟨hfinal, ?_⟩
    intro e he
    exact hfails e (hresult.trans (congrArg some he))

theorem parse_keeps_sound (hfits : t.Fits g) (hs : s.parser.Sound t) (budget : Nat)
    (result : Except (ParseFailure ε) (List ProductionId))
    (h : s.parse t.parseTable budget = some (result, final)) :
    final.parser.Sound t ∧ ∀ e, result = .error e → final.parser.MayFail g t e := by
  cases haccepted : s.parser.accepted with
  | true =>
    unfold parse at h
    rw [haccepted] at h
    cases h
    refine ⟨hs, ?_⟩
    intro e he
    cases he
    trivial
  | false =>
    obtain ⟨rules, last, turn, next, hadv, hturn, -, -, herror, rfl⟩ :=
      advances_of_parse t.parseTable budget s final result haccepted h
    obtain ⟨hnext, hfails⟩ := sound_of_advances hfits hadv (hs haccepted) haccepted hturn
    exact ⟨hnext, fun e he => hfails e (herror e he)⟩

end Session

theorem Parser.Reached.sound {τ : Type} [Token τ Symbol] {g : Grammar} {t : Table}
    {p : Parser StateId Symbol τ} (hfits : t.Fits g) (h : p.Reached t.parseTable) : p.Sound t := by
  induction h with
  | start => exact Parser.sound_start t
  | reset _ _ => exact fun _ => .start
  | limitSteps _ _ ih => exact ih
  | nextOutcome _ hcall ih => exact (Session.nextOutcome_keeps_sound hfits ih _ _ hcall).1
  | parse _ hcall ih => exact (Session.parse_keeps_sound hfits ih _ _ hcall).1

/-- Until it has accepted, a parser's states are a path of the automaton that its items spell, and
calls fail only as `Parser.MayFail` allows. -/
theorem parser_safe {τ : Type} [Token τ Symbol] (g : Grammar) (o : BuildOptions) (t : Table)
    (ht : g.table o = .ok t) (p : Parser StateId Symbol τ) (hp : p.Reached t.parseTable) :
    (p.accepted = false →
      t.automaton.Path p.states (p.items.map StackItem.symbol)) ∧
    ∀ (ς ε : Type) [TokenSource ς ε τ] (source : ς) (args : Args τ Symbol) (budget : Nat)
      (e : ParseFailure ε) (final : Session StateId Symbol τ ς),
      Session.nextOutcome t.parseTable budget ⟨p, source, args⟩ = some (.error e, final) ∨
        Session.parse t.parseTable budget ⟨p, source, args⟩ = some (.error e, final) →
      final.parser.MayFail g t e := by
  have hfits := g.table_fits o t ht
  have hsound := hp.sound hfits
  refine ⟨hsound, ?_⟩
  intro ς ε _ source args budget e final h
  have hs : (Session.mk p source args).parser.Sound t := hsound
  rcases h with h | h
  · exact (Session.nextOutcome_keeps_sound hfits hs budget _ h).2 e rfl
  · exact (Session.parse_keeps_sound hfits hs budget _ h).2 e rfl

/-- A token that stands for the nonterminal of a list, read after `x ,`. -/
theorem parser_safe_list : ∃ g t final, Grammar.define SampleGrammars.list = .ok g ∧
    g.table .thorough = .ok t ∧
    Session.parse t.parseTable 20 (Session.start t.parseTable
      (TokenTape.ofList [(⟨.terminal ⟨1⟩, "x"⟩ : Lexeme Symbol), ⟨.terminal ⟨2⟩, ","⟩,
        ⟨.nonterminal ⟨2⟩, "LIST"⟩])) = some (.error (.table .incorrectSymbol), final) ∧
    final.parser.MayFail (ε := Empty) g t (.table .incorrectSymbol) ∧
    final.parser.items.length = 2 ∧
    t.automaton.Path final.parser.states (final.parser.items.map StackItem.symbol) := by
  obtain ⟨g, t, hg, ht, hrun⟩ := Grammar.exists_table SampleGrammars.list
    (fun _ t =>
      (Session.parse t.parseTable 20 (Session.start t.parseTable
        (TokenTape.ofList [(⟨.terminal ⟨1⟩, "x"⟩ : Lexeme Symbol), ⟨.terminal ⟨2⟩, ","⟩,
          ⟨.nonterminal ⟨2⟩, "LIST"⟩]))).map
        (fun answer => (answer.1, answer.2.parser.accepted, answer.2.parser.items.length)) =
        some (.error (.table .incorrectSymbol), false, 2)) (by decide +kernel)
  obtain ⟨⟨result, final⟩, hparse, hanswer⟩ := Option.map_eq_some_iff.mp hrun
  simp only [Prod.mk.injEq] at hanswer
  obtain ⟨rfl, hreading, hlength⟩ := hanswer
  have hsafe := (parser_safe g .thorough t ht (.start (τ := Lexeme Symbol) t.parseTable) .start).2
  have hpath := (parser_safe g .thorough t ht final.parser (.parse .start hparse)).1
  exact ⟨g, t, final, hg, ht, hparse, hsafe _ _ _ _ _ _ _ (Or.inr hparse), hlength,
    hpath hreading⟩

end ShiftReduce
