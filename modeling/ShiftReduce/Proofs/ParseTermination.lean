import ShiftReduce.Proofs.TableSessions
import ShiftReduce.SampleGrammars

/-! A shift takes a token, a longer reduction makes the stack smaller, and a reduction of one
nonterminal goes to a part of its FOLLOW, unless it is to itself. -/
namespace ShiftReduce

/-- The production says no more than that a nonterminal stands for itself. -/
def Grammar.Idle (g : Grammar) (p : ProductionId) : Prop :=
  ∃ n, g.production? p = some ⟨n, [.nonterminal n]⟩

/-- A reduction below a nonterminal makes the stack smaller, or it is of that nonterminal alone: to
itself, or to one whose FOLLOW is a part. -/
theorem Grammar.reduced_cases (g : Grammar) {p : ProductionId} {q : Production} {n : Nonterminal}
    {rest rest' : List Symbol} (hq : g.production? p = some q)
    (h : .nonterminal n :: rest = q.tail.reverse ++ rest') :
    rest'.length < rest.length ∨
      (rest' = rest ∧ (g.Idle p ∨ g.PartOf (.follow q.head) (.follow n))) := by
  have hpositive := List.length_pos_of_ne_nil (g.tail_ne_nil hq)
  have hlength := congrArg List.length h
  rw [List.length_cons, List.length_append, List.length_reverse] at hlength
  by_cases hunit : q.tail.length = 1
  · right
    obtain ⟨X, htail⟩ := List.length_eq_one_iff.mp hunit
    rw [htail, List.reverse_singleton, List.singleton_append] at h
    obtain ⟨hX, hrest⟩ := List.cons.inj h
    rw [← hX] at htail
    refine ⟨hrest.symm, ?_⟩
    by_cases hhead : q.head = n
    · left
      refine ⟨n, hq.trans ?_⟩
      rw [← htail, ← hhead]
    · right
      exact g.mem_ingredients_follow.mpr ⟨p, q, hq, Or.inr ⟨[], htail, hhead, rfl⟩⟩
  · left
    omega

namespace Session

section
variable {σ ι ρ τ ε ς : Type} [Token τ ι] [TokenSource ς ε τ] (T : ParseTable σ ι ρ)

/-- Turns that shift or reduce lead to a last one. -/
def Stops (s : Session σ ι τ ς) : Prop :=
  ∃ rules last, Advances T s rules last ∧ (last.turn T).1.isLast = true

theorem stops_iff_of_turn {s next : Session σ ι τ ς} {turn : Turn σ ι ρ ε}
    (hturn : s.turn T = (turn, next)) (hmore : turn.isLast = false) : s.Stops T ↔ next.Stops T := by
  constructor
  · intro ⟨rules, last, hadv, hlast⟩
    cases hadv with
    | refl =>
      rw [hturn, hmore] at hlast
      cases hlast
    | shift hturn' hrest =>
      rw [hturn] at hturn'
      cases hturn'
      exact ⟨_, last, hrest, hlast⟩
    | reduce hturn' hrest =>
      rw [hturn] at hturn'
      cases hturn'
      exact ⟨_, last, hrest, hlast⟩
  · intro ⟨rules, last, hadv, hlast⟩
    obtain ⟨first, hfirst⟩ := Advances.of_turn T hturn hmore
    exact ⟨first ++ rules, last, hfirst.trans T hadv, hlast⟩

theorem stops_iff_of_advances {s last : Session σ ι τ ς} {rules : List ρ}
    (h : Advances T s rules last) : s.Stops T ↔ last.Stops T := by
  induction h with
  | refl => exact Iff.rfl
  | shift hturn _ ih => exact (stops_iff_of_turn T hturn rfl).trans ih
  | reduce hturn _ ih => exact (stops_iff_of_turn T hturn rfl).trans ih

theorem parse_eq_none_of_not_stops {s : Session σ ι τ ς} (hreading : s.parser.accepted = false)
    (hnever : ¬ s.Stops T) (budget : Nat) : s.parse T budget = none := by
  rw [Option.eq_none_iff_forall_ne_some]
  intro answer hanswer
  exact hnever ((parse_some_iff T s hreading).mp ⟨budget, answer, hanswer⟩)

end

variable {τ ε ς : Type} [Token τ Symbol] [TokenSource ς ε τ]

/-- Some turn of the run reduces a nonterminal to itself. -/
def Idles (g : Grammar) (T : ParseTable StateId Symbol ProductionId)
    (s : Session StateId Symbol τ ς) : Prop :=
  ∃ rules last p head target, Advances T s rules last ∧
    (last.turn T).1 = .reduced p head target ∧ g.Idle p

variable {g : Grammar} {t : Table} {s next last : Session StateId Symbol τ ς}
  {symbols : List Symbol} {toks : List τ}

theorem not_idles_of_turn {turn : Turn StateId Symbol ProductionId ε}
    (hidles : ¬ s.Idles g t.parseTable) (hturn : s.turn t.parseTable = (turn, next))
    (hmore : turn.isLast = false) : ¬ next.Idles g t.parseTable := by
  intro ⟨rules, last, p, head, target, hadv, hlast, hidle⟩
  obtain ⟨first, hfirst⟩ := Advances.of_turn t.parseTable hturn hmore
  exact hidles ⟨first ++ rules, last, p, head, target, hfirst.trans _ hadv, hlast, hidle⟩

/-- While the tokens and the height of the stack stay the same, each reduction goes from FOLLOW of a
nonterminal to one of its parts. -/
theorem stops_of_resolves (hfits : t.Fits g) {n : Nonterminal} {rest : List Symbol}
    (hresolves : g.Resolves (.follow n)) (h : s.Tracks t (.nonterminal n :: rest) toks)
    (hless : ∀ (s' : Session StateId Symbol τ ς) symbols' toks', s'.Tracks t symbols' toks' →
      toks'.length < toks.length ∨
        (toks'.length = toks.length ∧ symbols'.length < rest.length + 1) →
      ¬ s'.Idles g t.parseTable → s'.Stops t.parseTable)
    (hidles : ¬ s.Idles g t.parseTable) : s.Stops t.parseTable := by
  generalize hset : SetName.follow n = set at hresolves
  -- The parts of FOLLOW, and with them the chain, come to an end.
  induction hresolves generalizing n s with
  | intro set _ ih =>
    have hturned := turned hfits h
    generalize hsymbols : Symbol.nonterminal n :: rest = symbols at hturned
    rcases hturn : s.turn t.parseTable with ⟨turn, next⟩
    rw [hturn] at hturned
    cases hturned with
    | shift _ _ _ hnext _ =>
      have hidles' := not_idles_of_turn hidles hturn rfl
      refine (stops_iff_of_turn t.parseTable hturn rfl).mpr (hless next _ _ hnext ?_ hidles')
      rw [List.length_cons]
      omega
    | @reduce rest' _ _ _ target _ p q _ _ _ hq hnext _ =>
      have hidles' := not_idles_of_turn hidles hturn rfl
      apply (stops_iff_of_turn t.parseTable hturn rfl).mpr
      rcases g.reduced_cases hq hsymbols with hshorter | ⟨rfl, hidle | hpart⟩
      · refine hless next _ _ hnext (Or.inr ⟨rfl, ?_⟩) hidles'
        rw [List.length_cons]
        omega
      · exact False.elim (hidles ⟨[], s, p, _, target, .refl s, by rw [hturn], hidle⟩)
      · rw [hset] at hpart
        exact ih _ hpart hnext hidles' rfl
    | accept => exact ⟨[], s, .refl s, by rw [hturn]; rfl⟩
    | refuse he => exact ⟨[], s, .refl s, by rw [hturn]; exact Turn.isLast_of_error he⟩

/-- By induction on the tokens left and then on the height of the stack. -/
theorem stops_of_not_idles (hfits : t.Fits g) (h : s.Tracks t symbols toks)
    (hidles : ¬ s.Idles g t.parseTable) : s.Stops t.parseTable := by
  induction hn : toks.length using Nat.strong_induction_on generalizing s symbols toks with
  | _ n ihtoks =>
    induction hm : symbols.length using Nat.strong_induction_on generalizing s symbols toks with
    | _ m ihsymbols =>
      have hless (s' : Session StateId Symbol τ ς) (symbols' : List Symbol) (toks' : List τ)
          (h' : s'.Tracks t symbols' toks')
          (hsmaller : toks'.length < n ∨ (toks'.length = n ∧ symbols'.length < m))
          (hidles' : ¬ s'.Idles g t.parseTable) : s'.Stops t.parseTable := by
        rcases hsmaller with hsmaller | ⟨hsame, hsmaller⟩
        · exact ihtoks _ hsmaller h' hidles' rfl
        · exact ihsymbols _ hsmaller h' hidles' hsame rfl
      have hturned := turned hfits h
      rcases hturn : s.turn t.parseTable with ⟨turn, next⟩
      rw [hturn] at hturned
      cases hturned with
      | shift _ _ _ hnext _ =>
        have hidles' := not_idles_of_turn hidles hturn rfl
        refine (stops_iff_of_turn t.parseTable hturn rfl).mpr (hless next _ _ hnext ?_ hidles')
        rw [List.length_cons] at hn
        omega
      | @reduce rest _ _ _ _ _ p q _ _ hasks hq hnext _ =>
        have hidles' := not_idles_of_turn hidles hturn rfl
        apply (stops_iff_of_turn t.parseTable hturn rfl).mpr
        have hpositive := List.length_pos_of_ne_nil (g.tail_ne_nil hq)
        rw [List.length_append, List.length_reverse] at hm
        obtain ⟨_, q', _, -, hq', -, -, -, hresolves, -⟩ := g.asks_reduce hasks
        rw [hq] at hq'
        cases hq'
        refine stops_of_resolves hfits hresolves hnext ?_ hidles'
        intro s' symbols' toks' h' hsmaller
        apply hless s' symbols' toks' h'
        omega
      | accept => exact ⟨[], s, .refl s, by rw [hturn]; rfl⟩
      | refuse he => exact ⟨[], s, .refl s, by rw [hturn]; exact Turn.isLast_of_error he⟩

/-- The table asks for the reduction, now and before the current lookahead token. -/
def Spins (g : Grammar) (t : Table) (p : ProductionId) (s : Session StateId Symbol τ ς) : Prop :=
  ∃ symbols tok toks current below, s.Tracks t symbols (tok :: toks) ∧
    s.parser.states = current :: below ∧
    g.Asks t.automaton current (Token.symbol tok) (.reduce p)

/-- After a nonterminal is reduced to itself, the states and the tokens are as before. -/
theorem spins_turn (hfits : t.Fits g) {p : ProductionId} (hidle : g.Idle p) (h : s.Spins g t p) :
    ∃ head target next, s.turn t.parseTable = (.reduced p head target, next) ∧
      next.Spins g t p := by
  obtain ⟨symbols, tok, toks, current, below, htracks, hstates, hasks⟩ := h
  obtain ⟨n, hn⟩ := hidle
  obtain ⟨rest, target, next, rfl, hturn, hnext, -⟩ := turn_reduce hfits htracks hstates hasks hn
  have hsame : next.parser.states = s.parser.states := hnext.path.states_eq htracks.path
  exact ⟨_, target, next, hturn, _, tok, toks, current, below, hnext, hsame.trans hstates, hasks⟩

theorem not_stops_of_spins (hfits : t.Fits g) {p : ProductionId} (hidle : g.Idle p)
    (h : s.Spins g t p) : ¬ s.Stops t.parseTable := by
  intro ⟨rules, last, hadv, hlast⟩
  induction hadv with
  | refl s =>
    obtain ⟨_, _, next, hturn, -⟩ := spins_turn hfits hidle h
    rw [hturn] at hlast
    cases hlast
  | shift hturn _ _ =>
    obtain ⟨_, _, next, hturn', -⟩ := spins_turn hfits hidle h
    rw [hturn] at hturn'
    cases hturn'
  | reduce hturn _ ih =>
    obtain ⟨_, _, next, hturn', hnext⟩ := spins_turn hfits hidle h
    rw [hturn] at hturn'
    cases hturn'
    exact ih hnext hlast

/-- A run that has once reduced a nonterminal to itself goes on doing so. -/
theorem not_stops_of_idles (hfits : t.Fits g) (h : s.Tracks t symbols toks)
    (hidles : s.Idles g t.parseTable) : ¬ s.Stops t.parseTable := by
  obtain ⟨rules, last, p, head, target, hadv, hlast, hidle⟩ := hidles
  rw [stops_iff_of_advances t.parseTable hadv]
  obtain ⟨symbols', toks', htracks⟩ := tracks_advance hfits hadv h
  apply not_stops_of_spins hfits hidle
  have hturned := turned hfits htracks
  rcases hturn : last.turn t.parseTable with ⟨turn, next⟩
  rw [hturn] at hturned hlast
  subst hlast
  cases hturned with
  | reduce hstates hasks _ _ _ => exact ⟨_, _, _, _, _, htracks, hstates, hasks⟩
  | refuse he => cases he

end Session

/-- Without a step limit, a parse over the table of a grammar ends unless one of its turns reduces a
nonterminal to itself. -/
theorem parse_stops_iff {τ ε ς : Type} [Token τ Symbol] [TokenSource ς ε τ] (g : Grammar)
    (o : BuildOptions) (t : Table) (ht : g.table o = .ok t) (source : ς) (toks : List τ)
    (hsource : Supplies source toks) :
    (∃ budget answer,
      (Session.start t.parseTable source).parse t.parseTable budget = some answer) ↔
    ∀ budget p head target,
      .reduced p head target ∈ (Session.start t.parseTable source).parseTurns t.parseTable budget →
      ∀ n, g.production? p ≠ some ⟨n, [.nonterminal n]⟩ := by
  have hfits := g.table_fits o t ht
  have htracks := Session.tracks_start t hsource
  rw [Session.parse_some_iff t.parseTable _ rfl]
  constructor
  · intro hstops budget p head target hmem n hn
    obtain ⟨rules, last, hadv, hturn⟩ :=
      (Session.mem_parseTurns_iff t.parseTable _ rfl _).mp ⟨budget, hmem⟩
    exact Session.not_stops_of_idles hfits htracks
      ⟨rules, last, p, head, target, hadv, hturn, n, hn⟩ hstops
  · intro hnone
    apply Session.stops_of_not_idles hfits htracks
    intro ⟨rules, last, p, head, target, hadv, hturn, n, hn⟩
    obtain ⟨budget, hmem⟩ :=
      (Session.mem_parseTurns_iff t.parseTable _ rfl _).mpr ⟨rules, last, hadv, hturn⟩
    exact hnone budget p head target hmem n hn

theorem parse_stops_iff_list : ∃ g t, Grammar.define SampleGrammars.list = .ok g ∧
    g.table .thorough = .ok t ∧ ∀ toks : List Terminal, ∃ budget answer,
      (Session.start t.parseTable (TokenTape.ofList toks)).parse t.parseTable budget =
        some answer := by
  obtain ⟨g, t, hg, ht, hrules⟩ := Grammar.exists_table SampleGrammars.list
    (fun g _ => ∀ q ∈ g.productions, q.tail ≠ [.nonterminal q.head]) (by decide +kernel)
  refine ⟨g, t, hg, ht, ?_⟩
  intro toks
  apply (parse_stops_iff g .thorough t ht _ toks (TokenTape.supplies [] toks)).mpr
  intro _ p _ _ _ n hn
  exact hrules _ (List.mem_of_getElem? hn) rfl

/-- A grammar with `A -> A` and a table: nothing begins `C`, and the unreachable `U` has `t` follow
`A`. -/
def idleDeclarations : List Declaration :=
  SampleGrammars.declarations ["y", "t"] ["S", "A", "C", "U"]
    [("S", ["A", "C"]),
     ("A", ["A"]),
     ("A", ["y"]),
     ("U", ["U", "A", "t"])]

/-- The tokens of `y t`. -/
def idleTokens : TokenTape Terminal := TokenTape.ofList [⟨1⟩, ⟨2⟩]

theorem exists_idling : ∃ g t, Grammar.define idleDeclarations = .ok g ∧
    g.table .thorough = .ok t ∧ ¬ (Session.start t.parseTable idleTokens).Stops t.parseTable := by
  obtain ⟨g, t, hg, ht, hidle, hturn⟩ := Grammar.exists_table idleDeclarations
    (fun g t => g.production? ⟨2⟩ = some ⟨⟨2⟩, [.nonterminal ⟨2⟩]⟩ ∧
      .reduced ⟨2⟩ (.nonterminal ⟨2⟩) ⟨3⟩ ∈
        (Session.start t.parseTable idleTokens).parseTurns t.parseTable 3) (by decide +kernel)
  obtain ⟨rules, last, hadv, hlast⟩ :=
    (Session.mem_parseTurns_iff t.parseTable _ rfl _).mp ⟨3, hturn⟩
  exact ⟨g, t, hg, ht, Session.not_stops_of_idles (g.table_fits .thorough t ht)
    (Session.tracks_start t (TokenTape.supplies [] [(⟨1⟩ : Terminal), ⟨2⟩]))
    ⟨rules, last, _, _, _, hadv, hlast, _, hidle⟩⟩

/-- On `y t` a parse without a step limit never ends. -/
theorem parse_never_stops : ∃ g t, Grammar.define idleDeclarations = .ok g ∧
    g.table .thorough = .ok t ∧ ∀ budget,
      (Session.start t.parseTable (TokenTape.ofList [(⟨1⟩ : Terminal), ⟨2⟩])).parse t.parseTable
        budget = none := by
  obtain ⟨g, t, hg, ht, hnever⟩ := exists_idling
  exact ⟨g, t, hg, ht, Session.parse_eq_none_of_not_stops t.parseTable rfl hnever⟩

end ShiftReduce
