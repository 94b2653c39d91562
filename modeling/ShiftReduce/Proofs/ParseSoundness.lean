import ShiftReduce.Proofs.Derivations
import ShiftReduce.Proofs.TableSessions
import ShiftReduce.SampleGrammars

namespace ShiftReduce
namespace Session

variable {τ ε ς : Type} [Token τ Symbol] [TokenSource ς ε τ]

/-- The session has shifted the word and made the reductions; `all` are the symbols of the tokens
from the start on. -/
structure Accounts (g : Grammar) (t : Table) (all : List Symbol) (s : Session StateId Symbol τ ς)
    (rules : List ProductionId) (symbols : List Symbol) (word : List Terminal)
    (toks : List τ) : Prop where
  tracks : s.Tracks t symbols toks
  tokens : all = word.map .terminal ++ toks.map Token.symbol
  position : s.parser.position = word.length
  declared : ∀ u ∈ word, g.contains (.terminal u) ∧ u ≠ .endOfInput
  /-- No part of what is shifted depends on what is not. -/
  derives : ∀ after, g.Rightmost (symbols.reverse ++ after.map .terminal) rules.reverse
    (word ++ after)

variable {g : Grammar} {t : Table} {all : List Symbol} {s next last : Session StateId Symbol τ ς}
  {rules more : List ProductionId} {symbols : List Symbol} {word : List Terminal} {tok : τ}
  {toks : List τ}

theorem accounts_start {source : ς} (h : Supplies source toks) :
    (start t.parseTable source).Accounts g t (toks.map Token.symbol) [] [] [] toks := by
  refine ⟨tracks_start t h, rfl, rfl, ?_, ?_⟩
  · intro u hu
    exact False.elim (List.not_mem_nil hu)
  · intro after
    exact .done after

theorem accounts_shift {u : Terminal} (h : s.Accounts g t all rules symbols word (tok :: toks))
    (hu : Token.symbol tok = Symbol.terminal u) (hne : u ≠ .endOfInput)
    (hdeclared : g.contains (.terminal u)) (hnext : next.Tracks t (.terminal u :: symbols) toks)
    (hposition : next.parser.position = s.parser.position + 1) :
    next.Accounts g t all rules (.terminal u :: symbols) (word ++ [u]) toks := by
  refine ⟨hnext, ?_, ?_, ?_, ?_⟩
  · calc
      all = word.map .terminal ++ Token.symbol tok :: toks.map Token.symbol := h.tokens
      _ = (word ++ [u]).map .terminal ++ toks.map Token.symbol := by
        rw [hu]
        simp
  · rw [hposition, h.position, List.length_append, List.length_singleton]
  · intro v hv
    rcases List.mem_append.mp hv with hv | hv
    · exact h.declared v hv
    · rw [List.mem_singleton] at hv
      rw [hv]
      exact ⟨hdeclared, hne⟩
  · intro after
    have hshifted := h.derives (u :: after)
    simpa using hshifted

theorem accounts_reduce {rest : List Symbol} {p : ProductionId} {q : Production}
    (h : s.Accounts g t all rules (q.tail.reverse ++ rest) word (tok :: toks))
    (hq : g.production? p = some q) (hp : p ≠ .augmented)
    (hnext : next.Tracks t (.nonterminal q.head :: rest) (tok :: toks))
    (hposition : next.parser.position = s.parser.position) :
    next.Accounts g t all (rules ++ [p]) (.nonterminal q.head :: rest) word (tok :: toks) := by
  refine ⟨hnext, h.tokens, hposition.trans h.position, h.declared, ?_⟩
  intro after
  have htail := h.derives after
  rw [List.reverse_append, List.reverse_reverse] at htail
  have hstep := Grammar.Rightmost.step hp hq htail
  simpa using hstep

/-- Turns that shift or reduce keep the account. -/
theorem accounts_advance (hfits : t.Fits g) (h : Advances t.parseTable s more last)
    (hs : s.Accounts g t all rules symbols word toks) :
    ∃ symbols' word' toks', last.Accounts g t all (rules ++ more) symbols' word' toks' := by
  induction h generalizing rules symbols word toks with
  | refl =>
    rw [List.append_nil]
    exact ⟨symbols, word, toks, hs⟩
  | shift hturn _ ih =>
    have hturned := turned hfits hs.tracks
    rw [hturn] at hturned
    cases hturned with
    | shift hu hne hdeclared hnext hposition =>
      exact ih (accounts_shift hs hu hne hdeclared hnext hposition)
    | refuse he => cases he
  | @reduce _ _ _ more p _ _ hturn _ ih =>
    have hturned := turned hfits hs.tracks
    rw [hturn] at hturned
    cases hturned with
    | reduce _ hasks hq hnext hposition =>
      obtain ⟨_, _, _, -, -, hp, -⟩ := g.asks_reduce hasks
      have hmore := ih (accounts_reduce hs hq hp hnext hposition)
      rwa [List.append_assoc, List.singleton_append] at hmore
    | refuse he => cases he

end Session

/-- A parse that succeeds stands behind a word and the end of input, and its reductions read
backwards are a rightmost derivation of the word. -/
theorem parse_sound {τ ε ς : Type} [Token τ Symbol] [TokenSource ς ε τ] (g : Grammar)
    (o : BuildOptions) (t : Table) (ht : g.table o = .ok t) (source : ς) (toks : List τ)
    (hsource : Supplies source toks) (budget : Nat) (rules : List ProductionId)
    (final : Session StateId Symbol τ ς)
    (h : (Session.start t.parseTable source).parse t.parseTable budget =
      some (.ok rules, final)) :
    ∃ word rest, toks.map Token.symbol = word.map Symbol.terminal ++ .endOfInput :: rest ∧
      (∀ u ∈ word, g.contains (.terminal u) ∧ u ≠ .endOfInput) ∧
      final.parser.position = word.length ∧
      g.Rightmost [.nonterminal g.root] rules.reverse word := by
  have hfits := g.table_fits o t ht
  obtain ⟨last, next, hadv, hturn, hfinal⟩ :=
    (Session.parse_ok_iff t.parseTable _ final rules rfl).mp ⟨budget, h⟩
  obtain ⟨symbols, word, rest, hlast⟩ :=
    Session.accounts_advance hfits hadv (Session.accounts_start (g := g) hsource)
  have hturned := Session.turned hfits hlast.tracks
  rw [hturn] at hturned
  cases hturned with
  | @accept tok rest _ hend hposition =>
    refine ⟨word, rest.map Token.symbol, ?_, hlast.declared, ?_, ?_⟩
    · rw [hlast.tokens, List.map_cons, hend]
    · rw [hfinal, ← hlast.position]
      exact hposition
    · have hroot := hlast.derives []
      simpa using hroot
  | refuse he => cases he

theorem parse_sound_list : ∃ g t final, Grammar.define SampleGrammars.list = .ok g ∧
    g.table .thorough = .ok t ∧
    (Session.start t.parseTable
      (TokenTape.ofList [(⟨1⟩ : Terminal), ⟨2⟩, ⟨1⟩, .endOfInput])).parse t.parseTable 20 =
        some (.ok [⟨3⟩, ⟨2⟩, ⟨1⟩], final) ∧
    ∃ word rest, [(⟨1⟩ : Terminal), ⟨2⟩, ⟨1⟩, .endOfInput].map Token.symbol =
        word.map Symbol.terminal ++ .endOfInput :: rest ∧
      (∀ u ∈ word, g.contains (.terminal u) ∧ u ≠ .endOfInput) ∧
      final.parser.position = word.length ∧
      g.Rightmost [.nonterminal g.root] [⟨1⟩, ⟨2⟩, ⟨3⟩] word := by
  obtain ⟨g, t, hg, ht, hrun⟩ := Grammar.exists_table SampleGrammars.list
    (fun _ t => ((Session.start t.parseTable
      (TokenTape.ofList [(⟨1⟩ : Terminal), ⟨2⟩, ⟨1⟩, .endOfInput])).parse t.parseTable 20).map
        (fun answer => answer.1.toOption) = some (some [⟨3⟩, ⟨2⟩, ⟨1⟩])) (by decide +kernel)
  obtain ⟨⟨result, final⟩, hparse, hresult⟩ := Option.map_eq_some_iff.mp hrun
  cases result with
  | error e => cases hresult
  | ok rules =>
    cases hresult
    exact ⟨g, t, final, hg, ht, hparse,
      parse_sound g .thorough t ht _ _ (TokenTape.supplies [] _) 20 _ final hparse⟩

end ShiftReduce
