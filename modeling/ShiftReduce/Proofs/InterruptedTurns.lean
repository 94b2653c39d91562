import ShiftReduce.Proofs.TokenSymbols

namespace ShiftReduce

/-- A source that may fail or end for the time being, by its answers to the pulls. Behind the last
of them it has ended for good. -/
structure Script (ε τ : Type) where
  answers : List (Option (Except ε τ))

instance (ε τ : Type) : TokenSource (Script ε τ) ε τ where
  pull
    | ⟨[]⟩ => (none, ⟨[]⟩)
    | ⟨answer :: answers⟩ => (answer, ⟨answers⟩)

namespace Script

variable {ε τ : Type}

/-- The token of an answer that is not an interruption. -/
def token? : Option (Except ε τ) → Option τ
  | some (.ok tok) => some tok
  | some (.error _) => none
  | none => none

/-- The tokens to come, whatever comes between them. -/
def tokens (s : Script ε τ) : List τ := s.answers.filterMap token?

theorem tokens_of_pull_ok {s rest : Script ε τ} {tok : τ}
    (h : TokenSource.pull s = (some (.ok tok), rest)) : s.tokens = tok :: rest.tokens := by
  obtain ⟨_ | ⟨answer, answers⟩⟩ := s
  · cases h
  · cases h
    rfl

/-- An interruption takes no token away, and there is one less of them to come unless the source
has ended for good. -/
theorem tokens_of_pull_interrupted {s rest : Script ε τ} {answer : Option (Except ε τ)}
    (h : TokenSource.pull s = (answer, rest)) (hnone : token? answer = none) :
    rest.tokens = s.tokens ∧
      (rest.answers.length < s.answers.length ∨ (s.answers = [] ∧ answer = none)) := by
  obtain ⟨_ | ⟨first, answers⟩⟩ := s
  · cases h
    exact ⟨rfl, Or.inr ⟨rfl, rfl⟩⟩
  · cases h
    refine ⟨?_, Or.inl (Nat.lt_succ_self answers.length)⟩
    simp only [tokens, List.filterMap_cons, hnone]

end Script

/-- The failures after which the parser can be asked again: those of the source and that of the
step limit. -/
def ParseFailure.Interrupts {ε : Type} : ParseFailure ε → Prop
  | .lexer _ => True
  | .unexpectedEnd => True
  | .stepLimitExceeded _ => True
  | .table _ => False
  | .rejected _ => False
  | .missingGoto => False
  | .finished => False
  | .emptyStateStack => False
  | .emptyItemStack => False

theorem ParseFailure.Internal.not_interrupts {ε : Type} {e : ParseFailure ε} (h : e.Internal) :
    ¬ e.Interrupts := by
  cases e with
  | table | missingGoto | emptyStateStack | emptyItemStack => exact id
  | lexer | rejected | unexpectedEnd | stepLimitExceeded | finished => exact False.elim h

namespace Session

variable {σ ι ρ τ ε ς ς' : Type}

/-- The session with another source and with other bookkeeping of its turns. -/
def redirect (s : Session σ ι τ ς) (steps : Nat) (stepLimit : Option Nat) (source : ς') :
    Session σ ι τ ς' :=
  ⟨{ s.parser with steps, stepLimit }, source, s.args⟩

theorem reduce_redirect (T : ParseTable σ ι ρ) (s : Session σ ι τ ς) (steps : Nat)
    (stepLimit : Option Nat) (source : ς') (rule : ρ) (head : ι) (size : Nat) :
    (s.redirect steps stepLimit source).reduce (ε := ε) T rule head size =
      ((s.reduce (ε := ε) T rule head size).1,
        (s.reduce (ε := ε) T rule head size).2.redirect steps stepLimit source) := by
  have hstates : (s.redirect steps stepLimit source).parser.states = s.parser.states := rfl
  have hitems : (s.redirect steps stepLimit source).parser.items = s.parser.items := rfl
  unfold reduce
  rw [hstates, hitems]
  generalize unwind (ε := ε) size s.parser.states s.parser.items [] = unwound
  obtain ⟨_ | e, _ | ⟨uncovered, states⟩, items, args⟩ := unwound
  · rfl
  · simp only
    split
    · rfl
    · rfl
    · rfl
  · rfl
  · rfl

/-- What is done with a lookahead token depends neither on the source nor on the count of turns. -/
theorem respond_redirect [Token τ ι] (T : ParseTable σ ι ρ) (s : Session σ ι τ ς) (steps : Nat)
    (stepLimit : Option Nat) (source : ς') (tok : τ) (answer : Except LookupError (Move σ ι ρ)) :
    (s.redirect steps stepLimit source).respond (ε := ε) T tok answer =
      ((s.respond (ε := ε) T tok answer).1,
        (s.respond (ε := ε) T tok answer).2.redirect steps stepLimit source) := by
  cases answer with
  | error e => rfl
  | ok move =>
    cases move with
    | shift target => rfl
    | reduce rule head size => exact s.reduce_redirect T steps stepLimit source rule head size
    | goto target => rfl
    | error => rfl
    | accept =>
      have hitems : (s.redirect steps stepLimit source).parser.items = s.parser.items := rfl
      unfold respond accept
      rw [hitems]
      cases s.parser.items with
      | nil => rfl
      | cons item items => rfl

variable [TokenSource ς ε τ]

/-- The two sessions have come equally far. The first has an uninterrupted source of what is still
to come for the second, and no step limit. -/
def Mirrors (plain : Session σ ι τ ς) (s : Session σ ι τ (Script ε τ)) : Prop :=
  ∃ steps source, plain = s.redirect steps none source ∧ Supplies source s.source.tokens

theorem mirrors_start (T : ParseTable σ ι ρ) {source : ς} {script : Script ε τ}
    (h : Supplies source script.tokens) : Mirrors (start T source) (start T script) :=
  ⟨0, source, rfl, h⟩

/-- The tokens that are still to be shifted. -/
def ahead (s : Session σ ι τ (Script ε τ)) : List τ :=
  s.parser.lookahead.toList ++ s.source.tokens

theorem Mirrors.awaits {plain : Session σ ι τ ς} {s : Session σ ι τ (Script ε τ)}
    (h : Mirrors plain s) : plain.Awaits s.ahead := by
  obtain ⟨steps, source, rfl, hsource⟩ := h
  exact ⟨s.source.tokens, hsource, rfl⟩

theorem ahead_of_peek_ok {s : Session σ ι τ (Script ε τ)} {tok : τ} {source : Script ε τ}
    (h : s.peek = (.ok tok, s.primed tok source)) : s.ahead = tok :: source.tokens := by
  cases hlook : s.parser.lookahead with
  | some first =>
    rw [s.peek_of_lookahead first hlook, Prod.mk.injEq] at h
    obtain ⟨htok, hsame⟩ := h
    cases htok
    have hsource : s.source = source := congrArg Session.source hsame
    rw [ahead, hlook, hsource, Option.toList_some, List.singleton_append]
  | none =>
    unfold peek at h
    simp only [hlook] at h
    rw [ahead, hlook, Option.toList_none, List.nil_append]
    rcases hpull : TokenSource.pull s.source with ⟨_ | ⟨x | first⟩, rest⟩
    · rw [hpull] at h
      cases h
    · rw [hpull] at h
      cases h
    · rw [hpull, Prod.mk.injEq] at h
      obtain ⟨htok, hsame⟩ := h
      cases htok
      have hsource : rest = source := congrArg Session.source hsame
      rw [← hsource]
      exact Script.tokens_of_pull_ok hpull

/-- Where the source gives no token, none is held, and those to come stay. -/
theorem ahead_of_peek_error {s : Session σ ι τ (Script ε τ)} {e : ParseFailure ε}
    {source : Script ε τ} (h : s.peek = (.error e, { s with source })) :
    s.parser.lookahead = none ∧ source.tokens = s.source.tokens ∧
      (source.answers.length < s.source.answers.length ∨
        (e = .unexpectedEnd ∧ s.source.answers = [])) := by
  cases hlook : s.parser.lookahead with
  | some first =>
    rw [s.peek_of_lookahead first hlook] at h
    cases h
  | none =>
    unfold peek at h
    simp only [hlook] at h
    refine ⟨rfl, ?_⟩
    rcases hpull : TokenSource.pull s.source with ⟨_ | ⟨x | first⟩, rest⟩
    · rw [hpull, Prod.mk.injEq] at h
      obtain ⟨he, hsame⟩ := h
      cases he
      have hsource : rest = source := congrArg Session.source hsame
      rw [← hsource]
      obtain ⟨htokens, hfewer | ⟨hnil, -⟩⟩ := Script.tokens_of_pull_interrupted hpull rfl
      · exact ⟨htokens, Or.inl hfewer⟩
      · exact ⟨htokens, Or.inr ⟨rfl, hnil⟩⟩
    · rw [hpull, Prod.mk.injEq] at h
      obtain ⟨he, hsame⟩ := h
      cases he
      have hsource : rest = source := congrArg Session.source hsame
      rw [← hsource]
      obtain ⟨htokens, hfewer | ⟨-, hnone⟩⟩ := Script.tokens_of_pull_interrupted hpull rfl
      · exact ⟨htokens, Or.inl hfewer⟩
      · cases hnone
    · rw [hpull] at h
      cases h

variable [Token τ ι] (T : ParseTable σ ι ρ)

/-- A turn shifts the first of the tokens ahead, or leaves all of them and ends the call. -/
theorem ahead_turn (s : Session σ ι τ (Script ε τ)) :
    ((∃ tok, s.ahead = tok :: (s.turn T).2.ahead) ∧
      (s.turn T).2.parser.position = s.parser.position + 1) ∨
    ((s.turn T).2.ahead = s.ahead ∧ (s.turn T).2.parser.position = s.parser.position ∧
      (s.turn T).1.result? ≠ none) := by
  have harises := arises T s
  generalize s.turn T = result at harises ⊢
  cases harises with
  | exceeded => exact Or.inr ⟨rfl, rfl, Option.some_ne_none _⟩
  | stateless => exact Or.inr ⟨rfl, rfl, Option.some_ne_none _⟩
  | @tokenless e rest _ hpeek =>
    obtain ⟨-, htokens, -⟩ := ahead_of_peek_error (s := s.counted) hpeek
    exact Or.inr ⟨congrArg (s.parser.lookahead.toList ++ ·) htokens, rfl, Option.some_ne_none _⟩
  | @answered current below tok rest _ _ hpeek =>
    have hahead : s.ahead = tok :: rest.tokens := ahead_of_peek_ok (s := s.counted) hpeek
    have heffect := effect_respond (ε := ε) T (s.counted.primed tok rest) tok
      (T.move current (Token.symbol tok))
    generalize (s.counted.primed tok rest).respond T tok (T.move current (Token.symbol tok)) =
      result at heffect
    cases heffect with
    | shift => exact Or.inl ⟨⟨tok, hahead⟩, rfl⟩
    | reduce | accept | reject | fail =>
      exact Or.inr ⟨hahead.symm, rfl, Option.some_ne_none _⟩

/-- A turn of the interrupted session is the turn of the other, or an interruption, for which the
other need not move. -/
inductive Follows (plain : Session σ ι τ ς) (s : Session σ ι τ (Script ε τ)) :
    Turn σ ι ρ ε × Session σ ι τ (Script ε τ) → Prop
  | same {turn : Turn σ ι ρ ε} {next : Session σ ι τ (Script ε τ)} {plain' : Session σ ι τ ς} :
      plain.turn T = (turn, plain') → Mirrors plain' next → (∀ e, turn = .failed e → e.Internal) →
      Follows plain s (turn, next)
  | exceeded {limit : Nat} : s.counted.parser.exceededLimit = some limit →
      Mirrors plain s.counted → Follows plain s (.failed (.stepLimitExceeded limit), s.counted)
  | interrupted {e : ParseFailure ε} {next : Session σ ι τ (Script ε τ)} :
      e = .unexpectedEnd ∨ (∃ x, e = .lexer x) → Mirrors plain next →
      next.source.answers.length < s.source.answers.length ∨
        (e = .unexpectedEnd ∧ next.source.tokens = []) →
      (next.source.tokens = [] → ∃ plain', plain.turn T = (.failed .unexpectedEnd, plain') ∧
        plain'.args = next.args ∧ plain'.parser.position = next.parser.position) →
      Follows plain s (.failed e, next)

omit [TokenSource ς ε τ] in
theorem source_respond (s : Session σ ι τ ς) (tok : τ)
    (answer : Except LookupError (Move σ ι ρ)) :
    (s.respond (ε := ε) T tok answer).2.source = s.source ∧
      ∀ e, (s.respond (ε := ε) T tok answer).1 = .failed e → e.Internal := by
  have heffect := effect_respond (ε := ε) T s tok answer
  generalize s.respond (ε := ε) T tok answer = result at heffect
  cases heffect with
  | shift | reduce | accept | reject => exact ⟨rfl, fun e he => by cases he⟩
  | fail hinternal =>
    refine ⟨rfl, ?_⟩
    intro e he
    cases he
    exact hinternal

theorem turn_of_stateless (s : Session σ ι τ ς) (hwithin : s.counted.parser.exceededLimit = none)
    (hstates : s.parser.states = []) : s.turn T = (.failed .emptyStateStack, s.counted) := by
  have hstates' : s.counted.parser.states = [] := hstates
  rw [turn_eq, hwithin, hstates']

theorem exists_state_of_tokenless (s next : Session σ ι τ ς) (e : ParseFailure ε)
    (hwithin : s.counted.parser.exceededLimit = none)
    (he : e = .unexpectedEnd ∨ ∃ x, e = .lexer x) (hturn : s.turn T = (.failed e, next)) :
    ∃ current below, s.parser.states = current :: below := by
  cases hstates : s.parser.states with
  | nil =>
    rw [s.turn_of_stateless T hwithin hstates] at hturn
    cases hturn
    rcases he with he | ⟨x, he⟩
    · cases he
    · cases he
  | cons current below => exact ⟨current, below, rfl⟩

theorem follows {plain : Session σ ι τ ς} {s : Session σ ι τ (Script ε τ)} (h : Mirrors plain s) :
    Follows T plain s (s.turn T) := by
  have hawaits := h.awaits
  obtain ⟨steps, source, rfl, hsource⟩ := h
  have hunlimited : (s.redirect steps none source).counted.parser.exceededLimit = none :=
    exceededLimit_counted _ rfl
  have harises := arises T s
  generalize hturn : s.turn T = result at harises
  cases harises with
  | exceeded hexceeded => exact .exceeded hexceeded ⟨steps, source, rfl, hsource⟩
  | stateless _ hstates =>
    have hplain := turn_of_stateless T (s.redirect steps none source) hunlimited hstates
    refine .same hplain ⟨steps + 1, source, rfl, hsource⟩ ?_
    intro e he
    cases he
    trivial
  | @tokenless e rest hwithin hpeek he =>
    obtain ⟨hlook, htokens, hfewer⟩ := ahead_of_peek_error (s := s.counted) hpeek
    have htokens' : rest.tokens = s.source.tokens := htokens
    refine .interrupted he ⟨steps, source, rfl, ?_⟩ ?_ ?_
    · rw [htokens']
      exact hsource
    · rcases hfewer with hfewer | ⟨rfl, hnil⟩
      · exact Or.inl hfewer
      · refine Or.inr ⟨rfl, ?_⟩
        rw [htokens, Script.tokens, hnil]
        rfl
    · intro hnil
      have hahead : s.ahead = [] := by
        have hnone : s.parser.lookahead = none := hlook
        rw [ahead, hnone, ← htokens']
        exact hnil
      rw [hahead] at hawaits
      obtain ⟨current, below, hstates⟩ := s.exists_state_of_tokenless T _ e hwithin he hturn
      obtain ⟨source', hplain⟩ := turn_of_awaits_nil T _ current below hunlimited hstates hawaits
      exact ⟨_, hplain, rfl, rfl⟩
  | @answered current below tok rest _ hstates hpeek =>
    have hahead : s.ahead = tok :: rest.tokens := ahead_of_peek_ok (s := s.counted) hpeek
    rw [hahead] at hawaits
    obtain ⟨source', hsource', hplain⟩ :=
      turn_of_awaits T _ current below tok rest.tokens hunlimited hstates hawaits
    have hprimed : (s.redirect steps none source).counted.primed tok source' =
        (s.counted.primed tok rest).redirect (steps + 1) none source' := rfl
    rw [hprimed, respond_redirect] at hplain
    obtain ⟨hrest, hinternal⟩ := source_respond (ε := ε) T (s.counted.primed tok rest) tok
      (T.move current (Token.symbol tok))
    generalize (s.counted.primed tok rest).respond T tok (T.move current (Token.symbol tok)) =
      result at hplain hrest hinternal
    refine .same hplain ⟨steps + 1, source', rfl, ?_⟩ hinternal
    rw [hrest]
    exact hsource'

end Session
end ShiftReduce
