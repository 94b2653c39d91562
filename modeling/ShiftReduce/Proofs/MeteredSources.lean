import ShiftReduce.Proofs.CallReports
import ShiftReduce.Proofs.InterruptedTurns

namespace ShiftReduce

/-- A source with the tokens that were pulled from it, the latest one last. -/
structure Metered (ς τ : Type) where
  source : ς
  given : List τ

instance {ς ε τ : Type} [TokenSource ς ε τ] : TokenSource (Metered ς τ) ε τ where
  pull s :=
    match TokenSource.pull s.source with
    | (some (.ok tok), source) => (some (.ok tok), ⟨source, s.given ++ [tok]⟩)
    | (answer, source) => (answer, ⟨source, s.given⟩)

namespace Session

variable {σ ι ρ τ ε ς : Type}

/-- The session with the source alone. -/
def bare (s : Session σ ι τ (Metered ς τ)) : Session σ ι τ ς := ⟨s.parser, s.source.source, s.args⟩

variable [TokenSource ς ε τ]

/-- A lookahead token is the last one given, whether it was held before or is pulled now. -/
theorem given_of_peek_ok {s : Session σ ι τ (Metered ς τ)} {tok : τ} {source : Metered ς τ}
    {read : List τ} (h : s.peek = (.ok tok, s.primed tok source))
    (hgiven : s.source.given = read ++ s.parser.lookahead.toList) :
    source.given = read ++ [tok] := by
  cases hlook : s.parser.lookahead with
  | some first =>
    rw [s.peek_of_lookahead first hlook, Prod.mk.injEq] at h
    obtain ⟨htok, hsame⟩ := h
    cases htok
    have hsource : s.source = source := congrArg Session.source hsame
    rw [← hsource, hgiven, hlook, Option.toList_some]
  | none =>
    rw [hlook, Option.toList_none, List.append_nil] at hgiven
    unfold peek at h
    simp only [hlook, TokenSource.pull] at h
    rcases hpull : TokenSource.pull s.source.source with ⟨_ | ⟨x | first⟩, rest⟩
    · rw [hpull] at h
      cases h
    · rw [hpull] at h
      cases h
    · rw [hpull, Prod.mk.injEq] at h
      obtain ⟨htok, hsame⟩ := h
      cases htok
      have hsource : Metered.mk rest (s.source.given ++ [tok]) = source :=
        congrArg Session.source hsame
      rw [← hsource, hgiven]

/-- Where no token comes, none is added to the account. -/
theorem given_of_peek_error {s : Session σ ι τ (Metered ς τ)} {e : ParseFailure ε}
    {source : Metered ς τ} (h : s.peek = (.error e, { s with source })) :
    source.given = s.source.given := by
  cases hlook : s.parser.lookahead with
  | some first =>
    rw [s.peek_of_lookahead first hlook] at h
    cases h
  | none =>
    unfold peek at h
    simp only [hlook, TokenSource.pull] at h
    rcases hpull : TokenSource.pull s.source.source with ⟨_ | ⟨x | first⟩, rest⟩
    · rw [hpull, Prod.mk.injEq] at h
      have hsource : Metered.mk rest s.source.given = source := congrArg Session.source h.2
      rw [← hsource]
    · rw [hpull, Prod.mk.injEq] at h
      have hsource : Metered.mk rest s.source.given = source := congrArg Session.source h.2
      rw [← hsource]
    · rw [hpull] at h
      cases h

theorem peek_bare (s : Session σ ι τ (Metered ς τ)) :
    s.bare.peek = (s.peek.1, s.peek.2.bare) := by
  have hlookahead : s.bare.parser.lookahead = s.parser.lookahead := rfl
  have hsource : s.bare.source = s.source.source := rfl
  cases hlook : s.parser.lookahead with
  | some tok =>
    rw [s.peek_of_lookahead tok hlook, s.bare.peek_of_lookahead tok (hlookahead.trans hlook)]
  | none =>
    unfold peek
    simp only [hlookahead, hsource, hlook, TokenSource.pull]
    rcases TokenSource.pull s.source.source with ⟨_ | ⟨x | tok⟩, rest⟩
    · rfl
    · rfl
    · rfl

variable [Token τ ι] (T : ParseTable σ ι ρ)

omit [TokenSource ς ε τ] in
theorem respond_bare (s : Session σ ι τ (Metered ς τ)) (tok : τ)
    (answer : Except LookupError (Move σ ι ρ)) :
    s.bare.respond (ε := ε) T tok answer =
      ((s.respond (ε := ε) T tok answer).1, (s.respond (ε := ε) T tok answer).2.bare) := by
  have hredirect := s.respond_redirect (ε := ε) T s.parser.steps s.parser.stepLimit
    s.source.source tok answer
  have heffect := effect_respond (ε := ε) T s tok answer
  generalize s.respond (ε := ε) T tok answer = result at hredirect heffect
  cases heffect with
  | shift | reduce | accept | reject | fail => exact hredirect

theorem act_bare (s : Session σ ι τ (Metered ς τ)) (current : σ) :
    s.bare.act T current = ((s.act T current).1, (s.act T current).2.bare) := by
  have hpeek' := s.peek_bare
  rcases s.peek_cases with ⟨tok, source, hpeek⟩ | ⟨e, source, hpeek, -⟩
  · rw [hpeek] at hpeek'
    rw [act_of_peek T _ _ current tok hpeek, act_of_peek T _ _ current tok hpeek']
    exact respond_bare T _ tok _
  · rw [hpeek] at hpeek'
    unfold act
    rw [hpeek, hpeek']

/-- A turn with the account is the turn without it. -/
theorem turn_bare (s : Session σ ι τ (Metered ς τ)) :
    s.bare.turn T = ((s.turn T).1, (s.turn T).2.bare) := by
  have hcounted : s.bare.counted = s.counted.bare := rfl
  have hparser : s.counted.bare.parser = s.counted.parser := rfl
  rw [turn_eq, turn_eq, hcounted, hparser]
  split
  · rfl
  · split
    · rfl
    · exact s.counted.act_bare T _

theorem toOutcome_bare (budget : Nat) (s : Session σ ι τ (Metered ς τ)) :
    s.bare.toOutcome T budget =
      (s.toOutcome T budget).map fun (result, next) => (result, next.bare) := by
  induction budget generalizing s with
  | zero => rfl
  | succ budget ih =>
    have hbare := s.turn_bare T
    rcases hturn : s.turn T with ⟨turn, next⟩
    rw [hturn] at hbare
    cases hresult : turn.result? with
    | some result =>
      rw [toOutcome_of_some T hturn hresult, toOutcome_of_some T hbare hresult]
      rfl
    | none =>
      rw [toOutcome_of_none T hturn hresult, toOutcome_of_none T hbare hresult]
      exact ih next

theorem nextOutcome_bare (budget : Nat) (s : Session σ ι τ (Metered ς τ)) :
    s.bare.nextOutcome T budget =
      (s.nextOutcome T budget).map fun (result, next) => (result, next.bare) := by
  have haccepted : s.bare.parser.accepted = s.parser.accepted := rfl
  unfold nextOutcome
  rw [haccepted]
  split
  · rfl
  · exact s.toOutcome_bare T budget

end Session
end ShiftReduce
