import ShiftReduce.Proofs.CallSequences

namespace ShiftReduce

namespace Turn

variable {σ ι ρ ε : Type}

/-- The rules reduced since the last shift; `rules` are those reduced since then before the turns
begin. -/
def reducedSinceShift (rules : List ρ) : List (Turn σ ι ρ ε) → List ρ
  | [] => rules
  | .shifted .. :: turns => reducedSinceShift [] turns
  | .reduced rule .. :: turns => reducedSinceShift (rules ++ [rule]) turns
  | .accepted :: turns => reducedSinceShift rules turns
  | .rejected .. :: turns => reducedSinceShift rules turns
  | .failed _ :: turns => reducedSinceShift rules turns

theorem reducedSinceShift_last {turn : Turn σ ι ρ ε} (h : turn.isLast = true) (rules : List ρ) :
    reducedSinceShift rules [turn] = rules := by
  cases turn with
  | shifted | reduced => cases h
  | accepted | rejected | failed => rfl

end Turn

namespace Session

variable {σ ι ρ τ ε ς : Type} [Token τ ι] [TokenSource ς ε τ] (T : ParseTable σ ι ρ)

/-- From one session to another by reductions alone. -/
inductive Reduces : Session σ ι τ ς → List ρ → Session σ ι τ ς → Prop
  | refl (s : Session σ ι τ ς) : Reduces s [] s
  | reduce {s next last : Session σ ι τ ς} {rules : List ρ} {rule : ρ} {head : ι} {target : σ} :
      s.turn T = (.reduced rule head target, next) → Reduces next rules last →
      Reduces s (rule :: rules) last

/-- The second session is the first or comes from it with a shift at the end. -/
inductive Settles (s : Session σ ι τ ς) : Session σ ι τ ς → Prop
  | start : Settles s s
  | shift {before next : Session σ ι τ ς} {rules : List ρ} {X : ι} {position : Nat} {target : σ} :
      Advances T s rules before → before.turn T = (.shifted X position target, next) →
      Settles s next

theorem Reduces.advances {s last : Session σ ι τ ς} {rules : List ρ} (h : Reduces T s rules last) :
    Advances T s rules last := by
  induction h with
  | refl => exact .refl _
  | reduce hturn _ ih => exact .reduce hturn ih

theorem Reduces.append {s before last : Session σ ι τ ς} {rules : List ρ} {rule : ρ} {head : ι}
    {target : σ} (h : Reduces T s rules before)
    (hturn : before.turn T = (.reduced rule head target, last)) :
    Reduces T s (rules ++ [rule]) last := by
  induction h with
  | refl => exact .reduce hturn (.refl last)
  | reduce hfirst _ ih => exact .reduce hfirst (ih hturn)

theorem Settles.advances {s last : Session σ ι τ ς} (h : Settles T s last) :
    ∃ rules, Advances T s rules last := by
  cases h with
  | start => exact ⟨[], .refl s⟩
  | shift hadv hturn => exact ⟨_, hadv.trans T (.shift hturn (.refl last))⟩

/-- A run that fails makes its last reductions after its last shift, or after no shift at all. -/
theorem settles_of_toAcceptance (budget : Nat) (earlier : List ρ)
    {first settled s final : Session σ ι τ ς} {rules : List ρ} {e : ParseFailure ε}
    (hsettled : Settles T first settled) (hreduces : Reduces T settled rules s)
    (h : toAcceptance T budget earlier s = some (.error e, final)) :
    ∃ settled last turn, Settles T first settled ∧
      Reduces T settled
        (Turn.reducedSinceShift rules (turnsUntil T Turn.isLast budget s)) last ∧
      last.turn T = (turn, final) ∧ turn.result? = some (.error e) := by
  induction budget generalizing earlier settled s rules with
  | zero => cases h
  | succ budget ih =>
    rcases hturn : s.turn T with ⟨turn, next⟩
    rw [toAcceptance, hturn] at h
    cases hlast : turn.isLast with
    | true =>
      rw [turnsUntil_last T hturn hlast, Turn.reducedSinceShift_last hlast]
      refine ⟨settled, s, turn, hsettled, hreduces, ?_⟩
      cases turn with
      | shifted | reduced => cases hlast
      | accepted => cases h
      | rejected | failed =>
        cases h
        exact ⟨hturn, rfl⟩
    | false =>
      rw [turnsUntil_more T hturn hlast]
      cases turn with
      | shifted =>
        obtain ⟨all, hadv⟩ := hsettled.advances
        exact ih earlier (.shift (hadv.trans T hreduces.advances) hturn) (.refl next) h
      | reduced rule => exact ih (rule :: earlier) hsettled (hreduces.append T hturn) h
      | accepted | rejected | failed => cases hlast

theorem states_of_rejected {s next : Session σ ι τ ς} {X : ι} {position : Nat}
    (hturn : s.turn T = (.rejected X position, next)) : next.parser.states = s.parser.states := by
  have harises := arises T s
  rw [hturn] at harises
  generalize hresult : (Turn.rejected X position, next) = result at harises
  cases harises with
  | exceeded | stateless => cases hresult
  | tokenless => cases hresult
  | @answered current below tok source =>
    have heffect := effect_respond (ε := ε) T (s.counted.primed tok source) tok
      (T.move current (Token.symbol tok))
    rw [← hresult] at heffect
    cases heffect with
    | reject => rfl

end Session
end ShiftReduce
