import ShiftReduce.Proofs.ParserRuns

namespace ShiftReduce

/-- What a call tells its caller: the outcome or the failure, the items of the outcome, and how many
tokens were shifted. -/
structure Report (ι ρ τ ε : Type) where
  result : Except (ParseFailure ε) (Outcome ρ)
  args : Args τ ι
  position : Nat

namespace Session

variable {σ ι ρ τ ε ς : Type} [Token τ ι] [TokenSource ς ε τ] (T : ParseTable σ ι ρ)

/-- A call for the next outcome ends with this report and leaves this session. -/
def Reports (s : Session σ ι τ ς) (report : Report ι ρ τ ε) (next : Session σ ι τ ς) : Prop :=
  ∃ budget, s.nextOutcome T budget = some (report.result, next) ∧ report.args = next.args ∧
    report.position = next.parser.position

/-- Calls that report one outcome after another. -/
inductive Plays : Session σ ι τ ς → List (Report ι ρ τ ε) → Session σ ι τ ς → Prop
  | refl (s : Session σ ι τ ς) : Plays s [] s
  | outcome {s next last : Session σ ι τ ς} {report : Report ι ρ τ ε}
      {reports : List (Report ι ρ τ ε)} {outcome : Outcome ρ} :
      s.Reports T report next → report.result = .ok outcome → Plays next reports last →
      Plays s (report :: reports) last

/-- The turn that brings an outcome or a failure ends the call. -/
theorem toOutcome_of_some {s next : Session σ ι τ ς} {turn : Turn σ ι ρ ε}
    {result : Except (ParseFailure ε) (Outcome ρ)} (hturn : s.turn T = (turn, next))
    (hresult : turn.result? = some result) (budget : Nat) :
    s.toOutcome T (budget + 1) = some (result, next) := by
  simp only [toOutcome, hturn, hresult]

/-- After a turn that shifts, the call goes on from where it leads. -/
theorem toOutcome_of_none {s next : Session σ ι τ ς} {turn : Turn σ ι ρ ε}
    (hturn : s.turn T = (turn, next)) (hresult : turn.result? = none) (budget : Nat) :
    s.toOutcome T (budget + 1) = next.toOutcome T budget := by
  simp only [toOutcome, hturn, hresult]

/-- More turns than a call needs do not change it. -/
theorem toOutcome_add (budget more : Nat) (s : Session σ ι τ ς)
    (answer : Except (ParseFailure ε) (Outcome ρ) × Session σ ι τ ς)
    (h : toOutcome T budget s = some answer) : toOutcome T (budget + more) s = some answer := by
  induction budget generalizing s with
  | zero => cases h
  | succ budget ih =>
    rw [Nat.succ_add]
    rcases hturn : s.turn T with ⟨turn, next⟩
    cases hresult : turn.result? with
    | some result =>
      rw [toOutcome_of_some T hturn hresult] at h ⊢
      exact h
    | none =>
      rw [toOutcome_of_none T hturn hresult] at h ⊢
      exact ih next h

/-- A call that shifts first goes on as a call from where the shifts lead. -/
theorem toOutcome_of_advances {s last : Session σ ι τ ς} (h : Advances T s [] last) :
    ∃ turns, ∀ budget, toOutcome T (budget + turns) s = toOutcome T budget last := by
  generalize hrules : ([] : List ρ) = rules at h
  induction h with
  | refl => exact ⟨0, fun _ => rfl⟩
  | shift hturn _ ih =>
    obtain ⟨turns, hturns⟩ := ih hrules
    refine ⟨turns + 1, ?_⟩
    intro budget
    rw [← Nat.add_assoc, toOutcome_of_none T hturn rfl]
    exact hturns budget
  | reduce => cases hrules

theorem accepted_turn (s : Session σ ι τ ς) (hmore : (s.turn T).1.isLast = false) :
    (s.turn T).2.parser.accepted = s.parser.accepted := by
  have harises := arises T s
  generalize s.turn T = result at harises hmore
  cases harises with
  | exceeded => cases hmore
  | stateless => cases hmore
  | tokenless => cases hmore
  | @answered current below tok source =>
    have heffect := effect_respond (ε := ε) T (s.counted.primed tok source) tok
      (T.move current (Token.symbol tok))
    generalize (s.counted.primed tok source).respond T tok _ = result at heffect hmore
    cases heffect with
    | shift | reduce => rfl
    | accept | reject | fail => cases hmore

theorem accepted_of_advances {s last : Session σ ι τ ς} {rules : List ρ}
    (h : Advances T s rules last) : last.parser.accepted = s.parser.accepted := by
  induction h with
  | refl => rfl
  | @shift s _ _ _ _ _ _ hturn _ ih | @reduce s _ _ _ _ _ _ hturn _ ih =>
    have hsame := accepted_turn T s (by rw [hturn]; rfl)
    rw [hturn] at hsame
    exact ih.trans hsame

/-- A call of the first session is a call of the second, with some turns more. -/
def LeadsTo (s next : Session σ ι τ ς) : Prop :=
  ∃ turns, ∀ budget, s.nextOutcome T (budget + turns) = next.nextOutcome T budget

theorem LeadsTo.refl (s : Session σ ι τ ς) : LeadsTo T s s := ⟨0, fun _ => rfl⟩

theorem LeadsTo.trans {s next last : Session σ ι τ ς} (h : LeadsTo T s next)
    (hmore : LeadsTo T next last) : LeadsTo T s last := by
  obtain ⟨turns, hturns⟩ := h
  obtain ⟨more, hmore⟩ := hmore
  refine ⟨more + turns, ?_⟩
  intro budget
  rw [← Nat.add_assoc, hturns, hmore]

theorem LeadsTo.of_advances {s last : Session σ ι τ ς} (h : Advances T s [] last)
    (hreading : s.parser.accepted = false) : LeadsTo T s last := by
  obtain ⟨turns, hturns⟩ := toOutcome_of_advances T h
  have hlast : last.parser.accepted = false := (accepted_of_advances T h).trans hreading
  refine ⟨turns, ?_⟩
  intro budget
  rw [nextOutcome, nextOutcome, hreading, hlast]
  exact hturns budget

theorem LeadsTo.reports {s next last : Session σ ι τ ς} {report : Report ι ρ τ ε}
    (h : LeadsTo T s next) (hreport : next.Reports T report last) : s.Reports T report last := by
  obtain ⟨turns, hturns⟩ := h
  obtain ⟨budget, hcall, htold⟩ := hreport
  exact ⟨budget + turns, (hturns budget).trans hcall, htold⟩

theorem LeadsTo.of_reports {s next last : Session σ ι τ ς} {report : Report ι ρ τ ε}
    (h : LeadsTo T s next) (hreport : s.Reports T report last) : next.Reports T report last := by
  obtain ⟨turns, hturns⟩ := h
  obtain ⟨budget, hcall, htold⟩ := hreport
  refine ⟨budget, ?_, htold⟩
  rw [← hturns budget]
  revert hcall
  unfold nextOutcome
  split
  · exact id
  · exact toOutcome_add T budget turns s _

theorem reports_of_turn {s next : Session σ ι τ ς} {turn : Turn σ ι ρ ε}
    {report : Report ι ρ τ ε} (hreading : s.parser.accepted = false)
    (hturn : s.turn T = (turn, next)) (hresult : turn.result? = some report.result)
    (hargs : report.args = next.args) (hposition : report.position = next.parser.position) :
    s.Reports T report next := by
  refine ⟨1, ?_, hargs, hposition⟩
  rw [nextOutcome, hreading]
  exact toOutcome_of_some T hturn hresult 0

end Session
end ShiftReduce
