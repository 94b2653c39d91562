import ShiftReduce.Proofs.SLRTable
import ShiftReduce.Proofs.StepLimits
import ShiftReduce.SampleGrammars

/-! A turn that fails costs as much as one that performs an action: the limit bounds both together.
-/
namespace ShiftReduce

/-- What has come of the turns of a parser. -/
structure Tally where
  /-- Shifts, reductions and acceptances. -/
  performed : Nat
  /-- Turns that came to nothing, though the step limit allowed them. -/
  failed : Nat
  /-- Turns that the step limit did not allow. -/
  refused : Nat
deriving DecidableEq, Repr

namespace Tally

variable {σ ι ρ ε : Type}

def zero : Tally := ⟨0, 0, 0⟩

def note (tally : Tally) : Turn σ ι ρ ε → Tally
  | .shifted .. => { tally with performed := tally.performed + 1 }
  | .reduced .. => { tally with performed := tally.performed + 1 }
  | .accepted => { tally with performed := tally.performed + 1 }
  | .rejected .. => { tally with failed := tally.failed + 1 }
  | .failed (.stepLimitExceeded _) => { tally with refused := tally.refused + 1 }
  | .failed _ => { tally with failed := tally.failed + 1 }

def noteAll (tally : Tally) (turns : List (Turn σ ι ρ ε)) : Tally := turns.foldl note tally

theorem noteAll_cons (tally : Tally) (turn : Turn σ ι ρ ε) (turns : List (Turn σ ι ρ ε)) :
    tally.noteAll (turn :: turns) = (tally.note turn).noteAll turns := rfl

/-- A turn that the step limit allows either performs an action or fails. -/
theorem note_of_allowed (tally : Tally) {turn : Turn σ ι ρ ε}
    (h : ∀ exceeded, turn ≠ .failed (.stepLimitExceeded exceeded)) :
    (tally.note turn).performed + (tally.note turn).failed = tally.performed + tally.failed + 1 ∧
      (tally.note turn).refused = tally.refused := by
  cases turn with
  | shifted | reduced | accepted =>
    refine ⟨?_, rfl⟩
    simp only [note]
    omega
  | rejected => exact ⟨rfl, rfl⟩
  | failed e =>
    cases e with
    | stepLimitExceeded exceeded => exact False.elim (h exceeded rfl)
    | lexer | table | rejected | unexpectedEnd | missingGoto | finished | emptyStateStack
    | emptyItemStack => exact ⟨rfl, rfl⟩

theorem note_of_more (tally : Tally) {turn : Turn σ ι ρ ε} (h : turn.isLast = false) :
    tally.note turn = { tally with performed := tally.performed + 1 } := by
  cases turn with
  | shifted | reduced => rfl
  | accepted | rejected | failed => cases h

/-- The tally adds up to the turns of the parser and, until the counter comes round to zero, stays
within the limit. -/
structure Balances {τ : Type} (tally : Tally) (limit : Nat) (p : Parser σ ι τ) : Prop where
  limited : p.stepLimit = some limit
  steps : p.steps = tally.performed + tally.failed + tally.refused
  within : p.steps ≤ Parser.maxCount → tally.performed + tally.failed ≤ limit
  exhausted : p.steps ≤ Parser.maxCount → 0 < tally.refused →
    tally.performed + tally.failed = limit

theorem balances_zero {τ : Type} {limit : Nat} {p : Parser σ ι τ}
    (hlimit : p.stepLimit = some limit) (hsteps : p.steps = 0) : zero.Balances limit p where
  limited := hlimit
  steps := hsteps
  within _ := Nat.zero_le limit
  exhausted _ hpos := False.elim (Nat.lt_irrefl 0 hpos)

end Tally

/-- Only a refused turn brings the failure of the step limit. -/
theorem Turn.eq_refused_of_result {σ ι ρ ε : Type} {turn : Turn σ ι ρ ε} {exceeded : Nat}
    (h : turn.result? = some (.error (.stepLimitExceeded exceeded))) :
    turn = .failed (.stepLimitExceeded exceeded) := by
  cases turn with
  | failed e =>
    cases h
    rfl
  | shifted | reduced | accepted | rejected => cases h

namespace Session

variable {σ ι ρ τ ε ς : Type} [Token τ ι] [TokenSource ς ε τ] (T : ParseTable σ ι ρ)
  {s next final : Session σ ι τ ς} {turn : Turn σ ι ρ ε} {limit : Nat} {tally : Tally}

theorem turn_refused_iff (hlimit : s.parser.stepLimit = some limit)
    (hturn : s.turn T = (turn, next)) (exceeded : Nat) :
    turn = .failed (.stepLimitExceeded exceeded) ↔
      exceeded = limit ∧ limit < s.counted.parser.counter := by
  constructor
  · intro hrefused
    have harises := arises T s
    rw [hturn, hrefused] at harises
    generalize hresult : (Turn.failed (.stepLimitExceeded exceeded), next) = result at harises
    cases harises with
    | exceeded hexceeded =>
      cases hresult
      obtain ⟨hsome, hbeyond⟩ := Parser.exceededLimit_eq_some_iff.mp hexceeded
      cases hlimit.symm.trans hsome
      exact ⟨rfl, hbeyond⟩
    | stateless => cases hresult
    | tokenless _ _ he =>
      cases hresult
      rcases he with he | ⟨x, he⟩
      · cases he
      · cases he
    | @answered current below tok source =>
      have heffect := effect_respond (ε := ε) T (s.counted.primed tok source) tok
        (T.move current (Token.symbol tok))
      rw [← hresult] at heffect
      cases heffect with
      | fail hinternal => exact False.elim hinternal
  · intro ⟨he, hspent⟩
    rw [he]
    exact congrArg Prod.fst (hturn.symm.trans (turn_of_spent T hlimit hspent))

omit [Token τ ι] in
/-- The counter exceeds the limit when all of it is spent. -/
theorem spent_iff (h : tally.Balances limit s.parser) (hcount : s.parser.steps < Parser.maxCount) :
    limit < s.counted.parser.counter ↔ tally.performed + tally.failed = limit := by
  have hsteps := h.steps
  have hwithin := h.within (Nat.le_of_lt hcount)
  rw [counter_counted hcount]
  constructor
  · intro hspent
    rcases Nat.eq_zero_or_pos tally.refused with hzero | hpos
    · omega
    · exact h.exhausted (Nat.le_of_lt hcount) hpos
  · intro hall
    omega

/-- A turn keeps the balance. -/
theorem balances_turn (h : tally.Balances limit s.parser) (hturn : s.turn T = (turn, next)) :
    (tally.note turn).Balances limit next.parser := by
  have hsteps := h.steps
  have hrefused := turn_refused_iff T h.limited hturn
  have hcount := steps_of_turn T hturn
  have hkept := (steps_turn T s).2
  rw [hturn, h.limited] at hkept
  by_cases hspent : limit < s.counted.parser.counter
  · have hfailed := (hrefused limit).mpr ⟨rfl, hspent⟩
    subst hfailed
    refine ⟨hkept, by simp only [Tally.note]; omega, ?_, ?_⟩
    · intro hmost
      exact h.within (by omega)
    · intro hmost _
      exact (spent_iff h (by omega)).mp hspent
  · have hallowed (exceeded : Nat) : turn ≠ .failed (.stepLimitExceeded exceeded) := by
      intro he
      exact hspent ((hrefused exceeded).mp he).2
    obtain ⟨hone, hsame⟩ := tally.note_of_allowed hallowed
    refine ⟨hkept, by omega, ?_, ?_⟩
    · intro hmost
      have hleft := mt (spent_iff h (by omega)).mpr hspent
      have hwithin := h.within (by omega)
      omega
    · intro hmost hpos
      rw [hsame] at hpos
      exact False.elim (hspent ((spent_iff h (by omega)).mpr (h.exhausted (by omega) hpos)))

/-- Turns that perform actions, and one more. -/
inductive Attempts :
    Session σ ι τ ς → List (Turn σ ι ρ ε) → Turn σ ι ρ ε → Session σ ι τ ς → Prop
  | last {s final : Session σ ι τ ς} {turn : Turn σ ι ρ ε} :
      s.turn T = (turn, final) → Attempts s [] turn final
  | more {s next final : Session σ ι τ ς} {turn last : Turn σ ι ρ ε}
      {earlier : List (Turn σ ι ρ ε)} :
      s.turn T = (turn, next) → turn.isLast = false → Attempts next earlier last final →
      Attempts s (turn :: earlier) last final

theorem Attempts.balances {earlier : List (Turn σ ι ρ ε)} (h : Attempts T s earlier turn final)
    (hs : tally.Balances limit s.parser) :
    (tally.noteAll (earlier ++ [turn])).Balances limit final.parser := by
  induction h generalizing tally with
  | last hturn => exact balances_turn T hs hturn
  | more hturn _ _ ih =>
    rw [List.cons_append, Tally.noteAll_cons]
    exact ih (balances_turn T hs hturn)

theorem Attempts.limit_lt {earlier : List (Turn σ ι ρ ε)} (h : Attempts T s earlier turn final)
    (hlimit : s.parser.stepLimit = some limit) {exceeded : Nat}
    (hresult : turn.result? = some (.error (.stepLimitExceeded exceeded))) :
    limit < Parser.maxCount := by
  induction h with
  | @last s _ _ hturn =>
    have he := Turn.eq_refused_of_result hresult
    have hspent := ((turn_refused_iff T hlimit hturn exceeded).mp he).2
    exact Nat.lt_of_lt_of_le hspent s.counted.parser.counter_le
  | @more s _ _ _ _ _ hturn _ _ ih =>
    have hkept := (steps_turn T s).2
    rw [hturn] at hkept
    exact ih (hkept.trans hlimit) hresult

/-- The last turn is refused only when the limit is spent on the actions up to this one and on the
failures of earlier calls. -/
theorem Attempts.refused {earlier : List (Turn σ ι ρ ε)} (h : Attempts T s earlier turn final)
    (hs : tally.Balances limit s.parser) (hcount : s.parser.steps < Parser.maxCount)
    (exceeded : Nat) (hresult : turn.result? = some (.error (.stepLimitExceeded exceeded))) :
    exceeded = limit ∧
      (tally.noteAll (earlier ++ [turn])).performed + tally.failed = limit := by
  induction h generalizing tally with
  | last hturn =>
    have he := Turn.eq_refused_of_result hresult
    obtain ⟨hexceeded, hspent⟩ := (turn_refused_iff T hs.limited hturn exceeded).mp he
    subst he
    exact ⟨hexceeded, (spent_iff hs hcount).mp hspent⟩
  | @more s next _ _ _ _ hturn hmore hrest ih =>
    have hnext := balances_turn T hs hturn
    rw [tally.note_of_more hmore] at hnext
    rw [List.cons_append, Tally.noteAll_cons, tally.note_of_more hmore]
    have hless : limit < Parser.maxCount := hrest.limit_lt T hnext.limited hresult
    have hallowed : ¬ limit < s.counted.parser.counter := by
      intro hspent
      rw [(turn_refused_iff T hs.limited hturn limit).mpr ⟨rfl, hspent⟩] at hmore
      cases hmore
    have hsteps := steps_of_turn T hturn
    rw [counter_counted hcount] at hallowed
    exact ih hnext (by omega) hresult

theorem attempts_of_toOutcome (budget : Nat) (s final : Session σ ι τ ς)
    (result : Except (ParseFailure ε) (Outcome ρ))
    (h : toOutcome T budget s = some (result, final)) :
    ∃ earlier turn, Attempts T s earlier turn final ∧ turn.result? = some result ∧
      turnsUntil T (fun turn => turn.result?.isSome) budget s = earlier ++ [turn] := by
  induction budget generalizing s with
  | zero => cases h
  | succ budget ih =>
    rw [toOutcome] at h
    rw [turnsUntil]
    rcases hturn : s.turn T with ⟨turn, next⟩
    rw [hturn] at h
    cases turn with
    | shifted X position target =>
      obtain ⟨earlier, last, hattempts, hresult, hturns⟩ := ih next h
      exact ⟨_, last, .more hturn rfl hattempts, hresult, congrArg _ hturns⟩
    | reduced | accepted | rejected | failed =>
      cases h
      exact ⟨[], _, .last hturn, rfl, rfl⟩

theorem attempts_of_toAcceptance (budget : Nat) (rules : List ρ) (s final : Session σ ι τ ς)
    (result : Except (ParseFailure ε) (List ρ))
    (h : toAcceptance T budget rules s = some (result, final)) :
    ∃ earlier turn, Attempts T s earlier turn final ∧
      (∀ e, result = .error e → turn.result? = some (.error e)) ∧
      turnsUntil T Turn.isLast budget s = earlier ++ [turn] := by
  induction budget generalizing s rules with
  | zero => cases h
  | succ budget ih =>
    rw [toAcceptance] at h
    rw [turnsUntil]
    rcases hturn : s.turn T with ⟨turn, next⟩
    rw [hturn] at h
    cases turn with
    | shifted =>
      obtain ⟨earlier, last, hattempts, hresult, hturns⟩ := ih rules next h
      exact ⟨_, last, .more hturn rfl hattempts, hresult, congrArg _ hturns⟩
    | reduced rule =>
      obtain ⟨earlier, last, hattempts, hresult, hturns⟩ := ih (rule :: rules) next h
      exact ⟨_, last, .more hturn rfl hattempts, hresult, congrArg _ hturns⟩
    | accepted =>
      cases h
      refine ⟨[], _, .last hturn, ?_, rfl⟩
      intro e he
      cases he
    | rejected | failed =>
      cases h
      refine ⟨[], _, .last hturn, ?_, rfl⟩
      intro e he
      cases he
      rfl

/-- What a call for an outcome adds to a tally balances the parser that it leaves. -/
theorem balances_nextOutcome (hs : tally.Balances limit s.parser) (budget : Nat)
    (result : Except (ParseFailure ε) (Outcome ρ))
    (h : s.nextOutcome T budget = some (result, final)) :
    (tally.noteAll (s.outcomeTurns T budget)).Balances limit final.parser ∧
      (s.parser.steps < Parser.maxCount →
        ∀ exceeded, result = .error (.stepLimitExceeded exceeded) → exceeded = limit ∧
          (tally.noteAll (s.outcomeTurns T budget)).performed + tally.failed = limit) := by
  unfold nextOutcome at h
  unfold outcomeTurns
  cases haccepted : s.parser.accepted with
  | true =>
    rw [haccepted] at h
    cases h
    refine ⟨hs, ?_⟩
    intro _ exceeded he
    cases he
  | false =>
    rw [haccepted] at h
    obtain ⟨earlier, turn, hattempts, hresult, hturns⟩ :=
      attempts_of_toOutcome T budget s final result h
    rw [if_neg Bool.false_ne_true, hturns]
    refine ⟨hattempts.balances T hs, ?_⟩
    intro hcount exceeded he
    exact hattempts.refused T hs hcount exceeded (hresult.trans (congrArg some he))

theorem balances_parse (hs : tally.Balances limit s.parser) (budget : Nat)
    (result : Except (ParseFailure ε) (List ρ))
    (h : s.parse T budget = some (result, final)) :
    (tally.noteAll (s.parseTurns T budget)).Balances limit final.parser ∧
      (s.parser.steps < Parser.maxCount →
        ∀ exceeded, result = .error (.stepLimitExceeded exceeded) → exceeded = limit ∧
          (tally.noteAll (s.parseTurns T budget)).performed + tally.failed = limit) := by
  unfold parse at h
  unfold parseTurns
  cases haccepted : s.parser.accepted with
  | true =>
    rw [haccepted] at h
    cases h
    refine ⟨hs, ?_⟩
    intro _ exceeded he
    cases he
  | false =>
    rw [haccepted] at h
    simp only [Bool.false_eq_true, if_false, Option.map_eq_some_iff, Prod.exists] at h
    obtain ⟨result', next, hrun, hfinal⟩ := h
    cases hfinal
    obtain ⟨earlier, turn, hattempts, hresult, hturns⟩ :=
      attempts_of_toAcceptance T budget [] s next result hrun
    rw [if_neg Bool.false_ne_true, hturns]
    refine ⟨hattempts.balances T hs, ?_⟩
    intro hcount exceeded he
    exact hattempts.refused T hs hcount exceeded (hresult _ he)

theorem toOutcome_of_toAcceptance (budget : Nat) (rules : List ρ) (s : Session σ ι τ ς)
    (h : ∃ answer, toAcceptance T budget rules s = some answer) :
    ∃ answer, toOutcome T budget s = some answer := by
  obtain ⟨answer, h⟩ := h
  induction budget generalizing s with
  | zero => cases h
  | succ budget ih =>
    rw [toAcceptance] at h
    rw [toOutcome]
    rcases hturn : s.turn T with ⟨turn, next⟩
    rw [hturn] at h
    cases turn with
    | shifted => exact ih next h
    | reduced | accepted | rejected | failed => exact ⟨_, rfl⟩

theorem nextOutcome_limited (budget : Nat) (hlimit : s.parser.stepLimit = some limit)
    (hless : limit < Parser.maxCount) (henough : limit < s.counted.parser.counter + budget) :
    ∃ answer, s.nextOutcome T (budget + 1) = some answer := by
  rw [nextOutcome]
  split
  · exact ⟨_, rfl⟩
  · exact toOutcome_of_toAcceptance T (budget + 1) [] s
      (exists_toAcceptance T budget hlimit hless henough [])

theorem calls_refused (hs : tally.Balances limit s.parser)
    (hcount : s.parser.steps < Parser.maxCount) (hreading : s.parser.accepted = false)
    (hspent : tally.performed + tally.failed = limit) (budget : Nat) :
    s.nextOutcome T (budget + 1) = some (.error (.stepLimitExceeded limit), s.counted) ∧
      s.parse T (budget + 1) = some (.error (.stepLimitExceeded limit), s.counted) := by
  have hfailed := turn_of_spent T hs.limited ((spent_iff hs hcount).mpr hspent)
  constructor
  · rw [nextOutcome, hreading, toOutcome, hfailed]
    rfl
  · rw [parse, hreading, toAcceptance, hfailed]
    rfl

end Session

namespace Parser

/-- Calls lead from a new parser with this step limit to this one. The tally is of all turns since
the start or the last reset. -/
inductive Spends {σ ι ρ τ : Type} [Token τ ι] (T : ParseTable σ ι ρ) (limit : Nat) :
    Tally → Parser σ ι τ → Prop
  | start : Spends T limit .zero ((Parser.start T).limitSteps limit)
  | reset {tally : Tally} {p : Parser σ ι τ} : Spends T limit tally p →
      Spends T limit .zero (p.reset T)
  | nextOutcome {ς ε : Type} [TokenSource ς ε τ] {tally : Tally} {p : Parser σ ι τ} {source : ς}
      {args : Args τ ι} {budget : Nat} {result : Except (ParseFailure ε) (Outcome ρ)}
      {final : Session σ ι τ ς} :
      Spends T limit tally p →
      Session.nextOutcome T budget ⟨p, source, args⟩ = some (result, final) →
      Spends T limit (tally.noteAll (Session.outcomeTurns T budget ⟨p, source, args⟩)) final.parser
  | parse {ς ε : Type} [TokenSource ς ε τ] {tally : Tally} {p : Parser σ ι τ} {source : ς}
      {args : Args τ ι} {budget : Nat} {result : Except (ParseFailure ε) (List ρ)}
      {final : Session σ ι τ ς} :
      Spends T limit tally p →
      Session.parse T budget ⟨p, source, args⟩ = some (result, final) →
      Spends T limit (tally.noteAll (Session.parseTurns T budget ⟨p, source, args⟩)) final.parser

theorem Spends.balances {σ ι ρ τ : Type} [Token τ ι] {T : ParseTable σ ι ρ} {limit : Nat}
    {tally : Tally} {p : Parser σ ι τ} (h : p.Spends T limit tally) : tally.Balances limit p := by
  induction h with
  | start => exact Tally.balances_zero rfl rfl
  | reset _ ih => exact Tally.balances_zero ih.limited rfl
  | nextOutcome _ hcall ih => exact (Session.balances_nextOutcome T ih _ _ hcall).1
  | parse _ hcall ih => exact (Session.balances_parse T ih _ _ hcall).1

end Parser

/-- Until the counter comes round, a step limit bounds actions and failed turns together, and a call
is refused exactly when they use it up. -/
theorem step_budget_exact {σ ι ρ τ : Type} [Token τ ι] (T : ParseTable σ ι ρ) (limit : Nat)
    (tally : Tally) (p : Parser σ ι τ) (hp : p.Spends T limit tally) :
    p.steps = tally.performed + tally.failed + tally.refused ∧
    (p.steps < Parser.maxCount →
      tally.performed + tally.failed ≤ limit ∧ tally.performed ≤ limit ∧
      ∀ (ς ε : Type) [TokenSource ς ε τ] (source : ς) (args : Args τ ι),
        let s : Session σ ι τ ς := ⟨p, source, args⟩
        (limit < Parser.maxCount → ∃ answer, s.nextOutcome T (limit + 1) = some answer) ∧
        (limit < Parser.maxCount → ∃ answer, s.parse T (limit + 1) = some answer) ∧
        (∀ budget exceeded final,
          s.nextOutcome T budget = some (.error (.stepLimitExceeded exceeded), final) →
            exceeded = limit ∧
              (tally.noteAll (s.outcomeTurns T budget)).performed + tally.failed = limit) ∧
        (∀ budget exceeded final,
          s.parse T budget = some (.error (.stepLimitExceeded exceeded), final) →
            exceeded = limit ∧
              (tally.noteAll (s.parseTurns T budget)).performed + tally.failed = limit) ∧
        (p.accepted = false → tally.performed + tally.failed = limit → ∀ budget,
          s.nextOutcome T (budget + 1) = some (.error (.stepLimitExceeded limit), s.counted) ∧
          s.parse T (budget + 1) = some (.error (.stepLimitExceeded limit), s.counted))) := by
  have hbalances := hp.balances
  refine ⟨hbalances.steps, ?_⟩
  intro hcount
  have hwithin := hbalances.within (Nat.le_of_lt hcount)
  refine ⟨hwithin, by omega, ?_⟩
  intro ς ε _ source args s
  have hs : tally.Balances limit s.parser := hbalances
  have henough : limit < s.counted.parser.counter + limit := by
    rw [Session.counter_counted hcount]
    omega
  refine ⟨fun hless => Session.nextOutcome_limited T limit hs.limited hless henough,
    fun hless => Session.parse_limited T limit hs.limited hless henough, ?_, ?_,
    Session.calls_refused T hs hcount⟩
  · intro budget exceeded final h
    exact (Session.balances_nextOutcome T hs budget _ h).2 hcount exceeded rfl
  · intro budget exceeded final h
    exact (Session.balances_parse T hs budget _ h).2 hcount exceeded rfl

/-- A parser with a limit of four turns, before a word whose lexing fails once. -/
def stumbling (t : Table) :
    Session StateId Symbol (Lexeme Symbol) (List (Except Unit (Lexeme Symbol))) :=
  (Session.start t.parseTable
    [.error (), .ok ⟨.terminal ⟨1⟩, "x"⟩, .ok ⟨.terminal ⟨0⟩, "$"⟩]).limited 4

/-- A call fails in the lexer, and the parse that follows is refused its fourth action. -/
theorem exists_stumbling : ∃ g t,
    ∃ s final : Session StateId Symbol (Lexeme Symbol) (List (Except Unit (Lexeme Symbol))),
    Grammar.define SampleGrammars.list = .ok g ∧ g.table .thorough = .ok t ∧
    Parser.Spends t.parseTable 4 ⟨0, 1, 0⟩ s.parser ∧
    Session.parse t.parseTable 5 s = some (.error (.stepLimitExceeded 4), final) ∧
    (Tally.mk 0 1 0).noteAll (s.parseTurns t.parseTable 5) = ⟨3, 1, 1⟩ := by
  obtain ⟨g, t, hg, ht, htallies, hanswer⟩ := Grammar.exists_table SampleGrammars.list
    (fun _ t =>
      ((stumbling t).nextOutcome t.parseTable 1).map (fun called =>
        (Tally.zero.noteAll ((stumbling t).outcomeTurns t.parseTable 1),
          (Tally.mk 0 1 0).noteAll (called.2.parseTurns t.parseTable 5))) =
        some (⟨0, 1, 0⟩, ⟨3, 1, 1⟩) ∧
      ((stumbling t).nextOutcome t.parseTable 1).bind (fun called =>
        (called.2.parse t.parseTable 5).map Prod.fst) =
        some (.error (.stepLimitExceeded 4))) (by decide +kernel)
  obtain ⟨⟨result, s⟩, hcall, htallies⟩ := Option.map_eq_some_iff.mp htallies
  rw [hcall, Option.bind_some] at hanswer
  obtain ⟨⟨result', final⟩, hparse, rfl⟩ := Option.map_eq_some_iff.mp hanswer
  obtain ⟨hcalled, hparsed⟩ := Prod.mk.inj htallies
  have hspends : Parser.Spends t.parseTable 4
      (Tally.zero.noteAll ((stumbling t).outcomeTurns t.parseTable 1)) s.parser :=
    .nextOutcome .start hcall
  rw [hcalled] at hspends
  exact ⟨g, t, s, final, hg, ht, hspends, hparse, hparsed⟩

/-- One action short of the limit, the failure of the lexer is counted for the fourth. -/
theorem step_budget_exact_stumbling : ∃ g t,
    ∃ s final : Session StateId Symbol (Lexeme Symbol) (List (Except Unit (Lexeme Symbol))),
    Grammar.define SampleGrammars.list = .ok g ∧ g.table .thorough = .ok t ∧
    Parser.Spends t.parseTable 4 ⟨0, 1, 0⟩ s.parser ∧ s.parser.steps < Parser.maxCount ∧
    Session.parse t.parseTable 5 s = some (.error (.stepLimitExceeded 4), final) ∧
    (Tally.mk 0 1 0).noteAll (s.parseTurns t.parseTable 5) = ⟨3, 1, 1⟩ ∧
    ((Tally.mk 0 1 0).noteAll (s.parseTurns t.parseTable 5)).performed + 1 = 4 := by
  obtain ⟨g, t, s, final, hg, ht, hspends, hparse, htally⟩ := exists_stumbling
  obtain ⟨hsteps, hbound⟩ := step_budget_exact t.parseTable 4 ⟨0, 1, 0⟩ s.parser hspends
  have hcount : s.parser.steps < Parser.maxCount := by
    rw [hsteps]
    decide
  have hcalls := (hbound hcount).2.2 _ _ s.source s.args
  have hrefused := hcalls.2.2.2.1 5 4 final hparse
  exact ⟨g, t, s, final, hg, ht, hspends, hcount, hparse, htally, hrefused.2⟩

/-- The limit is not only exceeded when as many actions have been performed. -/
theorem step_limit_not_actions : ¬ ∀ (g : Grammar) (t : Table) (limit : Nat) (tally : Tally)
    (p : Parser StateId Symbol (Lexeme Symbol)) (source : List (Except Unit (Lexeme Symbol)))
    (args : Args (Lexeme Symbol) Symbol) (budget exceeded : Nat)
    (final : Session StateId Symbol (Lexeme Symbol) (List (Except Unit (Lexeme Symbol)))),
    g.table .thorough = .ok t → p.Spends t.parseTable limit tally →
    Session.parse t.parseTable budget ⟨p, source, args⟩ =
      some (.error (.stepLimitExceeded exceeded), final) →
    (tally.noteAll (Session.parseTurns t.parseTable budget ⟨p, source, args⟩)).performed =
      limit := by
  intro hclaim
  obtain ⟨g, t, s, final, -, ht, hspends, hparse, htally⟩ := exists_stumbling
  have hall := hclaim g t 4 ⟨0, 1, 0⟩ s.parser s.source s.args 5 4 final ht hspends hparse
  have hthree : ((Tally.mk 0 1 0).noteAll (s.parseTurns t.parseTable 5)).performed = 3 := by
    rw [htally]
  have hfour : ((Tally.mk 0 1 0).noteAll (s.parseTurns t.parseTable 5)).performed = 4 := hall
  omega

end ShiftReduce
