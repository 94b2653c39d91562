import ShiftReduce.ExplicitTable
import ShiftReduce.Proofs.CallReports
import ShiftReduce.Proofs.InterruptedTurns

namespace ShiftReduce
namespace Session

variable {σ ι ρ τ ε ς : Type} [Token τ ι] [TokenSource ς ε τ] (T : ParseTable σ ι ρ)
  {plain : Session σ ι τ ς} {s next last : Session σ ι τ (Script ε τ)}

/-- Calls that are made again after each interruption, with the reports of their outcomes. The step
limit may be set anew at any time. -/
inductive Resumes : Session σ ι τ (Script ε τ) → List (Report ι ρ τ ε) →
    Session σ ι τ (Script ε τ) → Prop
  | refl (s : Session σ ι τ (Script ε τ)) : Resumes s [] s
  | outcome {s next last : Session σ ι τ (Script ε τ)} {report : Report ι ρ τ ε}
      {reports : List (Report ι ρ τ ε)} {outcome : Outcome ρ} :
      s.Reports T report next → report.result = .ok outcome → Resumes next reports last →
      Resumes s (report :: reports) last
  | interruption {s next last : Session σ ι τ (Script ε τ)} {report : Report ι ρ τ ε}
      {reports : List (Report ι ρ τ ε)} {e : ParseFailure ε} :
      s.Reports T report next → report.result = .error e → e.Interrupts →
      Resumes next reports last → Resumes s reports last
  | limit {s last : Session σ ι τ (Script ε τ)} {reports : List (Report ι ρ τ ε)} (n : Nat) :
      Resumes { s with parser := s.parser.limitSteps n } reports last → Resumes s reports last

omit [Token τ ι] in
theorem Mirrors.accepted (h : Mirrors plain s) : plain.parser.accepted = s.parser.accepted := by
  obtain ⟨steps, source, rfl, -⟩ := h
  rfl

omit [Token τ ι] in
theorem Mirrors.args (h : Mirrors plain s) : plain.args = s.args := by
  obtain ⟨steps, source, rfl, -⟩ := h
  rfl

omit [Token τ ι] in
theorem Mirrors.position (h : Mirrors plain s) : plain.parser.position = s.parser.position := by
  obtain ⟨steps, source, rfl, -⟩ := h
  rfl

omit [Token τ ι] in
theorem Mirrors.limitSteps (h : Mirrors plain s) (n : Nat) :
    Mirrors plain { s with parser := s.parser.limitSteps n } := h

theorem Mirrors.advances (hm : Mirrors plain s) {rules : List ρ} (h : Advances T s rules last) :
    ∃ plain', Advances T plain rules plain' ∧ Mirrors plain' last := by
  induction h generalizing plain with
  | refl => exact ⟨plain, .refl plain, hm⟩
  | shift hturn _ ih =>
    have hfollows := follows T hm
    rw [hturn] at hfollows
    cases hfollows with
    | same hplain hnext _ =>
      obtain ⟨plain', hadv, hlast⟩ := ih hnext
      exact ⟨plain', .shift hplain hadv, hlast⟩
  | reduce hturn _ ih =>
    have hfollows := follows T hm
    rw [hturn] at hfollows
    cases hfollows with
    | same hplain hnext _ =>
      obtain ⟨plain', hadv, hlast⟩ := ih hnext
      exact ⟨plain', .reduce hplain hadv, hlast⟩

/-- What a call of the interrupted session comes to: it is the call of the other, or an
interruption. -/
inductive CallFollows (plain : Session σ ι τ ς) (report : Report ι ρ τ ε)
    (next : Session σ ι τ (Script ε τ)) : Prop
  | same {plain' : Session σ ι τ ς} : plain.Reports T report plain' → Mirrors plain' next →
      (∀ e, report.result = .error e → ¬ e.Interrupts) → CallFollows plain report next
  | interrupted {plain' : Session σ ι τ ς} {e : ParseFailure ε} : report.result = .error e →
      e.Interrupts → LeadsTo T plain plain' → Mirrors plain' next →
      (e = .unexpectedEnd → next.source.tokens = [] →
        ∃ final, plain.Reports T report final) → CallFollows plain report next

theorem Mirrors.call (hm : Mirrors plain s) {report : Report ι ρ τ ε}
    (h : s.Reports T report next) : CallFollows T plain report next := by
  obtain ⟨budget, hcall, hargs, hposition⟩ := h
  unfold nextOutcome at hcall
  cases haccepted : s.parser.accepted with
  | true =>
    rw [haccepted, if_pos rfl, Option.some.injEq, Prod.mk.injEq] at hcall
    obtain ⟨hresult, rfl⟩ := hcall
    have hplain : plain.Reports T report plain := by
      refine ⟨0, ?_, hargs.trans hm.args.symm, hposition.trans hm.position.symm⟩
      rw [nextOutcome, hm.accepted, haccepted, if_pos rfl, hresult]
    refine .same hplain hm ?_
    intro e he
    rw [he] at hresult
    cases hresult
    exact id
  | false =>
    rw [haccepted] at hcall
    have hreading : plain.parser.accepted = false := hm.accepted.trans haccepted
    obtain ⟨last, turn, hadv, hturn, hresult⟩ := advances_of_toOutcome T budget s next _ hcall
    obtain ⟨plain', hadv', hlast⟩ := hm.advances T hadv
    have hleads := LeadsTo.of_advances T hadv' hreading
    have hreading' : plain'.parser.accepted = false :=
      (accepted_of_advances T hadv').trans hreading
    have hfollows := follows T hlast
    rw [hturn] at hfollows
    cases hfollows with
    | same hplain hnext hinternal =>
      have hreport := reports_of_turn T hreading' hplain hresult (hargs.trans hnext.args.symm)
        (hposition.trans hnext.position.symm)
      refine .same (hleads.reports T hreport) hnext ?_
      intro e he
      rw [he] at hresult
      cases turn with
      | shifted | reduced | accepted => cases hresult
      | rejected =>
        cases hresult
        exact id
      | failed e' =>
        cases hresult
        exact (hinternal e rfl).not_interrupts
    | exceeded _ hnext =>
      refine .interrupted (Option.some.inj hresult).symm trivial hleads hnext ?_
      intro he
      cases he
    | @interrupted e _ he hnext _ hend =>
      have hinterrupts : e.Interrupts := by
        rcases he with rfl | ⟨x, rfl⟩
        · trivial
        · trivial
      refine .interrupted (Option.some.inj hresult).symm hinterrupts hleads hnext ?_
      intro hunexpected hnil
      subst hunexpected
      obtain ⟨final, hplain, hargs', hposition'⟩ := hend hnil
      exact ⟨final, hleads.reports T (reports_of_turn T hreading' hplain hresult
        (hargs.trans hargs'.symm) (hposition.trans hposition'.symm))⟩

/-- Every outcome that is reported in spite of interruptions is one of the uninterrupted parse. -/
theorem Resumes.plays {reports : List (Report ι ρ τ ε)} (h : Resumes T s reports last)
    {calls : Session σ ι τ ς} (hleads : LeadsTo T calls plain) (hm : Mirrors plain s) :
    ∃ calls' plain', Plays T calls reports calls' ∧ LeadsTo T calls' plain' ∧
      Mirrors plain' last := by
  induction h generalizing calls plain with
  | refl => exact ⟨calls, plain, .refl calls, hleads, hm⟩
  | outcome hreport hok _ ih =>
    cases hm.call T hreport with
    | @same plain' hplain hnext _ =>
      obtain ⟨calls', last', hplays, hlast⟩ := ih (LeadsTo.refl T plain') hnext
      exact ⟨calls', last', .outcome (hleads.reports T hplain) hok hplays, hlast⟩
    | interrupted herror =>
      rw [hok] at herror
      cases herror
  | interruption hreport herror hinterrupts _ ih =>
    cases hm.call T hreport with
    | same _ _ hnot => exact False.elim (hnot _ herror hinterrupts)
    | interrupted _ _ hmore hnext _ => exact ih (hleads.trans T hmore) hnext
  | limit n _ ih => exact ih hleads (hm.limitSteps n)

/-- What has been shifted and what is still ahead are the tokens, each of them once. -/
def Accounted (toks : List τ) (s : Session σ ι τ (Script ε τ)) : Prop :=
  ∃ read, toks = read ++ s.ahead ∧ read.length = s.parser.position

theorem Accounted.turn {toks : List τ} (h : Accounted toks s) :
    Accounted toks (s.turn T).2 := by
  obtain ⟨read, rfl, hlength⟩ := h
  rcases ahead_turn T s with ⟨⟨tok, hahead⟩, hposition⟩ | ⟨hahead, hposition, -⟩
  · refine ⟨read ++ [tok], ?_, ?_⟩
    · rw [hahead, List.append_assoc, List.singleton_append]
    · rw [hposition, List.length_append, List.length_singleton, hlength]
  · exact ⟨read, by rw [hahead], hlength.trans hposition.symm⟩

theorem Accounted.advances {toks : List τ} {rules : List ρ} (h : Accounted toks s)
    (hadv : Advances T s rules last) : Accounted toks last := by
  induction hadv with
  | refl => exact h
  | shift hturn _ ih | reduce hturn _ ih =>
    have hnext := h.turn T
    rw [hturn] at hnext
    exact ih hnext

theorem Accounted.reports {toks : List τ} {report : Report ι ρ τ ε} (h : Accounted toks s)
    (hreport : s.Reports T report next) : Accounted toks next := by
  obtain ⟨budget, hcall, -⟩ := hreport
  unfold nextOutcome at hcall
  split at hcall
  · obtain ⟨-, rfl⟩ := Prod.mk.inj (Option.some.inj hcall)
    exact h
  · obtain ⟨last, turn, hadv, hturn, -⟩ := advances_of_toOutcome T budget s next _ hcall
    have hnext := (h.advances T hadv).turn T
    rw [hturn] at hnext
    exact hnext

theorem Accounted.resumes {toks : List τ} {reports : List (Report ι ρ τ ε)}
    (h : Accounted toks s) (hresumes : Resumes T s reports last) : Accounted toks last := by
  induction hresumes with
  | refl => exact h
  | outcome hreport _ _ ih => exact ih (h.reports T hreport)
  | interruption hreport _ _ _ ih => exact ih (h.reports T hreport)
  | limit n _ ih => exact ih h

/-- A call takes no more turns than there are tokens ahead, and one. -/
theorem exists_toOutcome (s : Session σ ι τ (Script ε τ)) (budget : Nat)
    (h : s.ahead.length < budget) : ∃ answer, s.toOutcome T budget = some answer := by
  induction budget generalizing s with
  | zero => exact False.elim (Nat.not_lt_zero _ h)
  | succ budget ih =>
    have hahead := ahead_turn T s
    rcases hturn : s.turn T with ⟨turn, next⟩
    rw [hturn] at hahead
    cases hresult : turn.result? with
    | some result => exact ⟨(result, next), toOutcome_of_some T hturn hresult budget⟩
    | none =>
      rcases hahead with ⟨⟨tok, hahead⟩, -⟩ | ⟨-, -, hsome⟩
      · rw [hahead, List.length_cons] at h
        rw [toOutcome_of_none T hturn hresult]
        exact ih next (Nat.lt_of_succ_lt_succ h)
      · exact False.elim (hsome hresult)

theorem exists_reports (s : Session σ ι τ (Script ε τ)) :
    ∃ report next, s.Reports (ρ := ρ) T report next := by
  cases haccepted : s.parser.accepted with
  | true =>
    refine ⟨⟨.error .finished, s.args, s.parser.position⟩, s, 0, ?_, rfl, rfl⟩
    rw [nextOutcome, haccepted, if_pos rfl]
  | false =>
    obtain ⟨⟨result, next⟩, hcall⟩ := exists_toOutcome T s _ (Nat.lt_succ_self s.ahead.length)
    refine ⟨⟨result, next.args, next.parser.position⟩, next, s.ahead.length + 1, ?_, rfl, rfl⟩
    rw [nextOutcome, haccepted]
    exact hcall

/-- A call ends as the uninterrupted one does, or is struck by an interruption that leaves fewer
turns to make or fewer answers to come. -/
inductive CallProceeds (s : Session σ ι τ (Script ε τ)) (budget : Nat)
    (result : Except (ParseFailure ε) (Outcome ρ)) (plain' : Session σ ι τ ς) : Prop
  | ends {next : Session σ ι τ (Script ε τ)} : s.toOutcome T budget = some (result, next) →
      plain'.args = next.args → plain'.parser.position = next.parser.position →
      CallProceeds s budget result plain'
  | struck {e : ParseFailure ε} {next : Session σ ι τ (Script ε τ)} {between : Session σ ι τ ς}
      {left : Nat} : s.toOutcome T budget = some (.error e, next) → e.Interrupts →
      next.parser.accepted = s.parser.accepted → Mirrors between next →
      between.toOutcome T left = some (result, plain') → left < budget ∨
        (left = budget ∧ next.source.answers.length < s.source.answers.length) →
      CallProceeds s budget result plain'

theorem Mirrors.proceeds (hm : Mirrors plain s) {budget : Nat}
    {result : Except (ParseFailure ε) (Outcome ρ)} {plain' : Session σ ι τ ς}
    (hcall : plain.toOutcome T budget = some (result, plain'))
    (hroom : ∀ limit, s.parser.stepLimit = some limit → Parser.maxCount ≤ limit) :
    CallProceeds T s budget result plain' := by
  induction budget generalizing plain s with
  | zero => cases hcall
  | succ budget ih =>
    have hlimit := (steps_turn T s).2
    have hfollows := follows T hm
    rcases hturn : s.turn T with ⟨turn, next⟩
    rw [hturn] at hfollows hlimit
    cases hfollows with
    | same hplain hnext _ =>
      cases hresult : turn.result? with
      | some told =>
        rw [toOutcome_of_some T hplain hresult] at hcall
        cases hcall
        exact .ends (toOutcome_of_some T hturn hresult budget) hnext.args hnext.position
      | none =>
        rw [toOutcome_of_none T hplain hresult] at hcall
        have hsame := toOutcome_of_none T hturn hresult budget
        cases ih hnext hcall fun limit h => hroom limit (hlimit.symm.trans h) with
        | ends hend hargs hposition => exact .ends (hsame.trans hend) hargs hposition
        | struck hstruck he haccepted hbetween hleft hfewer =>
          have hmore : turn.isLast = false := by
            cases turn with
            | shifted => rfl
            | reduced | accepted | rejected | failed => cases hresult
          have hkept := accepted_turn T s (by rw [hturn]; exact hmore)
          rw [hturn] at hkept
          refine .struck (hsame.trans hstruck) he (haccepted.trans hkept) hbetween hleft ?_
          omega
    | exceeded hexceeded _ =>
      obtain ⟨hsome, hless⟩ := Parser.exceededLimit_eq_some_iff.mp hexceeded
      have hmost := s.counted.parser.counter_le
      have hfits := hroom _ hsome
      omega
    | @interrupted e _ he hnext hfewer hend =>
      have hstruck := toOutcome_of_some T hturn rfl budget
      have haccepted := hnext.accepted.symm.trans hm.accepted
      rcases hfewer with hfewer | ⟨rfl, hnil⟩
      · have hinterrupts : e.Interrupts := by
          rcases he with rfl | ⟨x, rfl⟩
          · trivial
          · trivial
        exact .struck hstruck hinterrupts haccepted hnext hcall (Or.inr ⟨rfl, hfewer⟩)
      · obtain ⟨final, hplain, hargs, hposition⟩ := hend hnil
        rw [toOutcome_of_some T hplain rfl] at hcall
        cases hcall
        exact .ends hstruck hargs hposition

theorem CallProceeds.resumes {budget : Nat} {result : Except (ParseFailure ε) (Outcome ρ)}
    {plain' : Session σ ι τ ς} (h : CallProceeds T s budget result plain')
    (hreading : s.parser.accepted = false)
    (hagain : ∀ (between : Session σ ι τ ς) (next : Session σ ι τ (Script ε τ)) (left : Nat),
      Mirrors between next → next.parser.accepted = false →
      between.toOutcome T left = some (result, plain') →
      left < budget ∨
        (left = budget ∧ next.source.answers.length < s.source.answers.length) →
      ∃ ready last, Resumes T next [] ready ∧
        ready.Reports T ⟨result, plain'.args, plain'.parser.position⟩ last) :
    ∃ ready last, Resumes T s [] ready ∧
      ready.Reports T ⟨result, plain'.args, plain'.parser.position⟩ last := by
  have hcalls (report : Report ι ρ τ ε) (next : Session σ ι τ (Script ε τ))
      (hend : s.toOutcome T budget = some (report.result, next))
      (hargs : report.args = next.args) (hposition : report.position = next.parser.position) :
      s.Reports T report next := by
    refine ⟨budget, ?_, hargs, hposition⟩
    rw [nextOutcome, hreading]
    exact hend
  cases h with
  | @ends next hend hargs hposition => exact ⟨s, next, .refl s, hcalls _ next hend hargs hposition⟩
  | @struck e next between left hstruck he haccepted hbetween hleft hfewer =>
    obtain ⟨ready, last, hresumes, hreport⟩ :=
      hagain between next left hbetween (haccepted.trans hreading) hleft hfewer
    have hinterruption := hcalls ⟨.error e, next.args, next.parser.position⟩ next hstruck rfl rfl
    exact ⟨ready, last, .interruption hinterruption rfl he hresumes, hreport⟩

/-- A call that is made again after each interruption, with room for its turns, comes to its
end. -/
theorem Mirrors.resumes {plain plain' : Session σ ι τ ς} {s : Session σ ι τ (Script ε τ)}
    (hm : Mirrors plain s) (budget : Nat) (hreading : s.parser.accepted = false)
    {result : Except (ParseFailure ε) (Outcome ρ)}
    (hcall : plain.toOutcome T budget = some (result, plain')) :
    ∃ ready last, Resumes T s [] ready ∧
      ready.Reports T ⟨result, plain'.args, plain'.parser.position⟩ last := by
  let roomy : Session σ ι τ (Script ε τ) :=
    { s with parser := s.parser.limitSteps Parser.maxCount }
  have hroom : ∀ limit, roomy.parser.stepLimit = some limit → Parser.maxCount ≤ limit :=
    fun _ hlimit => Nat.le_of_eq (Option.some.inj hlimit)
  have hproceeds : CallProceeds T roomy budget result plain' :=
    Mirrors.proceeds T (hm.limitSteps _) hcall hroom
  -- Each interruption leaves fewer turns to make, or as many and fewer answers of the source.
  obtain ⟨ready, last, hresumes, hreport⟩ := hproceeds.resumes T hreading
    fun between next left hbetween hnext hleft hfewer => resumes hbetween left hnext hleft
  exact ⟨ready, last, .limit _ hresumes, hreport⟩
termination_by (budget, s.source.answers.length)
decreasing_by exact Prod.lex_def.mpr hfewer

/-- What an uninterrupted call reports is reported in spite of interruptions, if the call is made
again with enough room under the step limit. -/
theorem Mirrors.catchesUp (hm : Mirrors plain s) {report : Report ι ρ τ ε}
    {plain' : Session σ ι τ ς} (h : plain.Reports T report plain') :
    ∃ ready last, Resumes T s [] ready ∧ ready.Reports T report last := by
  obtain ⟨result, args, position⟩ := report
  obtain ⟨budget, hcall, hargs, hposition⟩ := h
  unfold nextOutcome at hcall
  cases haccepted : s.parser.accepted with
  | true =>
    rw [hm.accepted, haccepted, if_pos rfl, Option.some.injEq, Prod.mk.injEq] at hcall
    obtain ⟨hresult, rfl⟩ := hcall
    refine ⟨s, s, .refl s, 0, ?_, hargs.trans hm.args, hposition.trans hm.position⟩
    rw [nextOutcome, haccepted, if_pos rfl, hresult]
  | false =>
    rw [hm.accepted, haccepted] at hcall
    simp only at hargs hposition
    subst hargs hposition
    exact hm.resumes T budget haccepted hcall

end Session

/-- Calls made again after every interruption report the outcomes of the uninterrupted parse, in
order and to the end, and no token is lost or read twice. -/
theorem interruptions_invisible {σ ι ρ τ ε ς : Type} [Token τ ι] [TokenSource ς ε τ]
    (T : ParseTable σ ι ρ) (script : Script ε τ) (source : ς)
    (hsource : Supplies source script.tokens) (reports : List (Report ι ρ τ ε))
    (s : Session σ ι τ (Script ε τ)) (h : Session.Resumes T (.start T script) reports s) :
    (∃ plain : Session σ ι τ ς, Session.Plays T (.start T source) reports plain ∧
      (∀ report next, s.Reports T report next →
        (∀ e, report.result = .error e → e.Interrupts →
          e = .unexpectedEnd ∧ next.source.tokens = []) →
        ∃ plain', plain.Reports T report plain') ∧
      ∀ report plain', plain.Reports T report plain' →
        ∃ ready next, Session.Resumes T s [] ready ∧ ready.Reports T report next) ∧
    (∃ read, script.tokens = read ++ s.parser.lookahead.toList ++ s.source.tokens ∧
      read.length = s.parser.position) ∧
    ∃ report next, s.Reports T report next := by
  have hstart := Session.mirrors_start T hsource
  obtain ⟨calls, plain, hplays, hleads, hmirrors⟩ := h.plays T (.refl T _) hstart
  refine ⟨⟨calls, hplays, ?_, ?_⟩, ?_, Session.exists_reports T s⟩
  · intro report next hreport hend
    cases hmirrors.call T hreport with
    | same hplain => exact ⟨_, hleads.reports T hplain⟩
    | interrupted herror hinterrupts hmore _ hfinal =>
      obtain ⟨hunexpected, hnil⟩ := hend _ herror hinterrupts
      obtain ⟨final, hplain⟩ := hfinal hunexpected hnil
      exact ⟨final, hleads.reports T hplain⟩
  · intro report plain' hreport
    exact hmirrors.catchesUp T (hleads.of_reports T hreport)
  · have hnone : Session.Accounted script.tokens (Session.start T script) := ⟨[], rfl, rfl⟩
    obtain ⟨read, htokens, hlength⟩ := hnone.resumes T h
    exact ⟨read, by rw [htokens, Session.ahead, List.append_assoc], hlength⟩

/-- A table for the one word `x $`, with `x` as 1 and `$` as 0, that reduces `x` to 2. -/
def wordTable : ParseTable Nat Nat Nat :=
  ExplicitTable.parseTable ⟨0, [((0, 1), .ok (.shift 1)), ((1, 0), .ok (.reduce 7 2 1)),
    ((0, 2), .ok (.goto 2)), ((2, 0), .ok .accept)]⟩

/-- The source fails, the step limit stops the parser, and the source ends before its time. -/
theorem interruptions_invisible_word :
    let x : Lexeme Nat := ⟨1, "x"⟩
    let script : Script String (Lexeme Nat) :=
      ⟨[some (.error "?"), some (.ok x), none, some (.ok ⟨0, ""⟩)]⟩
    let report : Report Nat Nat (Lexeme Nat) String := ⟨.ok (.reduce 7), [some (.token x)], 1⟩
    (∃ s, Session.Resumes wordTable (.start wordTable script) [report] s) ∧
    ∃ plain, Session.Plays wordTable (.start wordTable (script.tokens.map Except.ok)) [report]
      plain := by
  intro x script report
  let told (result : Except (ParseFailure String) (Outcome Nat)) (position : Nat) :
    Report Nat Nat (Lexeme Nat) String := ⟨result, [], position⟩
  have hresumes : ∃ s, Session.Resumes wordTable (.start wordTable script) [report] s :=
    ⟨_, .interruption (show Session.Reports wordTable _ (told (.error (.lexer "?")) 0) _
        from ⟨1, rfl, rfl, rfl⟩) rfl trivial <| .limit 1 <|
      .interruption (show Session.Reports wordTable _ (told (.error (.stepLimitExceeded 1)) 0) _
        from ⟨1, rfl, rfl, rfl⟩) rfl trivial <| .limit 9 <|
      .interruption (show Session.Reports wordTable _ (told (.error .unexpectedEnd) 1) _
        from ⟨2, rfl, rfl, rfl⟩) rfl trivial <|
      .outcome (show Session.Reports wordTable _ report _
        from ⟨1, rfl, rfl, rfl⟩) rfl (.refl _)⟩
  obtain ⟨s, hs⟩ := hresumes
  obtain ⟨⟨plain, hplays, -⟩, -⟩ := interruptions_invisible wordTable script
    (script.tokens.map Except.ok) (supplies_ok String _) [report] s hs
  exact ⟨⟨s, hs⟩, plain, hplays⟩

end ShiftReduce

