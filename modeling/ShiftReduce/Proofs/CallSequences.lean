import ShiftReduce.Proofs.CallReports
import ShiftReduce.Proofs.TokenSymbols

namespace ShiftReduce

namespace Turn

variable {σ ι ρ ε : Type}

/-- A last turn has a result, which is no reduction. -/
theorem result_of_isLast {turn : Turn σ ι ρ ε} (h : turn.isLast = true) :
    ∃ result, turn.result? = some result ∧ ∀ rule, result ≠ .ok (.reduce rule) := by
  cases turn with
  | shifted => cases h
  | reduced => cases h
  | accepted => exact ⟨_, rfl, fun rule => by simp⟩
  | rejected => exact ⟨_, rfl, fun rule => by simp⟩
  | failed => exact ⟨_, rfl, fun rule => by simp⟩

theorem isLast_of_result {turn : Turn σ ι ρ ε} {result : Except (ParseFailure ε) (Outcome ρ)}
    (h : turn.result? = some result) (hlast : ∀ rule, result ≠ .ok (.reduce rule)) :
    turn.isLast = true := by
  cases turn with
  | shifted => cases h
  | reduced rule => exact False.elim (hlast rule (Option.some.inj h).symm)
  | accepted => rfl
  | rejected => rfl
  | failed => rfl

theorem eq_reduced_of_result {turn : Turn σ ι ρ ε} {rule : ρ}
    (h : turn.result? = some (.ok (.reduce rule))) :
    ∃ head target, turn = .reduced rule head target := by
  cases turn with
  | reduced _ head target =>
    cases h
    exact ⟨head, target, rfl⟩
  | shifted | accepted | rejected | failed => cases h

end Turn

namespace Session

variable {σ ι ρ τ ε ς : Type} [Token τ ι] [TokenSource ς ε τ] (T : ParseTable σ ι ρ)

/-- Calls up to acceptance or the first failure, with what each of them reports. -/
inductive Drives : Session σ ι τ ς → List (Report ι ρ τ ε) → Session σ ι τ ς → Prop
  | last {s last : Session σ ι τ ς} {report : Report ι ρ τ ε} :
      s.Reports T report last → (∀ rule, report.result ≠ .ok (.reduce rule)) →
      Drives s [report] last
  | reduce {s next last : Session σ ι τ ς} {report : Report ι ρ τ ε}
      {reports : List (Report ι ρ τ ε)} {rule : ρ} :
      s.Reports T report next → report.result = .ok (.reduce rule) → Drives next reports last →
      Drives s (report :: reports) last

omit [Token τ ι] [TokenSource ς ε τ] in
/-- What a call reports that leaves this session. -/
def reported (s : Session σ ι τ ς) (result : Except (ParseFailure ε) (Outcome ρ)) :
    Report ι ρ τ ε := ⟨result, s.args, s.parser.position⟩

/-- Turns that shift or reduce, with what the calls report that the reductions end. -/
inductive Performs : Session σ ι τ ς → List (Report ι ρ τ ε) → Session σ ι τ ς → Prop
  | refl (s : Session σ ι τ ς) : Performs s [] s
  | shift {s next last : Session σ ι τ ς} {reports : List (Report ι ρ τ ε)} {X : ι}
      {position : Nat} {target : σ} :
      s.turn T = (.shifted X position target, next) → Performs next reports last →
      Performs s reports last
  | reduce {s next last : Session σ ι τ ς} {reports : List (Report ι ρ τ ε)} {rule : ρ} {head : ι}
      {target : σ} :
      s.turn T = (.reduced rule head target, next) → Performs next reports last →
      Performs s (next.reported (.ok (.reduce rule)) :: reports) last

/-- A call shifts up to the turn whose result it reports. -/
theorem advances_of_reports {s next : Session σ ι τ ς} {report : Report ι ρ τ ε}
    (hreading : s.parser.accepted = false) (h : s.Reports T report next) :
    ∃ last turn, Advances T s [] last ∧ last.turn T = (turn, next) ∧
      turn.result? = some report.result ∧ report = next.reported report.result := by
  obtain ⟨budget, hcall, hargs, hposition⟩ := h
  rw [nextOutcome, hreading] at hcall
  obtain ⟨last, turn, hadv, hturn, hresult⟩ := advances_of_toOutcome T budget s next _ hcall
  refine ⟨last, turn, hadv, hturn, hresult, ?_⟩
  rw [reported, ← hargs, ← hposition]

theorem reading_of_turn {s next : Session σ ι τ ς} {turn : Turn σ ι ρ ε}
    (hreading : s.parser.accepted = false) (hturn : s.turn T = (turn, next))
    (hmore : turn.isLast = false) : next.parser.accepted = false := by
  have hsame := accepted_turn T s (by rw [hturn]; exact hmore)
  rw [hturn] at hsame
  exact hsame.trans hreading

theorem Performs.of_advances {s last : Session σ ι τ ς} (h : Advances T s [] last) :
    Performs T s [] last := by
  generalize hrules : ([] : List ρ) = rules at h
  induction h with
  | refl => exact .refl _
  | shift hturn _ ih => exact .shift hturn (ih hrules)
  | reduce => cases hrules

theorem Performs.trans {s next last : Session σ ι τ ς} {reports more : List (Report ι ρ τ ε)}
    (h : Performs T s reports next) (hmore : Performs T next more last) :
    Performs T s (reports ++ more) last := by
  induction h with
  | refl => exact hmore
  | shift hturn _ ih => exact .shift hturn (ih hmore)
  | reduce hturn _ ih => exact .reduce hturn (ih hmore)

theorem Drives.of_leadsTo {s next last : Session σ ι τ ς} {reports : List (Report ι ρ τ ε)}
    (h : LeadsTo T s next) (hdrives : Drives T next reports last) : Drives T s reports last := by
  cases hdrives with
  | last hreport hlast => exact .last (h.reports T hreport) hlast
  | reduce hreport hresult hrest => exact .reduce (h.reports T hreport) hresult hrest

/-- Calls up to acceptance or the first failure are turns that shift or reduce, and a last one. -/
theorem drives_iff {s last : Session σ ι τ ς} {reports : List (Report ι ρ τ ε)}
    (hreading : s.parser.accepted = false) :
    Drives T s reports last ↔ ∃ earlier before turn result, Performs T s earlier before ∧
      before.turn T = (turn, last) ∧ turn.isLast = true ∧ turn.result? = some result ∧
      reports = earlier ++ [last.reported result] := by
  constructor
  · intro h
    induction h with
    | last hreport hlast =>
      obtain ⟨before, turn, hadv, hturn, hresult, hreported⟩ :=
        advances_of_reports T hreading hreport
      refine ⟨[], before, turn, _, .of_advances T hadv, hturn,
        Turn.isLast_of_result hresult hlast, hresult, ?_⟩
      rw [List.nil_append, ← hreported]
    | @reduce s next last report reports rule hreport hrule _ ih =>
      obtain ⟨ready, turn, hadv, hturn, hresult, hreported⟩ :=
        advances_of_reports T hreading hreport
      rw [hrule] at hresult hreported
      obtain ⟨head, target, rfl⟩ := Turn.eq_reduced_of_result hresult
      have hnext : next.parser.accepted = false :=
        reading_of_turn T ((accepted_of_advances T hadv).trans hreading) hturn rfl
      obtain ⟨earlier, before, turn, result, hperforms, hlast⟩ := ih hnext
      obtain ⟨hlast, hisLast, hfinal, rfl⟩ := hlast
      refine ⟨report :: earlier, before, turn, result, ?_, hlast, hisLast, hfinal, rfl⟩
      rw [hreported]
      exact (Performs.of_advances T hadv).trans T (.reduce hturn hperforms)
  · rintro ⟨earlier, before, turn, result, h, hturn, hlast, hresult, rfl⟩
    induction h with
    | refl =>
      refine .last (reports_of_turn T hreading hturn hresult rfl rfl) ?_
      obtain ⟨result', hresult', hother⟩ := Turn.result_of_isLast hlast
      cases hresult.symm.trans hresult'
      exact hother
    | shift hfirst _ ih =>
      have hleads := LeadsTo.of_advances T (.shift hfirst (.refl _)) hreading
      exact (ih (reading_of_turn T hreading hfirst rfl) hturn).of_leadsTo T hleads
    | @reduce s next _ _ rule _ _ hfirst _ ih =>
      have hreport : s.Reports T (next.reported (.ok (.reduce rule))) next :=
        reports_of_turn T hreading hfirst rfl rfl rfl
      exact .reduce hreport rfl (ih (reading_of_turn T hreading hfirst rfl) hturn)

theorem Performs.unique {s last last' : Session σ ι τ ς} {reports reports' : List (Report ι ρ τ ε)}
    (h : Performs T s reports last) (hlast : (last.turn T).1.isLast = true)
    (h' : Performs T s reports' last') (hlast' : (last'.turn T).1.isLast = true) :
    reports = reports' ∧ last = last' := by
  induction h generalizing reports' with
  | refl =>
    cases h' with
    | refl => exact ⟨rfl, rfl⟩
    | shift hturn | reduce hturn =>
      rw [hturn] at hlast
      cases hlast
  | shift hturn _ ih =>
    cases h' with
    | refl =>
      rw [hturn] at hlast'
      cases hlast'
    | shift hturn' hrest' =>
      cases hturn.symm.trans hturn'
      exact ih hlast hrest'
    | reduce hturn' => cases hturn.symm.trans hturn'
  | reduce hturn _ ih =>
    cases h' with
    | refl =>
      rw [hturn] at hlast'
      cases hlast'
    | shift hturn' => cases hturn.symm.trans hturn'
    | reduce hturn' hrest' =>
      cases hturn.symm.trans hturn'
      obtain ⟨rfl, hsame⟩ := ih hlast hrest'
      exact ⟨rfl, hsame⟩

theorem Drives.iff_eq {s last : Session σ ι τ ς} {reports : List (Report ι ρ τ ε)}
    (hreading : s.parser.accepted = false) (h : Drives T s reports last)
    (reports' : List (Report ι ρ τ ε)) (last' : Session σ ι τ ς) :
    Drives T s reports' last' ↔ reports' = reports ∧ last' = last := by
  refine ⟨fun h' => ?_, fun ⟨hreports, hend⟩ => by rw [hreports, hend]; exact h⟩
  obtain ⟨earlier, before, turn, result, hperforms, hturn, hlast, hresult, rfl⟩ :=
    (drives_iff T hreading).mp h
  obtain ⟨earlier', before', turn', result', hperforms', hturn', hlast', hresult', rfl⟩ :=
    (drives_iff T hreading).mp h'
  obtain ⟨rfl, rfl⟩ := hperforms.unique T (by rw [hturn]; exact hlast) hperforms'
    (by rw [hturn']; exact hlast')
  cases hturn.symm.trans hturn'
  cases hresult.symm.trans hresult'
  exact ⟨rfl, rfl⟩

/-- Turns that shift or reduce belong to calls that report the reductions, and to a call that has
only shifted so far. -/
theorem Performs.plays {s last : Session σ ι τ ς} {reports : List (Report ι ρ τ ε)}
    (hreading : s.parser.accepted = false) (h : Performs T s reports last) :
    ∃ called, Plays T s reports called ∧ Advances T called [] last := by
  induction h with
  | refl s => exact ⟨s, .refl s, .refl s⟩
  | @shift s next _ _ _ _ _ hturn _ ih =>
    obtain ⟨called, hplays, hadv⟩ := ih (reading_of_turn T hreading hturn rfl)
    cases hplays with
    | refl => exact ⟨s, .refl s, .shift hturn hadv⟩
    | outcome hreport hresult hrest =>
      have hleads := LeadsTo.of_advances T (.shift hturn (.refl next)) hreading
      exact ⟨called, .outcome (hleads.reports T hreport) hresult hrest, hadv⟩
  | @reduce s next _ _ rule _ _ hturn _ ih =>
    obtain ⟨called, hplays, hadv⟩ := ih (reading_of_turn T hreading hturn rfl)
    have hreport : s.Reports T (next.reported (.ok (.reduce rule))) next :=
      reports_of_turn T hreading hturn rfl rfl rfl
    exact ⟨called, .outcome hreport rfl hplays, hadv⟩

theorem steps_of_turn {s next : Session σ ι τ ς} {turn : Turn σ ι ρ ε}
    (hturn : s.turn T = (turn, next)) : next.parser.steps = s.parser.steps + 1 := by
  have hsteps := (steps_turn T s).1
  rwa [hturn] at hsteps

theorem turnsUntil_last {s next : Session σ ι τ ς} {turn : Turn σ ι ρ ε}
    (hturn : s.turn T = (turn, next)) (hlast : turn.isLast = true) (budget : Nat) :
    s.turnsUntil T Turn.isLast (budget + 1) = [turn] := by
  rw [turnsUntil, hturn]
  exact if_pos hlast

theorem turnsUntil_more {s next : Session σ ι τ ς} {turn : Turn σ ι ρ ε}
    (hturn : s.turn T = (turn, next)) (hmore : turn.isLast = false) (budget : Nat) :
    s.turnsUntil T Turn.isLast (budget + 1) = turn :: next.turnsUntil T Turn.isLast budget := by
  rw [turnsUntil, hturn]
  exact if_neg (by rw [hmore]; exact Bool.false_ne_true)

theorem exists_turnsUntil {s next : Session σ ι τ ς} {turn : Turn σ ι ρ ε}
    (hturn : s.turn T = (turn, next)) (budget : Nat) :
    ∃ turns, s.turnsUntil T Turn.isLast (budget + 1) = turn :: turns := by
  cases hlast : turn.isLast with
  | true => exact ⟨_, turnsUntil_last T hturn hlast budget⟩
  | false => exact ⟨_, turnsUntil_more T hturn hlast budget⟩

/-- A parse of the first session takes these turns and goes on as a parse of the second; each of
them counts. -/
structure Takes (s : Session σ ι τ ς) (turns : List (Turn σ ι ρ ε)) (last : Session σ ι τ ς) :
    Prop where
  steps : last.parser.steps = s.parser.steps + turns.length
  turnsUntil : ∀ budget, s.turnsUntil T Turn.isLast (turns.length + budget) =
    turns ++ last.turnsUntil T Turn.isLast budget

theorem Takes.cons {s next last : Session σ ι τ ς} {turn : Turn σ ι ρ ε}
    {turns : List (Turn σ ι ρ ε)} (hturn : s.turn T = (turn, next)) (hmore : turn.isLast = false)
    (h : Takes T next turns last) : Takes T s (turn :: turns) last where
  steps := by
    rw [List.length_cons, h.steps, steps_of_turn T hturn]
    omega
  turnsUntil budget := by
    rw [List.length_cons, Nat.succ_add, turnsUntil_more T hturn hmore, h.turnsUntil,
      List.cons_append]

theorem Performs.takes {s last : Session σ ι τ ς} {reports : List (Report ι ρ τ ε)}
    (h : Performs T s reports last) : ∃ turns, Takes T s turns last := by
  induction h with
  | refl s =>
    exact ⟨[], rfl, fun budget => by rw [List.length_nil, Nat.zero_add, List.nil_append]⟩
  | shift hturn _ ih | reduce hturn _ ih =>
    obtain ⟨turns, hturns⟩ := ih
    exact ⟨_, hturns.cons T hturn rfl⟩

/-- For any number of turns: the parser performs as many without acceptance or failure, or comes to
a last turn before. -/
theorem performs_or_stops (turns : Nat) (s : Session σ ι τ ς) :
    ∃ (reports : List (Report ι ρ τ ε)) (last : Session σ ι τ ς), Performs T s reports last ∧
      (last.parser.steps = s.parser.steps + turns ∨
        (last.parser.steps < s.parser.steps + turns ∧ (last.turn T).1.isLast = true)) := by
  induction turns generalizing s with
  | zero => exact ⟨[], s, .refl s, Or.inl rfl⟩
  | succ turns ih =>
    rcases hturn : s.turn T with ⟨turn, next⟩
    obtain ⟨reports, last, hperforms, hcount⟩ := ih next
    rw [steps_of_turn T hturn, Nat.add_assoc, Nat.add_comm 1] at hcount
    cases turn with
    | shifted => exact ⟨reports, last, .shift hturn hperforms, hcount⟩
    | reduced rule => exact ⟨_, last, .reduce hturn hperforms, hcount⟩
    | accepted | rejected | failed =>
      exact ⟨[], s, .refl s, Or.inr ⟨by omega, by rw [hturn]; rfl⟩⟩

/-- Where no calls come to their end within so many turns, the parser takes them all. -/
theorem exists_performs {s : Session σ ι τ ς} {turns : Nat} (hreading : s.parser.accepted = false)
    (hbeyond : ∀ (reports : List (Report ι ρ τ ε)) last, Drives T s reports last →
      s.parser.steps + turns < last.parser.steps) :
    ∃ (reports : List (Report ι ρ τ ε)) (before : Session σ ι τ ς),
      Performs T s reports before ∧ before.parser.steps = s.parser.steps + turns := by
  obtain ⟨reports, before, hperforms, hsteps | ⟨hfew, hlast⟩⟩ := performs_or_stops T turns s
  · exact ⟨reports, before, hperforms, hsteps⟩
  · rcases hturn : before.turn T with ⟨turn, last⟩
    rw [hturn] at hlast
    obtain ⟨result, hresult, -⟩ := Turn.result_of_isLast hlast
    have hdrives := (drives_iff T hreading).mpr
      ⟨reports, before, turn, result, hperforms, hturn, hlast, hresult, rfl⟩
    have hsteps := steps_of_turn T hturn
    have hexceeds := hbeyond _ _ hdrives
    omega

end Session
end ShiftReduce
