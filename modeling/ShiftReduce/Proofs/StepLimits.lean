import ShiftReduce.Proofs.CallSequences
import ShiftReduce.Proofs.InterruptedTurns
import ShiftReduce.Proofs.ParseTermination

namespace ShiftReduce

namespace Turn

variable {σ ι ρ ε : Type}

/-- The first `left` turns, and the failure of the step limit in the place of any others. -/
def cutOff (limit left : Nat) (turns : List (Turn σ ι ρ ε)) : List (Turn σ ι ρ ε) :=
  turns.take left ++ if left < turns.length then [.failed (.stepLimitExceeded limit)] else []

theorem cutOff_append (limit : Nat) (turns more : List (Turn σ ι ρ ε)) :
    cutOff limit turns.length (turns ++ more) = turns ++ cutOff limit 0 more := by
  rw [cutOff, cutOff, List.take_left, List.take_zero, List.nil_append, List.length_append]
  simp only [Nat.lt_add_right_iff_pos]

theorem cutOff_nil (limit left : Nat) : cutOff limit left ([] : List (Turn σ ι ρ ε)) = [] := by
  rw [cutOff, List.take_nil, List.length_nil, if_neg (Nat.not_lt_zero left), List.nil_append]

theorem cutOff_zero (limit : Nat) (turn : Turn σ ι ρ ε) (turns : List (Turn σ ι ρ ε)) :
    cutOff limit 0 (turn :: turns) = [.failed (.stepLimitExceeded limit)] := by
  rw [cutOff, List.take_zero, List.length_cons, if_pos (Nat.zero_lt_succ _), List.nil_append]

theorem cutOff_succ (limit left : Nat) (turn : Turn σ ι ρ ε) (turns : List (Turn σ ι ρ ε)) :
    cutOff limit (left + 1) (turn :: turns) = turn :: cutOff limit left turns := by
  rw [cutOff, cutOff, List.take_succ_cons, List.length_cons, List.cons_append]
  simp only [Nat.add_lt_add_iff_right]

end Turn

namespace Session

variable {σ ι ρ τ ε ς : Type}

/-- The session with a step limit. -/
def limited (s : Session σ ι τ ς) (limit : Nat) : Session σ ι τ ς :=
  { s with parser := s.parser.limitSteps limit }

theorem respond_limited [Token τ ι] (T : ParseTable σ ι ρ) (s : Session σ ι τ ς) (limit : Nat)
    (tok : τ) (answer : Except LookupError (Move σ ι ρ)) :
    (s.limited limit).respond (ε := ε) T tok answer =
      ((s.respond (ε := ε) T tok answer).1, (s.respond (ε := ε) T tok answer).2.limited limit) := by
  have hredirect := s.respond_redirect (ε := ε) T s.parser.steps (some limit) s.source tok answer
  have heffect := effect_respond (ε := ε) T s tok answer
  generalize s.respond (ε := ε) T tok answer = result at hredirect heffect
  cases heffect with
  | shift | reduce | accept | reject | fail => exact hredirect

variable [TokenSource ς ε τ]

theorem peek_limited (s : Session σ ι τ ς) (limit : Nat) :
    (s.limited limit).peek = (s.peek.1, s.peek.2.limited limit) := by
  have hlookahead : (s.limited limit).parser.lookahead = s.parser.lookahead := rfl
  have hsource : (s.limited limit).source = s.source := rfl
  unfold peek
  rw [hlookahead, hsource]
  cases s.parser.lookahead with
  | some tok => rfl
  | none => rcases TokenSource.pull s.source with ⟨_ | ⟨x | tok⟩, rest⟩ <;> rfl

variable [Token τ ι] (T : ParseTable σ ι ρ)

theorem act_limited (s : Session σ ι τ ς) (limit : Nat) (current : σ) :
    (s.limited limit).act T current = ((s.act T current).1, (s.act T current).2.limited limit) := by
  have hpeek' := s.peek_limited limit
  rcases s.peek_cases with ⟨tok, source, hpeek⟩ | ⟨e, source, hpeek, -⟩
  · rw [hpeek] at hpeek'
    rw [act_of_peek T _ _ current tok hpeek, act_of_peek T _ _ current tok hpeek']
    exact respond_limited T _ limit tok _
  · rw [hpeek] at hpeek'
    unfold act
    rw [hpeek, hpeek']

theorem turn_within (s : Session σ ι τ ς) (limit : Nat) (hplain : s.parser.stepLimit = none)
    (hwithin : s.counted.parser.counter ≤ limit) :
    (s.limited limit).turn T = ((s.turn T).1, (s.turn T).2.limited limit) := by
  have hcounted : (s.limited limit).counted = s.counted.limited limit := rfl
  have hstates : (s.counted.limited limit).parser.states = s.counted.parser.states := rfl
  have hexceeded : (s.counted.limited limit).parser.exceededLimit = none :=
    Parser.exceededLimit_eq_none rfl hwithin
  rw [turn_eq, turn_eq, hcounted, hexceeded, exceededLimit_counted s hplain, hstates]
  cases s.counted.parser.states with
  | nil => rfl
  | cons current below => exact s.counted.act_limited T limit current

/-- Beyond the limit every turn fails, before anything is read. -/
theorem turn_beyond (s : Session σ ι τ ς) (limit : Nat)
    (hbeyond : limit < s.counted.parser.counter) :
    (s.limited limit).turn T =
      (.failed (.stepLimitExceeded limit), (s.limited limit).counted) := by
  have hexceeded : (s.limited limit).counted.parser.exceededLimit = some limit :=
    Parser.exceededLimit_eq_some_iff.mpr ⟨rfl, hbeyond⟩
  rw [turn_eq, hexceeded]

omit [TokenSource ς ε τ] [Token τ ι] in
theorem counter_counted {s : Session σ ι τ ς} (h : s.parser.steps < Parser.maxCount) :
    s.counted.parser.counter = s.parser.steps + 1 := Parser.counter_of_le h

/-- The turn after as many as the limit fails. -/
theorem turn_of_used (s : Session σ ι τ ς) {limit : Nat} (hlimit : limit < Parser.maxCount)
    (hused : s.parser.steps = limit) :
    (s.limited limit).turn T =
      (.failed (.stepLimitExceeded limit), (s.limited limit).counted) := by
  apply s.turn_beyond T limit
  rw [counter_counted (Nat.lt_of_le_of_lt (Nat.le_of_eq hused) hlimit), hused]
  exact Nat.lt_succ_self limit

theorem limited_of_turn {s next : Session σ ι τ ς} {turn : Turn σ ι ρ ε} {limit : Nat}
    (hturn : s.turn T = (turn, next)) (hplain : s.parser.stepLimit = none)
    (hwithin : s.counted.parser.counter ≤ limit) :
    (s.limited limit).turn T = (turn, next.limited limit) ∧ next.parser.stepLimit = none := by
  have hkept := (steps_turn T s).2
  have hturn' := s.turn_within T limit hplain hwithin
  rw [hturn] at hturn' hkept
  exact ⟨hturn', hkept.trans hplain⟩

/-- A counter that has not come round to zero stays within a limit that the turns stay within. -/
theorem counter_le_of_turn {s next : Session σ ι τ ς} {turn : Turn σ ι ρ ε} {limit : Nat}
    (hturn : s.turn T = (turn, next)) (hlimit : limit ≤ Parser.maxCount)
    (hwithin : next.parser.steps ≤ limit) : s.counted.parser.counter ≤ limit := by
  have hsteps := steps_of_turn T hturn
  rw [counter_counted (by omega)]
  omega

/-- Turns that shift or reduce are taken with a limit as well, if there are not too many. -/
theorem Performs.limited {s last : Session σ ι τ ς} {reports : List (Report ι ρ τ ε)} {limit : Nat}
    (h : Performs T s reports last) (hplain : s.parser.stepLimit = none)
    (hlimit : limit ≤ Parser.maxCount) (hwithin : last.parser.steps ≤ limit) :
    Performs T (s.limited limit) reports (last.limited limit) ∧ last.parser.stepLimit = none := by
  have hle {next last : Session σ ι τ ς} {reports : List (Report ι ρ τ ε)}
      (h : Performs T next reports last) : next.parser.steps ≤ last.parser.steps := by
    obtain ⟨turns, hturns⟩ := h.takes T
    rw [hturns.steps]
    exact Nat.le_add_right _ _
  induction h with
  | refl => exact ⟨.refl _, hplain⟩
  | shift hturn hrest ih =>
    obtain ⟨hturn', hplain'⟩ := limited_of_turn T hturn hplain
      (counter_le_of_turn T hturn hlimit (Nat.le_trans (hle hrest) hwithin))
    obtain ⟨hrest', hlast⟩ := ih hplain' hwithin
    exact ⟨.shift hturn' hrest', hlast⟩
  | @reduce s next last reports rule _ _ hturn hrest ih =>
    obtain ⟨hturn', hplain'⟩ := limited_of_turn T hturn hplain
      (counter_le_of_turn T hturn hlimit (Nat.le_trans (hle hrest) hwithin))
    obtain ⟨hrest', hlast⟩ := ih hplain' hwithin
    have hperforms : Performs T (s.limited limit)
        ((next.limited limit).reported (.ok (.reduce rule)) :: reports) (last.limited limit) :=
      .reduce hturn' hrest'
    exact ⟨hperforms, hlast⟩

/-- With a limit the turns of a parse are the first of those without one, and then a failure. -/
theorem turnsUntil_limited (budget : Nat) {s : Session σ ι τ ς} {limit left : Nat}
    (hplain : s.parser.stepLimit = none) (hlimit : limit < Parser.maxCount)
    (hleft : s.parser.steps + left = limit) :
    turnsUntil T Turn.isLast budget (s.limited limit) =
      Turn.cutOff limit left (turnsUntil T Turn.isLast budget s) := by
  induction budget generalizing s left with
  | zero => exact (Turn.cutOff_nil limit left).symm
  | succ budget ih =>
    rcases hturn : s.turn T with ⟨turn, next⟩
    cases left with
    | zero =>
      have hfailed := s.turn_of_used T hlimit hleft
      obtain ⟨turns, hturns⟩ := exists_turnsUntil T hturn budget
      rw [turnsUntil_last T hfailed rfl budget, hturns, Turn.cutOff_zero]
    | succ left =>
      have hsteps := steps_of_turn T hturn
      obtain ⟨hturn', hplain'⟩ := limited_of_turn T hturn hplain
        (counter_le_of_turn T hturn (Nat.le_of_lt hlimit) (by omega))
      cases hlast : turn.isLast with
      | true =>
        rw [turnsUntil_last T hturn hlast, turnsUntil_last T hturn' hlast, Turn.cutOff_succ,
          Turn.cutOff_nil]
      | false =>
        have hleft' : next.parser.steps + left = limit := by omega
        rw [turnsUntil_more T hturn hlast, turnsUntil_more T hturn' hlast, Turn.cutOff_succ,
          ih hplain' hleft']

theorem turn_of_spent {s : Session σ ι τ ς} {limit : Nat}
    (hlimit : s.parser.stepLimit = some limit) (hspent : limit < s.counted.parser.counter) :
    s.turn T = (.failed (.stepLimitExceeded limit), s.counted) := by
  have hsame : s.limited limit = s := by rw [limited, Parser.limitSteps, ← hlimit]
  have hfailed := s.turn_beyond T limit hspent
  rwa [hsame] at hfailed

/-- A parse with a limit below the largest count comes to an end, at the latest with the turn after
the last that the limit allows. -/
theorem exists_toAcceptance (budget : Nat) {s : Session σ ι τ ς} {limit : Nat}
    (hlimit : s.parser.stepLimit = some limit) (hless : limit < Parser.maxCount)
    (henough : limit < s.counted.parser.counter + budget) (rules : List ρ) :
    ∃ answer, toAcceptance T (budget + 1) rules s = some answer := by
  induction budget generalizing s rules with
  | zero =>
    have hfailed := turn_of_spent T hlimit henough
    exact toAcceptance_of_isLast T rules s (by rw [hfailed]; rfl)
  | succ budget ih =>
    by_cases hspent : limit < s.counted.parser.counter
    · rw [toAcceptance, turn_of_spent T hlimit hspent]
      exact ⟨_, rfl⟩
    · rcases hturn : s.turn T with ⟨turn, next⟩
      have hkept := (steps_turn T s).2
      rw [hturn, hlimit] at hkept
      have hcount : next.counted.parser.counter = s.counted.parser.counter + 1 :=
        Parser.counter_succ (congrArg (· + 1) (steps_of_turn T hturn)) (by omega)
      have henough' : limit < next.counted.parser.counter + budget := by omega
      rw [toAcceptance, hturn]
      cases turn with
      | shifted => exact ih hkept henough' rules
      | reduced rule => exact ih hkept henough' (rule :: rules)
      | accepted | rejected | failed => exact ⟨_, rfl⟩

theorem parse_limited (budget : Nat) {s : Session σ ι τ ς} {limit : Nat}
    (hlimit : s.parser.stepLimit = some limit) (hless : limit < Parser.maxCount)
    (henough : limit < s.counted.parser.counter + budget) :
    ∃ answer, s.parse T (budget + 1) = some answer := by
  rw [parse]
  split
  · exact ⟨_, rfl⟩
  · obtain ⟨answer, hanswer⟩ := exists_toAcceptance T budget hlimit hless henough []
    rw [hanswer]
    exact ⟨_, rfl⟩

/-- A run with a limit that fails for another reason is the run without one. -/
theorem toAcceptance_of_limited (budget : Nat) (earlier : List ρ) {s final : Session σ ι τ ς}
    {limit : Nat} {e : ParseFailure ε} (hplain : s.parser.stepLimit = none)
    (he : ∀ exceeded, e ≠ .stepLimitExceeded exceeded)
    (h : toAcceptance T budget earlier (s.limited limit) = some (.error e, final)) :
    ∃ plain, toAcceptance T budget earlier s = some (.error e, plain) ∧
      final = plain.limited limit ∧
      turnsUntil T Turn.isLast budget (s.limited limit) = turnsUntil T Turn.isLast budget s := by
  induction budget generalizing earlier s with
  | zero => cases h
  | succ budget ih =>
    by_cases hbeyond : limit < s.counted.parser.counter
    · rw [toAcceptance, s.turn_beyond T limit hbeyond] at h
      cases h
      exact False.elim (he limit rfl)
    · rcases hturn : s.turn T with ⟨turn, next⟩
      obtain ⟨hturn', hplain'⟩ := limited_of_turn T hturn hplain (Nat.le_of_not_lt hbeyond)
      rw [toAcceptance, hturn'] at h
      rw [toAcceptance, hturn]
      cases turn with
      | shifted =>
        obtain ⟨plain, hrun, hfinal, hturns⟩ := ih earlier hplain' h
        refine ⟨plain, hrun, hfinal, ?_⟩
        rw [turnsUntil_more T hturn rfl, turnsUntil_more T hturn' rfl, hturns]
      | reduced rule =>
        obtain ⟨plain, hrun, hfinal, hturns⟩ := ih (rule :: earlier) hplain' h
        refine ⟨plain, hrun, hfinal, ?_⟩
        rw [turnsUntil_more T hturn rfl, turnsUntil_more T hturn' rfl, hturns]
      | accepted => cases h
      | rejected | failed =>
        cases h
        refine ⟨next, rfl, rfl, ?_⟩
        rw [turnsUntil_last T hturn rfl, turnsUntil_last T hturn' rfl]

/-- Calls that end within the limit end with it in the same way. -/
theorem Drives.limited {s last : Session σ ι τ ς} {reports : List (Report ι ρ τ ε)} {limit : Nat}
    (hreading : s.parser.accepted = false) (hplain : s.parser.stepLimit = none)
    (hlimit : limit ≤ Parser.maxCount) (h : Drives T s reports last)
    (hwithin : last.parser.steps ≤ limit) :
    Drives T (s.limited limit) reports (last.limited limit) := by
  obtain ⟨earlier, before, turn, result, hperforms, hturn, hlast, hresult, rfl⟩ :=
    (drives_iff T hreading).mp h
  have hsteps := steps_of_turn T hturn
  have hbefore : before.parser.steps ≤ limit := by omega
  obtain ⟨hperforms', hplain'⟩ := hperforms.limited T hplain hlimit hbefore
  have hturn' := (limited_of_turn T hturn hplain' (counter_le_of_turn T hturn hlimit hwithin)).1
  have hreading' : (s.limited limit).parser.accepted = false := hreading
  exact (drives_iff T hreading').mpr
    ⟨earlier, before.limited limit, turn, result, hperforms', hturn', hlast, hresult, rfl⟩

/-- Calls that have used up the limit fail with the next turn, and leave what the last of them has
left. -/
theorem drives_beyond {s before : Session σ ι τ ς} {reports : List (Report ι ρ τ ε)} {limit : Nat}
    (hreading : s.parser.accepted = false) (hplain : s.parser.stepLimit = none)
    (hlimit : limit < Parser.maxCount) (h : Performs T s reports before)
    (hused : before.parser.steps = limit) :
    Drives T (s.limited limit)
      (reports ++ [before.reported (.error (.stepLimitExceeded limit))])
      (before.limited limit).counted := by
  have hperforms := (h.limited T hplain (Nat.le_of_lt hlimit) (Nat.le_of_eq hused)).1
  have hfailed := before.turn_of_used T hlimit hused
  have hreading' : (s.limited limit).parser.accepted = false := hreading
  exact (drives_iff T hreading').mpr
    ⟨reports, before.limited limit, _, _, hperforms, hfailed, rfl, rfl, rfl⟩

/-- As many turns are counted as a parse takes, the last one included. -/
theorem Drives.length_parseTurns {s last : Session σ ι τ ς} {reports : List (Report ι ρ τ ε)}
    (hreading : s.parser.accepted = false) (h : Drives T s reports last) :
    ∃ turns, last.parser.steps = s.parser.steps + turns ∧
      ∀ budget, (s.parseTurns T (turns + budget)).length = turns := by
  obtain ⟨earlier, before, turn, result, hperforms, hturn, hlast, hresult, rfl⟩ :=
    (drives_iff T hreading).mp h
  obtain ⟨turns, hturns⟩ := hperforms.takes T
  refine ⟨turns.length + 1, ?_, ?_⟩
  · rw [steps_of_turn T hturn, hturns.steps, Nat.add_assoc]
  · intro budget
    rw [parseTurns, hreading, Nat.add_assoc, Nat.add_comm 1]
    simp only [Bool.false_eq_true, if_false]
    rw [hturns.turnsUntil, turnsUntil_last T hturn hlast, List.length_append, List.length_singleton]

/-- The largest count is no limit at all. -/
theorem toAcceptance_unlimited (budget : Nat) (rules : List ρ) {s : Session σ ι τ ς} {limit : Nat}
    (hplain : s.parser.stepLimit = none) (hmost : Parser.maxCount ≤ limit) :
    toAcceptance T budget rules (s.limited limit) =
        (toAcceptance T budget rules s).map (fun answer => (answer.1, answer.2.limited limit)) ∧
      turnsUntil T Turn.isLast budget (s.limited limit) = turnsUntil T Turn.isLast budget s := by
  induction budget generalizing rules s with
  | zero => exact ⟨rfl, rfl⟩
  | succ budget ih =>
    rcases hturn : s.turn T with ⟨turn, next⟩
    obtain ⟨hturn', hplain'⟩ := limited_of_turn T hturn hplain
      (Nat.le_trans s.counted.parser.counter_le hmost)
    rw [toAcceptance, toAcceptance, hturn, hturn']
    cases turn with
    | shifted =>
      obtain ⟨hanswer, hturns⟩ := ih rules hplain'
      rw [turnsUntil_more T hturn rfl, turnsUntil_more T hturn' rfl, hturns]
      exact ⟨hanswer, rfl⟩
    | reduced rule =>
      obtain ⟨hanswer, hturns⟩ := ih (rule :: rules) hplain'
      rw [turnsUntil_more T hturn rfl, turnsUntil_more T hturn' rfl, hturns]
      exact ⟨hanswer, rfl⟩
    | accepted | rejected | failed =>
      rw [turnsUntil_last T hturn rfl, turnsUntil_last T hturn' rfl]
      exact ⟨rfl, rfl⟩

theorem parse_unlimited (budget : Nat) {s : Session σ ι τ ς} {limit : Nat}
    (hplain : s.parser.stepLimit = none) (hmost : Parser.maxCount ≤ limit) :
    ((s.limited limit).parse T budget).map Prod.fst = (s.parse T budget).map Prod.fst := by
  have haccepted : (s.limited limit).parser.accepted = s.parser.accepted := rfl
  rw [parse, parse, haccepted, (toAcceptance_unlimited T budget [] hplain hmost).1]
  cases s.parser.accepted with
  | true => rfl
  | false =>
    simp only [Bool.false_eq_true, if_false, Option.map_map]
    rfl

/-- A step limit below the largest count only truncates, and every parse with it ends. The largest
count is no limit. -/
theorem step_limit_truncates (T : ParseTable σ ι ρ) (source : ς) (limit : Nat) :
    (limit < Parser.maxCount →
      (∀ budget, ((start (τ := τ) T source).limited limit).parseTurns T budget =
        Turn.cutOff limit limit ((start T source).parseTurns T budget)) ∧
      (∀ (reports : List (Report ι ρ τ ε)) last, (start T source).Drives T reports last →
        (∀ budget, ((start T source).parseTurns T (last.parser.steps + budget)).length =
          last.parser.steps) ∧
        (last.parser.steps ≤ limit → ∀ reports' last',
          ((start T source).limited limit).Drives T reports' last' ↔
            reports' = reports ∧ last' = last.limited limit)) ∧
      ((∀ (reports : List (Report ι ρ τ ε)) last, (start T source).Drives T reports last →
          limit < last.parser.steps) →
        ((start T source).parseTurns T limit).length = limit ∧
        (∀ budget, ((start T source).limited limit).parseTurns T (limit + (budget + 1)) =
          (start T source).parseTurns T limit ++ [.failed (.stepLimitExceeded limit)]) ∧
        ∃ reports called before, (start T source).Plays T reports called ∧
          called.Advances T [] before ∧ before.parser.steps = limit ∧
          ∀ reports' last', ((start T source).limited limit).Drives T reports' last' ↔
            reports' = reports ++
              [⟨.error (.stepLimitExceeded limit), before.args, before.parser.position⟩] ∧
            last' = (before.limited limit).counted) ∧
      ∀ s : Session σ ι τ ς, s.parser.stepLimit = some limit →
        ∃ answer, s.parse T (limit + 2) = some answer) ∧
    (Parser.maxCount ≤ limit → ∀ budget,
      ((start (τ := τ) T source).limited limit).parseTurns T budget =
        (start T source).parseTurns T budget ∧
      (((start (τ := τ) T source).limited limit).parse T budget).map Prod.fst =
        ((start (τ := τ) T source).parse T budget).map Prod.fst) := by
  have hreading : (start (τ := τ) T source).parser.accepted = false := rfl
  have hreading' : ((start (τ := τ) T source).limited limit).parser.accepted = false := rfl
  have hplain : (start (τ := τ) T source).parser.stepLimit = none := rfl
  have hzero : (start (τ := τ) T source).parser.steps = 0 := rfl
  constructor
  · intro hless
    have hcut (budget : Nat) : ((start (τ := τ) T source).limited limit).parseTurns T budget =
        Turn.cutOff limit limit ((start T source).parseTurns T budget) :=
      turnsUntil_limited T budget hplain hless (Nat.zero_add limit)
    refine ⟨hcut, ?_, ?_, fun s hlimit => parse_limited T (limit + 1) hlimit hless (by omega)⟩
    · intro reports last hdrives
      obtain ⟨turns, hsteps, hlength⟩ := hdrives.length_parseTurns T hreading
      rw [hzero, Nat.zero_add] at hsteps
      refine ⟨by rw [hsteps]; exact hlength, ?_⟩
      intro hwithin
      exact (hdrives.limited T hreading hplain (Nat.le_of_lt hless) hwithin).iff_eq T hreading'
    · intro hbeyond
      -- The turns that the limit allows neither accept nor fail; the next one fails in any case.
      obtain ⟨reports, before, hperforms, hsteps⟩ := exists_performs T hreading
        fun reports last hdrives => by rw [hzero, Nat.zero_add]; exact hbeyond reports last hdrives
      rw [hzero, Nat.zero_add] at hsteps
      obtain ⟨turns, hturns⟩ := hperforms.takes T
      obtain ⟨called, hplays, hadv⟩ := hperforms.plays T hreading
      have hlimited := drives_beyond T hreading hplain hless hperforms hsteps
      have hcount : turns.length = limit := by rw [← hsteps, hturns.steps, hzero, Nat.zero_add]
      have hparse (budget : Nat) : (start (τ := τ) T source).parseTurns T (limit + budget) =
          turns ++ before.turnsUntil T Turn.isLast budget := by
        rw [← hcount]
        exact hturns.turnsUntil budget
      have hfirst : (start (τ := τ) T source).parseTurns T limit = turns :=
        (hparse 0).trans (List.append_nil turns)
      refine ⟨by rw [hfirst, hcount], ?_, reports, called, before, hplays, hadv, hsteps,
        hlimited.iff_eq T hreading'⟩
      intro budget
      rcases hturn : before.turn T with ⟨turn, next⟩
      obtain ⟨more, hmore⟩ := exists_turnsUntil T hturn budget
      rw [hcut, hparse, hfirst, ← hcount, Turn.cutOff_append, hmore, Turn.cutOff_zero]
  · intro hmost budget
    exact ⟨(toAcceptance_unlimited T budget [] hplain hmost).2,
      parse_unlimited T budget hplain hmost⟩

theorem step_limit_truncates_idle : ∃ g t, Grammar.define idleDeclarations = .ok g ∧
    g.table .thorough = .ok t ∧ 5 < Parser.maxCount ∧
    (∀ budget, ((start t.parseTable idleTokens).limited 5).parseTurns t.parseTable budget =
      Turn.cutOff 5 5 ((start t.parseTable idleTokens).parseTurns t.parseTable budget)) ∧
    ∃ answer, ((start t.parseTable idleTokens).limited 5).parse t.parseTable 7 = some answer := by
  obtain ⟨g, t, hg, ht, -⟩ := exists_idling
  obtain ⟨hcut, -, -, hends⟩ := (step_limit_truncates t.parseTable idleTokens 5).1 (by decide)
  exact ⟨g, t, hg, ht, by decide, hcut, hends _ rfl⟩

/-- On `y t` a parse with the largest count for its limit never ends either. -/
theorem step_limit_never_exceeded : ∃ g t, Grammar.define idleDeclarations = .ok g ∧
    g.table .thorough = .ok t ∧
    (∀ budget, (start t.parseTable idleTokens).parse t.parseTable budget = none) ∧
    ∀ budget, ((start t.parseTable idleTokens).limited Parser.maxCount).parse t.parseTable budget =
      none := by
  obtain ⟨g, t, hg, ht, hnever⟩ := exists_idling
  have hnone := parse_eq_none_of_not_stops t.parseTable rfl hnever
  refine ⟨g, t, hg, ht, hnone, ?_⟩
  intro budget
  have hsame := parse_unlimited t.parseTable budget (s := start t.parseTable idleTokens) rfl
    (Nat.le_refl Parser.maxCount)
  rw [hnone, Option.map_none, Option.map_eq_none_iff] at hsame
  exact hsame

end Session
end ShiftReduce
