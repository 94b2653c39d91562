import ShiftReduce.Session

/-! Runs of a parser. A run that needs more turns than its budget has no answer. -/
namespace ShiftReduce

/-- What a parser reports to its caller. -/
inductive Outcome (ρ : Type) where
  | reduce (rule : ρ)
  | accept
deriving DecidableEq, Repr

namespace Turn

variable {σ ι ρ ε : Type}

/-- The outcome or failure that a turn brings; a shift brings none. -/
def result? : Turn σ ι ρ ε → Option (Except (ParseFailure ε) (Outcome ρ))
  | shifted .. => none
  | reduced rule _ _ => some (.ok (.reduce rule))
  | accepted => some (.ok .accept)
  | rejected _ position => some (.error (.rejected position))
  | failed e => some (.error e)

/-- Whether a turn ends the parse, by acceptance or failure. -/
def isLast : Turn σ ι ρ ε → Bool
  | shifted .. => false
  | reduced .. => false
  | accepted => true
  | rejected .. => true
  | failed _ => true

end Turn

namespace Session

variable {σ ι ρ τ ε ς : Type} [Token τ ι] [TokenSource ς ε τ] (T : ParseTable σ ι ρ)

/-- Takes turns up to the first that is no shift. -/
def toOutcome : Nat → Session σ ι τ ς →
    Option (Except (ParseFailure ε) (Outcome ρ) × Session σ ι τ ς)
  | 0, _ => none
  | budget + 1, s =>
    match s.turn T with
    | (turn, s) =>
      match turn.result? with
      | some result => some (result, s)
      | none => toOutcome budget s

/-- The next outcome. After acceptance there are no more. -/
def nextOutcome (budget : Nat) (s : Session σ ι τ ς) :
    Option (Except (ParseFailure ε) (Outcome ρ) × Session σ ι τ ς) :=
  if s.parser.accepted then some (.error .finished, s) else toOutcome T budget s

/-- Takes turns up to acceptance or failure; `rules` are the reductions so far, the latest one
first. -/
def toAcceptance : Nat → List ρ → Session σ ι τ ς →
    Option (Except (ParseFailure ε) (List ρ) × Session σ ι τ ς)
  | 0, _, _ => none
  | budget + 1, rules, s =>
    match s.turn T with
    | (turn, s) =>
      match turn.result? with
      | none => toAcceptance budget rules s
      | some (.ok (.reduce rule)) => toAcceptance budget (rule :: rules) s
      | some (.ok .accept) => some (.ok rules.reverse, s)
      | some (.error e) => some (.error e, s)

/-- All reductions up to acceptance, in order. The items of the session stay as they were. -/
def parse (budget : Nat) (s : Session σ ι τ ς) :
    Option (Except (ParseFailure ε) (List ρ) × Session σ ι τ ς) :=
  if s.parser.accepted then some (.error .finished, s)
  else (toAcceptance T budget [] s).map fun (result, t) => (result, { t with args := s.args })

/-- The turns up to the first that satisfies `stop`. -/
def turnsUntil (stop : Turn σ ι ρ ε → Bool) : Nat → Session σ ι τ ς → List (Turn σ ι ρ ε)
  | 0, _ => []
  | budget + 1, s =>
    match s.turn T with
    | (turn, s) => if stop turn then [turn] else turn :: turnsUntil stop budget s

/-- The turns of `nextOutcome`. -/
def outcomeTurns (budget : Nat) (s : Session σ ι τ ς) : List (Turn σ ι ρ ε) :=
  if s.parser.accepted then [] else turnsUntil T (fun turn => turn.result?.isSome) budget s

/-- The turns of `parse`. -/
def parseTurns (budget : Nat) (s : Session σ ι τ ς) : List (Turn σ ι ρ ε) :=
  if s.parser.accepted then [] else turnsUntil T Turn.isLast budget s

end Session
end ShiftReduce
