import ShiftReduce.ParseTable
import ShiftReduce.Token

namespace ShiftReduce

/-- The stacks have their tops in front. -/
structure Parser (σ ι τ : Type) where
  states : List σ
  items : List (StackItem τ ι)
  accepted : Bool
  lookahead : Option τ
  /-- The number of tokens that were shifted. -/
  position : Nat
  /-- The number of turns since the start, of which the parser keeps the `counter`. -/
  steps : Nat
  stepLimit : Option Nat
deriving DecidableEq, Repr

namespace Parser

variable {σ ι ρ τ : Type}

def start (T : ParseTable σ ι ρ) : Parser σ ι τ := ⟨[T.initial], [], false, none, 0, 0, none⟩

/-- Sets the number of turns after which the parser gives up. -/
def limitSteps (p : Parser σ ι τ) (limit : Nat) : Parser σ ι τ :=
  { p with stepLimit := some limit }

/-- A parser at the start, with the step limit of this one. -/
def reset (p : Parser σ ι τ) (T : ParseTable σ ι ρ) : Parser σ ι τ :=
  { start T with stepLimit := p.stepLimit }

/-- The terminals that the current state does not reject. -/
def expected (p : Parser σ ι τ) (T : ParseTable σ ι ρ) : List ι :=
  match p.states with
  | [] => []
  | current :: _ => T.expected current

/-- The largest count that 64 bits hold. -/
def maxCount : Nat := 18446744073709551615

/-- The count of turns in 64 bits: it starts over from zero after the largest. -/
def counter (p : Parser σ ι τ) : Nat := p.steps % (maxCount + 1)

/-- The step limit, if the counter exceeds it. -/
def exceededLimit (p : Parser σ ι τ) : Option Nat := p.stepLimit.filter (· < p.counter)

theorem counter_le (p : Parser σ ι τ) : p.counter ≤ maxCount :=
  Nat.le_of_lt_succ (Nat.mod_lt p.steps (Nat.succ_pos maxCount))

theorem counter_of_le {p : Parser σ ι τ} (h : p.steps ≤ maxCount) : p.counter = p.steps :=
  Nat.mod_eq_of_lt (Nat.lt_succ_of_le h)

/-- Below the largest count the counter goes up by one. -/
theorem counter_succ {p q : Parser σ ι τ} (hsteps : q.steps = p.steps + 1)
    (h : p.counter < maxCount) : q.counter = p.counter + 1 := by
  unfold counter maxCount at *
  rw [hsteps]
  omega

theorem exceededLimit_eq_none {p : Parser σ ι τ} {limit : Nat} (hlimit : p.stepLimit = some limit)
    (h : p.counter ≤ limit) : p.exceededLimit = none := by
  rw [exceededLimit, hlimit, Option.filter_some, if_neg]
  exact fun hless => Nat.not_lt_of_le h (of_decide_eq_true hless)

theorem exceededLimit_eq_some_iff {p : Parser σ ι τ} {limit : Nat} :
    p.exceededLimit = some limit ↔ p.stepLimit = some limit ∧ limit < p.counter := by
  rw [exceededLimit, Option.filter_eq_some_iff, decide_eq_true_eq]

end Parser

end ShiftReduce
