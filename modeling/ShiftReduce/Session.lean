import ShiftReduce.Parser
import ShiftReduce.ParseFailure
import ShiftReduce.TokenSource

namespace ShiftReduce

/-- What a parser does in one turn. -/
inductive Turn (σ ι ρ ε : Type) where
  | shifted (X : ι) (position : Nat) (target : σ)
  | reduced (rule : ρ) (head : ι) (target : σ)
  | accepted
  | rejected (X : ι) (position : Nat)
  | failed (e : ParseFailure ε)
deriving DecidableEq, Repr

/-- A parser at work, with its token source and the items of its last outcome. -/
structure Session (σ ι τ ς : Type) where
  parser : Parser σ ι τ
  source : ς
  args : Args τ ι

namespace Session

variable {σ ι ρ τ ε ς : Type}

def start (T : ParseTable σ ι ρ) (source : ς) : Session σ ι τ ς := ⟨.start T, source, []⟩

/-- The lookahead token, pulled from the source if none is held. -/
def peek [TokenSource ς ε τ] (s : Session σ ι τ ς) : Except (ParseFailure ε) τ × Session σ ι τ ς :=
  match s.parser.lookahead with
  | some t => (.ok t, s)
  | none =>
    match TokenSource.pull s.source with
    | (none, source) => (.error .unexpectedEnd, { s with source })
    | (some (.error e), source) => (.error (.lexer e), { s with source })
    | (some (.ok t), source) =>
      (.ok t, { s with source, parser := { s.parser with lookahead := some t } })

/-- Moves the lookahead token onto the stack. -/
def shift (s : Session σ ι τ ς) (t : τ) (target : σ) : Session σ ι τ ς :=
  { s with
    parser := { s.parser with
      states := target :: s.parser.states
      items := .token t :: s.parser.items
      lookahead := none
      position := s.parser.position + 1 } }

/-- Takes states and items off the stacks one by one, and the items into `args` from right to left.
A stack that runs out stops it halfway. -/
def unwind : Nat → List σ → List (StackItem τ ι) → Args τ ι →
    Option (ParseFailure ε) × List σ × List (StackItem τ ι) × Args τ ι
  | 0, states, items, args => (none, states, items, args)
  | n + 1, [], items, args =>
    (some .emptyStateStack, [], items, List.replicate (n + 1) none ++ args)
  | n + 1, _ :: states, [], args =>
    (some .emptyItemStack, states, [], List.replicate (n + 1) none ++ args)
  | n + 1, _ :: states, item :: items, args => unwind n states items (some item :: args)

/-- Puts `head` in the place of the topmost `size` items. -/
def reduce (T : ParseTable σ ι ρ) (s : Session σ ι τ ς) (rule : ρ) (head : ι) (size : Nat) :
    Turn σ ι ρ ε × Session σ ι τ ς :=
  let (failure, states, items, args) := unwind size s.parser.states s.parser.items []
  let s := { s with parser := { s.parser with states, items }, args }
  match failure with
  | some e => (.failed e, s)
  | none =>
    match states with
    | [] => (.failed .emptyStateStack, s)
    | uncovered :: _ =>
      match T.move uncovered head with
      | .error e => (.failed (.table e), s)
      | .ok (.goto target) =>
        (.reduced rule head target,
          { s with parser := { s.parser with
              states := target :: states
              items := .head head :: items } })
      | .ok _ => (.failed .missingGoto, s)

/-- Ends the parse with the topmost item. The lookahead token stays. -/
def accept (s : Session σ ι τ ς) : Turn σ ι ρ ε × Session σ ι τ ς :=
  match s.parser.items with
  | [] => (.failed .emptyItemStack, s)
  | item :: items =>
    (.accepted, { s with parser := { s.parser with items, accepted := true }, args := [some item] })

/-- Does what the table says for the lookahead token in the current state. -/
def act [Token τ ι] [TokenSource ς ε τ] (T : ParseTable σ ι ρ) (s : Session σ ι τ ς) (current : σ) :
    Turn σ ι ρ ε × Session σ ι τ ς :=
  match s.peek with
  | (.error e, s) => (.failed e, s)
  | (.ok t, s) =>
    match T.move current (Token.symbol t) with
    | .error e => (.failed (.table e), s)
    | .ok (.shift target) =>
      (.shifted (Token.symbol t) s.parser.position target, s.shift t target)
    | .ok (.reduce rule head size) => s.reduce T rule head size
    | .ok .accept => s.accept
    | .ok (.goto _) => (.failed (.table .incorrectSymbol), s)
    | .ok .error => (.rejected (Token.symbol t) s.parser.position, s)

/-- One turn. It counts as a step whatever comes of it. -/
def turn [Token τ ι] [TokenSource ς ε τ] (T : ParseTable σ ι ρ) (s : Session σ ι τ ς) :
    Turn σ ι ρ ε × Session σ ι τ ς :=
  let s := { s with parser := { s.parser with steps := s.parser.steps + 1 } }
  match s.parser.exceededLimit with
  | some limit => (.failed (.stepLimitExceeded limit), s)
  | none =>
    match s.parser.states with
    | [] => (.failed .emptyStateStack, s)
    | current :: _ => s.act T current

end Session
end ShiftReduce
