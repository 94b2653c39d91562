namespace ShiftReduce

/-- A state `ς` that yields tokens `τ`, or errors `ε` in their place, until it has no more. -/
class TokenSource (ς : Type) (ε τ : outParam Type) where
  pull : ς → Option (Except ε τ) × ς

/-- What is to come, in order. -/
instance (ε τ : Type) : TokenSource (List (Except ε τ)) ε τ where
  pull
    | [] => (none, [])
    | t :: rest => (some t, rest)

/-- Tokens with a place up to which they have been pulled. -/
structure TokenTape (τ : Type) where
  /-- The tokens before the place, the latest one first. -/
  pulled : List τ
  /-- The tokens not yet pulled. -/
  remaining : List τ
deriving DecidableEq, Repr

namespace TokenTape

variable {τ : Type}

def ofList (tokens : List τ) : TokenTape τ := ⟨[], tokens⟩

/-- All tokens, wherever the place is. -/
def tokens (s : TokenTape τ) : List τ := s.pulled.reverse ++ s.remaining

/-- The number of tokens pulled. -/
def position (s : TokenTape τ) : Nat := s.pulled.length

def next (s : TokenTape τ) : Option τ × TokenTape τ :=
  match s.remaining with
  | [] => (none, s)
  | t :: rest => (some t, ⟨t :: s.pulled, rest⟩)

/-- Back to the first token. -/
def rewind (s : TokenTape τ) : TokenTape τ := ofList s.tokens

/-- Past all tokens. -/
def finish (s : TokenTape τ) : TokenTape τ := ⟨s.remaining.reverse ++ s.pulled, []⟩

/-- How many tokens are left: at least the first number, at most the second. -/
def sizeHint (s : TokenTape τ) : Nat × Nat := (s.remaining.length, s.remaining.length)

end TokenTape

instance (τ : Type) : TokenSource (TokenTape τ) Empty τ where
  pull s :=
    match s.next with
    | (none, s) => (none, s)
    | (some t, s) => (some (.ok t), s)

end ShiftReduce
