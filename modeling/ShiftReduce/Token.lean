import ShiftReduce.Symbol

namespace ShiftReduce

/-- Tokens `τ` stand for symbols `ι`. -/
class Token (τ : Type) (ι : outParam Type) where
  symbol : τ → ι

instance : Token Terminal Symbol := ⟨.terminal⟩

/-- A symbol with the text that it was read from. -/
structure Lexeme (ι : Type) where
  symbol : ι
  text : String
deriving DecidableEq, Repr

instance (ι : Type) : Token (Lexeme ι) ι := ⟨Lexeme.symbol⟩

/-- What the parser keeps of the input: a token that was shifted, or the head of a reduction. -/
inductive StackItem (τ ι : Type) where
  | token (t : τ)
  | head (X : ι)
deriving DecidableEq, Repr

def StackItem.symbol {τ ι : Type} [Token τ ι] : StackItem τ ι → ι
  | token t => Token.symbol t
  | head X => X

/-- The items of a tail; `none` where an item has not come or has been taken away. -/
abbrev Args (τ ι : Type) : Type := List (Option (StackItem τ ι))

/-- Takes the item at place `i` away. -/
def Args.take {τ ι : Type} (args : Args τ ι) (i : Nat) : Option (StackItem τ ι) × Args τ ι :=
  (args[i]?.join, args.set i none)

end ShiftReduce
