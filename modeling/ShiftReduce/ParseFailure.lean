import ShiftReduce.ParseTable

namespace ShiftReduce

/-- Why a parser does not get on; `ε` are the errors of the token source. -/
inductive ParseFailure (ε : Type) where
  | lexer (e : ε)
  | table (e : LookupError)
  | rejected (position : Nat)
  | unexpectedEnd
  | missingGoto
  | stepLimitExceeded (limit : Nat)
  | finished
  | emptyStateStack
  | emptyItemStack
deriving DecidableEq, Repr

def ParseFailure.message {ε : Type} (lexerMessage : ε → String) : ParseFailure ε → String
  | lexer e => "from lexer: " ++ lexerMessage e
  | table e => "from parser definition: " ++ e.message
  | rejected position => "syntax error at token " ++ toString position
  | unexpectedEnd => "unexpected EOI"
  | missingGoto => "missing goto after reduction"
  | stepLimitExceeded limit => "exceeded the step limit (" ++ toString limit ++ ")"
  | finished => "the input has already been accepted"
  | emptyStateStack => "empty node stack"
  | emptyItemStack => "empty item stack"

end ShiftReduce
