import ShiftReduce.Event
import ShiftReduce.Session

namespace ShiftReduce

/-- How the parts of a parser are written. -/
structure Spelling (σ ι τ : Type) where
  table : String
  state : σ → String
  symbol : ι → String
  token : τ → String

namespace Spelling

variable {σ ι ρ τ ε : Type}

def item (w : Spelling σ ι τ) : StackItem τ ι → String
  | .token t => "T(" ++ w.token t ++ ")"
  | .head X => "N(" ++ w.symbol X ++ ")"

/-- A list in brackets. -/
def bracketed (parts : List String) : String := "[" ++ ", ".intercalate parts ++ "]"

/-- The parser with its stacks from the bottom up. -/
def parser (w : Spelling σ ι τ) (p : Parser σ ι τ) : String :=
  "Parser \x7b definition: " ++ w.table ++
  ", state_stack: " ++ bracketed (p.states.reverse.map w.state) ++
  ", item_stack: " ++ bracketed (p.items.reverse.map w.item) ++
  ", parser_state: " ++ (if p.accepted then "Accepted" else "Reading") ++
  ", peeked_token: " ++
    (match p.lookahead with
    | none => "None"
    | some t => "Some(" ++ w.token t ++ ")") ++
  ", position: " ++ toString p.position ++ ", .. \x7d"

/-- The event of a turn. Acceptance and failures other than of the input go unreported. -/
def event? (w : Spelling σ ι τ) : Turn σ ι ρ ε → Option Event
  | .shifted X position target => some (.shifted (w.symbol X) position (w.state target))
  | .reduced _ head target => some (.reduced (w.symbol head) (w.state target))
  | .rejected X position => some (.rejected position (w.symbol X))
  | .accepted => none
  | .failed _ => none

end Spelling
end ShiftReduce
