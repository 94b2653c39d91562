import ShiftReduce.GrammarText

namespace ShiftReduce

inductive Action where
  /-- Read the terminal and go to the state. -/
  | shift (target : StateId)
  | reduce (p : ProductionId)
  /-- Go to the state after a reduction to the nonterminal. -/
  | goto (target : StateId)
  | accept
  | error
deriving DecidableEq, Repr

namespace Action

def isError (a : Action) : Bool := a = error

/-- The text that shows numbers only. -/
def tag : Action → String
  | shift target => "Shift(" ++ target.tag ++ ")"
  | reduce p => "Reduce(" ++ p.tag ++ ")"
  | goto target => "Goto(" ++ target.tag ++ ")"
  | accept => "Accept"
  | error => "Error"

/-- The text that spells productions out. -/
def render (g : Grammar) : Action → Except Dangling String
  | shift target => .ok ("shift(" ++ target.tag ++ ")")
  | reduce p =>
    match g.renderProductionId p with
    | .error d => .error d
    | .ok text => .ok ("reduce(" ++ text ++ ")")
  | goto target => .ok ("goto(" ++ target.tag ++ ")")
  | accept => .ok "accept"
  | error => .ok "error"

end Action
end ShiftReduce
