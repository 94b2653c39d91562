import ShiftReduce.Table

namespace ShiftReduce

/-- What the parser is to do in a state on a symbol. -/
inductive Move (σ ι ρ : Type) where
  /-- Take the lookahead token and go to the state. -/
  | shift (target : σ)
  /-- Give up `size` items for one `head`. -/
  | reduce (rule : ρ) (head : ι) (size : Nat)
  /-- Go to the state after a reduction. -/
  | goto (target : σ)
  | accept
  | error
deriving DecidableEq, Repr

/-- Why a table has no move. -/
inductive LookupError where
  | incorrectState
  | incorrectSymbol
deriving DecidableEq, Repr

def LookupError.message : LookupError → String
  | incorrectState => "incorrect state"
  | incorrectSymbol => "incorrect symbol"

structure ParseTable (σ ι ρ : Type) where
  initial : σ
  move : σ → ι → Except LookupError (Move σ ι ρ)
  /-- The terminals that a state does not reject. -/
  expected : σ → List ι

namespace Table

def move (t : Table) (s : StateId) (X : Symbol) :
    Except LookupError (Move StateId Symbol ProductionId) :=
  match t.action s X with
  | .error _ => .error .incorrectState
  | .ok (.shift target) => .ok (.shift target)
  | .ok (.reduce p) =>
    match t.productions[p.number]? with
    | none => .error .incorrectState
    | some production => .ok (.reduce p (.nonterminal production.head) production.tail.length)
  | .ok (.goto target) => .ok (.goto target)
  | .ok .accept => .ok .accept
  | .ok .error => .ok .error

/-- The terminals of a row whose cells are not errors. -/
def expected (t : Table) (s : StateId) : List Symbol :=
  match t.row s with
  | .error _ => []
  | .ok row => (row.filter fun (X, action) => X.isTerminal && !action.isError).map Prod.fst

def parseTable (t : Table) : ParseTable StateId Symbol ProductionId :=
  ⟨.start, t.move, t.expected⟩

end Table
end ShiftReduce
