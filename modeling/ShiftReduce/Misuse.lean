import ShiftReduce.Production
import ShiftReduce.StateId

namespace ShiftReduce

inductive Misuse where
  | unknownProduction (p : ProductionId)
  | nothingAfterDot (item : String)
  | dotAtEnd (item : String)
  | tooManyStates (index : Nat)
  | transitionRecorded (source : StateId) (X : Symbol) (target : StateId)
  | foreignProduction (s : StateId) (p : ProductionId)
  | missingTransition (s : StateId) (symbol : String)
  | unknownState (s : StateId)
  | foreignSymbol (X : Symbol)
  | followOfTerminal (symbol : String)
deriving DecidableEq, Repr

/-- Whether the request met a state of things that cannot serve it, or was wrong in itself. -/
inductive Misuse.Kind where
  | invalidState
  | invalidArgument
deriving DecidableEq, Repr

namespace Misuse

def kind : Misuse → Kind
  | foreignSymbol _ => .invalidArgument
  | followOfTerminal _ => .invalidArgument
  | _ => .invalidState

def detail : Misuse → String
  | unknownProduction p => "the production " ++ p.tag ++ " does not belong to this grammar"
  | nothingAfterDot item => "no symbol follows the dot in " ++ quoted item
  | dotAtEnd item => "cannot advance the dot of " ++ quoted item ++ " any further"
  | tooManyStates index => "too many parser states (" ++ toString index ++ ")"
  | transitionRecorded source X target =>
    "the transition from " ++ source.tag ++ " under " ++ X.tag ++ " is already recorded (to " ++
      target.tag ++ ")"
  | foreignProduction s p =>
    s.tag ++ " refers to the production " ++ p.tag ++ " unknown to this grammar"
  | missingTransition s symbol => "missing transition from " ++ s.tag ++ " under " ++ quoted symbol
  | unknownState s => "the state " ++ s.tag ++ " is unknown for this transition table"
  | foreignSymbol X => "the symbol " ++ X.tag ++ " does not belong to this grammar"
  | followOfTerminal symbol =>
    "FOLLOW is only defined for nonterminals, but " ++ quoted symbol ++ " is a terminal"

def message (e : Misuse) : String :=
  match e.kind with
  | .invalidState => "invalid state: " ++ e.detail
  | .invalidArgument => "invalid argument: " ++ e.detail

end Misuse
end ShiftReduce
