import ShiftReduce.Symbol
import ShiftReduce.Text

namespace ShiftReduce

/-- What a grammar can hold only so many of. -/
inductive Counted where
  | terminals
  | nonterminals
  | productions
deriving DecidableEq, Repr

inductive GrammarFault where
  | emptyName
  | duplicateName (name : String)
  | emptyProduction (head : String)
  | terminalHead (name : String)
  | reservedSymbol (name : String)
  | undeclaredSymbol (X : Symbol)
  | capacityExceeded (what : Counted)
  | missingRoot
  | multipleRoots (names : List String)
  | indirectLeftRecursion (name : String)
  | cyclicFollow (name : String)
deriving DecidableEq, Repr

def Counted.plural : Counted → String
  | terminals => "terminals"
  | nonterminals => "nonterminals"
  | productions => "productions"

def GrammarFault.message : GrammarFault → String
  | emptyName => "the symbol name must not be empty"
  | duplicateName name => "the symbol name " ++ quoted name ++ " has already been declared"
  | emptyProduction head => "the production for " ++ quoted head ++ " has an empty right-hand side"
  | terminalHead name =>
    "the head of a production must be a nonterminal, but " ++ quoted name ++ " is a terminal"
  | reservedSymbol name =>
    "the reserved symbol " ++ quoted name ++ " cannot appear in a user production"
  | undeclaredSymbol X => "the symbol " ++ X.tag ++ " is not declared in this grammar"
  | capacityExceeded what => "too many " ++ what.plural ++ " declared in this grammar"
  | missingRoot => "missing root: every production head also occurs in some right-hand side"
  | multipleRoots names => "multiple roots: " ++ ", ".intercalate names
  | indirectLeftRecursion name =>
    "indirect left recursion detected while computing FIRST(" ++ name ++ ")"
  | cyclicFollow name => "cyclic dependency detected while computing FOLLOW(" ++ name ++ ")"

end ShiftReduce
