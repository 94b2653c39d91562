import ShiftReduce.OrderedSet

namespace ShiftReduce

/-- A terminal, by its number in declaration order. -/
structure Terminal where
  number : Nat
deriving DecidableEq, Repr

/-- A nonterminal, by its number in declaration order. -/
structure Nonterminal where
  number : Nat
deriving DecidableEq, Repr

inductive Symbol where
  | terminal (t : Terminal)
  | nonterminal (n : Nonterminal)
deriving DecidableEq, Repr

/-- The terminal that ends every input. -/
def Terminal.endOfInput : Terminal := ⟨0⟩

/-- The head of the augmented production. -/
def Nonterminal.start : Nonterminal := ⟨0⟩

def Symbol.endOfInput : Symbol := .terminal .endOfInput

def Symbol.start : Symbol := .nonterminal .start

instance : LT Terminal := ⟨fun a b => a.number < b.number⟩

instance : DecidableLT Terminal := fun a b => Nat.decLt a.number b.number

instance : LinearLT Terminal where
  irrefl a := Nat.lt_irrefl a.number
  trans h₁ h₂ := Nat.lt_trans (m := _) h₁ h₂
  eq_of_not_lt {a b} h₁ h₂ := by
    have h₁' : ¬ a.number < b.number := h₁
    have h₂' : ¬ b.number < a.number := h₂
    cases a; cases b
    simp only [Terminal.mk.injEq]
    simp only at h₁' h₂'
    omega

namespace Symbol

def isTerminal : Symbol → Bool
  | terminal _ => true
  | nonterminal _ => false

/-- The two symbols that every alphabet has and no production of a definition may mention. -/
def isReserved (X : Symbol) : Bool := X = endOfInput || X = start

/-- Terminals come before nonterminals, and symbols of one kind go by number. -/
def le : Symbol → Symbol → Bool
  | terminal a, terminal b => a.number ≤ b.number
  | terminal _, nonterminal _ => true
  | nonterminal _, terminal _ => false
  | nonterminal a, nonterminal b => a.number ≤ b.number

end Symbol

/-- The text of a terminal that shows its number. -/
def Terminal.tag (t : Terminal) : String := "TerminalID \x7b raw: " ++ toString t.number ++ " \x7d"

/-- The text of a nonterminal that shows its number. -/
def Nonterminal.tag (n : Nonterminal) : String :=
  "NonterminalID \x7b raw: " ++ toString n.number ++ " \x7d"

/-- The text of a symbol that shows its kind and number, for symbols that may have no name. -/
def Symbol.tag : Symbol → String
  | terminal t => "T(" ++ t.tag ++ ")"
  | nonterminal n => "N(" ++ n.tag ++ ")"

end ShiftReduce
