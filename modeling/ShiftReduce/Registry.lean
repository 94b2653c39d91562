import ShiftReduce.Definition

/-! Declarations entered in place: what an entry has written before it fails stays written. -/
namespace ShiftReduce

/-- What has been entered, in the order of entry, and the next free number of each kind. -/
structure Registry where
  terminals : List (Terminal × String)
  nonterminals : List (Nonterminal × String)
  productions : List (ProductionId × Production)
  /-- Terminals and nonterminals together. -/
  symbols : List Symbol
  nextTerminal : Nat
  nextNonterminal : Nat
  nextProduction : Nat
deriving DecidableEq, Repr

/-- An entry into a registry. It leaves a registry behind even if it fails. -/
abbrev Entry (α : Type) : Type := EStateM GrammarFault Registry α

namespace Registry

/-- The registry before any entry. -/
def initial : Registry :=
  ⟨[(.endOfInput, "$")], [(.start, "$start")], [], [.endOfInput, .start], 1, 1, 1⟩

/-- Replaces the value of a key, or appends the key if it is new. -/
def assign {κ α : Type} [DecidableEq κ] (key : κ) (value : α) : List (κ × α) → List (κ × α)
  | [] => [(key, value)]
  | (k, old) :: rest =>
    if k = key then (k, value) :: rest else (k, old) :: assign key value rest

/-- The values of a list under keys numbered from `start` on. -/
def numbered {κ α : Type} (key : Nat → κ) (start : Nat) : List α → List (κ × α)
  | [] => []
  | value :: rest => (key start, value) :: numbered key (start + 1) rest

def name? (r : Registry) : Symbol → Option String
  | .terminal t => r.terminals.lookup t
  | .nonterminal n => r.nonterminals.lookup n

def names (r : Registry) : Names :=
  ⟨fun name => r.terminals.any (·.2 = name) || r.nonterminals.any (·.2 = name), r.name?⟩

/-- The next number of a kind. -/
def next (r : Registry) : Counted → Nat
  | .terminals => r.nextTerminal
  | .nonterminals => r.nextNonterminal
  | .productions => r.nextProduction

def advance (r : Registry) : Counted → Registry
  | .terminals => { r with nextTerminal := r.nextTerminal + 1 }
  | .nonterminals => { r with nextNonterminal := r.nextNonterminal + 1 }
  | .productions => { r with nextProduction := r.nextProduction + 1 }

/-- Takes the next number of a kind. -/
def allocate (kind : Counted) : Entry Nat := do
  let number := (← get).next kind
  if number < idCapacity then
    modify (·.advance kind)
    return number
  else throw (.capacityExceeded kind)

def write (r : Registry) (number : Nat) : Addition → Registry
  | .terminal name =>
    { r with
      terminals := assign ⟨number⟩ name r.terminals
      symbols := r.symbols ++ [.terminal ⟨number⟩] }
  | .nonterminal name =>
    { r with
      nonterminals := assign ⟨number⟩ name r.nonterminals
      symbols := r.symbols ++ [.nonterminal ⟨number⟩] }
  | .production p => { r with productions := assign ⟨number⟩ p r.productions }

def enter (c : Declaration) : Entry Declared := do
  let addition ← ofExcept ((← get).names.check c)
  let number ← allocate addition.kind
  modify (·.write number addition)
  return addition.declared number

/-- Makes the entries one after another, each into the registry that the one before it has left
behind, whether that one failed or not. -/
def enterEach (r : Registry) : List Declaration → List (Except GrammarFault Declared) × Registry
  | [] => ([], r)
  | c :: cs =>
    match (enter c).run r with
    | .ok new r =>
      let (results, r) := enterEach r cs
      (.ok new :: results, r)
    | .error e r =>
      let (results, r) := enterEach r cs
      (.error e :: results, r)

end Registry

namespace Definition

/-- The registry that holds the declarations of a definition. -/
def registry (d : Definition) : Registry where
  terminals := Registry.numbered Terminal.mk 0 d.terminals
  nonterminals := Registry.numbered Nonterminal.mk 0 d.nonterminals
  productions := Registry.numbered ProductionId.mk 1 d.rules
  symbols := d.symbols
  nextTerminal := d.terminals.length
  nextNonterminal := d.nonterminals.length
  nextProduction := d.rules.length + 1

end Definition
end ShiftReduce
