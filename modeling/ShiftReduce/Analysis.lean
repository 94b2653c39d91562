import ShiftReduce.BuildError
import ShiftReduce.Item

/-! FIRST and FOLLOW sets, computed on demand and kept. A set that is needed for itself is refused,
except for the direct recursion of a nonterminal, which adds nothing. -/
namespace ShiftReduce

abbrev TerminalSet : Type := OrderedSet Terminal

/-- The sets that are kept: one FIRST and one FOLLOW for each nonterminal. -/
inductive SetName where
  | first (n : Nonterminal)
  | follow (n : Nonterminal)
deriving DecidableEq, Repr

/-- A part of a set. -/
inductive Ingredient where
  | terminal (t : Terminal)
  | set (q : SetName)
deriving DecidableEq, Repr

namespace SetName

def nonterminal : SetName → Nonterminal
  | first n => n
  | follow n => n

/-- The fault of a grammar in which the set is needed for itself. -/
def cycle (g : Grammar) : SetName → GrammarFault
  | first n => .indirectLeftRecursion (g.nameOf (.nonterminal n))
  | follow n => .cyclicFollow (g.nameOf (.nonterminal n))

end SetName

/-- What the symbol `X` begins with. -/
def Ingredient.firstOf : Symbol → Ingredient
  | .terminal t => .terminal t
  | .nonterminal n => .set (.first n)

namespace Grammar

/-- What a production gives to FIRST of its head: what its tail begins with. -/
def firstIngredients (p : Production) : List Ingredient :=
  match p.tail with
  | [] => []
  | X :: _ => if X = .nonterminal p.head then [] else [.firstOf X]

/-- What a tail gives to FOLLOW of `n`: after each `n` what the next symbol begins with, and after a
last `n` what follows the head. -/
def followIngredients (n head : Nonterminal) : List Symbol → List Ingredient
  | [] => []
  | X :: tail =>
    (if X = .nonterminal n then
      match tail with
      | Y :: _ => [.firstOf Y]
      | [] => if head = n then [] else [.set (.follow head)]
    else []) ++ followIngredients n head tail

/-- The parts of a set, in the order in which they are looked up. -/
def ingredients (g : Grammar) : SetName → List Ingredient
  | .first n => (g.productions.filter fun p => p.head = n).flatMap firstIngredients
  | .follow n => g.productions.flatMap fun p => followIngredients n p.head p.tail

end Grammar

/-- The sets computed so far, in the order of their completion, and those being computed. -/
structure Analysis where
  known : List (SetName × TerminalSet)
  underway : List SetName
deriving DecidableEq, Repr

namespace Analysis

def empty : Analysis := ⟨[], []⟩

/-- Unites ingredients, looking up the sets among them from left to right. -/
def unite (lookUp : SetName → Analysis → Except BuildError TerminalSet × Analysis) :
    List Ingredient → TerminalSet → Analysis → Except BuildError TerminalSet × Analysis
  | [], total, a => (.ok total, a)
  | .terminal t :: parts, total, a => unite lookUp parts (total.insert t) a
  | .set q :: parts, total, a =>
    match lookUp q a with
    | (.error e, a) => (.error e, a)
    | (.ok s, a) => unite lookUp parts (total.union s) a

end Analysis

namespace Grammar

/-- Looks a set up, or computes and keeps it. The sets underway are different ones, so `depth` need
not exceed the number of sets. -/
def lookUp (g : Grammar) (depth : Nat) (q : SetName) (a : Analysis) :
    Except BuildError TerminalSet × Analysis :=
  match a.known.lookup q with
  | some s => (.ok s, a)
  | none =>
    if q ∈ a.underway then (.error (.grammar (q.cycle g)), a)
    else if g.contains (.nonterminal q.nonterminal) then
      match depth with
      | 0 => (.error (.grammar (q.cycle g)), a)
      | depth + 1 =>
        match Analysis.unite (g.lookUp depth) (g.ingredients q) ∅
            { a with underway := q :: a.underway } with
        | (.error e, b) => (.error e, { b with underway := b.underway.erase q })
        | (.ok s, b) => (.ok s, ⟨b.known ++ [(q, s)], b.underway.erase q⟩)
    else (.error (.dangling (.nonterminal q.nonterminal)), a)

/-- The number of sets that there are to compute. -/
def setCount (g : Grammar) : Nat := 2 * g.nonterminals.length

/-- The terminals that can begin what `X` derives. -/
def first (g : Grammar) (X : Symbol) (a : Analysis) : Except BuildError TerminalSet × Analysis :=
  if g.contains X then
    match X with
    | .terminal t => (.ok (.singleton t), a)
    | .nonterminal n => g.lookUp g.setCount (.first n) a
  else (.error (.misuse (.foreignSymbol X)), a)

/-- The terminals that can come right after `X`. -/
def follow (g : Grammar) (X : Symbol) (a : Analysis) : Except BuildError TerminalSet × Analysis :=
  if g.contains X then
    match X with
    | .terminal _ => (.error (.misuse (.followOfTerminal (g.nameOf X))), a)
    | .nonterminal n => g.lookUp g.setCount (.follow n) a
  else (.error (.misuse (.foreignSymbol X)), a)

end Grammar
end ShiftReduce
