import ShiftReduce.Alphabet
import ShiftReduce.Dangling

/-! Grammars: an alphabet, the rules over it, and the one nonterminal that heads a rule and occurs
in no tail. The augmented production `$start -> root $` is part of every grammar. -/
namespace ShiftReduce

structure Grammar extends Alphabet where
  /-- The productions of the definition, in order. -/
  rules : List Production
  root : Nonterminal
  valid : toAlphabet.Valid
  rules_allowed : ∀ p ∈ rules, toAlphabet.Allows p
  root_heads : ∃ p ∈ rules, p.head = root
  root_not_derived : ∀ p ∈ rules, .nonterminal root ∉ p.tail
  root_unique : ∀ p ∈ rules, (∀ q ∈ rules, .nonterminal p.head ∉ q.tail) → p.head = root

namespace Grammar

/-- The production that derives the whole input from the root. -/
def augmentedProduction (g : Grammar) : Production :=
  ⟨.start, [.nonterminal g.root, .endOfInput]⟩

/-- All productions; the place of a production is its number. -/
def productions (g : Grammar) : List Production := g.augmentedProduction :: g.rules

def production? (g : Grammar) (p : ProductionId) : Option Production := g.productions[p.number]?

def production (g : Grammar) (p : ProductionId) : Except Dangling Production :=
  match g.production? p with
  | some production => .ok production
  | none => .error (.production p)

def numberedProductions (g : Grammar) : List (ProductionId × Production) :=
  g.productions.zipIdx.map fun (production, i) => (⟨i⟩, production)

/-- The numbers of the productions of one head, ascending. -/
def alternatives (g : Grammar) (n : Nonterminal) : List ProductionId :=
  (g.numberedProductions.filter fun (_, production) => production.head = n).map Prod.fst

/-- The numbers of the other productions that say the same as production `p`. -/
def copies (g : Grammar) (p : ProductionId) : List ProductionId :=
  (g.numberedProductions.filter fun (q, production) =>
    q ≠ p ∧ g.production? p = some production).map Prod.fst

end Grammar
end ShiftReduce
