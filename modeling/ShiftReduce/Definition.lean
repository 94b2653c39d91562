import ShiftReduce.Declaration
import ShiftReduce.Grammar

namespace ShiftReduce

/-- The declarations made so far. -/
structure Definition extends Alphabet where
  rules : List Production
  valid : toAlphabet.Valid
  rules_allowed : ∀ p ∈ rules, toAlphabet.Allows p

namespace Alphabet

def names (a : Alphabet) : Names := ⟨a.declares, a.name?⟩

/-- What may be added to a definition over `a`. -/
def Admits (a : Alphabet) : Addition → Prop
  | .terminal name => name ≠ "" ∧ ¬ a.declares name
  | .nonterminal name => name ≠ "" ∧ ¬ a.declares name
  | .production p => a.Allows p

theorem checkRule_iff_allows (a : Alphabet) (head : Symbol) (tail : List Symbol) (p : Production) :
    a.names.checkRule head tail = .ok p ↔
      head = .nonterminal p.head ∧ p.tail = tail ∧ a.Allows p := by
  rw [Names.checkRule_eq_ok]
  constructor
  · rintro ⟨rfl, rfl, ⟨hne, hhead⟩, htail, hdeclared⟩
    exact ⟨rfl, rfl, hhead, hne, htail, fun X hX => (hdeclared X hX).1,
      fun X hX => (hdeclared X hX).2⟩
  · rintro ⟨rfl, rfl, h⟩
    exact ⟨rfl, rfl, ⟨h.head_ne_start, h.head_declared⟩, h.tail_ne_nil,
      fun X hX => ⟨h.tail_declared X hX, h.tail_not_reserved X hX⟩⟩

theorem admits_of_check {a : Alphabet} {c : Declaration} {addition : Addition}
    (h : a.names.check c = .ok addition) : a.Admits addition := by
  obtain ⟨name, -, rfl, hname⟩ | ⟨name, -, rfl, hname⟩ | ⟨head, tail, p, -, rfl, hrule⟩ :=
    Names.check_cases h
  · exact (Names.checkName_eq_ok name).mp hname
  · exact (Names.checkName_eq_ok name).mp hname
  · exact ((a.checkRule_iff_allows head tail p).mp hrule).2.2

end Alphabet

namespace Definition

def empty : Definition := ⟨.reserved, [], Alphabet.reserved_valid, by simp⟩

def add (d : Definition) : (addition : Addition) → d.Admits addition → Definition
  | .terminal name, h =>
    { toAlphabet := d.toAlphabet.addTerminal name
      rules := d.rules
      valid := Alphabet.addTerminal_valid d.valid h.1 h.2
      rules_allowed := fun p hp => Alphabet.allows_addTerminal (d.rules_allowed p hp) name }
  | .nonterminal name, h =>
    { toAlphabet := d.toAlphabet.addNonterminal name
      rules := d.rules
      valid := Alphabet.addNonterminal_valid d.valid h.1 h.2
      rules_allowed := fun p hp => Alphabet.allows_addNonterminal (d.rules_allowed p hp) name }
  | .production p, h =>
    { d with
      rules := d.rules ++ [p]
      rules_allowed := fun q hq => by
        rcases List.mem_append.mp hq with hq | hq
        · exact d.rules_allowed q hq
        · rw [List.mem_singleton] at hq
          exact hq ▸ h }

/-- The next number of a kind. Production 0 is reserved for the augmented production. -/
def next (d : Definition) : Counted → Nat
  | .terminals => d.terminals.length
  | .nonterminals => d.nonterminals.length
  | .productions => d.rules.length + 1

def declare (d : Definition) (c : Declaration) : Except GrammarFault (Declared × Definition) :=
  match h : d.names.check c with
  | .error e => .error e
  | .ok addition =>
    if d.next addition.kind < idCapacity then
      .ok (addition.declared (d.next addition.kind), d.add addition (Alphabet.admits_of_check h))
    else .error (.capacityExceeded addition.kind)

/-- Makes the declarations one after another and stops at the first that is refused. -/
def declareAll (d : Definition) : List Declaration → Except GrammarFault Definition
  | [] => .ok d
  | c :: cs =>
    match d.declare c with
    | .error e => .error e
    | .ok (_, d') => d'.declareAll cs

/-- Makes the declarations one after another and passes over those that are refused. -/
def declareEach (d : Definition) :
    List Declaration → List (Except GrammarFault Declared) × Definition
  | [] => ([], d)
  | c :: cs =>
    match d.declare c with
    | .error e =>
      let (results, d') := d.declareEach cs
      (.error e :: results, d')
    | .ok (new, d₁) =>
      let (results, d') := d₁.declareEach cs
      (.ok new :: results, d')

/-- Whether the nonterminal occurs in some tail. -/
def derives (d : Definition) (n : Nonterminal) : Bool :=
  d.rules.any fun p => .nonterminal n ∈ p.tail

/-- The heads that occur in no tail, each once, in the order of their first rules. -/
def roots (d : Definition) : List Nonterminal :=
  ((d.rules.map Production.head).filter fun n => !d.derives n).eraseDups

theorem mem_roots {d : Definition} {n : Nonterminal} :
    n ∈ d.roots ↔ (∃ p ∈ d.rules, p.head = n) ∧ ∀ q ∈ d.rules, .nonterminal n ∉ q.tail := by
  simp [roots, derives, List.mem_eraseDups]

/-- The grammar of a definition with a single root. -/
def finish (d : Definition) : Except GrammarFault Grammar :=
  match h : d.roots with
  | [] => .error .missingRoot
  | [root] =>
    have hroot : root ∈ d.roots := by simp [h]
    .ok
      { toAlphabet := d.toAlphabet
        rules := d.rules
        root := root
        valid := d.valid
        rules_allowed := d.rules_allowed
        root_heads := (mem_roots.mp hroot).1
        root_not_derived := (mem_roots.mp hroot).2
        root_unique := fun p hp hq => by
          have hp' : p.head ∈ d.roots := mem_roots.mpr ⟨⟨p, hp, rfl⟩, hq⟩
          simpa [h] using hp' }
  | roots => .error (.multipleRoots (roots.map fun n => d.nameOf (.nonterminal n)))

end Definition

/-- The grammar that a list of declarations defines, or the first fault. -/
def Grammar.define (declarations : List Declaration) : Except GrammarFault Grammar :=
  match Definition.empty.declareAll declarations with
  | .error e => .error e
  | .ok d => d.finish

end ShiftReduce
