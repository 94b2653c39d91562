import ShiftReduce.GrammarFault
import ShiftReduce.Production

namespace ShiftReduce

inductive Declaration where
  | terminal (name : String)
  | nonterminal (name : String)
  | rule (head : Symbol) (tail : List Symbol)
deriving DecidableEq, Repr

/-- What a declaration has brought into being. -/
inductive Declared where
  | symbol (X : Symbol)
  | production (p : ProductionId)
deriving DecidableEq, Repr

/-- What a declaration adds that has passed its check. -/
inductive Addition where
  | terminal (name : String)
  | nonterminal (name : String)
  | production (p : Production)
deriving DecidableEq, Repr

namespace Addition

def kind : Addition → Counted
  | terminal _ => .terminals
  | nonterminal _ => .nonterminals
  | production _ => .productions

def declared (number : Nat) : Addition → Declared
  | terminal _ => .symbol (.terminal ⟨number⟩)
  | nonterminal _ => .symbol (.nonterminal ⟨number⟩)
  | production _ => .production ⟨number⟩

end Addition

/-- Numbers of one kind stay below this bound. -/
def idCapacity : Nat := 65535

/-- The names that a declaration is checked against. -/
structure Names where
  taken : String → Bool
  name? : Symbol → Option String

namespace Names

def contains (N : Names) (X : Symbol) : Bool := (N.name? X).isSome

def nameOf (N : Names) (X : Symbol) : String := (N.name? X).getD X.tag

def checkName (N : Names) (name : String) : Except GrammarFault Unit :=
  if name = "" then .error .emptyName
  else if N.taken name then .error (.duplicateName name)
  else .ok ()

def checkHead (N : Names) : Symbol → Except GrammarFault Nonterminal
  | .nonterminal n =>
    if n = .start then .error (.reservedSymbol (N.nameOf .start))
    else if N.contains (.nonterminal n) then .ok n
    else .error (.undeclaredSymbol (.nonterminal n))
  | .terminal t =>
    if N.contains (.terminal t) then .error (.terminalHead (N.nameOf (.terminal t)))
    else .error (.undeclaredSymbol (.terminal t))

/-- Looks at the symbols of a tail from left to right. -/
def checkTail (N : Names) : List Symbol → Except GrammarFault Unit
  | [] => .ok ()
  | X :: tail =>
    if X.isReserved then .error (.reservedSymbol (N.nameOf X))
    else if N.contains X then N.checkTail tail
    else .error (.undeclaredSymbol X)

/-- The production that a rule stands for; the head is checked before the tail. -/
def checkRule (N : Names) (head : Symbol) (tail : List Symbol) :
    Except GrammarFault Production :=
  match N.checkHead head with
  | .error e => .error e
  | .ok n =>
    if tail = [] then .error (.emptyProduction (N.nameOf (.nonterminal n)))
    else
      match N.checkTail tail with
      | .error e => .error e
      | .ok () => .ok ⟨n, tail⟩

def check (N : Names) : Declaration → Except GrammarFault Addition
  | .terminal name => (N.checkName name).map fun () => .terminal name
  | .nonterminal name => (N.checkName name).map fun () => .nonterminal name
  | .rule head tail => (N.checkRule head tail).map .production

variable {N : Names}

theorem checkName_eq_ok (name : String) :
    N.checkName name = .ok () ↔ name ≠ "" ∧ ¬ N.taken name := by
  unfold checkName
  by_cases hempty : name = ""
  · simp [hempty]
  · by_cases htaken : N.taken name
    · simp [hempty, htaken]
    · simp [hempty, htaken]

theorem checkHead_eq_ok (head : Symbol) (n : Nonterminal) :
    N.checkHead head = .ok n ↔ head = .nonterminal n ∧ n ≠ .start ∧ N.contains head := by
  constructor
  · intro h
    unfold checkHead at h
    split at h
    · split at h
      · cases h
      · split at h
        · cases h
          exact ⟨rfl, ‹_›, ‹_›⟩
        · cases h
    · split at h
      · cases h
      · cases h
  · rintro ⟨rfl, hne, hcontains⟩
    rw [checkHead, if_neg hne, if_pos hcontains]

theorem checkTail_eq_ok (tail : List Symbol) :
    N.checkTail tail = .ok () ↔ ∀ X ∈ tail, N.contains X ∧ ¬ X.isReserved := by
  induction tail with
  | nil => simp [checkTail]
  | cons X tail ih =>
    rw [checkTail, List.forall_mem_cons, ← ih]
    by_cases hreserved : X.isReserved
    · simp [hreserved]
    · by_cases hcontains : N.contains X
      · simp [hreserved, hcontains]
      · simp [hreserved, hcontains]

theorem checkRule_eq_ok (head : Symbol) (tail : List Symbol) (p : Production) :
    N.checkRule head tail = .ok p ↔ head = .nonterminal p.head ∧ p.tail = tail ∧
      (p.head ≠ .start ∧ N.contains head) ∧ tail ≠ [] ∧
        ∀ X ∈ tail, N.contains X ∧ ¬ X.isReserved := by
  rw [← checkTail_eq_ok]
  constructor
  · intro h
    unfold checkRule at h
    split at h
    · cases h
    · rename_i n hhead
      split at h
      · cases h
      · rename_i hne
        split at h
        · cases h
        · rename_i htail
          cases h
          obtain ⟨hhead, hallowed⟩ := (checkHead_eq_ok head n).mp hhead
          exact ⟨hhead, rfl, hallowed, hne, htail⟩
  · rintro ⟨rfl, rfl, hallowed, hne, htail⟩
    rw [checkRule, (checkHead_eq_ok _ _).mpr ⟨rfl, hallowed⟩]
    simp only [if_neg hne, htail]

theorem exists_of_map_eq_ok {ε α β : Type} {f : α → β} {x : Except ε α} {b : β}
    (h : x.map f = .ok b) : ∃ a, x = .ok a ∧ f a = b := by
  cases x with
  | error e => cases h
  | ok a =>
    cases h
    exact ⟨a, rfl, rfl⟩

/-- A declaration passes its check with what it says. -/
theorem check_cases {c : Declaration} {addition : Addition} (h : N.check c = .ok addition) :
    (∃ name, c = .terminal name ∧ addition = .terminal name ∧ N.checkName name = .ok ()) ∨
    (∃ name, c = .nonterminal name ∧ addition = .nonterminal name ∧ N.checkName name = .ok ()) ∨
    ∃ head tail p, c = .rule head tail ∧ addition = .production p ∧
      N.checkRule head tail = .ok p := by
  cases c with
  | terminal name =>
    obtain ⟨_, hname, rfl⟩ := exists_of_map_eq_ok h
    exact Or.inl ⟨name, rfl, rfl, hname⟩
  | nonterminal name =>
    obtain ⟨_, hname, rfl⟩ := exists_of_map_eq_ok h
    exact Or.inr (Or.inl ⟨name, rfl, rfl, hname⟩)
  | rule head tail =>
    obtain ⟨p, hrule, rfl⟩ := exists_of_map_eq_ok h
    exact Or.inr (Or.inr ⟨head, tail, p, rfl, rfl, hrule⟩)

end Names
end ShiftReduce
