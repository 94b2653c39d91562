import Mathlib.Data.List.Nodup
import ShiftReduce.Definition

namespace ShiftReduce

namespace Declared

def symbol? : Declared → Option Symbol
  | symbol X => some X
  | production _ => none

def number : Declared → Nat
  | symbol (.terminal t) => t.number
  | symbol (.nonterminal n) => n.number
  | production p => p.number

end Declared

theorem Addition.number_declared (addition : Addition) (number : Nat) :
    (addition.declared number).number = number := by
  cases addition with
  | terminal | nonterminal | production => rfl

namespace Declaration

def terminal? : Declaration → Option String
  | terminal name => some name
  | nonterminal _ => none
  | rule .. => none

def nonterminal? : Declaration → Option String
  | terminal _ => none
  | nonterminal name => some name
  | rule .. => none

/-- The name that is declared, of a terminal or a nonterminal. -/
def name? : Declaration → Option String
  | terminal name => some name
  | nonterminal name => some name
  | rule .. => none

def rule? : Declaration → Option (Symbol × List Symbol)
  | terminal _ => none
  | nonterminal _ => none
  | rule head tail => some (head, tail)

/-- What the declaration brings into being after the ones before it: the next of its kind. Number 0
of each kind is reserved. -/
def brings (before : List Declaration) : Declaration → Declared
  | terminal _ => .symbol (.terminal ⟨(before.filterMap terminal?).length + 1⟩)
  | nonterminal _ => .symbol (.nonterminal ⟨(before.filterMap nonterminal?).length + 1⟩)
  | rule .. => .production ⟨(before.filterMap rule?).length + 1⟩

/-- What the declarations bring into being, one after another. -/
def brought (before : List Declaration) : List Declaration → List Declared
  | [] => []
  | c :: cs => c.brings before :: brought (before ++ [c]) cs

/-- The symbols that are declared, in order. -/
def symbols (cs : List Declaration) : List Symbol := (brought [] cs).filterMap Declared.symbol?

/-- A new name, or a rule over symbols that were declared, with a nonterminal for its head and a
tail that is not empty. -/
def Admissible (before : List Declaration) : Declaration → Prop
  | terminal name => name ≠ "" ∧ name ≠ "$" ∧ name ≠ "$start" ∧ name ∉ before.filterMap name?
  | nonterminal name => name ≠ "" ∧ name ≠ "$" ∧ name ≠ "$start" ∧ name ∉ before.filterMap name?
  | rule head tail => (∃ n, head = .nonterminal n) ∧ head ≠ .start ∧ head ∈ symbols before ∧
      tail ≠ [] ∧ ∀ X ∈ tail, X ∈ symbols before

/-- The nonterminal heads a rule and occurs in no tail. -/
def IsRoot (cs : List Declaration) (n : Nonterminal) : Prop :=
  (∃ r ∈ cs.filterMap rule?, r.1 = .nonterminal n) ∧
    ∀ r ∈ cs.filterMap rule?, .nonterminal n ∉ r.2

/-- Every declaration is admissible after those before it, and there is one root. -/
structure WellFormed (cs : List Declaration) : Prop where
  admissible : ∀ before c after, cs = before ++ c :: after → Admissible before c
  root : ∃ n, IsRoot cs n ∧ ∀ m, IsRoot cs m → m = n

/-- No number reaches the capacity. -/
def WithinCapacity (cs : List Declaration) : Prop :=
  ∀ before c after, cs = before ++ c :: after → (c.brings before).number < idCapacity

/-- The declarations can all be made after those before. -/
def AcceptedAfter (before cs : List Declaration) : Prop :=
  ∀ between c after, cs = between ++ c :: after →
    (c.brings (before ++ between)).number < idCapacity ∧ c.Admissible (before ++ between)

theorem brought_append (before cs : List Declaration) (c : Declaration) :
    brought before (cs ++ [c]) = brought before cs ++ [c.brings (before ++ cs)] := by
  induction cs generalizing before with
  | nil => rw [List.append_nil]; rfl
  | cons first cs ih =>
    rw [List.cons_append, brought, brought, ih, List.cons_append, List.append_assoc,
      List.singleton_append]

theorem symbols_append (cs : List Declaration) (c : Declaration) :
    symbols (cs ++ [c]) = symbols cs ++ (c.brings cs).symbol?.toList := by
  rw [symbols, brought_append, List.filterMap_append, List.nil_append, ← symbols]
  cases c with
  | terminal | nonterminal | rule => rfl

theorem mem_names (cs : List Declaration) (name : String) :
    name ∈ cs.filterMap name? ↔
      name ∈ cs.filterMap terminal? ∨ name ∈ cs.filterMap nonterminal? := by
  induction cs with
  | nil => simp
  | cons c cs ih =>
    cases c with
    | terminal first =>
      simp only [List.filterMap_cons, name?, terminal?, nonterminal?, List.mem_cons, ih, or_assoc]
    | nonterminal first =>
      simp only [List.filterMap_cons, name?, terminal?, nonterminal?, List.mem_cons, ih,
        or_left_comm]
    | rule head tail => simpa only [List.filterMap_cons, name?, terminal?, nonterminal?] using ih

end Declaration

/-- What holds at every place of a list holds at its first place and at every place behind it. -/
theorem forall_split_cons {α : Type} (P : List α → α → Prop) (x : α) (xs : List α) :
    (∀ before y after, x :: xs = before ++ y :: after → P before y) ↔
      P [] x ∧ ∀ before y after, xs = before ++ y :: after → P (x :: before) y := by
  constructor
  · intro h
    refine ⟨h [] x xs rfl, ?_⟩
    intro before y after hxs
    exact h (x :: before) y after (by rw [hxs, List.cons_append])
  · intro ⟨hfirst, hrest⟩ before y after hxs
    cases before with
    | nil =>
      obtain ⟨rfl, -⟩ := List.cons.inj hxs
      exact hfirst
    | cons z before =>
      obtain ⟨rfl, hrests⟩ := List.cons.inj hxs
      exact hrest before y after hrests

namespace Declaration

theorem acceptedAfter_nil (before : List Declaration) : AcceptedAfter before [] := by
  intro between c after hnil
  cases between with
  | nil => cases hnil
  | cons => cases hnil

theorem acceptedAfter_cons (before : List Declaration) (c : Declaration) (cs : List Declaration) :
    AcceptedAfter before (c :: cs) ↔
      ((c.brings before).number < idCapacity ∧ c.Admissible before) ∧
        AcceptedAfter (before ++ [c]) cs := by
  have hsplit := forall_split_cons (fun between y => (y.brings (before ++ between)).number <
    idCapacity ∧ y.Admissible (before ++ between)) c cs
  simp only [List.append_nil] at hsplit
  unfold AcceptedAfter
  simp only [List.append_assoc, List.singleton_append]
  exact hsplit

theorem acceptedAfter_nil_iff (cs : List Declaration) :
    AcceptedAfter [] cs ↔ WithinCapacity cs ∧
      ∀ before c after, cs = before ++ c :: after → Admissible before c := by
  constructor
  · intro h
    exact ⟨fun before c after hcs => (h before c after hcs).1,
      fun before c after hcs => (h before c after hcs).2⟩
  · intro ⟨hfits, hadmissible⟩ before c after hcs
    exact ⟨hfits before c after hcs, hadmissible before c after hcs⟩

end Declaration

namespace Alphabet

variable {a : Alphabet}

/-- A name belongs to one symbol. -/
theorem Valid.name_injective (h : a.Valid) {X Y : Symbol} {name : String}
    (hX : a.name? X = some name) (hY : a.name? Y = some name) : X = Y := by
  obtain ⟨hterminals, hnonterminals, hdisjoint⟩ := List.nodup_append.mp h.names_nodup
  rcases X with ⟨⟨i⟩⟩ | ⟨⟨i⟩⟩
  · rcases Y with ⟨⟨j⟩⟩ | ⟨⟨j⟩⟩
    · obtain ⟨hi, -⟩ := List.getElem?_eq_some_iff.mp hX
      have hij : i = j := (List.getElem?_inj hi hterminals).mp (hX.trans hY.symm)
      rw [hij]
    · exact False.elim (hdisjoint name (List.mem_of_getElem? hX) name (List.mem_of_getElem? hY) rfl)
  · rcases Y with ⟨⟨j⟩⟩ | ⟨⟨j⟩⟩
    · exact False.elim (hdisjoint name (List.mem_of_getElem? hY) name (List.mem_of_getElem? hX) rfl)
    · obtain ⟨hi, -⟩ := List.getElem?_eq_some_iff.mp hX
      have hij : i = j := (List.getElem?_inj hi hnonterminals).mp (hX.trans hY.symm)
      rw [hij]

theorem Valid.find_nameOf (h : a.Valid) {X : Symbol} (hX : X ∈ a.symbols) :
    a.find (a.nameOf X) = some X := by
  have hname {Y : Symbol} (hY : Y ∈ a.symbols) : a.name? Y = some (a.nameOf Y) := by
    obtain ⟨name, hname⟩ := Option.isSome_iff_exists.mp ((h.mem_symbols Y).mp hY)
    rw [nameOf, hname, Option.getD_some]
  cases hfind : a.find (a.nameOf X) with
  | none =>
    have hnone := List.find?_eq_none.mp hfind X hX
    exact False.elim (hnone (decide_eq_true rfl))
  | some Y =>
    have hsame : a.nameOf Y = a.nameOf X := by
      have hfound := List.find?_some (p := fun Y => decide (a.nameOf Y = a.nameOf X)) hfind
      exact of_decide_eq_true hfound
    have hYname := hname (List.mem_of_find?_eq_some hfind)
    rw [hsame] at hYname
    rw [h.name_injective hYname (hname hX)]

/-- Declaring more symbols leaves the names of the others as they are. -/
theorem name?_mono {b : Alphabet} (hterminals : a.terminals <+: b.terminals)
    (hnonterminals : a.nonterminals <+: b.nonterminals) {X : Symbol} (h : a.contains X) :
    b.name? X = a.name? X := by
  rcases X with t | n
  · obtain ⟨more, hmore⟩ := hterminals
    rw [name?, name?, ← hmore]
    exact List.getElem?_append_left (contains_terminal.mp h)
  · obtain ⟨more, hmore⟩ := hnonterminals
    rw [name?, name?, ← hmore]
    exact List.getElem?_append_left (contains_nonterminal.mp h)

theorem names_append (h : a.Valid) {b : Alphabet} (hterminals : a.terminals <+: b.terminals)
    (hnonterminals : a.nonterminals <+: b.nonterminals) {X : Symbol} {name : String}
    (hsymbols : b.symbols = a.symbols ++ [X]) (hname : b.name? X = some name) :
    b.symbols.map b.name? = a.symbols.map a.name? ++ [some name] := by
  rw [hsymbols, List.map_append, List.map_singleton, hname]
  congr 1
  apply List.map_congr_left
  intro Y hY
  exact name?_mono hterminals hnonterminals ((h.mem_symbols Y).mp hY)

end Alphabet

end ShiftReduce
