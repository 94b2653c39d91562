import ShiftReduce.Production

namespace ShiftReduce

/-- Declared names; the place of a name is the number of its terminal or nonterminal. -/
structure Alphabet where
  terminals : List String
  nonterminals : List String
  /-- Terminals and nonterminals together, in the order of their declarations. -/
  symbols : List Symbol
deriving DecidableEq, Repr

namespace Alphabet

/-- The alphabet before any declaration. -/
def reserved : Alphabet := ⟨["$"], ["$start"], [.endOfInput, .start]⟩

def name? (a : Alphabet) : Symbol → Option String
  | .terminal t => a.terminals[t.number]?
  | .nonterminal n => a.nonterminals[n.number]?

def contains (a : Alphabet) (X : Symbol) : Bool := (a.name? X).isSome

/-- The name of a symbol, which may be a symbol of another alphabet. -/
def nameOf (a : Alphabet) (X : Symbol) : String := (a.name? X).getD "<unknown>"

/-- The first symbol of that name. -/
def find (a : Alphabet) (name : String) : Option Symbol :=
  a.symbols.find? fun X => a.nameOf X = name

def declares (a : Alphabet) (name : String) : Bool :=
  name ∈ a.terminals || name ∈ a.nonterminals

def addTerminal (a : Alphabet) (name : String) : Alphabet :=
  { a with
    terminals := a.terminals ++ [name]
    symbols := a.symbols ++ [.terminal ⟨a.terminals.length⟩] }

def addNonterminal (a : Alphabet) (name : String) : Alphabet :=
  { a with
    nonterminals := a.nonterminals ++ [name]
    symbols := a.symbols ++ [.nonterminal ⟨a.nonterminals.length⟩] }

/-- The laws that every sequence of declarations keeps. -/
structure Valid (a : Alphabet) : Prop where
  reserved_terminals : ["$"] <+: a.terminals
  reserved_nonterminals : ["$start"] <+: a.nonterminals
  reserved_symbols : [.endOfInput, .start] <+: a.symbols
  names_nodup : (a.terminals ++ a.nonterminals).Nodup
  name_ne_empty : ∀ name ∈ a.terminals ++ a.nonterminals, name ≠ ""
  symbols_nodup : a.symbols.Nodup
  mem_symbols : ∀ X, X ∈ a.symbols ↔ a.contains X

theorem reserved_valid : reserved.Valid where
  reserved_terminals := List.prefix_refl _
  reserved_nonterminals := List.prefix_refl _
  reserved_symbols := List.prefix_refl _
  names_nodup := by simp [reserved]
  name_ne_empty := by simp [reserved]
  symbols_nodup := by simp [reserved, Symbol.endOfInput, Symbol.start]
  mem_symbols X := by
    rcases X with ⟨⟨n⟩⟩ | ⟨⟨n⟩⟩ <;> cases n <;>
      simp [reserved, contains, name?, Symbol.endOfInput, Symbol.start, Terminal.endOfInput,
        Nonterminal.start]

theorem contains_terminal {a : Alphabet} {t : Terminal} :
    a.contains (.terminal t) = true ↔ t.number < a.terminals.length := by
  simp [contains, name?]

theorem contains_nonterminal {a : Alphabet} {n : Nonterminal} :
    a.contains (.nonterminal n) = true ↔ n.number < a.nonterminals.length := by
  simp [contains, name?]

theorem not_mem_names_of_declares {a : Alphabet} {name : String} (h : ¬ a.declares name) :
    name ∉ a.terminals ∧ name ∉ a.nonterminals := by
  simpa [declares] using h

/-- One more symbol, of either kind. -/
theorem Valid.add_symbol {a b : Alphabet} (ha : a.Valid) {X : Symbol} {name : String}
    (hne : name ≠ "") (hnew : ¬ a.declares name) (hterminals : a.terminals <+: b.terminals)
    (hnonterminals : a.nonterminals <+: b.nonterminals) (hsymbols : b.symbols = a.symbols ++ [X])
    (hnames : (b.terminals ++ b.nonterminals).Perm (name :: (a.terminals ++ a.nonterminals)))
    (hcontains : ∀ Y, b.contains Y ↔ a.contains Y ∨ Y = X) (hfresh : ¬ a.contains X) : b.Valid where
  reserved_terminals := ha.reserved_terminals.trans hterminals
  reserved_nonterminals := ha.reserved_nonterminals.trans hnonterminals
  reserved_symbols := by
    rw [hsymbols]
    exact ha.reserved_symbols.trans (List.prefix_append _ _)
  names_nodup := by
    obtain ⟨hterminal, hnonterminal⟩ := not_mem_names_of_declares hnew
    rw [hnames.nodup_iff, List.nodup_cons, List.mem_append]
    exact ⟨fun hold => hold.elim hterminal hnonterminal, ha.names_nodup⟩
  name_ne_empty := by
    intro other hother
    rcases List.mem_cons.mp (hnames.mem_iff.mp hother) with rfl | hold
    · exact hne
    · exact ha.name_ne_empty other hold
  symbols_nodup := by
    rw [hsymbols, (List.perm_append_singleton X a.symbols).nodup_iff, List.nodup_cons,
      ha.mem_symbols]
    exact ⟨hfresh, ha.symbols_nodup⟩
  mem_symbols Y := by
    rw [hsymbols, List.mem_append, ha.mem_symbols, List.mem_singleton, hcontains]

theorem addTerminal_valid {a : Alphabet} (ha : a.Valid) {name : String} (hne : name ≠ "")
    (hnew : ¬ a.declares name) : (a.addTerminal name).Valid := by
  refine ha.add_symbol hne hnew (List.prefix_append _ _) (List.prefix_refl _) rfl ?_ ?_ ?_
  · simp only [addTerminal, List.append_assoc]
    exact List.perm_middle
  · rintro (⟨⟨k⟩⟩ | n)
    · simp only [contains_terminal, Symbol.terminal.injEq, Terminal.mk.injEq, addTerminal,
        List.length_append, List.length_singleton]
      omega
    · simp [contains_nonterminal, addTerminal]
  · rw [contains_terminal]
    exact Nat.lt_irrefl _

theorem addNonterminal_valid {a : Alphabet} (ha : a.Valid) {name : String} (hne : name ≠ "")
    (hnew : ¬ a.declares name) : (a.addNonterminal name).Valid := by
  refine ha.add_symbol hne hnew (List.prefix_refl _) (List.prefix_append _ _) rfl ?_ ?_ ?_
  · simp only [addNonterminal, ← List.append_assoc]
    exact List.perm_append_singleton name _
  · rintro (t | ⟨⟨k⟩⟩)
    · simp [contains_terminal, addNonterminal]
    · simp only [contains_nonterminal, Symbol.nonterminal.injEq, Nonterminal.mk.injEq,
        addNonterminal, List.length_append, List.length_singleton]
      omega
  · rw [contains_nonterminal]
    exact Nat.lt_irrefl _

/-- The productions that a definition over `a` may contain. -/
structure Allows (a : Alphabet) (p : Production) : Prop where
  head_declared : a.contains (.nonterminal p.head)
  head_ne_start : p.head ≠ .start
  tail_ne_nil : p.tail ≠ []
  tail_declared : ∀ X ∈ p.tail, a.contains X
  tail_not_reserved : ∀ X ∈ p.tail, ¬ X.isReserved

theorem contains_mono {a b : Alphabet} (ht : a.terminals <+: b.terminals)
    (hn : a.nonterminals <+: b.nonterminals) {X : Symbol} (h : a.contains X) : b.contains X := by
  rcases X with t | n
  · rw [contains_terminal] at h ⊢
    exact Nat.lt_of_lt_of_le h ht.length_le
  · rw [contains_nonterminal] at h ⊢
    exact Nat.lt_of_lt_of_le h hn.length_le

/-- Declaring more symbols forbids no production. -/
theorem allows_mono {a b : Alphabet} (ht : a.terminals <+: b.terminals)
    (hn : a.nonterminals <+: b.nonterminals) {p : Production} (h : a.Allows p) : b.Allows p where
  head_declared := contains_mono ht hn h.head_declared
  head_ne_start := h.head_ne_start
  tail_ne_nil := h.tail_ne_nil
  tail_declared X hX := contains_mono ht hn (h.tail_declared X hX)
  tail_not_reserved := h.tail_not_reserved

theorem allows_addTerminal {a : Alphabet} {p : Production} (h : a.Allows p) (name : String) :
    (a.addTerminal name).Allows p :=
  allows_mono (a := a) (b := a.addTerminal name) (List.prefix_append _ _) (List.prefix_refl _) h

theorem allows_addNonterminal {a : Alphabet} {p : Production} (h : a.Allows p) (name : String) :
    (a.addNonterminal name).Allows p :=
  allows_mono (a := a) (b := a.addNonterminal name) (List.prefix_refl _) (List.prefix_append _ _) h

end Alphabet
end ShiftReduce
