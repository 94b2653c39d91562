import ShiftReduce.Proofs.SetResolution

namespace ShiftReduce
namespace Grammar

/-- The productions, each of them put in the place of the last nonterminal, turn the form into the
word. -/
inductive Rightmost (g : Grammar) : List Symbol → List ProductionId → List Terminal → Prop
  | done (word : List Terminal) : Rightmost g (word.map .terminal) [] word
  | step {before : List Symbol} {p : ProductionId} {q : Production} {after : List Terminal}
      {rules : List ProductionId} {word : List Terminal} :
      p ≠ .augmented → g.production? p = some q →
      Rightmost g (before ++ q.tail ++ after.map .terminal) rules word →
      Rightmost g (before ++ .nonterminal q.head :: after.map .terminal) (p :: rules) word

/-- The symbols yield the word, each a part of its own. What derives the later parts comes before
what derives the earlier ones. -/
inductive Yields (g : Grammar) : List Symbol → List ProductionId → List Terminal → Prop
  | nil : Yields g [] [] []
  | terminal {t : Terminal} {symbols : List Symbol} {rules : List ProductionId}
      {word : List Terminal} :
      Yields g symbols rules word → Yields g (.terminal t :: symbols) rules (t :: word)
  | nonterminal {p : ProductionId} {q : Production} {symbols : List Symbol}
      {rules more : List ProductionId} {word rest : List Terminal} :
      p ≠ .augmented → g.production? p = some q → Yields g q.tail rules word →
      Yields g symbols more rest →
      Yields g (.nonterminal q.head :: symbols) (more ++ p :: rules) (word ++ rest)

theorem yields_terminals (g : Grammar) (word : List Terminal) :
    g.Yields (word.map .terminal) [] word := by
  induction word with
  | nil => exact .nil
  | cons t word ih => exact .terminal ih

theorem yields_append (g : Grammar) {symbols more : List Symbol}
    {rules moreRules : List ProductionId} {word rest : List Terminal}
    (h : g.Yields symbols rules word) (hmore : g.Yields more moreRules rest) :
    g.Yields (symbols ++ more) (moreRules ++ rules) (word ++ rest) := by
  induction h with
  | nil =>
    rw [List.append_nil]
    exact hmore
  | terminal _ ih => exact .terminal ih
  | nonterminal hp hq hword _ _ ih =>
    have hall := Yields.nonterminal hp hq hword ih
    simpa only [List.append_assoc, List.cons_append] using hall

theorem yields_append_cases (g : Grammar) (symbols more : List Symbol) (all : List ProductionId)
    (whole : List Terminal) (h : g.Yields (symbols ++ more) all whole) :
    ∃ rules moreRules word rest, g.Yields symbols rules word ∧ g.Yields more moreRules rest ∧
      all = moreRules ++ rules ∧ whole = word ++ rest := by
  induction symbols generalizing all whole with
  | nil => exact ⟨[], all, [], whole, .nil, h, (List.append_nil all).symm, rfl⟩
  | cons X symbols ih =>
    cases h with
    | terminal h =>
      obtain ⟨rules, moreRules, word, rest, hsymbols, hmore, rfl, rfl⟩ := ih _ _ h
      exact ⟨rules, moreRules, _, rest, .terminal hsymbols, hmore, rfl, rfl⟩
    | nonterminal hp hq hword h =>
      obtain ⟨rules, moreRules, word, rest, hsymbols, hmore, rfl, rfl⟩ := ih _ _ h
      exact ⟨_, moreRules, _, rest, .nonterminal hp hq hword hsymbols, hmore,
        List.append_assoc _ _ _, (List.append_assoc _ _ _).symm⟩

theorem eq_of_yields_terminals (g : Grammar) (word whole : List Terminal)
    (rules : List ProductionId) (h : g.Yields (word.map .terminal) rules whole) :
    rules = [] ∧ whole = word := by
  induction word generalizing whole with
  | nil =>
    cases h
    exact ⟨rfl, rfl⟩
  | cons t word ih =>
    cases h with
    | terminal h =>
      obtain ⟨rfl, rfl⟩ := ih _ h
      exact ⟨rfl, rfl⟩

theorem yields_of_rightmost (g : Grammar) {form : List Symbol} {rules : List ProductionId}
    {word : List Terminal} (h : g.Rightmost form rules word) : g.Yields form rules word := by
  induction h with
  | done word => exact g.yields_terminals word
  | @step before p q after rules word hp hq _ ih =>
    rw [List.append_assoc] at ih
    obtain ⟨front, restRules, frontWord, rest, hbefore, hrest, rfl, rfl⟩ :=
      g.yields_append_cases before _ rules word ih
    obtain ⟨tailRules, afterRules, tailWord, afterWord, htail, hafter, rfl, rfl⟩ :=
      g.yields_append_cases q.tail _ restRules rest hrest
    obtain ⟨rfl, rfl⟩ := g.eq_of_yields_terminals after afterWord afterRules hafter
    have hhead := Yields.nonterminal hp hq htail (g.yields_terminals afterWord)
    exact g.yields_append hbefore hhead

/-- The symbol is the terminal, or its FIRST has it. -/
def Begins (g : Grammar) : Symbol → Terminal → Prop
  | .terminal u, t => u = t
  | .nonterminal n, t => g.Collects (.first n) t

theorem begins_head (g : Grammar) {p : ProductionId} {q : Production} {X : Symbol}
    {rest : List Symbol} {t : Terminal} (hq : g.production? p = some q)
    (htail : q.tail = X :: rest) (h : g.Begins X t) : g.Begins (.nonterminal q.head) t := by
  by_cases hX : X = .nonterminal q.head
  · rw [← hX]
    exact h
  · have hpart : Ingredient.firstOf X ∈ g.ingredients (.first q.head) :=
      g.mem_ingredients_first.mpr ⟨p, q, X, rest, hq, rfl, htail, hX, rfl⟩
    cases X with
    | terminal u =>
      cases h
      exact .terminal hpart
    | nonterminal n => exact .set hpart h

/-- The word of a symbol is not empty, and the symbol begins with the word's first terminal. -/
theorem begins_of_yields (g : Grammar) {X : Symbol} {symbols : List Symbol}
    {rules : List ProductionId} {word : List Terminal} (h : g.Yields (X :: symbols) rules word) :
    ∃ t rest, word = t :: rest ∧ g.Begins X t := by
  generalize hform : X :: symbols = form at h
  induction h generalizing X symbols with
  | nil => cases hform
  | @terminal t _ _ rest =>
    cases hform
    exact ⟨t, rest, rfl, rfl⟩
  | @nonterminal p q _ _ _ _ _ _ hq _ _ ih =>
    cases hform
    obtain ⟨Y, tail, htail⟩ := List.exists_cons_of_ne_nil (g.tail_ne_nil hq)
    obtain ⟨t, rest, rfl, hY⟩ := ih htail.symm
    exact ⟨t, _, rfl, g.begins_head hq htail hY⟩

/-- What comes right after a nonterminal in a tail begins with what follows the nonterminal. -/
theorem follow_of_begins (g : Grammar) {p : ProductionId} {q : Production} {n : Nonterminal}
    {before after : List Symbol} {Y : Symbol} {t : Terminal} (hq : g.production? p = some q)
    (htail : q.tail = before ++ .nonterminal n :: Y :: after) (h : g.Begins Y t) :
    g.Collects (.follow n) t := by
  have hpart : Ingredient.firstOf Y ∈ g.ingredients (.follow n) :=
    g.mem_ingredients_follow.mpr ⟨p, q, hq, Or.inl ⟨before, Y, after, htail, rfl⟩⟩
  cases Y with
  | terminal u =>
    cases h
    exact .terminal hpart
  | nonterminal m => exact .set hpart h

theorem follow_of_last (g : Grammar) {p : ProductionId} {q : Production} {n : Nonterminal}
    {before : List Symbol} {t : Terminal} (hq : g.production? p = some q)
    (htail : q.tail = before ++ [.nonterminal n]) (h : g.Collects (.follow q.head) t) :
    g.Collects (.follow n) t := by
  by_cases hn : q.head = n
  · rw [← hn]
    exact h
  · have hpart : .set (.follow q.head) ∈ g.ingredients (.follow n) :=
      g.mem_ingredients_follow.mpr ⟨p, q, hq, Or.inr ⟨before, htail, hn, rfl⟩⟩
    exact .set hpart h

end Grammar
end ShiftReduce
