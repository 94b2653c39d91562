import ShiftReduce.Analysis
import ShiftReduce.Proofs.Productions
import ShiftReduce.Proofs.TransitionLookup
import Mathlib.Logic.Relation
import Mathlib.Tactic.Tauto

namespace ShiftReduce
namespace Grammar

/-- `r` is a part of `q`. -/
def PartOf (g : Grammar) (r q : SetName) : Prop := .set r ∈ g.ingredients q

/-- No chain of parts, parts of parts and so on goes on forever. -/
def Resolves (g : Grammar) (q : SetName) : Prop := Acc g.PartOf q

/-- The terminals that come into a set through its ingredients. -/
inductive Collects (g : Grammar) : SetName → Terminal → Prop
  | terminal {q : SetName} {t : Terminal} : .terminal t ∈ g.ingredients q → Collects g q t
  | set {q r : SetName} {t : Terminal} : .set r ∈ g.ingredients q → Collects g r t → Collects g q t

theorem mem_ingredients_first (g : Grammar) {n : Nonterminal} {i : Ingredient} :
    i ∈ g.ingredients (.first n) ↔ ∃ p q X rest, g.production? p = some q ∧ q.head = n ∧
      q.tail = X :: rest ∧ X ≠ .nonterminal n ∧ i = .firstOf X := by
  simp only [ingredients, List.mem_flatMap, List.mem_filter, decide_eq_true_eq]
  constructor
  · intro ⟨q, ⟨hq, hhead⟩, hi⟩
    obtain ⟨p, hp⟩ := g.mem_productions_iff.mp hq
    unfold firstIngredients at hi
    split at hi
    · exact False.elim (List.not_mem_nil hi)
    · rename_i X rest htail
      split at hi
      · exact False.elim (List.not_mem_nil hi)
      · rename_i hX
        rw [List.mem_singleton] at hi
        exact ⟨p, q, X, rest, hp, hhead, htail, hhead ▸ hX, hi⟩
  · intro ⟨p, q, X, rest, hp, hhead, htail, hX, hi⟩
    refine ⟨q, ⟨g.mem_productions_iff.mpr ⟨p, hp⟩, hhead⟩, ?_⟩
    simp [firstIngredients, htail, hhead, hX, hi]

theorem mem_followIngredients {n head : Nonterminal} {tail : List Symbol} {i : Ingredient} :
    i ∈ followIngredients n head tail ↔
      (∃ before Y after, tail = before ++ .nonterminal n :: Y :: after ∧ i = .firstOf Y) ∨
        (∃ before, tail = before ++ [.nonterminal n] ∧ head ≠ n ∧ i = .set (.follow head)) := by
  induction tail with
  | nil => simp [followIngredients]
  | cons X tail ih =>
    rw [followIngredients.eq_def]
    simp only [List.mem_append, ih]
    constructor
    · intro hi
      rcases hi with hi | ⟨before, Y, after, rfl, hi⟩ | ⟨before, rfl, hne, hi⟩
      · split at hi
        · rename_i hX
          subst hX
          split at hi
          · rename_i Y after
            rw [List.mem_singleton] at hi
            exact Or.inl ⟨[], Y, after, rfl, hi⟩
          · split at hi
            · exact False.elim (List.not_mem_nil hi)
            · rename_i hne
              rw [List.mem_singleton] at hi
              exact Or.inr ⟨[], rfl, hne, hi⟩
        · exact False.elim (List.not_mem_nil hi)
      · exact Or.inl ⟨X :: before, Y, after, rfl, hi⟩
      · exact Or.inr ⟨X :: before, rfl, hne, hi⟩
    · intro hi
      rcases hi with ⟨before, Y, after, htail, hi⟩ | ⟨before, htail, hne, hi⟩
      · rcases List.cons_eq_append_iff.mp htail with ⟨rfl, hrest⟩ | ⟨before', rfl, hrest⟩
        · left
          obtain ⟨rfl, rfl⟩ := List.cons.inj hrest
          simp [hi]
        · exact Or.inr (Or.inl ⟨before', Y, after, hrest, hi⟩)
      · rcases List.cons_eq_append_iff.mp htail with ⟨rfl, hrest⟩ | ⟨before', rfl, hrest⟩
        · left
          obtain ⟨rfl, rfl⟩ := List.cons.inj hrest
          simp [hi, hne]
        · exact Or.inr (Or.inr ⟨before', hrest, hne, hi⟩)

theorem mem_ingredients_follow (g : Grammar) {n : Nonterminal} {i : Ingredient} :
    i ∈ g.ingredients (.follow n) ↔ ∃ p q, g.production? p = some q ∧
      ((∃ before Y after, q.tail = before ++ .nonterminal n :: Y :: after ∧ i = .firstOf Y) ∨
        (∃ before, q.tail = before ++ [.nonterminal n] ∧ q.head ≠ n ∧
          i = .set (.follow q.head))) := by
  simp only [ingredients, List.mem_flatMap, mem_followIngredients]
  constructor
  · intro ⟨q, hq, hi⟩
    obtain ⟨p, hp⟩ := g.mem_productions_iff.mp hq
    exact ⟨p, q, hp, hi⟩
  · intro ⟨p, q, hp, hi⟩
    exact ⟨q, g.mem_productions_iff.mpr ⟨p, hp⟩, hi⟩

theorem eq_of_set_eq_firstOf {r : SetName} {X : Symbol} (h : Ingredient.set r = .firstOf X) :
    X = .nonterminal r.nonterminal := by
  cases X with
  | terminal t => cases h
  | nonterminal n => cases h; rfl

theorem eq_of_terminal_eq_firstOf {t : Terminal} {X : Symbol}
    (h : Ingredient.terminal t = .firstOf X) : X = .terminal t := by
  cases X with
  | terminal u => cases h; rfl
  | nonterminal n => cases h

theorem contains_of_partOf (g : Grammar) {r q : SetName} (h : g.PartOf r q) :
    g.contains (.nonterminal r.nonterminal) := by
  cases q with
  | first n =>
    obtain ⟨p, q, X, rest, hp, -, htail, -, hi⟩ := g.mem_ingredients_first.mp h
    apply g.contains_of_mem_tail hp
    rw [htail, eq_of_set_eq_firstOf hi]
    exact List.mem_cons_self
  | follow n =>
    obtain ⟨p, q, hp, ⟨before, Y, after, htail, hi⟩ | ⟨before, -, -, hi⟩⟩ :=
      g.mem_ingredients_follow.mp h
    · apply g.contains_of_mem_tail hp
      rw [htail, eq_of_set_eq_firstOf hi]
      simp
    · cases hi
      exact g.contains_head hp

theorem mem_symbols_of_collects (g : Grammar) {q : SetName} {t : Terminal}
    (h : g.Collects q t) : .terminal t ∈ g.symbols := by
  rw [g.valid.mem_symbols]
  induction h with
  | set _ _ ih => exact ih
  | terminal hmem =>
    rename_i q t
    cases q with
    | first n =>
      obtain ⟨p, q, X, rest, hp, -, htail, -, hi⟩ := g.mem_ingredients_first.mp hmem
      apply g.contains_of_mem_tail hp
      rw [htail, eq_of_terminal_eq_firstOf hi]
      exact List.mem_cons_self
    | follow n =>
      obtain ⟨p, q, hp, ⟨before, Y, after, htail, hi⟩ | ⟨before, -, -, hi⟩⟩ :=
        g.mem_ingredients_follow.mp hmem
      · apply g.contains_of_mem_tail hp
        rw [htail, eq_of_terminal_eq_firstOf hi]
        simp
      · cases hi

end Grammar

namespace Analysis

/-- All sets kept are right. -/
def Sound (g : Grammar) (a : Analysis) : Prop :=
  ∀ q s, (q, s) ∈ a.known → g.Resolves q ∧ ∀ t, t ∈ s ↔ g.Collects q t

theorem Sound.of_lookup {g : Grammar} {a : Analysis} {q : SetName} {s : TerminalSet}
    (ha : a.Sound g) (h : a.known.lookup q = some s) :
    g.Resolves q ∧ ∀ t, t ∈ s ↔ g.Collects q t :=
  ha q s (mem_of_lookup_eq_some a.known q s h)

theorem Sound.append {g : Grammar} {b : Analysis} {q : SetName} {s : TerminalSet}
    {underway : List SetName} (hb : b.Sound g)
    (hq : g.Resolves q ∧ ∀ t, t ∈ s ↔ g.Collects q t) :
    Sound g ⟨b.known ++ [(q, s)], underway⟩ := by
  intro q' s' hmem
  rcases List.mem_append.mp hmem with hmem | hmem
  · exact hb q' s' hmem
  · rw [List.mem_singleton] at hmem
    cases hmem
    exact hq

/-- A computation leaves the analysis sound and with the same sets underway, and its answer is as
described. -/
def Leaves {α : Type} (g : Grammar) (a : Analysis) (found : α → Prop) (fails : Prop) :
    Except BuildError α × Analysis → Prop
  | (.ok x, b) => b.Sound g ∧ b.underway = a.underway ∧ found x
  | (.error _, b) => b.Sound g ∧ b.underway = a.underway ∧ fails

theorem Leaves.cases {α : Type} {g : Grammar} {a : Analysis} {found : α → Prop} {fails : Prop}
    {outcome : Except BuildError α × Analysis} (h : a.Leaves g found fails outcome) :
    (∃ e b, outcome = (.error e, b) ∧ b.Sound g ∧ b.underway = a.underway ∧ fails) ∨
      ∃ x b, outcome = (.ok x, b) ∧ b.Sound g ∧ b.underway = a.underway ∧ found x := by
  rcases outcome with ⟨e | x, b⟩
  · exact Or.inl ⟨e, b, rfl, h⟩
  · exact Or.inr ⟨x, b, rfl, h⟩

/-- The answer for a set: all that it collects, unless it does not resolve. -/
def Answers (g : Grammar) (q : SetName) (a : Analysis) :
    Except BuildError TerminalSet × Analysis → Prop :=
  a.Leaves g (fun s => g.Resolves q ∧ ∀ t, t ∈ s ↔ g.Collects q t) (¬ g.Resolves q)

/-- The sets underway are different sets of the grammar, each waits for the next, and the depth left
is enough for the others. -/
structure Ready (g : Grammar) (depth : Nat) (q : SetName) (a : Analysis) : Prop where
  sound : a.Sound g
  nodup : a.underway.Nodup
  declared : ∀ u ∈ a.underway, g.contains (.nonterminal u.nonterminal)
  waiting : ∀ u ∈ a.underway, Relation.TransGen g.PartOf q u
  depth : g.setCount ≤ depth + a.underway.length

theorem unite_leaves (g : Grammar) (parts : List Ingredient)
    (lookUp : SetName → Analysis → Except BuildError TerminalSet × Analysis) (total : TerminalSet)
    (a : Analysis) (ha : a.Sound g)
    (hl : ∀ r, .set r ∈ parts → ∀ b : Analysis, b.Sound g → b.underway = a.underway →
      b.Answers g r (lookUp r b)) :
    a.Leaves g
      (fun s => (∀ r, .set r ∈ parts → g.Resolves r) ∧ ∀ t, t ∈ s ↔ t ∈ total ∨
        .terminal t ∈ parts ∨ ∃ r, .set r ∈ parts ∧ g.Collects r t)
      (∃ r, .set r ∈ parts ∧ ¬ g.Resolves r) (unite lookUp parts total a) := by
  -- Each part is looked up with the same sets underway, whatever became known before it.
  induction parts generalizing total a with
  | nil => exact ⟨ha, rfl, by simp, by simp⟩
  | cons part parts ih =>
    cases part with
    | terminal u =>
      have hrest := ih (total.insert u) a ha
        fun r hr => hl r (List.mem_cons_of_mem _ hr)
      rw [unite]
      rcases hrest.cases with ⟨e, b, hx, hb, hunderway, r, hr, hfail⟩ |
        ⟨s, b, hx, hb, hunderway, hres, hmem⟩
      · rw [hx]
        exact ⟨hb, hunderway, r, List.mem_cons_of_mem _ hr, hfail⟩
      · rw [hx]
        refine ⟨hb, hunderway, ?_, ?_⟩
        · intro r hr
          exact hres r (by simpa using hr)
        · intro t
          rw [hmem t, OrderedSet.mem_insert]
          simp only [List.mem_cons, Ingredient.terminal.injEq, reduceCtorEq, false_or]
          tauto
    | set q =>
      have hq := hl q List.mem_cons_self a ha rfl
      rw [unite]
      rcases hq.cases with ⟨e, b, hx, hb, hunderway, hfail⟩ | ⟨s, b, hx, hb, hunderway, hq, hs⟩
      · rw [hx]
        exact ⟨hb, hunderway, q, List.mem_cons_self, hfail⟩
      · have hrest := ih (total.union s) b hb
          fun r hr c hc hcu => hl r (List.mem_cons_of_mem _ hr) c hc (hcu.trans hunderway)
        rw [hx]
        simp only
        rcases hrest.cases with ⟨e, c, hy, hc, hcu, r, hr, hfail⟩ | ⟨s', c, hy, hc, hcu, hres, hmem⟩
        · rw [hy]
          exact ⟨hc, hcu.trans hunderway, r, List.mem_cons_of_mem _ hr, hfail⟩
        · rw [hy]
          refine ⟨hc, hcu.trans hunderway, ?_, ?_⟩
          · intro r hr
            rcases List.mem_cons.mp hr with he | hr
            · cases he
              exact hq
            · exact hres r hr
          · intro t
            rw [hmem t, OrderedSet.mem_union, hs t]
            simp only [List.mem_cons, Ingredient.set.injEq, reduceCtorEq, false_or,
              or_and_right, exists_or, exists_eq_left]
            tauto

end Analysis

namespace Grammar

theorem not_resolves_of_cycle (g : Grammar) {q : SetName} (h : Relation.TransGen g.PartOf q q) :
    ¬ g.Resolves q := by
  intro hq
  have hacc : Acc (Relation.TransGen g.PartOf) q := hq.transGen
  induction hacc with
  | intro q _ ih => exact ih q h h hq

/-- The number of a set: those of one nonterminal are neighbours. -/
def setNumber : SetName → Nat
  | .first n => 2 * n.number
  | .follow n => 2 * n.number + 1

theorem setNumber_injective {q r : SetName} (h : setNumber q = setNumber r) : q = r := by
  have hnumber (n m : Nonterminal) (hnm : n.number = m.number) : n = m := by
    cases n
    cases m
    exact congrArg Nonterminal.mk hnm
  cases q with
  | first n =>
    cases r with
    | first m =>
      simp only [setNumber] at h
      exact congrArg SetName.first (hnumber n m (by omega))
    | follow m =>
      simp only [setNumber] at h
      omega
  | follow n =>
    cases r with
    | first m =>
      simp only [setNumber] at h
      omega
    | follow m =>
      simp only [setNumber] at h
      exact congrArg SetName.follow (hnumber n m (by omega))

theorem setNumber_lt (g : Grammar) {q : SetName} (h : g.contains (.nonterminal q.nonterminal)) :
    setNumber q < g.setCount := by
  have hlt := Alphabet.contains_nonterminal.mp h
  cases q with
  | first n =>
    simp only [SetName.nonterminal] at hlt
    simp only [setNumber, setCount]
    omega
  | follow n =>
    simp only [SetName.nonterminal] at hlt
    simp only [setNumber, setCount]
    omega

/-- There are no more different sets than the grammar has names for. -/
theorem length_le_setCount (g : Grammar) (sets : List SetName) (hn : sets.Nodup)
    (hd : ∀ q ∈ sets, g.contains (.nonterminal q.nonterminal)) : sets.length ≤ g.setCount := by
  have hnumbers : (sets.map setNumber).Nodup :=
    List.Nodup.map (fun _ _ h => setNumber_injective h) hn
  have hsubset : sets.map setNumber ⊆ List.range g.setCount := by
    intro k hk
    obtain ⟨q, hq, rfl⟩ := List.mem_map.mp hk
    exact List.mem_range.mpr (g.setNumber_lt (hd q hq))
  have hle := List.Nodup.length_le_of_subset hnumbers hsubset
  rwa [List.length_map, List.length_range] at hle

/-- With no depth left, all sets are underway: there are no more of them. -/
theorem mem_underway_of_ready (g : Grammar) (q : SetName) (a : Analysis)
    (hd : g.contains (.nonterminal q.nonterminal)) (ha : a.Ready g 0 q) : q ∈ a.underway := by
  by_contra hnot
  have hle := g.length_le_setCount (q :: a.underway) (List.nodup_cons.mpr ⟨hnot, ha.nodup⟩)
    (List.forall_mem_cons.mpr ⟨hd, ha.declared⟩)
  have hdepth := ha.depth
  rw [List.length_cons] at hle
  omega

theorem lookUp_of_known (g : Grammar) (depth : Nat) (q : SetName) (a : Analysis) (s : TerminalSet)
    (h : a.known.lookup q = some s) : g.lookUp depth q a = (.ok s, a) := by
  rw [lookUp.eq_def, h]

theorem lookUp_of_underway (g : Grammar) (depth : Nat) (q : SetName) (a : Analysis)
    (h : a.known.lookup q = none) (hq : q ∈ a.underway) :
    g.lookUp depth q a = (.error (.grammar (q.cycle g)), a) := by
  rw [lookUp.eq_def, h]
  simp only [if_pos hq]

/-- A set that is neither known nor underway is computed while it is underway itself. -/
theorem lookUp_succ (g : Grammar) (depth : Nat) (q : SetName) (a : Analysis)
    (h : a.known.lookup q = none) (hq : q ∉ a.underway)
    (hd : g.contains (.nonterminal q.nonterminal)) :
    g.lookUp (depth + 1) q a =
      match Analysis.unite (g.lookUp depth) (g.ingredients q) ∅
          { a with underway := q :: a.underway } with
      | (.error e, b) => (.error e, { b with underway := b.underway.erase q })
      | (.ok s, b) => (.ok s, ⟨b.known ++ [(q, s)], b.underway.erase q⟩) := by
  rw [lookUp.eq_def, h]
  exact (if_neg hq).trans (if_pos hd)

theorem ready_part (g : Grammar) (depth : Nat) (q r : SetName) (a b : Analysis)
    (ha : a.Ready g (depth + 1) q) (hq : q ∉ a.underway)
    (hd : g.contains (.nonterminal q.nonterminal)) (hr : g.PartOf r q) (hb : b.Sound g)
    (hbu : b.underway = q :: a.underway) : b.Ready g depth r := by
  refine ⟨hb, ?_, ?_, ?_, ?_⟩
  · rw [hbu]
    exact List.nodup_cons.mpr ⟨hq, ha.nodup⟩
  · rw [hbu]
    exact List.forall_mem_cons.mpr ⟨hd, ha.declared⟩
  · rw [hbu]
    exact List.forall_mem_cons.mpr ⟨.single hr, fun u hu => .head hr (ha.waiting u hu)⟩
  · have hdepth := ha.depth
    rw [hbu, List.length_cons]
    omega

/-- The ingredients of a set answer for the set. -/
theorem resolves_of_ingredients (g : Grammar) (q : SetName) (s : TerminalSet)
    (hres : ∀ r, .set r ∈ g.ingredients q → g.Resolves r)
    (hs : ∀ t, t ∈ s ↔ t ∈ (∅ : TerminalSet) ∨ .terminal t ∈ g.ingredients q ∨
      ∃ r, .set r ∈ g.ingredients q ∧ g.Collects r t) :
    g.Resolves q ∧ ∀ t, t ∈ s ↔ g.Collects q t := by
  refine ⟨Acc.intro q fun r hr => hres r hr, ?_⟩
  intro t
  rw [hs t]
  constructor
  · intro ht
    rcases ht with ht | ht | ⟨r, hr, ht⟩
    · exact False.elim (OrderedSet.mem_empty ht)
    · exact .terminal ht
    · exact .set hr ht
  · intro ht
    cases ht with
    | terminal ht => exact Or.inr (Or.inl ht)
    | set hr ht => exact Or.inr (Or.inr ⟨_, hr, ht⟩)

/-- A set that is looked up is answered as its ingredients demand. -/
theorem lookUp_answers (g : Grammar) (depth : Nat) (q : SetName) (a : Analysis)
    (hd : g.contains (.nonterminal q.nonterminal)) (ha : a.Ready g depth q) :
    a.Answers g q (g.lookUp depth q a) := by
  induction depth generalizing q a with
  | zero =>
    cases hknown : a.known.lookup q with
    | some s =>
      rw [g.lookUp_of_known 0 q a s hknown]
      exact ⟨ha.sound, rfl, ha.sound.of_lookup hknown⟩
    | none =>
      have hmem := g.mem_underway_of_ready q a hd ha
      rw [g.lookUp_of_underway 0 q a hknown hmem]
      exact ⟨ha.sound, rfl, g.not_resolves_of_cycle (ha.waiting q hmem)⟩
  | succ depth ih =>
    cases hknown : a.known.lookup q with
    | some s =>
      rw [g.lookUp_of_known _ q a s hknown]
      exact ⟨ha.sound, rfl, ha.sound.of_lookup hknown⟩
    | none =>
      by_cases hmem : q ∈ a.underway
      · rw [g.lookUp_of_underway _ q a hknown hmem]
        exact ⟨ha.sound, rfl, g.not_resolves_of_cycle (ha.waiting q hmem)⟩
      · -- Its parts are looked up with one level less, while the set itself is underway.
        rw [g.lookUp_succ depth q a hknown hmem hd]
        have hunite := Analysis.unite_leaves g (g.ingredients q) (g.lookUp depth) ∅
          { a with underway := q :: a.underway } ha.sound fun r hr b hb hbu =>
            ih r b (g.contains_of_partOf hr) (g.ready_part depth q r a b ha hmem hd hr hb hbu)
        rcases hunite.cases with ⟨e, b, hx, hb, hbu, r, hr, hfail⟩ | ⟨s, b, hx, hb, hbu, hres, hs⟩
        · rw [hx]
          refine ⟨hb, by simp [hbu], ?_⟩
          intro hres
          exact hfail (hres.inv hr)
        · have hq := g.resolves_of_ingredients q s hres hs
          rw [hx]
          exact ⟨hb.append hq, by simp [hbu], hq⟩

theorem ready_of_idle (g : Grammar) (q : SetName) (a : Analysis) (ha : a.Sound g)
    (hu : a.underway = []) : a.Ready g g.setCount q := by
  refine ⟨ha, ?_, ?_, ?_, ?_⟩
  · rw [hu]
    exact List.nodup_nil
  · simp [hu]
  · simp [hu]
  · omega

theorem follow_answers (g : Grammar) (n : Nonterminal) (a : Analysis)
    (hn : g.contains (.nonterminal n)) (ha : a.Sound g) (hu : a.underway = []) :
    a.Answers g (.follow n) (g.follow (.nonterminal n) a) := by
  rw [follow, if_pos hn]
  exact g.lookUp_answers g.setCount (.follow n) a hn (g.ready_of_idle _ a ha hu)

theorem sound_empty (g : Grammar) : Analysis.empty.Sound g := by
  intro q s h
  exact False.elim (List.not_mem_nil h)

theorem follow_ok_iff (g : Grammar) (n : Nonterminal) (hn : g.contains (.nonterminal n)) :
    (∃ s b, g.follow (.nonterminal n) .empty = (.ok s, b)) ↔ g.Resolves (.follow n) := by
  have hanswer := g.follow_answers n .empty hn g.sound_empty rfl
  rcases hanswer.cases with ⟨e, b, hx, _, _, hfail⟩ | ⟨s, b, hx, _, _, hres, _⟩
  · rw [hx]
    simp [hfail]
  · rw [hx]
    simp [hres]

theorem mem_follow_iff (g : Grammar) {a : Analysis} (ha : a.Sound g) (hu : a.underway = [])
    {n : Nonterminal} {s : TerminalSet} (h : (g.follow (.nonterminal n) a).1 = .ok s)
    (t : Terminal) : t ∈ s ↔ g.Collects (.follow n) t := by
  by_cases hn : g.contains (.nonterminal n)
  · rcases (g.follow_answers n a hn ha hu).cases with ⟨e, b, hx, -⟩ | ⟨s', b, hx, -, -, -, hs⟩
    · rw [hx] at h
      cases h
    · rw [hx] at h
      cases h
      exact hs t
  · rw [follow, if_neg hn] at h
    cases h

theorem collects_iff_of_follow (g : Grammar) (n : Nonterminal) (s : TerminalSet) (b : Analysis)
    (h : g.follow (.nonterminal n) .empty = (.ok s, b)) (t : Terminal) :
    t ∈ s ↔ g.Collects (.follow n) t :=
  g.mem_follow_iff g.sound_empty rfl (congrArg Prod.fst h) t

end Grammar
end ShiftReduce
