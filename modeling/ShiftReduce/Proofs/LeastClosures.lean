import Mathlib.Order.Bounds.Basic
import ShiftReduce.Proofs.ClosureFixpoint

namespace ShiftReduce.Grammar

variable {g : Grammar} {items more : List Item} {parts : List (List Item)}

/-- Where the dot of an item is before a nonterminal, the set has all productions of the nonterminal
with their dots in front. -/
def Closed (g : Grammar) (set : Set Item) : Prop :=
  ∀ i ∈ set, ∀ p q r, g.production? i.production = some p →
    p.tail[i.index]? = some (.nonterminal r.head) → g.production? q = some r →
    (⟨q, 0⟩ : Item) ∈ set

theorem Closed.expansion {set : Set Item} (h : g.Closed set) {i j : Item} (hi : i ∈ set)
    (hj : j ∈ g.expansion i) : j ∈ set := by
  obtain ⟨n, hn, r, hr, rfl, hindex⟩ := g.mem_expansion.mp hj
  obtain ⟨p, hp, hget⟩ := g.afterDot?_eq_some_iff.mp hn
  have hfront : (⟨j.production, 0⟩ : Item) = j := by rw [← hindex]
  rw [← hfront]
  exact h i hi p j.production r hp hget hr

theorem isLeast_expand (g : Grammar) (items : List Item) :
    IsLeast {set : Set Item | (∀ i ∈ items, i ∈ set) ∧ g.Closed set} {i | i ∈ g.expand items} := by
  constructor
  · refine ⟨fun i hi => g.mem_expand_of_mem hi, ?_⟩
    intro i hi p q r hp hget hr
    exact g.front_mem_expand hi (g.afterDot?_eq_some_iff.mpr ⟨p, hp, hget⟩) hr rfl
  · intro set ⟨hitems, hclosed⟩ j hj
    have hentails := g.mem_expand.mp hj
    clear hj
    induction hentails with
    | kernel hi => exact hitems _ hi
    | expansion _ hij ih => exact hclosed.expansion ih hij

theorem expand_expand (g : Grammar) (items : List Item) :
    g.expand (g.expand items).toList = g.expand items := by
  apply OrderedSet.ext_mem
  intro j
  refine ⟨fun hj => ?_, fun hj => g.mem_expand_of_mem hj⟩
  exact (g.isLeast_expand (g.expand items).toList).2
    ⟨fun i hi => hi, (g.isLeast_expand items).1.2⟩ hj

theorem expand_mono (h : ∀ i ∈ items, i ∈ more) {j : Item} (hj : j ∈ g.expand items) :
    j ∈ g.expand more :=
  (g.isLeast_expand items).2
    ⟨fun i hi => g.mem_expand_of_mem (h i hi), (g.isLeast_expand more).1.2⟩ hj

/-- Every item of a closure comes from a single one of the items that were closed. -/
theorem mem_expand_union (h : ∀ i, i ∈ items ↔ ∃ part ∈ parts, i ∈ part) (j : Item) :
    j ∈ g.expand items ↔ ∃ part ∈ parts, j ∈ g.expand part := by
  constructor
  · intro hj
    have hentails := g.mem_expand.mp hj
    clear hj
    induction hentails with
    | kernel hi =>
      obtain ⟨part, hpart, hmem⟩ := (h _).mp hi
      exact ⟨part, hpart, g.mem_expand_of_mem hmem⟩
    | expansion _ hij ih =>
      obtain ⟨part, hpart, hmem⟩ := ih
      exact ⟨part, hpart, (g.isLeast_expand part).1.2.expansion hmem hij⟩
  · intro ⟨part, hpart, hj⟩
    exact expand_mono (fun i hi => (h i).mpr ⟨part, hpart, hi⟩) hj

theorem mem_kernel_union (h : ∀ i, i ∈ items ↔ ∃ part ∈ parts, i ∈ part) (X : Symbol) (j : Item) :
    j ∈ g.kernel items X ↔ ∃ kernel ∈ parts.map (g.kernel · X), j ∈ kernel := by
  simp only [mem_kernel, h, List.mem_map, exists_exists_and_eq_and]
  constructor
  · rintro ⟨i, ⟨part, hpart, hi⟩, hnext⟩
    exact ⟨part, hpart, i, hi, hnext⟩
  · rintro ⟨part, hpart, i, hi, hnext⟩
    exact ⟨i, ⟨part, hpart, hi⟩, hnext⟩

section Answers

/-- Some item is of a production that the grammar does not have. -/
def Lacks (g : Grammar) (items : List Item) : Prop :=
  ∃ i ∈ items, g.production? i.production = none

theorem knows_iff_not_lacks (g : Grammar) (items : List Item) :
    g.Knows items ↔ ¬ g.Lacks items := by
  unfold Knows Lacks
  simp only [not_exists, not_and, ← Option.isSome_iff_exists, ← Option.isSome_iff_ne_none]

theorem knows_expand (h : g.Knows items) : g.Knows (g.expand items).toList := by
  intro j hj
  rcases g.mem_expand_cases hj with hj | ⟨-, i, -, q, hq, -⟩
  · exact h j hj
  · exact ⟨q, hq⟩

theorem firstDangling?_of_lacks (h : g.Lacks items) : ∃ d, g.firstDangling? items = some d := by
  obtain ⟨i, hi, hnone⟩ := h
  cases hfirst : g.firstDangling? items with
  | some d => exact ⟨d, rfl⟩
  | none =>
    rw [firstDangling?, Option.map_eq_none_iff, List.find?_eq_none] at hfirst
    exact False.elim (hfirst i hi (by rw [hnone]; rfl))

/-- The operation answers for items of the grammar and for no others, with the set that `f`
gives. -/
def AnswersWith (g : Grammar) (op : List Item → Except Dangling ItemSet)
    (f : List Item → ItemSet) : Prop :=
  ∀ items, (g.Knows items ∧ op items = .ok (f items)) ∨
    (g.Lacks items ∧ ∃ d, op items = .error d)

theorem closure_answers (g : Grammar) : g.AnswersWith g.closure g.expand := by
  intro items
  by_cases h : g.Lacks items
  · obtain ⟨d, hd⟩ := firstDangling?_of_lacks h
    exact Or.inr ⟨h, d, by simp only [closure, hd]⟩
  · have hknows := (g.knows_iff_not_lacks items).mpr h
    exact Or.inl ⟨hknows, g.closure_eq_ok hknows⟩

theorem goto_answers (g : Grammar) (X : Symbol) :
    g.AnswersWith (g.goto · X) fun items => g.expand (g.kernel items X) := by
  intro items
  by_cases h : g.Lacks items
  · obtain ⟨d, hd⟩ := firstDangling?_of_lacks h
    exact Or.inr ⟨h, d, by simp only [goto, hd]⟩
  · have hknows := (g.knows_iff_not_lacks items).mpr h
    exact Or.inl ⟨hknows, by simp only [goto, g.firstDangling?_eq_none hknows]⟩

variable {op : List Item → Except Dangling ItemSet} {f : List Item → ItemSet}

theorem AnswersWith.error_iff (h : g.AnswersWith op f) (items : List Item) :
    (∃ d, op items = .error d) ↔ g.Lacks items := by
  constructor
  · intro ⟨d, hd⟩
    rcases h items with ⟨-, hok⟩ | ⟨hlacks, -⟩
    · rw [hok] at hd
      cases hd
    · exact hlacks
  · intro hlacks
    rcases h items with ⟨hknows, -⟩ | ⟨-, herror⟩
    · exact False.elim ((g.knows_iff_not_lacks items).mp hknows hlacks)
    · exact herror

theorem AnswersWith.eq_ok (h : g.AnswersWith op f) (hitems : g.Knows items) :
    op items = .ok (f items) := by
  rcases h items with ⟨-, hok⟩ | ⟨hlacks, -⟩
  · exact hok
  · exact False.elim ((g.knows_iff_not_lacks items).mp hitems hlacks)

theorem AnswersWith.eq_of_ok (h : g.AnswersWith op f) {set : ItemSet} (hok : op items = .ok set) :
    g.Knows items ∧ set = f items := by
  rcases h items with ⟨hknows, hf⟩ | ⟨-, d, herror⟩
  · rw [hok] at hf
    exact ⟨hknows, Except.ok.inj hf⟩
  · rw [hok] at herror
    cases herror

/-- What the operation is on items is the union of what it is on parts of them; it has no answer
where a part has none. -/
def DistributesOverUnions (op : List Item → Except Dangling ItemSet) : Prop :=
  ∀ (parts : List (List Item)) (items : List Item), (∀ i, i ∈ items ↔ ∃ part ∈ parts, i ∈ part) →
    ((∃ d, op items = .error d) ↔ ∃ part ∈ parts, ∃ d, op part = .error d) ∧
    ∀ set, op items = .ok set →
      ∀ j, j ∈ set ↔ ∃ part ∈ parts, ∃ found, op part = .ok found ∧ j ∈ found

theorem AnswersWith.distributes (h : g.AnswersWith op f)
    (hunion : ∀ (parts : List (List Item)) items, (∀ i, i ∈ items ↔ ∃ part ∈ parts, i ∈ part) →
      ∀ j, j ∈ f items ↔ ∃ part ∈ parts, j ∈ f part) : DistributesOverUnions op := by
  intro parts items hparts
  constructor
  · simp only [h.error_iff, Lacks, hparts]
    constructor
    · rintro ⟨i, ⟨part, hpart, hi⟩, hnone⟩
      exact ⟨part, hpart, i, hi, hnone⟩
    · rintro ⟨part, hpart, i, hi, hnone⟩
      exact ⟨i, ⟨part, hpart, hi⟩, hnone⟩
  · intro set hset j
    obtain ⟨hknows, rfl⟩ := h.eq_of_ok hset
    rw [hunion parts items hparts]
    constructor
    · intro ⟨part, hpart, hj⟩
      have hpartKnows : g.Knows part := fun i hi => hknows i ((hparts i).mpr ⟨part, hpart, hi⟩)
      exact ⟨part, hpart, f part, h.eq_ok hpartKnows, hj⟩
    · intro ⟨part, hpart, found, hfound, hj⟩
      obtain ⟨-, rfl⟩ := h.eq_of_ok hfound
      exact ⟨part, hpart, hj⟩

end Answers

theorem mem_expand_kernel_union (h : ∀ i, i ∈ items ↔ ∃ part ∈ parts, i ∈ part) (X : Symbol)
    (j : Item) : j ∈ g.expand (g.kernel items X) ↔
      ∃ part ∈ parts, j ∈ g.expand (g.kernel part X) := by
  rw [mem_expand_union (mem_kernel_union h X)]
  simp only [List.mem_map, exists_exists_and_eq_and]

/-- The closure of known items is the least closed set that has them. It is idempotent and monotone,
and it distributes over unions, as the step does. -/
theorem closure_exact (g : Grammar) :
    (∀ items, ((∃ d, g.closure items = .error d) ↔ g.Lacks items) ∧
      (¬ g.Lacks items → ∃ set, g.closure items = .ok set ∧
        IsLeast {closed : Set Item | (∀ i ∈ items, i ∈ closed) ∧ g.Closed closed}
          {i | i ∈ set} ∧
        g.closure set.toList = .ok set)) ∧
    (∀ items more larger, (∀ i ∈ items, i ∈ more) → g.closure more = .ok larger →
      ∃ set, g.closure items = .ok set ∧ ∀ i ∈ set, i ∈ larger) ∧
    DistributesOverUnions g.closure ∧
    ∀ X, (∀ items, ((∃ d, g.goto items X = .error d) ↔ g.Lacks items) ∧
        (¬ g.Lacks items → ∃ set, g.goto items X = .ok set ∧ ∀ kernel : List Item,
          (∀ j, j ∈ kernel ↔ ∃ i ∈ items, ∃ p, g.production? i.production = some p ∧
            p.tail[i.index]? = some X ∧ j = ⟨i.production, i.index + 1⟩) →
          g.closure kernel = .ok set)) ∧
      DistributesOverUnions fun items => g.goto items X := by
  have hclosure := g.closure_answers
  refine ⟨fun items => ⟨hclosure.error_iff items, ?_⟩, ?_, ?_, fun X => ⟨fun items => ?_, ?_⟩⟩
  · intro hlacks
    have hknows := (g.knows_iff_not_lacks items).mpr hlacks
    refine ⟨_, hclosure.eq_ok hknows, g.isLeast_expand items, ?_⟩
    rw [hclosure.eq_ok (knows_expand hknows), expand_expand]
  · intro items more larger hmore hlarger
    obtain ⟨hknows, rfl⟩ := hclosure.eq_of_ok hlarger
    exact ⟨_, hclosure.eq_ok fun i hi => hknows i (hmore i hi), fun _ => expand_mono hmore⟩
  · exact hclosure.distributes fun _ _ => mem_expand_union
  · refine ⟨(g.goto_answers X).error_iff items, ?_⟩
    intro hlacks
    have hknows := (g.knows_iff_not_lacks items).mpr hlacks
    refine ⟨_, (g.goto_answers X).eq_ok hknows, ?_⟩
    intro kernel hkernel
    have hsame : ∀ j, j ∈ kernel ↔ j ∈ g.kernel items X := by
      intro j
      rw [hkernel, mem_kernel]
      simp only [afterDot?_eq_some_iff, Item.next]
      constructor
      · rintro ⟨i, hi, p, hp, hget, rfl⟩
        exact ⟨i, hi, ⟨p, hp, hget⟩, rfl⟩
      · rintro ⟨i, hi, ⟨p, hp, hget⟩, rfl⟩
        exact ⟨i, hi, p, hp, hget, rfl⟩
    have hknown : g.Knows kernel :=
      g.knows_of_hasItem fun j hj => g.hasItem_kernel ((hsame j).mp hj)
    rw [hclosure.eq_ok hknown]
    apply congrArg Except.ok
    apply OrderedSet.ext_mem
    intro j
    exact ⟨expand_mono fun i hi => (hsame i).mp hi, expand_mono fun i hi => (hsame i).mpr hi⟩
  · exact (g.goto_answers X).distributes fun _ _ hparts => mem_expand_kernel_union hparts X

end ShiftReduce.Grammar
