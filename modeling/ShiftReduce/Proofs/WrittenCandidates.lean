import Mathlib.Data.List.Forall2
import ShiftReduce.Proofs.CellCandidates

/-! The first item that asks for something in a cell decides what the cell holds. A shift is written
once for each item that asks for it, and all else once. -/
namespace ShiftReduce

theorem OrderedSet.nodup {α : Type} [LT α] [LinearLT α] (s : OrderedSet α) : s.toList.Nodup := by
  apply s.ascending.imp
  intro a b hab heq
  rw [heq] at hab
  exact LinearLT.irrefl b hab

namespace Grammar

/-- The list holds what the item asks for, each candidate once. -/
structure Writes (g : Grammar) (a : Automaton) (s : StateId) (item : Item)
    (candidates : List Candidate) : Prop where
  nodup : candidates.Nodup
  mem : ∀ X c, (X, c) ∈ candidates ↔ g.ItemAsks a s item X c

theorem itemCandidates_nodup (g : Grammar) (a : Automaton) (s : StateId) (item : Item)
    (sets b : Analysis) (candidates : List Candidate)
    (h : g.itemCandidates a s item sets = (.ok candidates, b)) : candidates.Nodup := by
  unfold itemCandidates at h
  split at h
  · cases h
  · split at h
    · cases h
      exact List.nodup_nil
    · split at h
      · cases h
        exact List.nodup_nil
      · split at h
        · cases h
          exact List.nodup_singleton _
        · cases h
    · split at h
      · cases h
        exact List.nodup_nil
      · split at h
        · cases h
        · rename_i follow _ _
          cases h
          apply follow.nodup.map
          intro t u htu
          exact Symbol.terminal.inj (congrArg Prod.fst htu)

/-- The items write what they ask for, one after another. -/
theorem itemsCandidates_writes (g : Grammar) (a : Automaton) (ha : a.Canonical g) (s : StateId)
    (state : ItemSet) (hs : a.state? s = some state) (items : List Item)
    (hitems : ∀ item ∈ items, item ∈ state) (sets b : Analysis) (hsets : sets.Sound g)
    (hidle : sets.underway = []) (candidates : List Candidate)
    (h : g.itemsCandidates a s items sets = (.ok candidates, b)) :
    ∃ parts, candidates = parts.flatten ∧ List.Forall₂ (g.Writes a s) items parts := by
  induction items generalizing sets candidates with
  | nil =>
    cases h
    exact ⟨[], rfl, .nil⟩
  | cons item items ih =>
    have hitem := g.itemCandidates_leaves a ha s state hs item (hitems item List.mem_cons_self)
      sets hsets hidle
    rw [itemsCandidates] at h
    rcases hitem.cases with ⟨e, c, hx, -⟩ | ⟨part, c, hx, hc, hcu, -, hmem⟩
    · rw [hx] at h
      cases h
    · rw [hx] at h
      simp only at h
      split at h
      · cases h
      · rename_i rest _ hrest
        cases h
        obtain ⟨parts, rfl, hparts⟩ := ih (fun i hi => hitems i (List.mem_cons_of_mem _ hi)) c hc
          (hcu.trans hidle) rest hrest
        exact ⟨part :: parts, rfl, .cons ⟨g.itemCandidates_nodup a s item sets c part hx, hmem⟩
          hparts⟩

theorem itemAsks_unique (g : Grammar) {a : Automaton} {s : StateId} {item : Item} {X : Symbol}
    {c d : Action} (hc : g.ItemAsks a s item X c) (hd : g.ItemAsks a s item X d) : c = d := by
  cases hc with
  | shift ht hne hget =>
    cases hd with
    | shift _ _ hget' =>
      rw [hget] at hget'
      cases hget'
      rfl
    | reduce hn => exact False.elim (g.not_reducible_of_afterDot ht hn)
  | reduce hn =>
    cases hd with
    | shift ht => exact False.elim (g.not_reducible_of_afterDot ht hn)
    | reduce => rfl

/-- The action that is written first into a cell: that of the least item that asks for one, or else
acceptance or the transition. -/
inductive AsksFirst (g : Grammar) (a : Automaton) (s : StateId) (X : Symbol) (c : Action) : Prop
  | item {items : ItemSet} {item : Item} :
      a.state? s = some items → item ∈ items → g.ItemAsks a s item X c →
      (∀ i ∈ items, i < item → ∀ d, ¬ g.ItemAsks a s i X d) → AsksFirst g a s X c
  | rest {items : ItemSet} :
      a.state? s = some items → (∀ i ∈ items, ∀ d, ¬ g.ItemAsks a s i X d) →
      g.Asks a s X c → AsksFirst g a s X c

/-- The first of ascending items that asks for something in a cell decides what is written first. -/
theorem lookup_writes (g : Grammar) {a : Automaton} {s : StateId} {items : List Item}
    {parts : List (List Candidate)} (h : List.Forall₂ (g.Writes a s) items parts)
    (hitems : items.Pairwise (· < ·)) (X : Symbol) :
    (∃ item ∈ items, ∃ c, parts.flatten.lookup X = some c ∧ g.ItemAsks a s item X c ∧
      ∀ i ∈ items, i < item → ∀ d, ¬ g.ItemAsks a s i X d) ∨
    (parts.flatten.lookup X = none ∧ ∀ i ∈ items, ∀ d, ¬ g.ItemAsks a s i X d) := by
  induction h with
  | nil => simp
  | @cons item part items parts hitem _ ih =>
    obtain ⟨hleast, hitems⟩ := List.pairwise_cons.mp hitems
    rw [List.flatten_cons, List.lookup_append]
    cases hpart : part.lookup X with
    | some c =>
      have hasks := (hitem.mem X c).mp (mem_of_lookup_eq_some part X c hpart)
      refine Or.inl ⟨item, List.mem_cons_self, c, rfl, hasks, ?_⟩
      intro i hi hlt
      rcases List.mem_cons.mp hi with rfl | hi
      · exact False.elim (LinearLT.irrefl i hlt)
      · exact False.elim (LinearLT.irrefl i (LinearLT.trans hlt (hleast i hi)))
    | none =>
      have hnone (d : Action) : ¬ g.ItemAsks a s item X d := by
        intro hasks
        obtain ⟨e, he⟩ := exists_lookup_of_mem part X d ((hitem.mem X d).mpr hasks)
        rw [hpart] at he
        cases he
      rw [Option.none_or]
      rcases ih hitems with ⟨i, hi, c, hc, hasks, hless⟩ | ⟨hlookup, hrest⟩
      · refine Or.inl ⟨i, List.mem_cons_of_mem _ hi, c, hc, hasks, ?_⟩
        exact List.forall_mem_cons.mpr ⟨fun _ => hnone, hless⟩
      · exact Or.inr ⟨hlookup, List.forall_mem_cons.mpr ⟨hnone, hrest⟩⟩

theorem count_writes (g : Grammar) {a : Automaton} {s : StateId} {items : List Item}
    {parts : List (List Candidate)} (h : List.Forall₂ (g.Writes a s) items parts) (X : Symbol)
    (c : Action) (asks : Item → Bool) (hasks : ∀ i ∈ items, g.ItemAsks a s i X c ↔ asks i) :
    parts.flatten.count (X, c) = items.countP asks := by
  induction h with
  | nil => rfl
  | @cons item part items parts hitem _ ih =>
    obtain ⟨hhead, hrest⟩ := List.forall_mem_cons.mp hasks
    rw [List.flatten_cons, List.count_append, ih hrest, hitem.nodup.count, List.countP_cons,
      Nat.add_comm]
    simp only [hitem.mem, hhead]

/-- What a state writes after its items: acceptance and the transitions. -/
def laterCandidates (a : Automaton) (s : StateId) (items : ItemSet) : List Candidate :=
  acceptCandidates items ++ gotoCandidates a s

theorem map_fst_gotoCandidates (a : Automaton) (s : StateId) :
    (gotoCandidates a s).map Prod.fst =
      ((a.transitions.edgesFrom s).map Prod.fst).filter fun X => !X.isTerminal := by
  unfold gotoCandidates
  induction a.transitions.edgesFrom s with
  | nil => rfl
  | cons edge edges ih =>
    obtain ⟨X, target⟩ := edge
    cases X with
    | terminal t => simpa [Symbol.isTerminal] using ih
    | nonterminal n => simpa [Symbol.isTerminal] using ih

/-- No cell gets both acceptance and a transition, or two transitions. -/
theorem laterCandidates_nodup (a : Automaton) (h : a.transitions.Functional) (s : StateId)
    (items : ItemSet) : ((laterCandidates a s items).map Prod.fst).Nodup := by
  have haccept : ((acceptCandidates items).map Prod.fst).Nodup := by
    unfold acceptCandidates
    split
    · exact List.nodup_singleton _
    · exact List.nodup_nil
  have hgoto : ((gotoCandidates a s).map Prod.fst).Nodup := by
    rw [map_fst_gotoCandidates]
    exact (h s).filter _
  rw [laterCandidates, List.map_append]
  apply haccept.append hgoto
  intro X hX hgoto
  rw [map_fst_gotoCandidates] at hgoto
  obtain ⟨⟨Y, c⟩, hmem, rfl⟩ := List.mem_map.mp hX
  obtain ⟨-, he⟩ := (mem_acceptCandidates items Y c).mp hmem
  cases he
  have hnot := (List.mem_filter.mp hgoto).2
  cases hnot

/-- Behind its items a state writes only acceptance and transitions. -/
theorem action_of_later (g : Grammar) {a : Automaton} (ha : a.Canonical g) {s : StateId}
    {items : ItemSet} {X : Symbol} {c : Action} (h : (X, c) ∈ laterCandidates a s items) :
    c = .accept ∨ ∃ target, c = .goto target := by
  rcases List.mem_append.mp h with h | h
  · obtain ⟨-, he⟩ := (mem_acceptCandidates items X c).mp h
    cases he
    exact Or.inl rfl
  · obtain ⟨n, target, -, he⟩ := (g.mem_gotoCandidates a ha s X c).mp h
    cases he
    exact Or.inr ⟨target, rfl⟩

/-- All that a state writes, in order: the parts of its items, acceptance, the transitions. -/
structure StateWrites (g : Grammar) (a : Automaton) (s : StateId) (items : ItemSet)
    (parts : List (List Candidate)) : Prop where
  canonical : a.Canonical g
  state : a.state? s = some items
  each : List.Forall₂ (g.Writes a s) items.toList parts
  mem : ∀ X c, (X, c) ∈ parts.flatten ++ laterCandidates a s items ↔ g.Asks a s X c

theorem stateCandidates_writes (g : Grammar) (a : Automaton) (ha : a.Canonical g) (s : StateId)
    (items : ItemSet) (hs : a.state? s = some items) (sets b : Analysis) (hsets : sets.Sound g)
    (hidle : sets.underway = []) (candidates : List Candidate)
    (h : g.stateCandidates a s items sets = (.ok candidates, b)) :
    ∃ parts, candidates = parts.flatten ++ laterCandidates a s items ∧
      g.StateWrites a s items parts := by
  have hanswer := g.stateCandidates_leaves a ha s items hs sets hsets hidle
  rw [h] at hanswer
  obtain ⟨-, -, -, hmem⟩ := hanswer
  unfold stateCandidates at h
  split at h
  · cases h
  · rename_i hitems
    cases h
    obtain ⟨parts, rfl, hparts⟩ := g.itemsCandidates_writes a ha s items hs items.toList
      (fun _ hi => hi) sets b hsets hidle _ hitems
    rw [List.append_assoc] at hmem
    exact ⟨parts, List.append_assoc _ _ _, ha, hs, hparts, hmem⟩

namespace StateWrites

variable {g : Grammar} {a : Automaton} {s : StateId} {items : ItemSet}
  {parts : List (List Candidate)} (h : g.StateWrites a s items parts)
include h

/-- What a cell holds is the action that is written first into it. -/
theorem lookup_iff (X : Symbol) (c : Action) :
    (parts.flatten ++ laterCandidates a s items).lookup X = some c ↔ g.AsksFirst a s X c := by
  have hlater := mem_iff_lookup_eq_some (laterCandidates a s items)
    (laterCandidates_nodup a h.canonical.functional s items) X
  rw [List.lookup_append]
  rcases g.lookup_writes h.each items.ascending X with ⟨item, hitem, d, hd, hasks, hleast⟩ |
    ⟨hnone, hno⟩
  · rw [hd, Option.some_or]
    constructor
    · intro hc
      cases hc
      exact .item h.state hitem hasks hleast
    · intro hfirst
      cases hfirst with
      | @item items' item' hs hitem' hasks' hleast' =>
        rw [h.state] at hs
        cases hs
        have hsame : item = item' := by
          apply LinearLT.eq_of_not_lt
          · exact fun hlt => hleast' item hitem hlt d hasks
          · exact fun hlt => hleast item' hitem' hlt c hasks'
        rw [← hsame] at hasks'
        exact congrArg some (g.itemAsks_unique hasks hasks')
      | rest hs hno =>
        rw [h.state] at hs
        cases hs
        exact False.elim (hno item hitem d hasks)
  · rw [hnone, Option.none_or, ← hlater]
    constructor
    · intro hmem
      have hasks := (h.mem X c).mp (List.mem_append_right _ hmem)
      exact .rest h.state hno hasks
    · intro hfirst
      cases hfirst with
      | item hs hitem hasks =>
        rw [h.state] at hs
        cases hs
        exact False.elim (hno _ hitem c hasks)
      | rest _ _ hasks =>
        rcases List.mem_append.mp ((h.mem X c).mpr hasks) with hmem | hmem
        · obtain ⟨d, hd⟩ := exists_lookup_of_mem _ X c hmem
          rw [hnone] at hd
          cases hd
        · exact hmem

theorem count_later (X : Symbol) (c : Action) :
    (laterCandidates a s items).count (X, c) =
      if (X, c) ∈ laterCandidates a s items then 1 else 0 := by
  have hkeys := laterCandidates_nodup a h.canonical.functional s items
  exact (List.Nodup.of_map Prod.fst hkeys).count

theorem count_shift (X : Symbol) (target : StateId) (hasks : g.Asks a s X (.shift target)) :
    (parts.flatten ++ laterCandidates a s items).count (X, .shift target) =
      items.toList.countP fun item => g.afterDot? item = some X := by
  obtain ⟨t, rfl, ht, hget⟩ := g.asks_shift hasks
  have hitem (i : Item) (_ : i ∈ items.toList) :
      g.ItemAsks a s i (.terminal t) (.shift target) ↔
        decide (g.afterDot? i = some (.terminal t)) = true := by
    rw [decide_eq_true_eq]
    constructor
    · intro hi
      cases hi with
      | shift hafter => exact hafter
    · intro hafter
      exact .shift hafter ht hget
  have hlater : (.terminal t, .shift target) ∉ laterCandidates a s items := by
    intro hmem
    rcases g.action_of_later h.canonical hmem with he | ⟨m, he⟩
    · cases he
    · cases he
  rw [List.count_append, g.count_writes h.each _ _ _ hitem, h.count_later, if_neg hlater,
    Nat.add_zero]

/-- A reduction is written once: only the complete item of its production asks for it. -/
theorem count_reduce (X : Symbol) (p : ProductionId) (hasks : g.Asks a s X (.reduce p)) :
    (parts.flatten ++ laterCandidates a s items).count (X, .reduce p) = 1 := by
  obtain ⟨items', q, t, hs, hq, hp, hcomplete, rfl, -, ht⟩ := g.asks_reduce hasks
  rw [h.state] at hs
  cases hs
  have hitem (i : Item) (_ : i ∈ items.toList) :
      g.ItemAsks a s i (.terminal t) (.reduce p) ↔
        (i == (⟨p, q.tail.length⟩ : Item)) = true := by
    rw [beq_iff_eq]
    constructor
    · intro hi
      cases hi with
      | reduce hn =>
        obtain ⟨-, r, hr, -, hindex⟩ := hn
        rw [hq] at hr
        cases hr
        rw [← hindex]
    · intro hi
      rw [hi]
      exact .reduce ⟨hp, q, hq, rfl, rfl⟩ ht
  have hlater : (.terminal t, .reduce p) ∉ laterCandidates a s items := by
    intro hmem
    rcases g.action_of_later h.canonical hmem with he | ⟨m, he⟩
    · cases he
    · cases he
  rw [List.count_append, g.count_writes h.each _ _ _ hitem, h.count_later, if_neg hlater,
    Nat.add_zero]
  exact List.count_eq_one_of_mem items.nodup hcomplete

theorem count_other (X : Symbol) (c : Action) (hasks : g.Asks a s X c)
    (hitems : ∀ i ∈ items.toList, ¬ g.ItemAsks a s i X c) :
    (parts.flatten ++ laterCandidates a s items).count (X, c) = 1 := by
  have hparts : parts.flatten.count (X, c) = 0 := by
    rw [g.count_writes h.each X c (fun _ => false) fun i hi => by simp [hitems i hi]]
    simp
  have hlater : (X, c) ∈ laterCandidates a s items := by
    rcases List.mem_append.mp ((h.mem X c).mpr hasks) with hmem | hmem
    · exact False.elim (List.count_eq_zero.mp hparts hmem)
    · exact hmem
  rw [List.count_append, h.count_later, hparts, if_pos hlater]

end StateWrites

/-- How often an action is written: a shift by each item with the symbol after its dot. -/
def timesWritten (g : Grammar) (items : ItemSet) (X : Symbol) : Action → Nat
  | .shift _ => items.toList.countP fun item => g.afterDot? item = some X
  | _ => 1

theorem timesWritten_of_ne_shift (g : Grammar) (items : ItemSet) (X : Symbol) (c : Action)
    (hc : ∀ target, c ≠ .shift target) : g.timesWritten items X c = 1 := by
  cases c with
  | shift target => exact False.elim (hc target rfl)
  | reduce | goto | accept | error => rfl

theorem timesWritten_pos (g : Grammar) {a : Automaton} {s : StateId} {items : ItemSet} {X : Symbol}
    {c : Action} (hs : a.state? s = some items) (h : g.Asks a s X c) :
    0 < g.timesWritten items X c := by
  cases h with
  | shift hs' hitem ht =>
    rw [hs] at hs'
    cases hs'
    exact List.countP_pos_iff.mpr ⟨_, hitem, decide_eq_true ht⟩
  | reduce | accept | goto => exact Nat.one_pos

theorem StateWrites.count_eq {g : Grammar} {a : Automaton} {s : StateId} {items : ItemSet}
    {parts : List (List Candidate)} (h : g.StateWrites a s items parts) (X : Symbol) (c : Action)
    (hasks : g.Asks a s X c) :
    (parts.flatten ++ laterCandidates a s items).count (X, c) = g.timesWritten items X c := by
  cases c with
  | shift target => exact h.count_shift X target hasks
  | reduce p => exact h.count_reduce X p hasks
  | goto target => exact h.count_other X _ hasks fun i _ hi => by cases hi
  | accept => exact h.count_other X _ hasks fun i _ hi => by cases hi
  | error => exact False.elim (g.not_asks_error hasks)

end Grammar
end ShiftReduce
