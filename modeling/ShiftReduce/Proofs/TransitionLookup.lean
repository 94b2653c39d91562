import ShiftReduce.Transitions
import Mathlib.Data.List.Nodup

namespace ShiftReduce

theorem mem_of_lookup_eq_some {α β : Type} [BEq α] [LawfulBEq α] (pairs : List (α × β)) (a : α)
    (b : β) (h : pairs.lookup a = some b) : (a, b) ∈ pairs := by
  obtain ⟨l₁, l₂, hsplit, -⟩ := List.lookup_eq_some_iff.mp h
  rw [hsplit]
  exact List.mem_append_right l₁ List.mem_cons_self

theorem exists_lookup_of_mem {α β : Type} [BEq α] [LawfulBEq α] (pairs : List (α × β)) (a : α)
    (b : β) (h : (a, b) ∈ pairs) : ∃ c, pairs.lookup a = some c := by
  have hsome : (pairs.lookup a).isSome := by
    rw [List.lookup_isSome_iff]
    exact ⟨(a, b), h, by simp⟩
  exact Option.isSome_iff_exists.mp hsome

theorem mem_iff_lookup_eq_some {α β : Type} [BEq α] [LawfulBEq α] (pairs : List (α × β))
    (h : (pairs.map Prod.fst).Nodup) (a : α) (b : β) :
    (a, b) ∈ pairs ↔ pairs.lookup a = some b := by
  induction pairs with
  | nil => simp
  | cons pair pairs ih =>
    obtain ⟨c, d⟩ := pair
    rw [List.map_cons, List.nodup_cons] at h
    by_cases hc : a = c
    · subst hc
      have hnot : (a, b) ∉ pairs := by
        intro hmem
        exact h.1 (List.mem_map.mpr ⟨_, hmem, rfl⟩)
      simp [hnot, eq_comm]
    · have hc' : (a == c) = false := by simpa using hc
      simpa [List.lookup_cons, hc, hc'] using ih h.2

namespace Transitions

/-- No source has two edges under one symbol. -/
def Functional (m : Transitions) : Prop := ∀ s, ((m.edgesFrom s).map Prod.fst).Nodup

theorem edgesFrom_empty (s : StateId) : empty.edgesFrom s = [] := rfl

theorem functional_empty : empty.Functional := by
  intro s
  rw [edgesFrom_empty]
  exact List.nodup_nil

theorem lookup_addEdge (source s : StateId) (edge : Symbol × StateId)
    (rows : List (StateId × List (Symbol × StateId))) :
    ((addEdge source edge rows).lookup s).getD [] =
      (rows.lookup s).getD [] ++ if s = source then [edge] else [] := by
  induction rows with
  | nil =>
    by_cases hs : s = source
    · simp [addEdge, hs]
    · have hs' : (s == source) = false := by simpa using hs
      simp [addEdge, List.lookup_cons, hs, hs']
  | cons row rows ih =>
    obtain ⟨r, edges⟩ := row
    unfold addEdge
    by_cases hr : r = source
    · subst hr
      by_cases hs : s = r
      · simp [hs]
      · have hs' : (s == r) = false := by simpa using hs
        simp [List.lookup_cons, hs, hs']
    · rw [if_neg hr]
      by_cases hs : s = r
      · subst hs
        simp [hr]
      · have hs' : (s == r) = false := by simpa using hs
        simpa [List.lookup_cons, hs'] using ih

theorem insert_eq_ok (m n : Transitions) (source : StateId) (X : Symbol) (target : StateId)
    (h : m.insert source X target = .ok n) :
    m.get? source X = none ∧ n = ⟨addEdge source (X, target) m.rows, m.size + 1⟩ := by
  unfold insert at h
  split at h
  · cases h
  · cases h
    exact ⟨‹_›, rfl⟩

theorem edgesFrom_insert (m n : Transitions) (source s : StateId) (X : Symbol) (target : StateId)
    (h : m.insert source X target = .ok n) :
    n.edgesFrom s = m.edgesFrom s ++ if s = source then [(X, target)] else [] := by
  obtain ⟨-, rfl⟩ := insert_eq_ok m n source X target h
  exact lookup_addEdge source s (X, target) m.rows

/-- An insertion adds one pair to the function and changes it nowhere else. -/
theorem get?_insert (m n : Transitions) (source s : StateId) (X Y : Symbol) (target : StateId)
    (h : m.insert source X target = .ok n) :
    n.get? s Y = if s = source ∧ Y = X then some target else m.get? s Y := by
  have hnone := (insert_eq_ok m n source X target h).1
  rw [get?, edgesFrom_insert m n source s X target h, List.lookup_append]
  by_cases hs : s = source
  · subst hs
    by_cases hY : Y = X
    · subst hY
      rw [get?] at hnone
      simp [hnone]
    · have hY' : (Y == X) = false := by simpa using hY
      simp [get?, List.lookup_cons, hY, hY']
  · simp [get?, hs]

theorem functional_insert (m n : Transitions) (source : StateId) (X : Symbol) (target : StateId)
    (hm : m.Functional) (h : m.insert source X target = .ok n) : n.Functional := by
  intro s
  have hnone := (insert_eq_ok m n source X target h).1
  rw [edgesFrom_insert m n source s X target h]
  by_cases hs : s = source
  · subst hs
    have hfresh : X ∉ (m.edgesFrom s).map Prod.fst := by
      intro hX
      obtain ⟨edge, hedge, rfl⟩ := List.mem_map.mp hX
      have hne := List.lookup_eq_none_iff.mp hnone edge hedge
      simp at hne
    rw [if_pos rfl, List.map_append, List.map_singleton, ← List.concat_eq_append]
    exact (hm s).concat hfresh
  · rw [if_neg hs, List.append_nil]
    exact hm s

theorem mem_edgesFrom_iff (m : Transitions) (hm : m.Functional) (s target : StateId) (X : Symbol) :
    (X, target) ∈ m.edgesFrom s ↔ m.get? s X = some target :=
  mem_iff_lookup_eq_some (m.edgesFrom s) (hm s) X target

end Transitions
end ShiftReduce
