import ShiftReduce.Worklist
import Mathlib.Data.List.Nodup

namespace ShiftReduce.Worklist

structure Valid {α : Type} (q : Worklist α) : Prop where
  nodup : q.line.Nodup
  perm : q.waiting.Perm q.line

theorem valid_empty {α : Type} : (empty : Worklist α).Valid := ⟨List.nodup_nil, .refl _⟩

theorem valid_push {α : Type} [DecidableEq α] (q : Worklist α) (hq : q.Valid) (a : α) :
    (q.push a).2.Valid := by
  unfold push
  split
  · exact hq
  · rename_i hnew
    have hline : a ∉ q.line := fun ha => hnew (hq.perm.mem_iff.mpr ha)
    refine ⟨?_, ?_⟩
    · rw [← List.concat_eq_append]
      exact hq.nodup.concat hline
    · exact (hq.perm.cons a).trans (List.perm_append_singleton a q.line).symm

theorem mem_line_push {α : Type} [DecidableEq α] (q : Worklist α) (hq : q.Valid) (a b : α) :
    b ∈ (q.push a).2.line ↔ b ∈ q.line ∨ b = a := by
  unfold push
  split
  · rename_i hold
    have hline : a ∈ q.line := hq.perm.mem_iff.mp hold
    constructor
    · exact Or.inl
    · intro hb
      rcases hb with hb | rfl
      · exact hb
      · exact hline
  · simp

theorem line_push_of_not_mem {α : Type} [DecidableEq α] (q : Worklist α) (hq : q.Valid) (a : α)
    (ha : a ∉ q.line) : (q.push a).2.line = q.line ++ [a] := by
  have hwaiting : a ∉ q.waiting := fun h => ha (hq.perm.mem_iff.mp h)
  rw [push, if_neg hwaiting]

theorem pop_eq_some {α : Type} [DecidableEq α] (q r : Worklist α) (a : α)
    (h : q.pop = some (a, r)) : q.line = a :: r.line ∧ r.waiting = q.waiting.erase a := by
  unfold pop at h
  split at h
  · cases h
  · cases h
    exact ⟨‹_›, rfl⟩

theorem pop_eq_none {α : Type} [DecidableEq α] (q : Worklist α) (h : q.pop = none) :
    q.line = [] := by
  unfold pop at h
  split at h
  · assumption
  · cases h

theorem valid_pop {α : Type} [DecidableEq α] (q r : Worklist α) (hq : q.Valid) (a : α)
    (h : q.pop = some (a, r)) : r.Valid := by
  obtain ⟨hline, hwaiting⟩ := pop_eq_some q r a h
  have hnodup := hq.nodup
  rw [hline, List.nodup_cons] at hnodup
  refine ⟨hnodup.2, ?_⟩
  have hperm := hq.perm.erase a
  rwa [hline, List.erase_cons_head, ← hwaiting] at hperm

end ShiftReduce.Worklist
