import ShiftReduce.Proofs.WorklistOrder
import Mathlib.Data.List.Induction

namespace ShiftReduce
namespace Worklist

variable {α : Type} [DecidableEq α]

inductive Call (α : Type) where
  | push (a : α)
  | pop
deriving DecidableEq, Repr

/-- A worklist with the values that it has let in and those that it has given out, both in the
order of the calls. -/
structure History (α : Type) where
  queue : Worklist α
  accepted : List α
  delivered : List α

namespace History

def start : History α := ⟨empty, [], []⟩

/-- One more call. A value is noted when a push says that it was put in line, and again when a pop
returns it. -/
def call (h : History α) : Call α → History α
  | .push a =>
    let (new, queue) := h.queue.push a
    ⟨queue, if new then h.accepted ++ [a] else h.accepted, h.delivered⟩
  | .pop =>
    match h.queue.pop with
    | some (a, queue) => ⟨queue, h.accepted, h.delivered ++ [a]⟩
    | none => h

/-- The history of calls of an empty worklist. -/
def ofCalls (calls : List (Call α)) : History α := calls.foldl call start

theorem call_pop_of_none (h : History α) (hpop : h.queue.pop = none) : h.call .pop = h := by
  simp only [call, hpop]

theorem call_pop_of_some (h : History α) (a : α) (queue : Worklist α)
    (hpop : h.queue.pop = some (a, queue)) :
    h.call .pop = ⟨queue, h.accepted, h.delivered ++ [a]⟩ := by
  simp only [call, hpop]

/-- What was given out, and behind it what waits, is what was let in. -/
structure Balanced (h : History α) : Prop where
  valid : h.queue.Valid
  account : h.delivered ++ h.queue.line = h.accepted

omit [DecidableEq α] in
theorem balanced_start : (start : History α).Balanced := ⟨valid_empty, rfl⟩

namespace Balanced

variable {h : History α} (hh : h.Balanced)

include hh in
theorem push_eq_true_iff (a : α) : (h.queue.push a).1 = true ↔ a ∉ h.queue.line := by
  rw [← hh.valid.perm.mem_iff]
  unfold push
  by_cases ha : a ∈ h.queue.waiting
  · simp [ha]
  · simp [ha]

include hh in
/-- A value waits unless it was given out as often as it was let in. -/
theorem not_mem_line_iff (a : α) :
    a ∉ h.queue.line ↔ h.accepted.count a = h.delivered.count a := by
  rw [← hh.account, List.count_append, Nat.add_eq_left, List.count_eq_zero]

include hh in
/-- The next value to come out is the first of those let in that has not come out. -/
theorem pop_eq_getElem? : h.queue.pop.map Prod.fst = h.accepted[h.delivered.length]? := by
  rw [← hh.account, List.getElem?_append_right (Nat.le_refl _), Nat.sub_self]
  unfold pop
  cases h.queue.line with
  | nil => rfl
  | cons a line => rfl

include hh in
theorem call_push (a : α) : (h.call (.push a)).Balanced := by
  refine ⟨valid_push h.queue hh.valid a, ?_⟩
  by_cases ha : a ∈ h.queue.line
  · have hold : h.queue.push a = (false, h.queue) := if_pos (hh.valid.perm.mem_iff.mpr ha)
    simp only [History.call, hold, Bool.false_eq_true, if_false]
    exact hh.account
  · have hnew : (h.queue.push a).1 = true := (hh.push_eq_true_iff a).mpr ha
    have hline := line_push_of_not_mem h.queue hh.valid a ha
    simp only [History.call, hnew, if_true]
    calc
      h.delivered ++ (h.queue.push a).2.line = h.delivered ++ (h.queue.line ++ [a]) := by
        rw [hline]
      _ = h.accepted ++ [a] := by rw [← List.append_assoc, hh.account]

include hh in
theorem call_pop : (h.call .pop).Balanced := by
  cases hpop : h.queue.pop with
  | none =>
    rw [call_pop_of_none h hpop]
    exact hh
  | some popped =>
    obtain ⟨a, queue⟩ := popped
    obtain ⟨hline, -⟩ := pop_eq_some h.queue queue a hpop
    rw [call_pop_of_some h a queue hpop]
    refine ⟨valid_pop h.queue queue hh.valid a hpop, ?_⟩
    calc
      h.delivered ++ [a] ++ queue.line = h.delivered ++ h.queue.line := by
        rw [hline, List.append_assoc, List.singleton_append]
      _ = h.accepted := hh.account

include hh in
theorem call (c : Call α) : (h.call c).Balanced := by
  cases c with
  | push a => exact hh.call_push a
  | pop => exact hh.call_pop

include hh in
theorem not_mem_line_call (c : Call α) (a : α) (ha : a ∉ h.queue.line) (hc : c ≠ .push a) :
    a ∉ (h.call c).queue.line := by
  cases c with
  | push b =>
    have hab : a ≠ b := fun he => hc (he ▸ rfl)
    have hmem := mem_line_push h.queue hh.valid b a
    exact fun h' => (hmem.mp h').elim ha hab
  | pop =>
    cases hpop : h.queue.pop with
    | none =>
      rw [call_pop_of_none h hpop]
      exact ha
    | some popped =>
      obtain ⟨b, queue⟩ := popped
      rw [call_pop_of_some h b queue hpop]
      rw [(pop_eq_some h.queue queue b hpop).1] at ha
      exact fun h' => ha (List.mem_cons_of_mem b h')

include hh in
theorem not_mem_line_calls (calls : List (Call α)) (a : α) (ha : a ∉ h.queue.line)
    (hcalls : .push a ∉ calls) : a ∉ (calls.foldl History.call h).queue.line := by
  induction calls generalizing h with
  | nil => exact ha
  | cons c calls ih =>
    rw [List.mem_cons, not_or] at hcalls
    exact ih (hh.call c) (hh.not_mem_line_call c a ha (Ne.symm hcalls.1)) hcalls.2

include hh in
theorem not_mem_line_pop (a : α) (ha : h.queue.pop.map Prod.fst = some a) :
    a ∉ (h.call .pop).queue.line := by
  obtain ⟨⟨b, queue⟩, hpop, hb⟩ := Option.map_eq_some_iff.mp ha
  cases hb
  have hnodup := hh.valid.nodup
  rw [(pop_eq_some h.queue queue b hpop).1, List.nodup_cons] at hnodup
  rw [call_pop_of_some h b queue hpop]
  exact hnodup.1

end Balanced

theorem balanced_ofCalls (calls : List (Call α)) : (ofCalls calls).Balanced := by
  unfold ofCalls
  induction calls using List.reverseRecOn with
  | nil => exact balanced_start
  | append_singleton calls c ih =>
    rw [List.foldl_append, List.foldl_cons, List.foldl_nil]
    exact ih.call c

end History

theorem swapErase_perm (a : α) (l : List α) : (swapErase a l).Perm (l.erase a) := by
  induction l with
  | nil => exact .refl _
  | cons b l ih =>
    unfold swapErase
    by_cases hb : b = a
    · rw [if_pos hb, hb, List.erase_cons_head]
      cases hlast : l.getLast? with
      | none =>
        rw [List.getLast?_eq_none_iff.mp hlast]
        exact .refl _
      | some c =>
        have hl : l.dropLast ++ [c] = l := List.dropLast_append_getLast? c hlast
        exact List.perm_append_comm.trans (.of_eq hl)
    · rw [if_neg hb, List.erase_cons_tail (by simpa using hb)]
      exact ih.cons b

example : swapErase 2 [1, 2, 3, 4] = [1, 4, 3] := by decide

def callIndexed (q : Worklist α) : Call α → Worklist α
  | .push a => (q.pushIndexed a).2
  | .pop =>
    match q.popIndexed with
    | some (_, r) => r
    | none => q

/-- What calls leave of an empty worklist whose set keeps its values at places. -/
def ofCallsIndexed (calls : List (Call α)) : Worklist α := calls.foldl callIndexed empty

/-- Two worklists with one line, whose sets may hold the waiting values in different orders. -/
structure Alike (q r : Worklist α) : Prop where
  line : r.line = q.line
  waiting : r.waiting.Perm q.waiting

namespace Alike

variable {q r : Worklist α} (hqr : Alike q r)

include hqr in
theorem push (a : α) : (r.pushIndexed a).1 = (q.push a).1 ∧
    Alike (q.push a).2 (r.pushIndexed a).2 := by
  have hmem : a ∈ r.waiting ↔ a ∈ q.waiting := hqr.waiting.mem_iff
  unfold Worklist.push pushIndexed
  by_cases ha : a ∈ q.waiting
  · rw [if_pos ha, if_pos (hmem.mpr ha)]
    exact ⟨rfl, hqr⟩
  · rw [if_neg ha, if_neg (mt hmem.mp ha)]
    refine ⟨rfl, congrArg (· ++ [a]) hqr.line, ?_⟩
    exact (List.perm_append_singleton a r.waiting).trans (hqr.waiting.cons a)

include hqr in
theorem pop : (q.pop = none ∧ r.popIndexed = none) ∨
    ∃ a q' r', q.pop = some (a, q') ∧ r.popIndexed = some (a, r') ∧ Alike q' r' := by
  unfold Worklist.pop popIndexed
  rw [hqr.line]
  cases q.line with
  | nil => exact .inl ⟨rfl, rfl⟩
  | cons a line =>
    have hwaiting := (swapErase_perm a r.waiting).trans (hqr.waiting.erase a)
    exact .inr ⟨a, _, _, rfl, rfl, rfl, hwaiting⟩

include hqr in
theorem popped : r.popIndexed.map Prod.fst = q.pop.map Prod.fst := by
  rcases hqr.pop with ⟨hq, hr⟩ | ⟨a, q', r', hq, hr, -⟩
  · rw [hq, hr]
  · rw [hq, hr]
    rfl

end Alike

theorem Alike.call {h : History α} {r : Worklist α} (hr : Alike h.queue r) (c : Call α) :
    Alike (h.call c).queue (r.callIndexed c) := by
  cases c with
  | push a => exact (hr.push a).2
  | pop =>
    rcases hr.pop with ⟨hq, hi⟩ | ⟨a, q', r', hq, hi, hr'⟩
    · rw [h.call_pop_of_none hq]
      simpa only [callIndexed, hi] using hr
    · rw [h.call_pop_of_some a q' hq]
      simpa only [callIndexed, hi] using hr'

theorem alike_ofCallsIndexed (calls : List (Call α)) :
    Alike (History.ofCalls calls).queue (ofCallsIndexed calls) := by
  unfold History.ofCalls ofCallsIndexed
  induction calls using List.reverseRecOn with
  | nil => exact ⟨rfl, .refl _⟩
  | append_singleton calls c ih =>
    rw [List.foldl_append, List.foldl_append]
    exact ih.call c

/-- A worklist lets a value in just when it does not wait, and gives out what it has let in, once
and in order. -/
theorem first_in_first_out (calls : List (Call α)) :
    let h := History.ofCalls calls
    let r := ofCallsIndexed calls
    (∀ a, a ∈ h.queue.waiting ↔ a ∈ h.queue.line) ∧
    h.queue.waiting.Nodup ∧ h.queue.line.Nodup ∧
    (∀ a, (h.queue.push a).1 = true ↔ a ∉ h.queue.line) ∧
    (∀ a, (h.queue.push a).1 = true ↔ h.accepted.count a = h.delivered.count a) ∧
    h.delivered ++ h.queue.line = h.accepted ∧
    h.queue.pop.map Prod.fst = h.accepted[h.delivered.length]? ∧
    (∀ a more, h.queue.pop.map Prod.fst = some a → .push a ∉ more →
      ((History.ofCalls (calls ++ .pop :: more)).queue.push a).1 = true) ∧
    r.line = h.queue.line ∧ r.waiting.Perm h.queue.waiting ∧
    (∀ a, (r.pushIndexed a).1 = (h.queue.push a).1) ∧
    r.popIndexed.map Prod.fst = h.queue.pop.map Prod.fst := by
  intro h r
  have hh : h.Balanced := History.balanced_ofCalls calls
  have hr : Alike h.queue r := alike_ofCallsIndexed calls
  refine ⟨fun a => hh.valid.perm.mem_iff, hh.valid.perm.nodup_iff.mpr hh.valid.nodup,
    hh.valid.nodup, hh.push_eq_true_iff, ?_, hh.account, hh.pop_eq_getElem?, ?_, hr.line,
    hr.waiting, fun a => (hr.push a).1, hr.popped⟩
  · intro a
    rw [hh.push_eq_true_iff, hh.not_mem_line_iff]
  · intro a more ha hmore
    have hline := hh.call_pop.not_mem_line_calls more a (hh.not_mem_line_pop a ha) hmore
    rw [(History.balanced_ofCalls _).push_eq_true_iff, History.ofCalls, List.foldl_append]
    exact hline

/-- `1` is refused while it waits, and let in after it and `2` were given out. -/
theorem first_in_first_out_again :
    (History.ofCalls [.push 1, .push 2, .push 1]).accepted = [1, 2] ∧
    (History.ofCalls [.push 1, .push 2, .push 1]).queue.pop.map Prod.fst = some 1 ∧
    Call.push 1 ∉ [Call.pop, Call.push 3] ∧
    ((History.ofCalls ([.push 1, .push 2, .push 1] ++ .pop :: [.pop, .push 3])).queue.push 1).1 =
      true := by
  obtain ⟨-, -, -, -, -, -, -, again, -⟩ :=
    first_in_first_out [Call.push 1, Call.push 2, Call.push 1]
  exact ⟨by decide, by decide, by decide, again 1 [.pop, .push 3] (by decide) (by decide)⟩

end Worklist
end ShiftReduce
