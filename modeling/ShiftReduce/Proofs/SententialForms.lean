import Mathlib.Logic.Relation
import ShiftReduce.Proofs.Derivations
import ShiftReduce.Proofs.ValidItems

namespace ShiftReduce
namespace Grammar

/-- A production in the place of its head turns one form into the other. -/
inductive Rewrites (g : Grammar) : List Symbol → List Symbol → Prop
  | intro {before after : List Symbol} {p : ProductionId} {q : Production} :
      g.production? p = some q →
      Rewrites g (before ++ .nonterminal q.head :: after) (before ++ q.tail ++ after)

/-- Productions in the place of nonterminals, one after another, turn one form into the other. -/
def Derives (g : Grammar) : List Symbol → List Symbol → Prop := Relation.ReflTransGen g.Rewrites

theorem derives_step (g : Grammar) {form before after : List Symbol} {p : ProductionId}
    {q : Production} (h : g.Derives form (before ++ .nonterminal q.head :: after))
    (hq : g.production? p = some q) : g.Derives form (before ++ q.tail ++ after) :=
  Relation.ReflTransGen.tail h (.intro hq)

theorem derives_production (g : Grammar) {p : ProductionId} {q : Production}
    (hq : g.production? p = some q) : g.Derives [.nonterminal q.head] q.tail := by
  have hhead : g.Derives [.nonterminal q.head] ([] ++ .nonterminal q.head :: []) := .refl
  have hstep := g.derives_step hhead hq
  rwa [List.nil_append, List.append_nil] at hstep

theorem derives_append (g : Grammar) {form final : List Symbol} (h : g.Derives form final)
    (right : List Symbol) : g.Derives (form ++ right) (final ++ right) := by
  induction h with
  | refl => exact .refl
  | tail _ hrewrites ih =>
    cases hrewrites with
    | @intro before after p q hq =>
      rw [List.append_assoc, List.cons_append] at ih
      rw [List.append_assoc]
      exact g.derives_step ih hq

theorem derives_prepend (g : Grammar) {form final : List Symbol} (h : g.Derives form final)
    (left : List Symbol) : g.Derives (left ++ form) (left ++ final) := by
  induction h with
  | refl => exact .refl
  | tail _ hrewrites ih =>
    cases hrewrites with
    | @intro before after p q hq =>
      rw [← List.append_assoc] at ih
      rw [List.append_assoc, ← List.append_assoc, ← List.append_assoc]
      exact g.derives_step ih hq

theorem derives_of_rightmost (g : Grammar) {form : List Symbol} {rules : List ProductionId}
    {word : List Terminal} (h : g.Rightmost form rules word) :
    g.Derives form (word.map .terminal) := by
  induction h with
  | done word => exact .refl
  | step _ hq _ ih => exact .head (.intro hq) ih

/-- What the symbols yield may be derived from them at the end of a form, before terminals. -/
theorem rightmost_of_yields_before (g : Grammar) {symbols : List Symbol} {rules : List ProductionId}
    {word : List Terminal} (h : g.Yields symbols rules word) (before : List Symbol)
    (after : List Terminal) (more : List ProductionId) (whole : List Terminal)
    (hmore : g.Rightmost (before ++ (word ++ after).map .terminal) more whole) :
    g.Rightmost (before ++ symbols ++ after.map .terminal) (rules ++ more) whole := by
  induction h generalizing before after more with
  | nil => simpa using hmore
  | @terminal t symbols rules word _ ih =>
    rw [List.cons_append, List.map_cons, List.append_cons] at hmore
    rw [List.append_cons]
    exact ih (before ++ [.terminal t]) after more hmore
  | @nonterminal p q symbols rules others word rest hp hq _ _ ihtail ih =>
    rw [List.append_assoc] at hmore
    have htail := ihtail before (rest ++ after) more hmore
    have hhead := Rightmost.step hp hq htail
    rw [List.append_cons] at hhead
    have hall := ih (before ++ [.nonterminal q.head]) after _ hhead
    rw [List.append_cons, List.append_assoc others, List.cons_append]
    exact hall

theorem rightmost_of_yields (g : Grammar) {symbols : List Symbol} {rules : List ProductionId}
    {word : List Terminal} (h : g.Yields symbols rules word) : g.Rightmost symbols rules word := by
  have hdone : g.Rightmost ([] ++ (word ++ []).map .terminal) [] word := by
    rw [List.append_nil]
    exact .done word
  simpa using g.rightmost_of_yields_before h [] [] [] word hdone

/-- A word derived from a form without the start symbol is yielded by it. -/
theorem yields_of_derives (g : Grammar) {form : List Symbol} {word : List Terminal}
    (h : g.Derives form (word.map .terminal)) (hstart : .start ∉ form) :
    ∃ rules, g.Yields form rules word := by
  induction h using Relation.ReflTransGen.head_induction_on with
  | refl => exact ⟨[], g.yields_terminals word⟩
  | head hrewrites _ ih =>
    cases hrewrites with
    | @intro before after p q hq =>
      have hhead : q.head ≠ .start := by
        intro hhead
        apply hstart
        rw [hhead]
        exact List.mem_append_right before List.mem_cons_self
      have hp : p ≠ .augmented := by
        intro hp
        rw [hp, g.production?_augmented] at hq
        cases hq
        exact hhead rfl
      have hmiddle : .start ∉ before ++ q.tail ++ after := by
        have htail := g.start_not_mem_tail hq
        simp only [List.mem_append, List.mem_cons, not_or] at hstart ⊢
        exact ⟨⟨hstart.1, htail⟩, hstart.2.2⟩
      obtain ⟨rules, hyields⟩ := ih hmiddle
      rw [List.append_assoc] at hyields
      obtain ⟨_, _, _, _, hbefore, hrest, -, rfl⟩ := g.yields_append_cases before _ _ _ hyields
      obtain ⟨_, _, _, _, htail, hafter, -, rfl⟩ := g.yields_append_cases q.tail _ _ _ hrest
      exact ⟨_, g.yields_append hbefore (.nonterminal hp hq htail hafter)⟩

/-- The sentences of the grammar are the words with a rightmost derivation from the root. -/
theorem derives_word_iff (g : Grammar) (word : List Terminal) :
    g.Derives [.nonterminal g.root] (word.map .terminal) ↔
      ∃ rules, g.Rightmost [.nonterminal g.root] rules word := by
  constructor
  · intro h
    have hstart : Symbol.start ∉ [Symbol.nonterminal g.root] := by
      intro hmem
      have hroot := Symbol.nonterminal.inj (List.mem_singleton.mp hmem)
      exact g.root_ne_start hroot.symm
    obtain ⟨rules, hyields⟩ := g.yields_of_derives h hstart
    exact ⟨rules, g.rightmost_of_yields hyields⟩
  · intro ⟨rules, h⟩
    exact g.derives_of_rightmost h

/-- What can stand in front of a nonterminal does so in a form derived from the start symbol. -/
theorem derives_of_context (g : Grammar) {before : List Symbol} {n : Nonterminal}
    (h : g.Context before n) : ∃ after, g.Derives [.start] (before ++ .nonterminal n :: after) := by
  induction h with
  | start => exact ⟨[], .refl⟩
  | @tail before left right p q n _ hq htail ih =>
    obtain ⟨after, hbefore⟩ := ih
    have hstep := g.derives_step hbefore hq
    rw [htail] at hstep
    refine ⟨right ++ after, ?_⟩
    simpa only [List.append_assoc, List.cons_append] using hstep

/-- A string with a valid item begins a form derived from the start symbol. -/
theorem derives_of_validFor (g : Grammar) {symbols : List Symbol} {item : Item}
    (h : g.ValidFor symbols item) : ∃ after, g.Derives [.start] (symbols ++ after) := by
  obtain ⟨q, before, hq, -, hbefore, rfl⟩ := h
  obtain ⟨after, hform⟩ := g.derives_of_context hbefore
  have hstep := g.derives_step hform hq
  have hsplit : before ++ q.tail ++ after =
      before ++ q.tail.take item.index ++ (q.tail.drop item.index ++ after) := by
    rw [List.append_assoc before (q.tail.take item.index), ← List.append_assoc (q.tail.take _),
      List.take_append_drop, List.append_assoc]
  rw [hsplit] at hstep
  exact ⟨_, hstep⟩

/-- The first step from the start symbol puts the end of input behind the root, where it stays. -/
theorem derives_start_cases (g : Grammar) {form : List Symbol} (h : g.Derives [.start] form) :
    form = [.start] ∨
      ∃ front, form = front ++ [.endOfInput] ∧ g.Derives [.nonterminal g.root] front := by
  induction h with
  | refl => exact Or.inl rfl
  | tail _ hrewrites ih =>
    cases hrewrites with
    | @intro before after p q hq =>
      right
      rcases ih with hstart | ⟨front, hfront, hroot⟩
      · rcases List.append_eq_singleton_iff.mp hstart with ⟨rfl, hrest⟩ | ⟨-, hrest⟩
        · obtain ⟨hhead, rfl⟩ := List.cons.inj hrest
          have hp := g.eq_augmented_of_head hq (Symbol.nonterminal.inj hhead)
          rw [hp, g.production?_augmented] at hq
          cases hq
          exact ⟨[.nonterminal g.root], rfl, .refl⟩
        · cases hrest
      · rcases List.eq_nil_or_concat after with rfl | ⟨after, X, rfl⟩
        · obtain ⟨-, hX⟩ := List.append_inj' hfront rfl
          cases hX
        · rw [List.concat_eq_append, ← List.cons_append, ← List.append_assoc] at hfront
          obtain ⟨rfl, hX⟩ := List.append_inj' hfront rfl
          refine ⟨before ++ q.tail ++ after, ?_, g.derives_step hroot hq⟩
          rw [List.concat_eq_append, hX, List.append_assoc _ after]

/-- A word without the end of input, derived from a string with a valid item, begins a form derived
from the root. -/
theorem derives_of_validFor_word (g : Grammar) {symbols : List Symbol} {item : Item}
    {word : List Terminal} (h : g.ValidFor symbols item)
    (hword : g.Derives symbols (word.map .terminal)) (hend : .endOfInput ∉ word) :
    ∃ rest, g.Derives [.nonterminal g.root] (word.map .terminal ++ rest) := by
  obtain ⟨after, hform⟩ := g.derives_of_validFor h
  have hall : g.Derives [.start] (word.map .terminal ++ after) :=
    Relation.ReflTransGen.trans hform (g.derives_append hword after)
  rcases g.derives_start_cases hall with hstart | ⟨front, hfront, hroot⟩
  · cases word with
    | nil => exact ⟨[.nonterminal g.root], .refl⟩
    | cons u word => cases hstart
  · rcases List.eq_nil_or_concat after with rfl | ⟨rest, X, rfl⟩
    · have hmem : Symbol.endOfInput ∈ word.map Symbol.terminal ++ [] := by
        rw [hfront]
        exact List.mem_append_right front List.mem_cons_self
      rw [List.append_nil] at hmem
      obtain ⟨u, hu, hterminal⟩ := List.mem_map.mp hmem
      cases hterminal
      exact False.elim (hend hu)
    · rw [List.concat_eq_append, ← List.append_assoc] at hfront
      obtain ⟨rfl, -⟩ := List.append_inj' hfront rfl
      exact ⟨rest, hroot⟩

end Grammar
end ShiftReduce
