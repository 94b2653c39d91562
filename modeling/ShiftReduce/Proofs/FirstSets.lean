import ShiftReduce.Proofs.CyclicSets
import ShiftReduce.Proofs.SententialForms
import ShiftReduce.SampleGrammars

namespace ShiftReduce
namespace Grammar

/-- What is collected for a nonterminal is at the front of a form derived from it. -/
theorem derives_of_collects_first (g : Grammar) {n : Nonterminal} {t : Terminal}
    (h : g.Collects (.first n) t) : ∃ rest, g.Derives [.nonterminal n] (.terminal t :: rest) := by
  generalize hset : SetName.first n = set at h
  induction h generalizing n with
  | terminal hmem =>
    subst hset
    obtain ⟨p, q, X, rest, hq, rfl, htail, -, ht⟩ := g.mem_ingredients_first.mp hmem
    rw [eq_of_terminal_eq_firstOf ht] at htail
    have hstep := g.derives_production hq
    rw [htail] at hstep
    exact ⟨rest, hstep⟩
  | set hmem _ ih =>
    subst hset
    obtain ⟨m, rfl, p, q, rest, hq, rfl, htail, -⟩ := g.partOf_first_iff.mp hmem
    obtain ⟨more, hmore⟩ := ih rfl
    have hstep := g.derives_production hq
    rw [htail] at hstep
    exact ⟨more ++ rest, hstep.trans (g.derives_append hmore rest)⟩

/-- The symbol at the front of a form begins with the terminal that comes to the front of a form
derived from it. -/
theorem begins_of_derives (g : Grammar) {X : Symbol} {symbols rest : List Symbol} {t : Terminal}
    (h : g.Derives (X :: symbols) (.terminal t :: rest)) : g.Begins X t := by
  generalize hform : X :: symbols = form at h
  induction h using Relation.ReflTransGen.head_induction_on generalizing X symbols with
  | refl =>
    cases hform
    show t = t
    rfl
  | head hrewrites _ ih =>
    cases hrewrites with
    | @intro before after p q hq =>
      rcases List.cons_eq_append_iff.mp hform with ⟨rfl, hfront⟩ | ⟨before', rfl, -⟩
      · -- The front is rewritten: the tail has a first symbol, which the head begins with.
        cases hfront
        obtain ⟨Y, tail, htail⟩ := List.exists_cons_of_ne_nil (g.tail_ne_nil hq)
        have hrest : Y :: (tail ++ symbols) = [] ++ q.tail ++ symbols := by
          rw [List.nil_append, htail, List.cons_append]
        exact g.begins_head hq htail (ih hrest)
      · exact ih rfl

theorem begins_iff (g : Grammar) {X : Symbol} {t : Terminal} :
    g.Begins X t ↔ ∃ rest, g.Derives [X] (.terminal t :: rest) := by
  constructor
  · intro h
    cases X with
    | terminal u =>
      have hu : u = t := h
      rw [hu]
      exact ⟨[], .refl⟩
    | nonterminal n => exact g.derives_of_collects_first h
  · intro ⟨rest, h⟩
    exact g.begins_of_derives h

/-- FIRST of a nonterminal is all that it begins with, or it is refused for nonterminals that begin
each other. -/
theorem first_cases (g : Grammar) {n : Nonterminal} (hn : g.contains (.nonterminal n)) :
    (∃ s, (g.first (.nonterminal n) .empty).1 = .ok s ∧
      (∀ t, t ∈ s ↔ g.Begins (.nonterminal n) t) ∧ ¬ ReachesCycle g.LeftRefers n) ∨
    ∃ m, (g.first (.nonterminal n) .empty).1 =
        .error (.grammar (.indirectLeftRecursion (g.nameOf (.nonterminal m)))) ∧
      Relation.ReflTransGen g.LeftRefers n m ∧ Relation.TransGen g.LeftRefers m m := by
  have hfirst : g.first (.nonterminal n) .empty = g.lookUp g.setCount (.first n) .empty := if_pos hn
  rw [hfirst]
  rcases g.lookUp_cases (.first n) hn with ⟨s, hok, hs, hnone⟩ | ⟨u, herror, hcircles⟩
  · refine Or.inl ⟨s, hok, hs, ?_⟩
    intro ⟨m, hm⟩
    exact hnone (.first m) (g.circles_first_iff.mpr ⟨m, rfl, hm⟩)
  · obtain ⟨m, rfl, hm⟩ := g.circles_first_iff.mp hcircles
    exact Or.inr ⟨m, herror, hm⟩

theorem first_error_iff (g : Grammar) {n : Nonterminal} (hn : g.contains (.nonterminal n)) :
    (∃ e, (g.first (.nonterminal n) .empty).1 = .error e) ↔ ReachesCycle g.LeftRefers n := by
  rcases g.first_cases hn with ⟨s, hok, -, hnone⟩ | ⟨m, herror, hm⟩
  · rw [hok]
    simp [hnone]
  · have hreaches : ReachesCycle g.LeftRefers n := ⟨m, hm⟩
    rw [herror]
    simp [hreaches]

/-- FIRST of a symbol holds the terminals at the front of the forms derived from it, and is refused
exactly where nonterminals begin each other. -/
theorem first_exact (g : Grammar) (X : Symbol) (hX : g.contains X) :
    (∀ s, (g.first X .empty).1 = .ok s →
      ∀ t, t ∈ s ↔ ∃ rest, g.Derives [X] (.terminal t :: rest)) ∧
    (∀ u, X = .terminal u → ∃ s, (g.first X .empty).1 = .ok s) ∧
    ∀ n, X = .nonterminal n →
      ((∃ name, (g.first X .empty).1 = .error (.grammar (.indirectLeftRecursion name))) ↔
        ReachesCycle g.LeftRefers n) ∧
      ((∃ s, (g.first X .empty).1 = .ok s) ↔ ¬ ReachesCycle g.LeftRefers n) ∧
      ∀ e, (g.first X .empty).1 = .error e →
        ∃ m, e = .grammar (.indirectLeftRecursion (g.nameOf (.nonterminal m))) ∧
          Relation.ReflTransGen g.LeftRefers n m ∧ Relation.TransGen g.LeftRefers m m := by
  cases X with
  | terminal u =>
    have hok : g.first (.terminal u) .empty = (.ok (.singleton u), .empty) := if_pos hX
    rw [hok]
    refine ⟨?_, fun _ _ => ⟨_, rfl⟩, fun n hn => ?_⟩
    · intro s hs t
      cases hs
      rw [← g.begins_iff, OrderedSet.mem_singleton]
      exact eq_comm
    · cases hn
  | nonterminal n =>
    rcases g.first_cases hX with ⟨s, hok, hs, hnone⟩ | ⟨m, herror, hm⟩
    · rw [hok]
      refine ⟨?_, fun u hu => ?_, fun n' hn => ?_⟩
      · intro s' hs' t
        cases hs'
        rw [hs t, g.begins_iff]
      · cases hu
      · cases hn
        simp [hnone]
    · have hreaches : ReachesCycle g.LeftRefers n := ⟨m, hm⟩
      rw [herror]
      refine ⟨fun s hs => ?_, fun u hu => ?_, fun n' hn => ?_⟩
      · cases hs
      · cases hu
      · cases hn
        refine ⟨?_, ?_, ?_⟩
        · simp [hreaches]
        · simp [hreaches]
        · intro e he
          cases he
          exact ⟨m, rfl, hm⟩

theorem exists_grammar (declarations : List Declaration) (P : Grammar → Prop) [DecidablePred P]
    (h : (match Grammar.define declarations with
      | .error _ => false
      | .ok g => decide (P g)) = true) :
    ∃ g, Grammar.define declarations = .ok g ∧ P g := by
  split at h
  · cases h
  · rename_i g hg
    exact ⟨g, hg, of_decide_eq_true h⟩

/-- `E` begins with a parenthesis or an identifier. Where `A` and `B` begin each other, FIRST of the
root is refused. -/
theorem first_exact_expression : ∃ g h, Grammar.define SampleGrammars.expression = .ok g ∧
    Grammar.define SampleGrammars.indirectLeftRecursion = .ok h ∧
    g.contains (.nonterminal ⟨2⟩) ∧ h.contains (.nonterminal ⟨1⟩) ∧
    (∃ rest, g.Derives [.nonterminal ⟨2⟩] (.terminal ⟨5⟩ :: rest)) ∧
    (¬ ∃ rest, g.Derives [.nonterminal ⟨2⟩] (.terminal ⟨1⟩ :: rest)) ∧
    ReachesCycle h.LeftRefers ⟨1⟩ := by
  obtain ⟨g, hg, hE, hfirst⟩ := exists_grammar SampleGrammars.expression
    (fun g => g.contains (.nonterminal ⟨2⟩) ∧
      (g.first (.nonterminal ⟨2⟩) .empty).1 = .ok (.ofList [⟨3⟩, ⟨5⟩])) (by decide +kernel)
  obtain ⟨h, hh, hS, hrefused⟩ := exists_grammar SampleGrammars.indirectLeftRecursion
    (fun h => h.contains (.nonterminal ⟨1⟩) ∧ (h.first (.nonterminal ⟨1⟩) .empty).1 =
      .error (.grammar (.indirectLeftRecursion "A"))) (by decide +kernel)
  obtain ⟨hexact, -, -⟩ := g.first_exact (.nonterminal ⟨2⟩) hE
  obtain ⟨-, -, hnonterminal⟩ := h.first_exact (.nonterminal ⟨1⟩) hS
  obtain ⟨hcycle, -, -⟩ := hnonterminal ⟨1⟩ rfl
  refine ⟨g, h, hg, hh, hE, hS, ?_, ?_, hcycle.mp ⟨"A", hrefused⟩⟩
  · apply (hexact _ hfirst ⟨5⟩).mp
    simp
  · intro hrest
    have hplus := (hexact _ hfirst ⟨1⟩).mpr hrest
    simp at hplus

end Grammar
end ShiftReduce
