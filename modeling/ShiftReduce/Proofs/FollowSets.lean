import Mathlib.Data.List.Chain
import ShiftReduce.Proofs.FirstSets

namespace ShiftReduce
namespace Grammar

/-- What the right one of two neighbours begins with, FOLLOW of the left one collects. -/
def Adjoins (g : Grammar) (X Y : Symbol) : Prop :=
  ∀ n t, X = .nonterminal n → g.Begins Y t → g.Collects (.follow n) t

theorem isChain_tail (g : Grammar) {p : ProductionId} {q : Production}
    (hq : g.production? p = some q) : q.tail.IsChain g.Adjoins := by
  apply List.isChain_iff_forall_rel_of_append_cons_cons.mpr
  intro X Y before after htail n t hX hY
  rw [hX] at htail
  exact g.follow_of_begins hq htail hY

theorem isChain_rewrites (g : Grammar) {form final : List Symbol} (h : form.IsChain g.Adjoins)
    (hrewrites : g.Rewrites form final) : final.IsChain g.Adjoins := by
  cases hrewrites with
  | @intro before after p q hq =>
    obtain ⟨hbefore, hrest, hfront⟩ := List.isChain_append.mp h
    obtain ⟨hback, hafter⟩ := List.isChain_cons.mp hrest
    rw [List.append_assoc]
    refine hbefore.append ((g.isChain_tail hq).append hafter ?_) ?_
    · intro X hX Y hY n t hn ht
      obtain ⟨front, htail⟩ := List.getLast?_eq_some_iff.mp hX
      rw [hn] at htail
      exact g.follow_of_last hq htail (hback Y hY q.head t rfl ht)
    · intro X hX Y hY n t hn ht
      obtain ⟨Z, rest, htail⟩ := List.exists_cons_of_ne_nil (g.tail_ne_nil hq)
      rw [htail] at hY
      cases hY
      exact hfront X hX _ rfl n t hn (g.begins_head hq htail ht)

/-- In the forms derived from a nonterminal, what comes right after a nonterminal is collected. -/
theorem collects_follow_of_derives (g : Grammar) {m n : Nonterminal} {before after : List Symbol}
    {t : Terminal}
    (h : g.Derives [.nonterminal m] (before ++ .nonterminal n :: .terminal t :: after)) :
    g.Collects (.follow n) t := by
  have hchain {form : List Symbol} (h : g.Derives [.nonterminal m] form) :
      form.IsChain g.Adjoins := by
    induction h with
    | refl => exact List.isChain_singleton _
    | tail _ hrewrites ih => exact g.isChain_rewrites ih hrewrites
  have hadjoins := List.isChain_iff_forall_rel_of_append_cons_cons.mp (hchain h) rfl
  have hbegins : g.Begins (.terminal t) t := rfl
  exact hadjoins n t rfl hbegins

theorem derives_of_collects_follow (g : Grammar) {n : Nonterminal} {t : Terminal}
    (h : g.Collects (.follow n) t) :
    ∃ m before after, g.contains (.nonterminal m) ∧
      g.Derives [.nonterminal m] (before ++ .nonterminal n :: .terminal t :: after) := by
  generalize hset : SetName.follow n = set at h
  -- The induction follows the nonterminal up to the head in whose tail a symbol comes after it.
  induction h generalizing n with
  | terminal hmem =>
    subst hset
    obtain ⟨p, q, hq, ⟨before, Y, after, htail, ht⟩ | ⟨before, -, -, ht⟩⟩ :=
      g.mem_ingredients_follow.mp hmem
    · rw [eq_of_terminal_eq_firstOf ht] at htail
      exact ⟨q.head, before, after, g.contains_head hq, htail ▸ g.derives_production hq⟩
    · cases ht
  | @set _ r t hmem hcollects ih =>
    subst hset
    rcases g.partOf_follow_iff.mp hmem with ⟨head, rfl, p, q, front, hq, rfl, htail, -⟩ |
      ⟨X, rfl, p, q, before, after, hq, htail⟩
    · obtain ⟨m, before, after, hm, hform⟩ := ih rfl
      have hstep := g.derives_step hform hq
      rw [htail, ← List.append_assoc, List.append_assoc] at hstep
      exact ⟨m, before ++ front, after, hm, hstep⟩
    · obtain ⟨rest, hrest⟩ := g.derives_of_collects_first hcollects
      have hinside := g.derives_prepend (g.derives_append hrest after)
        (before ++ [.nonterminal n])
      have htail' : q.tail = before ++ [.nonterminal n] ++ ([.nonterminal X] ++ after) := by
        rw [htail, List.append_assoc]
        rfl
      have hform := g.derives_production hq
      rw [htail'] at hform
      refine ⟨q.head, before, rest ++ after, g.contains_head hq, ?_⟩
      have hall := Relation.ReflTransGen.trans hform hinside
      rwa [List.append_assoc before] at hall

theorem contains_of_precedes (g : Grammar) {m X : Nonterminal} (h : g.Precedes m X) :
    g.contains (.nonterminal X) := by
  obtain ⟨p, q, before, after, hq, htail⟩ := h
  apply g.contains_of_mem_tail hq
  rw [htail]
  simp

/-- Over the ends of tails a nonterminal can be reached that comes directly before one without a
FIRST. -/
def NeedsRefusedFirst (g : Grammar) (n : Nonterminal) : Prop :=
  ∃ m X, Relation.ReflTransGen g.EndsTailOf n m ∧ g.Precedes m X ∧
    ∃ e, (g.first (.nonterminal X) .empty).1 = .error e

theorem needsRefusedFirst_iff (g : Grammar) {n : Nonterminal} :
    g.NeedsRefusedFirst n ↔ ∃ m X u, Relation.ReflTransGen g.EndsTailOf n m ∧ g.Precedes m X ∧
      g.Circles (.first X) u := by
  constructor
  · intro ⟨m, X, hm, hbefore, hrefused⟩
    obtain ⟨l, hl⟩ := (g.first_error_iff (g.contains_of_precedes hbefore)).mp hrefused
    exact ⟨m, X, .first l, hm, hbefore, g.circles_first_iff.mpr ⟨l, rfl, hl⟩⟩
  · intro ⟨m, X, u, hm, hbefore, hcircles⟩
    obtain ⟨l, -, hl⟩ := g.circles_first_iff.mp hcircles
    exact ⟨m, X, hm, hbefore, (g.first_error_iff (g.contains_of_precedes hbefore)).mpr ⟨l, hl⟩⟩

/-- FOLLOW of a nonterminal is all that comes after it, or it is refused for heads that end each
other or for a FIRST. -/
theorem follow_cases (g : Grammar) {n : Nonterminal} (hn : g.contains (.nonterminal n)) :
    (∃ s, (g.follow (.nonterminal n) .empty).1 = .ok s ∧ (∀ t, t ∈ s ↔ g.Collects (.follow n) t) ∧
      ¬ ReachesCycle g.EndsTailOf n ∧ ¬ g.NeedsRefusedFirst n) ∨
    (∃ m, (g.follow (.nonterminal n) .empty).1 =
      .error (.grammar (.cyclicFollow (g.nameOf (.nonterminal m)))) ∧
      ReachesCycle g.EndsTailOf n) ∨
    ∃ m, (g.follow (.nonterminal n) .empty).1 =
      .error (.grammar (.indirectLeftRecursion (g.nameOf (.nonterminal m)))) ∧
      g.NeedsRefusedFirst n := by
  have hfollow : g.follow (.nonterminal n) .empty = g.lookUp g.setCount (.follow n) .empty :=
    if_pos hn
  rw [hfollow]
  rcases g.lookUp_cases (.follow n) hn with ⟨s, hok, hs, hnone⟩ | ⟨u, herror, hcircles⟩
  · refine Or.inl ⟨s, hok, hs, ?_, ?_⟩
    · intro ⟨m, hm⟩
      exact hnone (.follow m) (g.circles_follow_iff.mpr (Or.inl ⟨m, rfl, hm⟩))
    · intro hrefused
      obtain ⟨m, X, u, hX⟩ := g.needsRefusedFirst_iff.mp hrefused
      exact hnone u (g.circles_follow_iff.mpr (Or.inr ⟨m, X, hX⟩))
  · rcases g.circles_follow_iff.mp hcircles with ⟨m, rfl, hm⟩ | ⟨m, X, hX⟩
    · exact Or.inr (Or.inl ⟨m, herror, m, hm⟩)
    · obtain ⟨l, rfl, -⟩ := g.circles_first_iff.mp hX.2.2
      exact Or.inr (Or.inr ⟨l, herror, g.needsRefusedFirst_iff.mpr ⟨m, X, .first l, hX⟩⟩)

/-- FOLLOW of a nonterminal holds the terminals right after it in derived forms, and is refused
exactly for heads that end each other or for a FIRST. -/
theorem follow_exact (g : Grammar) (n : Nonterminal) (hn : g.contains (.nonterminal n)) :
    (∀ s, (g.follow (.nonterminal n) .empty).1 = .ok s → ∀ t, t ∈ s ↔
      ∃ m before after, g.contains (.nonterminal m) ∧
        g.Derives [.nonterminal m] (before ++ .nonterminal n :: .terminal t :: after)) ∧
    ((∃ fault, (g.follow (.nonterminal n) .empty).1 = .error (.grammar fault)) ↔
      ReachesCycle g.EndsTailOf n ∨ g.NeedsRefusedFirst n) ∧
    (∀ name, (g.follow (.nonterminal n) .empty).1 = .error (.grammar (.cyclicFollow name)) →
      ReachesCycle g.EndsTailOf n) ∧
    (∀ name, (g.follow (.nonterminal n) .empty).1 =
      .error (.grammar (.indirectLeftRecursion name)) → g.NeedsRefusedFirst n) ∧
    ∀ e, (g.follow (.nonterminal n) .empty).1 = .error e →
      ∃ m, e = .grammar (.cyclicFollow (g.nameOf (.nonterminal m))) ∨
        e = .grammar (.indirectLeftRecursion (g.nameOf (.nonterminal m))) := by
  rcases g.follow_cases hn with ⟨s, hok, hs, hends, hfirst⟩ | ⟨m, herror, hcycle⟩ |
    ⟨m, herror, hrefused⟩
  · rw [hok]
    refine ⟨?_, by simp [hends, hfirst], by simp, by simp, by simp⟩
    intro s' hs' t
    cases hs'
    rw [hs t]
    constructor
    · exact g.derives_of_collects_follow
    · rintro ⟨m, before, after, -, hform⟩
      exact g.collects_follow_of_derives hform
  · rw [herror]
    refine ⟨by simp, by simp [hcycle], by simp [hcycle], by simp, ?_⟩
    intro e he
    cases he
    exact ⟨m, Or.inl rfl⟩
  · rw [herror]
    refine ⟨by simp, by simp [hrefused], by simp, by simp [hrefused], ?_⟩
    intro e he
    cases he
    exact ⟨m, Or.inr rfl⟩

/-- A closing parenthesis can come right after `E`, and a `*` never does. Where `A` and `B` end each
other, they have no FOLLOW. -/
theorem follow_exact_expression : ∃ g h, Grammar.define SampleGrammars.expression = .ok g ∧
    Grammar.define SampleGrammars.cyclicFollow = .ok h ∧
    g.contains (.nonterminal ⟨2⟩) ∧ h.contains (.nonterminal ⟨2⟩) ∧
    (∃ m before after, g.contains (.nonterminal m) ∧
      g.Derives [.nonterminal m] (before ++ .nonterminal ⟨2⟩ :: .terminal ⟨4⟩ :: after)) ∧
    (¬ ∃ m before after, g.contains (.nonterminal m) ∧
      g.Derives [.nonterminal m] (before ++ .nonterminal ⟨2⟩ :: .terminal ⟨2⟩ :: after)) ∧
    ReachesCycle h.EndsTailOf ⟨2⟩ := by
  obtain ⟨g, hg, hE, hfollow⟩ := exists_grammar SampleGrammars.expression
    (fun g => g.contains (.nonterminal ⟨2⟩) ∧
      (g.follow (.nonterminal ⟨2⟩) .empty).1 = .ok (.ofList [⟨0⟩, ⟨1⟩, ⟨4⟩])) (by decide +kernel)
  obtain ⟨h, hh, hA, hrefused⟩ := exists_grammar SampleGrammars.cyclicFollow
    (fun h => h.contains (.nonterminal ⟨2⟩) ∧ (h.follow (.nonterminal ⟨2⟩) .empty).1 =
      .error (.grammar (.cyclicFollow "A"))) (by decide +kernel)
  obtain ⟨hexact, -⟩ := g.follow_exact ⟨2⟩ hE
  obtain ⟨-, -, hcyclic, -⟩ := h.follow_exact ⟨2⟩ hA
  refine ⟨g, h, hg, hh, hE, hA, ?_, ?_, hcyclic "A" hrefused⟩
  · apply (hexact _ hfollow ⟨4⟩).mp
    simp
  · intro hform
    have hstar := (hexact _ hfollow ⟨2⟩).mpr hform
    simp at hstar

end Grammar
end ShiftReduce
