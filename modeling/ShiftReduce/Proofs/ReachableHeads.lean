import ShiftReduce.Proofs.FollowSets
import ShiftReduce.Proofs.QueryHistory

namespace ShiftReduce
namespace Grammar

/-- A production of `n` has `m` in its tail. -/
def Refers (g : Grammar) (n m : Nonterminal) : Prop :=
  ∃ p q, g.production? p = some q ∧ q.head = n ∧ .nonterminal m ∈ q.tail

/-- From `n` over the tails of productions to `m`. -/
def LeadsTo (g : Grammar) : Nonterminal → Nonterminal → Prop := Relation.ReflTransGen g.Refers

/-- The nonterminal is in some form derived from the start symbol. -/
def Reachable (g : Grammar) (n : Nonterminal) : Prop := g.LeadsTo .start n

/-- The terminal comes right after the nonterminal in a form derived from `m`. -/
def FollowsIn (g : Grammar) (m n : Nonterminal) (t : Terminal) : Prop :=
  ∃ before after, g.Derives [.nonterminal m] (before ++ .nonterminal n :: .terminal t :: after)

/-- What holds for a form, and for the tail of a production if for its head, holds for all forms
derived from that form. -/
theorem forall_mem_of_derives (g : Grammar) (holds : Symbol → Prop)
    (hstep : ∀ p q, g.production? p = some q → holds (.nonterminal q.head) →
      ∀ X ∈ q.tail, holds X)
    {form final : List Symbol} (h : g.Derives form final) (hform : ∀ X ∈ form, holds X) :
    ∀ X ∈ final, holds X := by
  induction h with
  | refl => exact hform
  | tail _ hrewrites ih =>
    cases hrewrites with
    | @intro before after p q hq =>
      obtain ⟨hbefore, hrest⟩ := List.forall_mem_append.mp ih
      obtain ⟨hhead, hafter⟩ := List.forall_mem_cons.mp hrest
      have htail := hstep p q hq hhead
      exact List.forall_mem_append.mpr ⟨List.forall_mem_append.mpr ⟨hbefore, htail⟩, hafter⟩

theorem leadsTo_iff (g : Grammar) {m n : Nonterminal} :
    g.LeadsTo m n ↔
      ∃ before after, g.Derives [.nonterminal m] (before ++ .nonterminal n :: after) := by
  constructor
  · intro h
    induction h with
    | refl => exact ⟨[], [], .refl⟩
    | tail _ hrefers ih =>
      obtain ⟨before, after, hform⟩ := ih
      obtain ⟨p, q, hq, rfl, hmem⟩ := hrefers
      obtain ⟨left, right, htail⟩ := List.append_of_mem hmem
      have hstep := g.derives_step hform hq
      rw [htail] at hstep
      refine ⟨before ++ left, right ++ after, ?_⟩
      simpa only [List.append_assoc, List.cons_append] using hstep
  · intro ⟨before, after, hform⟩
    have hstep (p : ProductionId) (q : Production) (hq : g.production? p = some q)
        (hhead : ∀ k, Symbol.nonterminal q.head = .nonterminal k → g.LeadsTo m k) :
        ∀ X ∈ q.tail, ∀ k, X = .nonterminal k → g.LeadsTo m k := by
      intro X hX k hk
      have hrefers : g.Refers q.head k := ⟨p, q, hq, rfl, hk ▸ hX⟩
      exact Relation.ReflTransGen.tail (hhead q.head rfl) hrefers
    have hfirst : ∀ X ∈ [Symbol.nonterminal m], ∀ k, X = .nonterminal k → g.LeadsTo m k := by
      intro X hX k hk
      rw [hk, List.mem_singleton] at hX
      cases hX
      exact .refl
    have hall := g.forall_mem_of_derives _ hstep hform hfirst
    exact hall _ (List.mem_append_right before List.mem_cons_self) n rfl

/-- Nothing leads to the root but the start symbol and the root itself. -/
theorem reachable_of_leadsTo_root (g : Grammar) {m : Nonterminal} (h : g.LeadsTo m g.root) :
    g.Reachable m := by
  have hroot : g.Refers .start g.root := by
    refine ⟨.augmented, _, g.production?_augmented, rfl, ?_⟩
    exact List.mem_cons_self
  rcases Relation.ReflTransGen.cases_tail h with hm | ⟨k, hk, p, q, hq, rfl, hmem⟩
  · rw [← hm]
    exact .single hroot
  · rcases g.production?_cases hq with ⟨-, rfl⟩ | ⟨-, hrule⟩
    · rcases Relation.ReflTransGen.cases_tail hk with hm | ⟨l, -, p, q, hq, -, hstart⟩
      · rw [← hm]
        exact .refl
      · exact False.elim (g.start_not_mem_tail hq hstart)
    · exact False.elim (g.root_not_derived q hrule hmem)

/-- What comes after a nonterminal in a form derived from a reachable one comes after it in a form
derived from the start symbol. -/
theorem followsIn_start_of_reachable (g : Grammar) {m n : Nonterminal} {t : Terminal}
    (hm : g.Reachable m) (h : g.FollowsIn m n t) : g.FollowsIn .start n t := by
  obtain ⟨left, right, hform⟩ := g.leadsTo_iff.mp hm
  obtain ⟨before, after, hinner⟩ := h
  have houter := g.derives_prepend (g.derives_append hinner right) left
  refine ⟨left ++ before, after ++ right, ?_⟩
  have hall : g.Derives [.nonterminal .start] _ := Relation.ReflTransGen.trans hform houter
  simpa only [List.append_assoc, List.cons_append] using hall

theorem leadsTo_of_followsIn (g : Grammar) {m n : Nonterminal} {t : Terminal}
    (h : g.FollowsIn m n t) : g.LeadsTo m n := by
  obtain ⟨before, after, hform⟩ := h
  exact g.leadsTo_iff.mpr ⟨before, _, hform⟩

/-- What is collected for FOLLOW comes after the nonterminal in a form of the start symbol, or of an
unreachable nonterminal that leads to it. -/
theorem collects_follow_iff (g : Grammar) {n : Nonterminal} {t : Terminal} :
    g.Collects (.follow n) t ↔ g.FollowsIn .start n t ∨
      ∃ m, g.contains (.nonterminal m) ∧ ¬ g.Reachable m ∧ g.FollowsIn m n t := by
  constructor
  · intro h
    obtain ⟨m, before, after, hm, hform⟩ := g.derives_of_collects_follow h
    by_cases hreachable : g.Reachable m
    · exact Or.inl (g.followsIn_start_of_reachable hreachable ⟨before, after, hform⟩)
    · exact Or.inr ⟨m, hm, hreachable, before, after, hform⟩
  · rintro (⟨before, after, hform⟩ | ⟨m, -, -, before, after, hform⟩)
    · exact g.collects_follow_of_derives hform
    · exact g.collects_follow_of_derives hform

/-- FOLLOW of a nonterminal holds what comes right after it in forms of the start symbol and in
those of unreachable nonterminals, and nothing else. -/
theorem follow_beyond_start (g : Grammar) (queries : List Query) (n : Nonterminal) (s : TerminalSet)
    (h : (g.ask (g.askAll .empty queries) (.follow (.nonterminal n))).1 = .ok s) :
    (∀ t, t ∈ s ↔ g.FollowsIn .start n t ∨
      ∃ m, g.contains (.nonterminal m) ∧ ¬ g.Reachable m ∧ g.FollowsIn m n t) ∧
    ((∀ m, g.LeadsTo m n → g.Reachable m) → ∀ t, t ∈ s ↔ g.FollowsIn .start n t) := by
  obtain ⟨hsound, hidle⟩ := g.askAll_sound .empty queries g.sound_empty rfl
  have hs (t : Terminal) : t ∈ s ↔ g.FollowsIn .start n t ∨
      ∃ m, g.contains (.nonterminal m) ∧ ¬ g.Reachable m ∧ g.FollowsIn m n t :=
    (g.mem_follow_iff hsound hidle h t).trans g.collects_follow_iff
  refine ⟨hs, ?_⟩
  intro hreachable t
  rw [hs t]
  refine or_iff_left ?_
  rintro ⟨m, -, hnot, hfollows⟩
  exact hnot (hreachable m (g.leadsTo_of_followsIn hfollows))

/-- Only `U` refers to `U`, and its tail has `y` after `A`. -/
def unreachableHead : List Declaration :=
  SampleGrammars.declarations ["x", "y"] ["S", "A", "U"]
    [("S", ["A"]),
     ("A", ["x"]),
     ("U", ["U", "A", "y"])]

theorem not_followsIn_unreachableHead (g : Grammar)
    (hg : Grammar.define unreachableHead = .ok g) :
    ¬ g.FollowsIn .start ⟨2⟩ ⟨2⟩ := by
  obtain ⟨g', hg', hclosed⟩ := exists_grammar unreachableHead
    (fun g => ∀ q ∈ g.productions, q.head ≠ ⟨3⟩ →
      ∀ X ∈ q.tail, X ≠ .nonterminal ⟨3⟩ ∧ X ≠ .terminal ⟨2⟩) (by decide +kernel)
  obtain rfl : g = g' := Except.ok.inj (hg.symm.trans hg')
  have hstep (p : ProductionId) (q : Production) (hq : g.production? p = some q)
      (hhead : Symbol.nonterminal q.head ≠ .nonterminal ⟨3⟩ ∧
        Symbol.nonterminal q.head ≠ .terminal ⟨2⟩) :
      ∀ X ∈ q.tail, X ≠ .nonterminal ⟨3⟩ ∧ X ≠ .terminal ⟨2⟩ := by
    apply hclosed q (g.mem_productions_iff.mpr ⟨p, hq⟩)
    intro h
    exact hhead.1 (congrArg Symbol.nonterminal h)
  rintro ⟨before, after, hform⟩
  have hall := g.forall_mem_of_derives (fun X => X ≠ .nonterminal ⟨3⟩ ∧ X ≠ .terminal ⟨2⟩)
    hstep hform (by decide)
  exact (hall (.terminal ⟨2⟩) (by simp)).2 rfl

/-- FOLLOW of `A` holds `y` for the sake of an unreachable nonterminal; all that FOLLOW of the root
holds comes after the root. -/
theorem follow_beyond_start_unreachableHead : ∃ g s r, Grammar.define unreachableHead = .ok g ∧
    (g.ask (g.askAll .empty [.follow (.nonterminal g.root)]) (.follow (.nonterminal ⟨2⟩))).1 =
      .ok s ∧
    (g.ask (g.askAll .empty []) (.follow (.nonterminal g.root))).1 = .ok r ∧
    (∃ m, g.contains (.nonterminal m) ∧ ¬ g.Reachable m ∧ g.FollowsIn m ⟨2⟩ ⟨2⟩) ∧
    ∀ t, t ∈ r ↔ g.FollowsIn .start g.root t := by
  obtain ⟨g, hg, hfollow, hroot⟩ := exists_grammar unreachableHead
    (fun g => (g.ask (g.askAll .empty [.follow (.nonterminal g.root)])
        (.follow (.nonterminal ⟨2⟩))).1 = .ok (.ofList [⟨0⟩, ⟨2⟩]) ∧
      (g.ask (g.askAll .empty []) (.follow (.nonterminal g.root))).1 = .ok (.ofList [⟨0⟩]))
    (by decide +kernel)
  obtain ⟨hs, -⟩ := g.follow_beyond_start _ ⟨2⟩ _ hfollow
  obtain ⟨-, hr⟩ := g.follow_beyond_start _ g.root _ hroot
  refine ⟨g, _, _, hg, hfollow, hroot, ?_, hr fun m => g.reachable_of_leadsTo_root⟩
  have hy : (⟨2⟩ : Terminal) ∈ OrderedSet.ofList [(⟨0⟩ : Terminal), ⟨2⟩] := by simp
  rcases (hs ⟨2⟩).mp hy with hstart | hunreachable
  · exact False.elim (g.not_followsIn_unreachableHead hg hstart)
  · exact hunreachable

/-- FOLLOW of `A` holds `y`, which never comes after `A` in a form derived from the start symbol. -/
theorem follow_holds_unreachable : ∃ g s, Grammar.define unreachableHead = .ok g ∧
    (g.follow (.nonterminal ⟨2⟩) .empty).1 = .ok s ∧
    ∃ t, t ∈ s ∧ ¬ g.FollowsIn .start ⟨2⟩ t := by
  obtain ⟨g, hg, hfollow⟩ := exists_grammar unreachableHead
    (fun g => (g.follow (.nonterminal ⟨2⟩) .empty).1 = .ok (.ofList [⟨0⟩, ⟨2⟩]))
    (by decide +kernel)
  exact ⟨g, _, hg, hfollow, ⟨2⟩, by simp, g.not_followsIn_unreachableHead hg⟩

end Grammar
end ShiftReduce
