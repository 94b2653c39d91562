import ShiftReduce.Proofs.QueryHistory

namespace ShiftReduce

namespace Analysis

/-- A union fails at one of its parts, which is looked up with the same sets underway. -/
theorem unite_error (g : Grammar) (parts : List Ingredient)
    (lookUp : SetName → Analysis → Except BuildError TerminalSet × Analysis) (total : TerminalSet)
    (a : Analysis) (ha : a.Sound g)
    (hl : ∀ r, .set r ∈ parts → ∀ b : Analysis, b.Sound g → b.underway = a.underway →
      b.Answers g r (lookUp r b))
    (e : BuildError) (h : (unite lookUp parts total a).1 = .error e) :
    ∃ r c, .set r ∈ parts ∧ Sound g c ∧ c.underway = a.underway ∧ (lookUp r c).1 = .error e := by
  induction parts generalizing total a with
  | nil => cases h
  | cons part parts ih =>
    cases part with
    | terminal u =>
      rw [unite] at h
      obtain ⟨r, c, hr, hfailed⟩ :=
        ih (total.insert u) a ha (fun r hr => hl r (List.mem_cons_of_mem _ hr)) h
      exact ⟨r, c, List.mem_cons_of_mem _ hr, hfailed⟩
    | set q =>
      have hq := hl q List.mem_cons_self a ha rfl
      rw [unite] at h
      rcases hq.cases with ⟨e', b, hx, -⟩ | ⟨s, b, hx, hb, hbu, -⟩
      · rw [hx] at h
        refine ⟨q, a, List.mem_cons_self, ha, rfl, ?_⟩
        rw [hx]
        exact h
      · rw [hx] at h
        obtain ⟨r, c, hr, hc, hcu, hfailed⟩ := ih (total.union s) b hb
          (fun r hr c hc hcu => hl r (List.mem_cons_of_mem _ hr) c hc (hcu.trans hbu)) h
        exact ⟨r, c, List.mem_cons_of_mem _ hr, hc, hcu.trans hbu, hfailed⟩

end Analysis

namespace Grammar

/-- `u` is `q`, or a part of it, or a part of a part, and so on, and it is needed for itself. -/
def Circles (g : Grammar) (q u : SetName) : Prop :=
  Relation.ReflTransGen g.PartOf u q ∧ Relation.TransGen g.PartOf u u

/-- What cannot be looked up needs a set that is needed for itself, and the fault names that set. -/
theorem circles_of_lookUp (g : Grammar) (depth : Nat) (q : SetName) (a : Analysis)
    (hd : g.contains (.nonterminal q.nonterminal)) (ha : a.Ready g depth q) (e : BuildError)
    (h : (g.lookUp depth q a).1 = .error e) : ∃ u, g.Circles q u ∧ e = .grammar (u.cycle g) := by
  have hmet (depth : Nat) (q : SetName) (a : Analysis) (ha : a.Ready g depth q)
      (hknown : a.known.lookup q = none) (hmem : q ∈ a.underway)
      (h : (g.lookUp depth q a).1 = .error e) : ∃ u, g.Circles q u ∧ e = .grammar (u.cycle g) := by
    rw [g.lookUp_of_underway depth q a hknown hmem] at h
    cases h
    exact ⟨q, ⟨.refl, ha.waiting q hmem⟩, rfl⟩
  induction depth generalizing q a with
  | zero =>
    cases hknown : a.known.lookup q with
    | some s =>
      rw [g.lookUp_of_known 0 q a s hknown] at h
      cases h
    | none => exact hmet 0 q a ha hknown (g.mem_underway_of_ready q a hd ha) h
  | succ depth ih =>
    cases hknown : a.known.lookup q with
    | some s =>
      rw [g.lookUp_of_known _ q a s hknown] at h
      cases h
    | none =>
      by_cases hmem : q ∈ a.underway
      · exact hmet _ q a ha hknown hmem h
      · rw [g.lookUp_succ_fst depth q a hknown hmem hd] at h
        have hready (r : SetName) (hr : .set r ∈ g.ingredients q) (c : Analysis) (hc : c.Sound g)
            (hcu : c.underway = q :: a.underway) : c.Ready g depth r :=
          g.ready_part depth q r a c ha hmem hd hr hc hcu
        obtain ⟨r, c, hr, hc, hcu, hfailed⟩ := Analysis.unite_error g (g.ingredients q)
          (g.lookUp depth) ∅ { a with underway := q :: a.underway } ha.sound
          (fun r hr b hb hbu =>
            g.lookUp_answers depth r b (g.contains_of_partOf hr) (hready r hr b hb hbu)) e h
        obtain ⟨u, ⟨hreach, hcycle⟩, hfault⟩ :=
          ih r c (g.contains_of_partOf hr) (hready r hr c hc hcu) hfailed
        exact ⟨u, ⟨hreach.tail hr, hcycle⟩, hfault⟩

theorem resolves_of_reach (g : Grammar) {q u : SetName} (h : Relation.ReflTransGen g.PartOf u q)
    (hq : g.Resolves q) : g.Resolves u := by
  induction h with
  | refl => exact hq
  | tail _ hpart ih => exact ih (hq.inv hpart)

/-- While nothing is known, a set is what it collects, unless it needs a set that is needed for
itself; the fault names such a set. -/
theorem lookUp_cases (g : Grammar) (q : SetName) (hd : g.contains (.nonterminal q.nonterminal)) :
    (∃ s, (g.lookUp g.setCount q .empty).1 = .ok s ∧ (∀ t, t ∈ s ↔ g.Collects q t) ∧
      ∀ u, ¬ g.Circles q u) ∨
    ∃ u, (g.lookUp g.setCount q .empty).1 = .error (.grammar (u.cycle g)) ∧ g.Circles q u := by
  have hready := g.ready_of_idle q .empty g.sound_empty rfl
  rcases (g.lookUp_answers g.setCount q .empty hd hready).cases with ⟨e, b, hx, -⟩ |
    ⟨s, b, hx, -, -, hres, hs⟩
  · have he : (g.lookUp g.setCount q .empty).1 = .error e := congrArg Prod.fst hx
    obtain ⟨u, hu, rfl⟩ := g.circles_of_lookUp g.setCount q .empty hd hready e he
    exact Or.inr ⟨u, he, hu⟩
  · refine Or.inl ⟨s, congrArg Prod.fst hx, hs, ?_⟩
    intro u ⟨hreach, hcycle⟩
    exact g.not_resolves_of_cycle hcycle (g.resolves_of_reach hreach hres)

/-- A production of `n` has a tail that begins with the other nonterminal `m`. -/
def LeftRefers (g : Grammar) (n m : Nonterminal) : Prop :=
  ∃ p q rest, g.production? p = some q ∧ q.head = n ∧ q.tail = .nonterminal m :: rest ∧ m ≠ n

/-- A production of the other nonterminal `head` has a tail that ends with `n`. -/
def EndsTailOf (g : Grammar) (n head : Nonterminal) : Prop :=
  ∃ p q before, g.production? p = some q ∧ q.head = head ∧ q.tail = before ++ [.nonterminal n] ∧
    head ≠ n

/-- In the tail of some production `n` comes directly before `m`. -/
def Precedes (g : Grammar) (n m : Nonterminal) : Prop :=
  ∃ p q before after, g.production? p = some q ∧
    q.tail = before ++ .nonterminal n :: .nonterminal m :: after

theorem partOf_first_iff (g : Grammar) {r : SetName} {n : Nonterminal} :
    g.PartOf r (.first n) ↔ ∃ m, r = .first m ∧ g.LeftRefers n m := by
  constructor
  · intro h
    obtain ⟨p, q, X, rest, hq, hhead, htail, hX, hr⟩ := g.mem_ingredients_first.mp h
    cases X with
    | terminal t => cases hr
    | nonterminal m =>
      cases hr
      exact ⟨m, rfl, p, q, rest, hq, hhead, htail, fun hm => hX (congrArg Symbol.nonterminal hm)⟩
  · intro ⟨m, hr, p, q, rest, hq, hhead, htail, hm⟩
    rw [hr]
    apply g.mem_ingredients_first.mpr
    exact ⟨p, q, .nonterminal m, rest, hq, hhead, htail, fun hX => hm (Symbol.nonterminal.inj hX),
      rfl⟩

theorem partOf_follow_iff (g : Grammar) {r : SetName} {n : Nonterminal} :
    g.PartOf r (.follow n) ↔ (∃ m, r = .follow m ∧ g.EndsTailOf n m) ∨
      ∃ m, r = .first m ∧ g.Precedes n m := by
  constructor
  · intro h
    obtain ⟨p, q, hq, ⟨before, Y, after, htail, hr⟩ | ⟨before, htail, hhead, hr⟩⟩ :=
      g.mem_ingredients_follow.mp h
    · cases Y with
      | terminal t => cases hr
      | nonterminal m =>
        cases hr
        exact Or.inr ⟨m, rfl, p, q, before, after, hq, htail⟩
    · cases hr
      exact Or.inl ⟨q.head, rfl, p, q, before, hq, rfl, htail, hhead⟩
  · intro h
    apply g.mem_ingredients_follow.mpr
    rcases h with ⟨m, hr, p, q, before, hq, hhead, htail, hm⟩ |
      ⟨m, hr, p, q, before, after, hq, htail⟩
    · subst hhead
      exact ⟨p, q, hq, Or.inr ⟨before, htail, hm, congrArg Ingredient.set hr⟩⟩
    · exact ⟨p, q, hq, Or.inl ⟨before, .nonterminal m, after, htail, congrArg Ingredient.set hr⟩⟩

theorem reach_first_iff (g : Grammar) {u : SetName} {n : Nonterminal} :
    Relation.ReflTransGen g.PartOf u (.first n) ↔
      ∃ m, u = .first m ∧ Relation.ReflTransGen g.LeftRefers n m := by
  constructor
  · intro h
    induction h using Relation.ReflTransGen.head_induction_on with
    | refl => exact ⟨n, rfl, .refl⟩
    | head hpart _ ih =>
      obtain ⟨m, rfl, hreach⟩ := ih
      obtain ⟨k, hu, hrefers⟩ := g.partOf_first_iff.mp hpart
      exact ⟨k, hu, hreach.tail hrefers⟩
  · rintro ⟨m, rfl, hreach⟩
    induction hreach with
    | refl => exact .refl
    | tail _ hrefers ih =>
      have hpart := g.partOf_first_iff.mpr ⟨_, rfl, hrefers⟩
      exact .head hpart ih

theorem cycle_first_iff (g : Grammar) {n : Nonterminal} :
    Relation.TransGen g.PartOf (.first n) (.first n) ↔ Relation.TransGen g.LeftRefers n n := by
  rw [Relation.TransGen.tail'_iff, Relation.TransGen.head'_iff]
  constructor
  · intro ⟨r, hreach, hpart⟩
    obtain ⟨m, rfl, hrefers⟩ := g.partOf_first_iff.mp hpart
    obtain ⟨k, hk, hback⟩ := g.reach_first_iff.mp hreach
    cases hk
    exact ⟨m, hrefers, hback⟩
  · intro ⟨m, hrefers, hback⟩
    exact ⟨.first m, g.reach_first_iff.mpr ⟨n, rfl, hback⟩,
      g.partOf_first_iff.mpr ⟨m, rfl, hrefers⟩⟩

/-- FOLLOW of `n` needs FOLLOW of the heads over ends of tails, and what FIRST of a nonterminal
after one of these needs. -/
theorem reach_follow_iff (g : Grammar) {u : SetName} {n : Nonterminal} :
    Relation.ReflTransGen g.PartOf u (.follow n) ↔
      (∃ m, u = .follow m ∧ Relation.ReflTransGen g.EndsTailOf n m) ∨
      ∃ m X, Relation.ReflTransGen g.EndsTailOf n m ∧ g.Precedes m X ∧
        Relation.ReflTransGen g.PartOf u (.first X) := by
  constructor
  · intro h
    induction h using Relation.ReflTransGen.head_induction_on with
    | refl => exact Or.inl ⟨n, rfl, .refl⟩
    | head hpart _ ih =>
      rcases ih with ⟨m, rfl, hreach⟩ | ⟨m, X, hreach, hbefore, hfirst⟩
      · rcases g.partOf_follow_iff.mp hpart with ⟨k, hu, hends⟩ | ⟨X, hu, hbefore⟩
        · exact Or.inl ⟨k, hu, hreach.tail hends⟩
        · rw [hu]
          exact Or.inr ⟨m, X, hreach, hbefore, .refl⟩
      · exact Or.inr ⟨m, X, hreach, hbefore, .head hpart hfirst⟩
  · have hfollow {m : Nonterminal} (hreach : Relation.ReflTransGen g.EndsTailOf n m) :
        Relation.ReflTransGen g.PartOf (.follow m) (.follow n) := by
      induction hreach with
      | refl => exact .refl
      | tail _ hends ih =>
        have hpart := g.partOf_follow_iff.mpr (Or.inl ⟨_, rfl, hends⟩)
        exact .head hpart ih
    intro h
    rcases h with ⟨m, hu, hreach⟩ | ⟨m, X, hreach, hbefore, hfirst⟩
    · rw [hu]
      exact hfollow hreach
    · have hpart := g.partOf_follow_iff.mpr (Or.inr ⟨X, rfl, hbefore⟩)
      exact hfirst.trans (.head hpart (hfollow hreach))

/-- FOLLOW of `n` is needed for itself if the way over ends of tails leads from `n` back to `n`: no
FIRST needs a FOLLOW. -/
theorem cycle_follow_iff (g : Grammar) {n : Nonterminal} :
    Relation.TransGen g.PartOf (.follow n) (.follow n) ↔ Relation.TransGen g.EndsTailOf n n := by
  have hnone {X : Nonterminal} (h : Relation.ReflTransGen g.PartOf (.follow n) (.first X)) :
      False := by
    obtain ⟨m, hm, -⟩ := g.reach_first_iff.mp h
    cases hm
  rw [Relation.TransGen.tail'_iff, Relation.TransGen.head'_iff]
  constructor
  · intro ⟨r, hreach, hpart⟩
    rcases g.partOf_follow_iff.mp hpart with ⟨m, rfl, hends⟩ | ⟨X, rfl, -⟩
    · rcases g.reach_follow_iff.mp hreach with ⟨k, hk, hback⟩ | ⟨k, X, -, -, hfirst⟩
      · cases hk
        exact ⟨m, hends, hback⟩
      · exact False.elim (hnone hfirst)
    · exact False.elim (hnone hreach)
  · intro ⟨m, hends, hback⟩
    exact ⟨.follow m, g.reach_follow_iff.mpr (Or.inl ⟨n, rfl, hback⟩),
      g.partOf_follow_iff.mpr (Or.inl ⟨m, rfl, hends⟩)⟩

end Grammar

/-- Along the relation a cycle can be reached from `n`. -/
def ReachesCycle (follows : Nonterminal → Nonterminal → Prop) (n : Nonterminal) : Prop :=
  ∃ m, Relation.ReflTransGen follows n m ∧ Relation.TransGen follows m m

namespace Grammar

theorem circles_first_iff (g : Grammar) {n : Nonterminal} {u : SetName} :
    g.Circles (.first n) u ↔ ∃ m, u = .first m ∧ Relation.ReflTransGen g.LeftRefers n m ∧
      Relation.TransGen g.LeftRefers m m := by
  constructor
  · intro ⟨hreach, hcycle⟩
    obtain ⟨m, rfl, hm⟩ := g.reach_first_iff.mp hreach
    exact ⟨m, rfl, hm, g.cycle_first_iff.mp hcycle⟩
  · intro ⟨m, hu, hreach, hcycle⟩
    rw [hu]
    exact ⟨g.reach_first_iff.mpr ⟨m, rfl, hreach⟩, g.cycle_first_iff.mpr hcycle⟩

/-- FOLLOW of `n` needs a set that is needed for itself through heads that end each other, or
through FIRST of what comes after them. -/
theorem circles_follow_iff (g : Grammar) {n : Nonterminal} {u : SetName} :
    g.Circles (.follow n) u ↔
      (∃ m, u = .follow m ∧ Relation.ReflTransGen g.EndsTailOf n m ∧
        Relation.TransGen g.EndsTailOf m m) ∨
      ∃ m X, Relation.ReflTransGen g.EndsTailOf n m ∧ g.Precedes m X ∧
        g.Circles (.first X) u := by
  constructor
  · intro ⟨hreach, hcycle⟩
    rcases g.reach_follow_iff.mp hreach with ⟨m, rfl, hm⟩ | ⟨m, X, hm, hbefore, hfirst⟩
    · exact Or.inl ⟨m, rfl, hm, g.cycle_follow_iff.mp hcycle⟩
    · exact Or.inr ⟨m, X, hm, hbefore, hfirst, hcycle⟩
  · intro h
    rcases h with ⟨m, hu, hm, hcycle⟩ | ⟨m, X, hm, hbefore, hfirst, hcycle⟩
    · rw [hu]
      exact ⟨g.reach_follow_iff.mpr (Or.inl ⟨m, rfl, hm⟩), g.cycle_follow_iff.mpr hcycle⟩
    · exact ⟨g.reach_follow_iff.mpr (Or.inr ⟨m, X, hm, hbefore, hfirst⟩), hcycle⟩

end Grammar
end ShiftReduce
