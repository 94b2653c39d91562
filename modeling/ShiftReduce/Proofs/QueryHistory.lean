import ShiftReduce.Proofs.SetResolution

/-! What is kept are sets that resolve, and those have one answer. A set that does not is computed
anew each time, and meets the same cycle first. -/
namespace ShiftReduce

/-- A question that an analysis answers. -/
inductive Query where
  | first (X : Symbol)
  | follow (X : Symbol)
deriving DecidableEq, Repr

/-- The query for a set that is kept. -/
def SetName.query : SetName → Query
  | first n => .first (.nonterminal n)
  | follow n => .follow (.nonterminal n)

namespace Grammar

/-- The answer of an analysis to a query, and the analysis with what it has learnt. -/
def ask (g : Grammar) (a : Analysis) : Query → Except BuildError TerminalSet × Analysis
  | .first X => g.first X a
  | .follow X => g.follow X a

/-- An analysis to which queries were put, one after another, whatever the answers were. -/
def askAll (g : Grammar) (a : Analysis) : List Query → Analysis
  | [] => a
  | query :: queries => g.askAll (g.ask a query).2 queries

end Grammar

namespace Analysis

theorem Answers.of_resolves {g : Grammar} {q : SetName} {a : Analysis}
    {outcome : Except BuildError TerminalSet × Analysis} (h : a.Answers g q outcome)
    (hres : g.Resolves q) : ∃ s, outcome.1 = .ok s ∧ ∀ t, t ∈ s ↔ g.Collects q t := by
  rcases Leaves.cases h with ⟨e, b, -, -, -, hfail⟩ | ⟨s, b, rfl, -, -, -, hs⟩
  · exact False.elim (hfail hres)
  · exact ⟨s, rfl, hs⟩

theorem Answers.eq_of_resolves {g : Grammar} {q : SetName} {a b : Analysis}
    {x y : Except BuildError TerminalSet × Analysis} (hx : a.Answers g q x)
    (hy : b.Answers g q y) (hres : g.Resolves q) : x.1 = y.1 := by
  obtain ⟨s, hxs, hs⟩ := hx.of_resolves hres
  obtain ⟨s', hys, hs'⟩ := hy.of_resolves hres
  have hsame : s = s' := OrderedSet.ext_mem fun t => (hs t).trans (hs' t).symm
  rw [hxs, hys, hsame]

/-- Whether an analysis is ready depends on what is underway and not on what is known. -/
theorem Ready.of_underway {g : Grammar} {depth : Nat} {q : SetName} {a b : Analysis}
    (ha : a.Ready g depth q) (hb : b.Sound g) (hu : b.underway = a.underway) :
    b.Ready g depth q :=
  ⟨hb, hu ▸ ha.nodup, hu ▸ ha.declared, hu ▸ ha.waiting, hu ▸ ha.depth⟩

theorem Sound.lookup_eq_none {g : Grammar} {a : Analysis} {q : SetName} (ha : a.Sound g)
    (hres : ¬ g.Resolves q) : a.known.lookup q = none := by
  cases hknown : a.known.lookup q with
  | none => rfl
  | some s => exact False.elim (hres (ha.of_lookup hknown).1)

/-- The union is the same from two analyses if each part is, with the same sets underway. -/
theorem unite_congr (g : Grammar) (parts : List Ingredient)
    (lookUp : SetName → Analysis → Except BuildError TerminalSet × Analysis) (total : TerminalSet)
    (a b : Analysis) (ha : a.Sound g) (hb : b.Sound g) (hu : b.underway = a.underway)
    (hl : ∀ r, .set r ∈ parts → ∀ c : Analysis, c.Sound g → c.underway = a.underway →
      c.Answers g r (lookUp r c))
    (hsame : ∀ r, .set r ∈ parts → ∀ c d : Analysis, c.Sound g → d.Sound g →
      c.underway = a.underway → d.underway = a.underway → (lookUp r c).1 = (lookUp r d).1) :
    (unite lookUp parts total a).1 = (unite lookUp parts total b).1 := by
  induction parts generalizing total a b with
  | nil => rfl
  | cons part parts ih =>
    cases part with
    | terminal u =>
      rw [unite, unite]
      exact ih (total.insert u) a b ha hb hu (fun r hr => hl r (List.mem_cons_of_mem _ hr))
        fun r hr => hsame r (List.mem_cons_of_mem _ hr)
    | set q =>
      have hq := hsame q List.mem_cons_self a b ha hb rfl hu
      have hqa := hl q List.mem_cons_self a ha rfl
      have hqb := hl q List.mem_cons_self b hb hu
      rw [unite, unite]
      rcases hqa.cases with ⟨e, a', hx, -⟩ | ⟨s, a', hx, ha', hau, -⟩
      · rcases hqb.cases with ⟨e', b', hy, -⟩ | ⟨s', b', hy, -⟩
        · rw [hx, hy] at hq ⊢
          exact hq
        · rw [hx, hy] at hq
          cases hq
      · rcases hqb.cases with ⟨e', b', hy, -⟩ | ⟨s', b', hy, hb', hbu, -⟩
        · rw [hx, hy] at hq
          cases hq
        · rw [hx, hy] at hq ⊢
          cases hq
          exact ih (total.union s) a' b' ha' hb' (hbu.trans (hu.trans hau.symm))
            (fun r hr c hc hcu => hl r (List.mem_cons_of_mem _ hr) c hc (hcu.trans hau))
            fun r hr c d hc hd hcu hdu => hsame r (List.mem_cons_of_mem _ hr) c d hc hd
              (hcu.trans hau) (hdu.trans hau)

/-- All sets kept are those of nonterminals of the grammar. -/
def Declared (g : Grammar) (a : Analysis) : Prop :=
  ∀ q s, (q, s) ∈ a.known → g.contains (.nonterminal q.nonterminal)

theorem unite_declared (g : Grammar)
    (lookUp : SetName → Analysis → Except BuildError TerminalSet × Analysis)
    (hl : ∀ r c, Declared g c → (lookUp r c).2.Declared g) (parts : List Ingredient)
    (total : TerminalSet) (a : Analysis) (ha : a.Declared g) :
    (unite lookUp parts total a).2.Declared g := by
  induction parts generalizing total a with
  | nil => exact ha
  | cons part parts ih =>
    cases part with
    | terminal u => exact ih (total.insert u) a ha
    | set q =>
      have hq := hl q a ha
      rw [unite]
      split
      · rename_i hx
        rw [hx] at hq
        exact hq
      · rename_i s b hx
        rw [hx] at hq
        exact ih (total.union s) b hq

end Analysis

namespace Grammar

/-- The answer for a set that is computed is the union of its ingredients. -/
theorem lookUp_succ_fst (g : Grammar) (depth : Nat) (q : SetName) (a : Analysis)
    (h : a.known.lookup q = none) (hq : q ∉ a.underway)
    (hd : g.contains (.nonterminal q.nonterminal)) :
    (g.lookUp (depth + 1) q a).1 = (Analysis.unite (g.lookUp depth) (g.ingredients q) ∅
      { a with underway := q :: a.underway }).1 := by
  rw [g.lookUp_succ depth q a h hq hd]
  rcases Analysis.unite (g.lookUp depth) (g.ingredients q) ∅
    { a with underway := q :: a.underway } with ⟨e | s, b⟩
  · rfl
  · rfl

/-- What an analysis knows makes no difference to its answer, only what is underway. -/
theorem lookUp_congr (g : Grammar) (depth : Nat) (q : SetName) (a b : Analysis)
    (hd : g.contains (.nonterminal q.nonterminal)) (ha : a.Ready g depth q) (hb : b.Sound g)
    (hu : b.underway = a.underway) : (g.lookUp depth q a).1 = (g.lookUp depth q b).1 := by
  -- A set that resolves has one answer. One that does not is nowhere known, so that both analyses
  -- go through its ingredients, with one more set underway.
  induction depth generalizing q a b with
  | zero =>
    have hbr : b.Ready g 0 q := ha.of_underway hb hu
    have hanswer := g.lookUp_answers 0 q a hd ha
    have hanswer' := g.lookUp_answers 0 q b hd hbr
    by_cases hres : g.Resolves q
    · exact hanswer.eq_of_resolves hanswer' hres
    · have hmem : q ∈ a.underway := g.mem_underway_of_ready q a hd ha
      have hmem' : q ∈ b.underway := g.mem_underway_of_ready q b hd hbr
      rw [g.lookUp_of_underway 0 q a (ha.sound.lookup_eq_none hres) hmem,
        g.lookUp_of_underway 0 q b (hb.lookup_eq_none hres) hmem']
  | succ depth ih =>
    have hbr : b.Ready g (depth + 1) q := ha.of_underway hb hu
    have hanswer := g.lookUp_answers (depth + 1) q a hd ha
    have hanswer' := g.lookUp_answers (depth + 1) q b hd hbr
    by_cases hres : g.Resolves q
    · exact hanswer.eq_of_resolves hanswer' hres
    · have hnone := ha.sound.lookup_eq_none hres
      have hnone' := hb.lookup_eq_none hres
      by_cases hmem : q ∈ a.underway
      · rw [g.lookUp_of_underway _ q a hnone hmem,
          g.lookUp_of_underway _ q b hnone' (hu ▸ hmem)]
      · have hmem' : q ∉ b.underway := by rwa [hu]
        rw [g.lookUp_succ_fst depth q a hnone hmem hd,
          g.lookUp_succ_fst depth q b hnone' hmem' hd]
        have hpart (r : SetName) (hr : .set r ∈ g.ingredients q) (c : Analysis) (hc : c.Sound g)
            (hcu : c.underway = q :: a.underway) : c.Ready g depth r :=
          g.ready_part depth q r a c ha hmem hd hr hc hcu
        apply Analysis.unite_congr g
        · exact ha.sound
        · exact hb
        · exact congrArg (q :: ·) hu
        · intro r hr c hc hcu
          exact g.lookUp_answers depth r c (g.contains_of_partOf hr) (hpart r hr c hc hcu)
        · intro r hr c d hc hd' hcu hdu
          exact ih r c d (g.contains_of_partOf hr) (hpart r hr c hc hcu) hd' (hdu.trans hcu.symm)

/-- A query is settled without an analysis, or it is for a set that is kept. -/
theorem ask_cases (g : Grammar) (query : Query) :
    (∃ answer, ∀ a, g.ask a query = (answer, a)) ∨
      ∃ q, g.contains (.nonterminal q.nonterminal) ∧
        ∀ a, g.ask a query = g.lookUp g.setCount q a := by
  cases query with
  | first X =>
    by_cases hX : g.contains X
    · cases X with
      | terminal t => exact Or.inl ⟨_, fun a => if_pos hX⟩
      | nonterminal n => exact Or.inr ⟨.first n, hX, fun a => if_pos hX⟩
    · exact Or.inl ⟨_, fun a => if_neg hX⟩
  | follow X =>
    by_cases hX : g.contains X
    · cases X with
      | terminal t => exact Or.inl ⟨_, fun a => if_pos hX⟩
      | nonterminal n => exact Or.inr ⟨.follow n, hX, fun a => if_pos hX⟩
    · exact Or.inl ⟨_, fun a => if_neg hX⟩

theorem ask_query (g : Grammar) (a : Analysis) (q : SetName)
    (hd : g.contains (.nonterminal q.nonterminal)) :
    g.ask a q.query = g.lookUp g.setCount q a := by
  cases q with
  | first n => exact if_pos hd
  | follow n => exact if_pos hd

/-- A lookup keeps sets of nonterminals of the grammar only. -/
theorem lookUp_declared (g : Grammar) (depth : Nat) (q : SetName) (a : Analysis)
    (ha : a.Declared g) : (g.lookUp depth q a).2.Declared g := by
  induction depth generalizing q a with
  | zero =>
    rw [lookUp.eq_def]
    split
    · exact ha
    · split
      · exact ha
      · split
        · exact ha
        · exact ha
  | succ depth ih =>
    rw [lookUp.eq_def]
    split
    · exact ha
    · split
      · exact ha
      · split
        · rename_i hd
          have hparts := Analysis.unite_declared g (g.lookUp depth) ih (g.ingredients q) ∅
            { a with underway := q :: a.underway } ha
          simp only
          split
          · rename_i hx
            rw [hx] at hparts
            exact hparts
          · rename_i s b hx
            rw [hx] at hparts
            intro r t hmem
            rcases List.mem_append.mp hmem with hmem | hmem
            · exact hparts r t hmem
            · rw [List.mem_singleton] at hmem
              cases hmem
              exact hd
        · exact ha

theorem declared_empty (g : Grammar) : Analysis.empty.Declared g := by
  intro q s h
  exact False.elim (List.not_mem_nil h)

theorem askAll_declared (g : Grammar) (a : Analysis) (queries : List Query) (ha : a.Declared g) :
    (g.askAll a queries).Declared g := by
  induction queries generalizing a with
  | nil => exact ha
  | cons query queries ih =>
    apply ih
    rcases g.ask_cases query with ⟨answer, hask⟩ | ⟨q, -, hask⟩
    · rw [hask a]
      exact ha
    · rw [hask a]
      exact g.lookUp_declared g.setCount q a ha

theorem ask_sound (g : Grammar) (a : Analysis) (query : Query) (ha : a.Sound g)
    (hu : a.underway = []) :
    (g.ask a query).2.Sound g ∧ (g.ask a query).2.underway = [] := by
  rcases g.ask_cases query with ⟨answer, hask⟩ | ⟨q, hd, hask⟩
  · rw [hask a]
    exact ⟨ha, hu⟩
  · rw [hask a]
    have hanswer := g.lookUp_answers g.setCount q a hd (g.ready_of_idle q a ha hu)
    rcases hanswer.cases with ⟨e, b, hx, hb, hbu, -⟩ | ⟨s, b, hx, hb, hbu, -⟩
    · rw [hx]
      exact ⟨hb, hbu.trans hu⟩
    · rw [hx]
      exact ⟨hb, hbu.trans hu⟩

theorem askAll_sound (g : Grammar) (a : Analysis) (queries : List Query) (ha : a.Sound g)
    (hu : a.underway = []) :
    (g.askAll a queries).Sound g ∧ (g.askAll a queries).underway = [] := by
  induction queries generalizing a with
  | nil => exact ⟨ha, hu⟩
  | cons query queries ih =>
    obtain ⟨hb, hbu⟩ := g.ask_sound a query ha hu
    exact ih _ hb hbu

/-- Between queries, nothing that is known makes a difference to the next answer. -/
theorem ask_congr (g : Grammar) (a b : Analysis) (query : Query) (ha : a.Sound g)
    (hau : a.underway = []) (hb : b.Sound g) (hbu : b.underway = []) :
    (g.ask a query).1 = (g.ask b query).1 := by
  rcases g.ask_cases query with ⟨answer, hask⟩ | ⟨q, hd, hask⟩
  · rw [hask a, hask b]
  · rw [hask a, hask b]
    exact g.lookUp_congr g.setCount q a b hd (g.ready_of_idle q a ha hau) hb
      (hbu.trans hau.symm)

/-- After any queries, every further one has the answer that a new analysis gives, and what is kept
are such answers. -/
theorem ask_after_queries (g : Grammar) (queries : List Query) :
    (∀ query, (g.ask (g.askAll .empty queries) query).1 = (g.ask .empty query).1) ∧
    (g.askAll .empty queries).underway = [] ∧
    ∀ q s, (q, s) ∈ (g.askAll .empty queries).known → (g.ask .empty q.query).1 = .ok s := by
  obtain ⟨hsound, hidle⟩ := g.askAll_sound .empty queries g.sound_empty rfl
  refine ⟨?_, hidle, ?_⟩
  · intro query
    exact g.ask_congr _ .empty query hsound hidle g.sound_empty rfl
  · intro q s hmem
    obtain ⟨hres, hs⟩ := hsound q s hmem
    have hd := g.askAll_declared .empty queries g.declared_empty q s hmem
    have hanswer := g.lookUp_answers g.setCount q .empty hd (g.ready_of_idle q _ g.sound_empty rfl)
    obtain ⟨s', hok, hs'⟩ := hanswer.of_resolves hres
    have hsame : s' = s := OrderedSet.ext_mem fun t => (hs' t).trans (hs t).symm
    rw [g.ask_query .empty q hd, hok, hsame]

end Grammar
end ShiftReduce
