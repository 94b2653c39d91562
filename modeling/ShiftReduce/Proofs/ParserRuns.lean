import ShiftReduce.Proofs.ParserTurns

namespace ShiftReduce

theorem Turn.isLast_of_error {σ ι ρ ε : Type} {turn : Turn σ ι ρ ε} {e : ParseFailure ε}
    (h : turn.result? = some (.error e)) : turn.isLast = true := by
  cases turn with
  | shifted => cases h
  | reduced => cases h
  | accepted => rfl
  | rejected => rfl
  | failed => rfl

namespace Session

variable {σ ι ρ τ ε ς : Type} [Token τ ι] [TokenSource ς ε τ] (T : ParseTable σ ι ρ)

/-- From one session to another by turns that shift or reduce, with the rules of the reductions in
their order. -/
inductive Advances : Session σ ι τ ς → List ρ → Session σ ι τ ς → Prop
  | refl (s : Session σ ι τ ς) : Advances s [] s
  | shift {s next last : Session σ ι τ ς} {rules : List ρ} {X : ι} {position : Nat} {target : σ} :
      s.turn T = (.shifted X position target, next) → Advances next rules last →
      Advances s rules last
  | reduce {s next last : Session σ ι τ ς} {rules : List ρ} {rule : ρ} {head : ι} {target : σ} :
      s.turn T = (.reduced rule head target, next) → Advances next rules last →
      Advances s (rule :: rules) last

theorem Advances.of_turn {s next : Session σ ι τ ς} {turn : Turn σ ι ρ ε}
    (hturn : s.turn T = (turn, next)) (hmore : turn.isLast = false) :
    ∃ rules, Advances T s rules next := by
  cases turn with
  | shifted => exact ⟨[], .shift hturn (.refl next)⟩
  | reduced rule => exact ⟨[rule], .reduce hturn (.refl next)⟩
  | accepted => cases hmore
  | rejected => cases hmore
  | failed => cases hmore

theorem Advances.trans {s next last : Session σ ι τ ς} {rules more : List ρ}
    (h : Advances T s rules next) (hmore : Advances T next more last) :
    Advances T s (rules ++ more) last := by
  induction h with
  | refl => exact hmore
  | shift hturn _ ih => exact .shift hturn (ih hmore)
  | reduce hturn _ ih => exact .reduce hturn (ih hmore)

theorem Advances.unique {s last last' : Session σ ι τ ς} {rules rules' : List ρ}
    (h : Advances T s rules last) (hlast : (last.turn T).1.isLast = true)
    (h' : Advances T s rules' last') (hlast' : (last'.turn T).1.isLast = true) :
    rules = rules' ∧ last = last' := by
  induction h generalizing rules' with
  | refl =>
    cases h' with
    | refl => exact ⟨rfl, rfl⟩
    | shift hturn =>
      rw [hturn] at hlast
      cases hlast
    | reduce hturn =>
      rw [hturn] at hlast
      cases hlast
  | shift hturn _ ih =>
    cases h' with
    | refl =>
      rw [hturn] at hlast'
      cases hlast'
    | shift hturn' hrest' =>
      rw [hturn] at hturn'
      cases hturn'
      exact ih hlast hrest'
    | reduce hturn' =>
      rw [hturn] at hturn'
      cases hturn'
  | reduce hturn _ ih =>
    cases h' with
    | refl =>
      rw [hturn] at hlast'
      cases hlast'
    | shift hturn' =>
      rw [hturn] at hturn'
      cases hturn'
    | reduce hturn' hrest' =>
      rw [hturn] at hturn'
      cases hturn'
      obtain ⟨rfl, hsame⟩ := ih hlast hrest'
      exact ⟨rfl, hsame⟩

/-- What a run does after turns that shift or reduce is what it does from there. -/
theorem toAcceptance_of_advances {s last : Session σ ι τ ς} {rules : List ρ}
    (h : Advances T s rules last) :
    ∃ turns, ∀ budget earlier, toAcceptance T (budget + turns) earlier s =
      toAcceptance T budget (rules.reverse ++ earlier) last := by
  induction h with
  | refl => exact ⟨0, fun _ _ => rfl⟩
  | shift hturn _ ih =>
    obtain ⟨turns, hturns⟩ := ih
    refine ⟨turns + 1, ?_⟩
    intro budget earlier
    rw [← Nat.add_assoc, toAcceptance, hturn]
    exact hturns budget earlier
  | @reduce _ _ _ rules rule _ _ hturn _ ih =>
    obtain ⟨turns, hturns⟩ := ih
    refine ⟨turns + 1, ?_⟩
    intro budget earlier
    rw [← Nat.add_assoc, toAcceptance, hturn]
    have hrest := hturns budget (rule :: earlier)
    rw [List.reverse_cons, List.append_assoc, List.singleton_append]
    exact hrest

/-- A run with an answer ends with a last turn. It answers with all reductions if that turn accepts,
and otherwise with the failure of that turn. -/
theorem advances_of_toAcceptance (budget : Nat) (earlier : List ρ) (s final : Session σ ι τ ς)
    (result : Except (ParseFailure ε) (List ρ))
    (h : toAcceptance T budget earlier s = some (result, final)) :
    ∃ rules last turn, Advances T s rules last ∧ last.turn T = (turn, final) ∧
      turn.isLast = true ∧
      (∀ all, result = .ok all → turn = .accepted ∧ all = earlier.reverse ++ rules) ∧
      ∀ e, result = .error e → turn.result? = some (.error e) := by
  induction budget generalizing earlier s with
  | zero => cases h
  | succ budget ih =>
    rw [toAcceptance] at h
    rcases hturn : s.turn T with ⟨turn, next⟩
    rw [hturn] at h
    cases turn with
    | shifted X position target =>
      obtain ⟨rules, last, turn, hadv, hlast⟩ := ih earlier next h
      exact ⟨rules, last, turn, .shift hturn hadv, hlast⟩
    | reduced rule head target =>
      obtain ⟨rules, last, turn, hadv, hfinal, hlast, hall, herror⟩ :=
        ih (rule :: earlier) next h
      refine ⟨rule :: rules, last, turn, .reduce hturn hadv, hfinal, hlast, ?_, herror⟩
      intro all hresult
      obtain ⟨haccepted, hrules⟩ := hall all hresult
      rw [List.reverse_cons, List.append_assoc, List.singleton_append] at hrules
      exact ⟨haccepted, hrules⟩
    | accepted =>
      cases h
      refine ⟨[], s, .accepted, .refl s, hturn, rfl, ?_, fun e he => by cases he⟩
      intro all hall
      cases hall
      exact ⟨rfl, (List.append_nil _).symm⟩
    | rejected X position =>
      cases h
      refine ⟨[], s, _, .refl s, hturn, rfl, (fun all hall => by cases hall), ?_⟩
      intro e he
      cases he
      rfl
    | failed e =>
      cases h
      refine ⟨[], s, _, .refl s, hturn, rfl, (fun all hall => by cases hall), ?_⟩
      intro e he
      cases he
      rfl

/-- A call for one outcome shifts up to the turn that brings it. -/
theorem advances_of_toOutcome (budget : Nat) (s final : Session σ ι τ ς)
    (result : Except (ParseFailure ε) (Outcome ρ))
    (h : toOutcome T budget s = some (result, final)) :
    ∃ last turn, Advances T s [] last ∧ last.turn T = (turn, final) ∧
      turn.result? = some result := by
  induction budget generalizing s with
  | zero => cases h
  | succ budget ih =>
    rw [toOutcome] at h
    rcases hturn : s.turn T with ⟨turn, next⟩
    rw [hturn] at h
    cases turn with
    | shifted X position target =>
      obtain ⟨last, turn, hadv, hlast⟩ := ih next h
      exact ⟨last, turn, .shift hturn hadv, hlast⟩
    | reduced | accepted | rejected | failed =>
      cases h
      exact ⟨s, _, .refl s, hturn, rfl⟩

theorem advances_of_parse (budget : Nat) (s final : Session σ ι τ ς)
    (result : Except (ParseFailure ε) (List ρ)) (hs : s.parser.accepted = false)
    (h : s.parse T budget = some (result, final)) :
    ∃ rules last turn next, Advances T s rules last ∧ last.turn T = (turn, next) ∧
      turn.isLast = true ∧ (∀ all, result = .ok all → turn = .accepted ∧ all = rules) ∧
      (∀ e, result = .error e → turn.result? = some (.error e)) ∧
      final = { next with args := s.args } := by
  simp only [parse, hs, Bool.false_eq_true, if_false, Option.map_eq_some_iff, Prod.exists] at h
  obtain ⟨result', next, hrun, hresult⟩ := h
  cases hresult
  obtain ⟨rules, last, turn, hadv, hturn, hlast, hall, herror⟩ :=
    advances_of_toAcceptance T budget [] s next result hrun
  exact ⟨rules, last, turn, next, hadv, hturn, hlast, hall, herror, rfl⟩

/-- A parse succeeds exactly when turns that shift or reduce lead to one that accepts, and it lists
their reductions. -/
theorem parse_ok_iff (s final : Session σ ι τ ς) (rules : List ρ)
    (hs : s.parser.accepted = false) :
    (∃ budget, s.parse T budget = some (.ok rules, final)) ↔ ∃ last next, Advances T s rules last ∧
      last.turn T = (.accepted, next) ∧ final = { next with args := s.args } := by
  constructor
  · intro ⟨budget, h⟩
    obtain ⟨all, last, turn, next, hadv, hturn, -, hall, -, hfinal⟩ :=
      advances_of_parse T budget s final _ hs h
    obtain ⟨rfl, rfl⟩ := hall rules rfl
    exact ⟨last, next, hadv, hturn, hfinal⟩
  · intro ⟨last, next, hadv, hturn, hfinal⟩
    obtain ⟨turns, hturns⟩ := toAcceptance_of_advances T hadv
    have hrun : toAcceptance T (1 + turns) [] s = some (.ok rules, next) := by
      rw [hturns 1 [], toAcceptance, hturn]
      simp [Turn.result?]
    refine ⟨1 + turns, ?_⟩
    rw [hfinal, parse, hs, hrun]
    rfl

theorem toAcceptance_of_isLast (earlier : List ρ) (s : Session σ ι τ ς)
    (hlast : (s.turn T).1.isLast = true) : ∃ answer, toAcceptance T 1 earlier s = some answer := by
  rw [toAcceptance]
  revert hlast
  rcases s.turn T with ⟨turn, next⟩
  intro hlast
  cases turn with
  | shifted => cases hlast
  | reduced => cases hlast
  | accepted => exact ⟨_, rfl⟩
  | rejected => exact ⟨_, rfl⟩
  | failed => exact ⟨_, rfl⟩

/-- A parse has an answer exactly when turns that shift or reduce lead to a last one. -/
theorem parse_some_iff (s : Session σ ι τ ς) (hs : s.parser.accepted = false) :
    (∃ budget answer, s.parse T budget = some answer) ↔
      ∃ rules last, Advances T s rules last ∧ (last.turn T).1.isLast = true := by
  constructor
  · intro ⟨budget, ⟨result, final⟩, h⟩
    obtain ⟨rules, last, turn, next, hadv, hturn, hlast, -⟩ :=
      advances_of_parse T budget s final result hs h
    refine ⟨rules, last, hadv, ?_⟩
    rw [hturn]
    exact hlast
  · intro ⟨rules, last, hadv, hlast⟩
    obtain ⟨turns, hturns⟩ := toAcceptance_of_advances T hadv
    obtain ⟨answer, hanswer⟩ := toAcceptance_of_isLast T (rules.reverse ++ []) last hlast
    have hrun := (hturns 1 []).trans hanswer
    refine ⟨1 + turns, (answer.1, { answer.2 with args := s.args }), ?_⟩
    rw [parse, hs, hrun]
    rfl

theorem advances_of_mem_turnsUntil (budget : Nat) (s : Session σ ι τ ς) (turn : Turn σ ι ρ ε)
    (hmem : turn ∈ turnsUntil T Turn.isLast budget s) :
    ∃ rules last, Advances T s rules last ∧ (last.turn T).1 = turn := by
  induction budget generalizing s with
  | zero => exact False.elim (List.not_mem_nil hmem)
  | succ budget ih =>
    rw [turnsUntil] at hmem
    rcases hturn : s.turn T with ⟨first, next⟩
    rw [hturn] at hmem
    by_cases hfirst : turn = first
    · exact ⟨[], s, .refl s, by rw [hturn, hfirst]⟩
    · cases first with
      | shifted X position target =>
        obtain ⟨rules, last, hadv, hlast⟩ := ih next ((List.mem_cons.mp hmem).resolve_left hfirst)
        exact ⟨rules, last, .shift hturn hadv, hlast⟩
      | reduced rule head target =>
        obtain ⟨rules, last, hadv, hlast⟩ := ih next ((List.mem_cons.mp hmem).resolve_left hfirst)
        exact ⟨rule :: rules, last, .reduce hturn hadv, hlast⟩
      | accepted => exact False.elim (hfirst (List.mem_singleton.mp hmem))
      | rejected => exact False.elim (hfirst (List.mem_singleton.mp hmem))
      | failed => exact False.elim (hfirst (List.mem_singleton.mp hmem))

theorem mem_turnsUntil_of_advances {s last : Session σ ι τ ς} {rules : List ρ}
    (h : Advances T s rules last) :
    ∃ budget, (last.turn T).1 ∈ turnsUntil T Turn.isLast budget s := by
  induction h with
  | refl s =>
    refine ⟨1, ?_⟩
    rw [turnsUntil]
    simp only
    split
    · exact List.mem_cons_self
    · exact List.mem_cons_self
  | shift hturn _ ih =>
    obtain ⟨budget, hmem⟩ := ih
    refine ⟨budget + 1, ?_⟩
    rw [turnsUntil, hturn]
    exact List.mem_cons_of_mem _ hmem
  | reduce hturn _ ih =>
    obtain ⟨budget, hmem⟩ := ih
    refine ⟨budget + 1, ?_⟩
    rw [turnsUntil, hturn]
    exact List.mem_cons_of_mem _ hmem

/-- The turns of a parse are those that turns which shift or reduce lead up to. -/
theorem mem_parseTurns_iff (s : Session σ ι τ ς) (hs : s.parser.accepted = false)
    (turn : Turn σ ι ρ ε) :
    (∃ budget, turn ∈ s.parseTurns T budget) ↔
      ∃ rules last, Advances T s rules last ∧ (last.turn T).1 = turn := by
  simp only [parseTurns, hs, Bool.false_eq_true, if_false]
  constructor
  · intro ⟨budget, hmem⟩
    exact advances_of_mem_turnsUntil T budget s turn hmem
  · intro ⟨rules, last, hadv, hlast⟩
    rw [← hlast]
    exact mem_turnsUntil_of_advances T hadv

end Session
end ShiftReduce
