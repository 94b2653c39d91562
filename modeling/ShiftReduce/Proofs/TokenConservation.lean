import ShiftReduce.Proofs.ParseTrees

namespace ShiftReduce

namespace Session

variable {σ ι ρ τ ε ς : Type} [Token τ ι] [TokenSource ς ε τ] (T : ParseTable σ ι ρ)

/-- The trees after the turns of `toOutcome`. -/
def growToOutcome : Nat → Session σ ι τ ς → Forest τ ι ρ → Forest τ ι ρ
  | 0, _, f => f
  | budget + 1, s, f =>
    match s.turn T with
    | (turn, next) =>
      match turn.result? with
      | some _ => f.grow next turn
      | none => growToOutcome budget next (f.grow next turn)

/-- The trees after the turns of `nextOutcome`. -/
def growToNext (budget : Nat) (s : Session σ ι τ ς) (f : Forest τ ι ρ) : Forest τ ι ρ :=
  if s.parser.accepted then f else growToOutcome T budget s f

/-- No turn of a call for one outcome breaks a reduction off. -/
def Intact (s : Session σ ι τ ς) : Prop :=
  s.parser.accepted = false → ∀ last, Advances T s [] last → ¬ last.BreaksOff T

end Session

/-- Calls lead from a new or a reset parser to this one, none breaks a reduction off, and this is
what was given and what has grown. -/
inductive Parser.Grown {σ ι ρ τ : Type} [Token τ ι] (T : ParseTable σ ι ρ) :
    Parser σ ι τ → List τ → Forest τ ι ρ → Prop
  | start : Grown T (.start T) [] .bare
  | reset (p : Parser σ ι τ) : Grown T (p.reset T) [] .bare
  | limitSteps {p : Parser σ ι τ} {given : List τ} {f : Forest τ ι ρ} (limit : Nat) :
      Grown T p given f → Grown T (p.limitSteps limit) given f
  | nextOutcome {ς ε : Type} [TokenSource ς ε τ] {s final : Session σ ι τ (Metered ς τ)}
      {f : Forest τ ι ρ} {budget : Nat} {result : Except (ParseFailure ε) (Outcome ρ)} :
      Grown T s.parser s.source.given f → s.nextOutcome T budget = some (result, final) →
      s.Intact T → Grown T final.parser final.source.given (s.growToNext T budget f)

namespace Session

variable {σ ι ρ τ ε ς : Type} [Token τ ι] [TokenSource ς ε τ] (T : ParseTable σ ι ρ)

theorem Intact.of_turn {s next : Session σ ι τ ς} {turn : Turn σ ι ρ ε} (h : s.Intact T)
    (hreading : s.parser.accepted = false) (hturn : s.turn T = (turn, next))
    (hresult : turn.result? = none) : next.Intact T := by
  cases turn with
  | shifted X position target =>
    exact fun _ last hadv => h hreading last (.shift hturn hadv)
  | reduced | accepted | rejected | failed => cases hresult

/-- A call that breaks no reduction off keeps the trees in line with the stack and the tokens. -/
theorem fits_growToOutcome {s final : Session σ ι τ (Metered ς τ)} {f : Forest τ ι ρ}
    (budget : Nat) (hf : f.Fits s.parser s.source.given) (hreading : s.parser.accepted = false)
    (hintact : s.Intact T) {result : Except (ParseFailure ε) (Outcome ρ)}
    (h : s.toOutcome T budget = some (result, final)) :
    (growToOutcome T budget s f).Fits final.parser final.source.given ∧
      ∀ outcome, result = .ok outcome →
        (growToOutcome T budget s f).Hands final.args outcome ∧ final.parser.lookahead ≠ none := by
  induction budget generalizing s f with
  | zero => cases h
  | succ budget ih =>
    rcases hturn : s.turn T with ⟨turn, next⟩
    obtain ⟨hnext, hhands⟩ := hf.of_turn T hreading hturn (hintact hreading s (.refl s))
    cases hresult : turn.result? with
    | some told =>
      rw [toOutcome_of_some T hturn hresult] at h
      cases h
      simp only [growToOutcome, hturn, hresult]
      exact ⟨hnext, fun outcome houtcome => hhands outcome (hresult.trans (by rw [houtcome]))⟩
    | none =>
      rw [toOutcome_of_none T hturn hresult] at h
      simp only [growToOutcome, hturn, hresult]
      have hopen : next.parser.accepted = false := by
        have hmore : (s.turn T).1.isLast = false := by
          rw [hturn]
          cases turn with
          | shifted => rfl
          | reduced | accepted | rejected | failed => cases hresult
        have hsame := accepted_turn T s hmore
        rw [hturn] at hsame
        exact hsame.trans hreading
      exact ih hnext hopen (hintact.of_turn T hreading hturn hresult) h

/-- A call that does not fail for the sake of the table or the stacks breaks no reduction off. -/
theorem intact_of_result {s final : Session σ ι τ ς} {budget : Nat}
    {result : Except (ParseFailure ε) (Outcome ρ)}
    (h : s.nextOutcome T budget = some (result, final))
    (hresult : ∀ e, result = .error e → ¬ e.Internal) : s.Intact T := by
  intro hreading last hadv ⟨_, _, _, _, _, _, e, next, _, _, hturn, hinternal, _⟩
  unfold nextOutcome at h
  rw [hreading] at h
  obtain ⟨turns, hturns⟩ := toOutcome_of_advances T hadv
  have hfailed : s.toOutcome T (1 + turns + budget) = some (.error e, next) := by
    apply toOutcome_add
    rw [hturns 1]
    exact toOutcome_of_some T hturn rfl 0
  have hsame := toOutcome_add T budget (1 + turns) s (result, final) h
  rw [Nat.add_comm budget, hfailed] at hsame
  cases hsame
  exact hresult e rfl hinternal

/-- A call of a parser that has accepted changes nothing, and any other call is one for an outcome
that is still to come. -/
theorem fits_growToNext {s final : Session σ ι τ (Metered ς τ)} {f : Forest τ ι ρ} {budget : Nat}
    (hf : f.Fits s.parser s.source.given) (hintact : s.Intact T)
    {result : Except (ParseFailure ε) (Outcome ρ)}
    (h : s.nextOutcome T budget = some (result, final)) :
    (s.growToNext T budget f).Fits final.parser final.source.given ∧
      ∀ outcome, result = .ok outcome →
        (s.growToNext T budget f).Hands final.args outcome ∧ final.parser.lookahead ≠ none := by
  unfold nextOutcome at h
  unfold growToNext
  cases haccepted : s.parser.accepted with
  | true =>
    rw [haccepted, if_pos rfl] at h
    cases h
    exact ⟨hf, fun outcome houtcome => by cases houtcome⟩
  | false =>
    rw [haccepted] at h
    exact fits_growToOutcome T budget hf haccepted hintact h

end Session

theorem Parser.Grown.fits {σ ι ρ τ : Type} [Token τ ι] {T : ParseTable σ ι ρ} {p : Parser σ ι τ}
    {given : List τ} {f : Forest τ ι ρ} (h : p.Grown T given f) : f.Fits p given := by
  induction h with
  | start => exact Forest.fits_start T none
  | reset p => exact Forest.fits_start T p.stepLimit
  | limitSteps _ _ ih => exact ⟨ih.items, ih.given, ih.position, ih.handed⟩
  | nextOutcome _ hcall hintact ih => exact (Session.fits_growToNext T ih hintact hcall).1

/-- Calls go on growing trees as long as neither the table nor the stacks are at fault. -/
theorem Parser.Grown.of_result {σ ι ρ τ ε ς : Type} [Token τ ι] [TokenSource ς ε τ]
    {T : ParseTable σ ι ρ} (s final : Session σ ι τ (Metered ς τ)) (f : Forest τ ι ρ)
    (budget : Nat) (result : Except (ParseFailure ε) (Outcome ρ))
    (h : s.parser.Grown T s.source.given f) (hcall : s.nextOutcome T budget = some (result, final))
    (hresult : ∀ e, result = .error e → ¬ e.Internal) :
    final.parser.Grown T final.source.given (s.growToNext T budget f) :=
  .nextOutcome h hcall (s.intact_of_result T hcall hresult)

/-- As long as no reduction fails, the leaves of the trees are the tokens given, each once and in
order, but for the lookahead token. -/
theorem tokens_conserved {σ ι ρ τ : Type} [Token τ ι] (T : ParseTable σ ι ρ) (p : Parser σ ι τ)
    (given : List τ) (f : Forest τ ι ρ) (h : p.Grown T given f) :
    f.standing.map Tree.item = p.items ∧
    Tree.word (f.standing.reverse ++ f.handed) = given.take p.position ∧
    given.length = p.position + (if p.lookahead.isSome then 1 else 0) ∧
    p.lookahead = given[p.position]? ∧
    ∀ (ς ε : Type) [TokenSource ς ε τ] (s : Session σ ι τ (Metered ς τ)) (budget : Nat),
      s.parser = p → s.source.given = given →
      s.bare.nextOutcome T budget =
        (s.nextOutcome T budget).map (fun (result, final) => (result, final.bare)) ∧
      ∀ outcome final, s.nextOutcome T budget = some (.ok outcome, final) →
        final.parser.Grown T final.source.given (s.growToNext T budget f) ∧
        (s.growToNext T budget f).Hands final.args outcome ∧ final.parser.lookahead ≠ none := by
  have hf := h.fits
  have hgiven := hf.given
  have hposition := hf.position
  refine ⟨hf.items, ?_, ?_, ?_, ?_⟩
  · rw [hgiven, ← hposition, List.take_left]
    rfl
  · rw [hgiven, List.length_append, hposition]
    cases p.lookahead with
    | none => rfl
    | some tok => rfl
  · rw [hgiven, ← hposition, List.getElem?_append_right (Nat.le_refl _), Nat.sub_self]
    cases p.lookahead with
    | none => rfl
    | some tok => rfl
  · intro ς ε _ s budget hparser hsource
    subst hparser hsource
    refine ⟨s.nextOutcome_bare T budget, ?_⟩
    intro outcome final hcall
    have hsound (e : ParseFailure ε) (he : Except.ok outcome = Except.error e) : ¬ e.Internal := by
      cases he
    have hhands := (s.fits_growToNext T hf (s.intact_of_result T hcall hsound) hcall).2 outcome rfl
    exact ⟨h.of_result s final f budget _ hcall hsound, hhands⟩

/-- A table for the one word `x y $`, with `x` as 1, `y` as 2 and `$` as 0, that reduces `x y` to
3. -/
def pairTable : ParseTable Nat Nat Nat :=
  ExplicitTable.parseTable ⟨0, [((0, 1), .ok (.shift 1)), ((1, 2), .ok (.shift 2)),
    ((2, 0), .ok (.reduce 7 3 2)), ((0, 3), .ok (.goto 3)), ((3, 0), .ok .accept)]⟩

/-- The source fails between the two tokens of the pair. -/
theorem tokens_conserved_pair :
    let x : Lexeme Nat := ⟨1, "x"⟩
    let y : Lexeme Nat := ⟨2, "y"⟩
    let pair : Tree (Lexeme Nat) Nat Nat := .node 7 3 [.leaf x, .leaf y]
    ∃ p : Parser Nat Nat (Lexeme Nat), p.Grown pairTable [x, y, ⟨0, ""⟩] ⟨[], [pair]⟩ ∧
      p.accepted = true ∧ p.position = 2 ∧
      Tree.word [pair] = [x, y, ⟨0, ""⟩].take p.position := by
  intro x y pair
  let done : Lexeme Nat := ⟨0, ""⟩
  let session (p : Parser Nat Nat (Lexeme Nat)) (left : List (Except String (Lexeme Nat)))
      (given : List (Lexeme Nat)) (args : Args (Lexeme Nat) Nat) :
      Session Nat Nat (Lexeme Nat) (Metered (List (Except String (Lexeme Nat))) (Lexeme Nat)) :=
    ⟨p, ⟨left, given⟩, args⟩
  let begun := session (.start pairTable) [.ok x, .error "?", .ok y, .ok done] [] []
  let broken := session ⟨[1, 0], [.token x], false, none, 1, 2, none⟩ [.ok y, .ok done] [x] []
  let reduced := session ⟨[3, 0], [.head 3], false, some done, 2, 4, none⟩ [] [x, y, done]
    [some (.token x), some (.token y)]
  let accepted := session ⟨[3, 0], [], true, some done, 2, 5, none⟩ [] [x, y, done]
    [some (.head 3)]
  have hbroken : broken.parser.Grown pairTable [x] ⟨[.leaf x], []⟩ := by
    refine Parser.Grown.start.of_result begun broken .bare 2 (.error (.lexer "?")) rfl ?_
    intro e he
    cases he
    exact id
  have hreduced : reduced.parser.Grown pairTable [x, y, done] ⟨[pair], []⟩ :=
    hbroken.of_result broken reduced _ 2 (.ok (.reduce 7)) rfl fun e he => by cases he
  have haccepted : accepted.parser.Grown pairTable [x, y, done] ⟨[], [pair]⟩ :=
    hreduced.of_result reduced accepted _ 1 (.ok .accept) rfl fun e he => by cases he
  have htokens := (tokens_conserved pairTable _ _ _ haccepted).2.1
  exact ⟨accepted.parser, haccepted, rfl, rfl, htokens⟩

end ShiftReduce
