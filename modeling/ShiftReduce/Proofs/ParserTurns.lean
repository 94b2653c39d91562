import ShiftReduce.ParseRun

namespace ShiftReduce

/-- The source has these tokens and then ends. -/
inductive Supplies {ς ε τ : Type} [TokenSource ς ε τ] : ς → List τ → Prop
  | done {source source' : ς} : TokenSource.pull source = (none, source') → Supplies source []
  | next {source source' : ς} {tok : τ} {toks : List τ} :
      TokenSource.pull source = (some (.ok tok), source') → Supplies source' toks →
      Supplies source (tok :: toks)

theorem TokenTape.supplies {τ : Type} (pulled toks : List τ) :
    Supplies (TokenTape.mk pulled toks) toks := by
  induction toks generalizing pulled with
  | nil => exact .done rfl
  | cons tok toks ih => exact .next rfl (ih (tok :: pulled))

theorem supplies_ok (ε : Type) {τ : Type} (toks : List τ) :
    Supplies (toks.map (Except.ok (ε := ε))) toks := by
  induction toks with
  | nil => exact .done rfl
  | cons tok toks ih => exact .next rfl ih

/-- The table or the stacks are at fault, and neither the input nor the step limit. -/
def ParseFailure.Internal {ε : Type} : ParseFailure ε → Prop
  | .table _ => True
  | .missingGoto => True
  | .emptyStateStack => True
  | .emptyItemStack => True
  | .lexer _ => False
  | .rejected _ => False
  | .unexpectedEnd => False
  | .stepLimitExceeded _ => False
  | .finished => False

namespace Session

variable {σ ι ρ τ ε ς : Type}

theorem unwind_of_le (size : Nat) (states : List σ) (items : List (StackItem τ ι))
    (args : Args τ ι) (hstates : size ≤ states.length) (hitems : size ≤ items.length) :
    unwind (ε := ε) size states items args =
      (none, states.drop size, items.drop size, (items.take size).reverse.map some ++ args) := by
  induction size generalizing states items args with
  | zero => simp [unwind]
  | succ size ih =>
    cases states with
    | nil => exact False.elim (Nat.not_succ_le_zero size hstates)
    | cons top states =>
      cases items with
      | nil => exact False.elim (Nat.not_succ_le_zero size hitems)
      | cons item items =>
        have hrest := ih states items (some item :: args) (Nat.le_of_succ_le_succ hstates)
          (Nat.le_of_succ_le_succ hitems)
        rw [unwind, hrest]
        simp

theorem unwind_internal (size : Nat) (states : List σ) (items : List (StackItem τ ι))
    (args : Args τ ι) (e : ParseFailure ε) (h : (unwind size states items args).1 = some e) :
    e.Internal := by
  induction size generalizing states items args with
  | zero => cases h
  | succ size ih =>
    cases states with
    | nil =>
      cases h
      trivial
    | cons top states =>
      cases items with
      | nil =>
        cases h
        trivial
      | cons item items => exact ih states items _ h

theorem reduce_of_le (T : ParseTable σ ι ρ) (s : Session σ ι τ ς) (rule : ρ) (head : ι) (size : Nat)
    (uncovered target : σ) (below : List σ)
    (hstates : s.parser.states.drop size = uncovered :: below)
    (hitems : size ≤ s.parser.items.length)
    (hgoto : T.move uncovered head = .ok (.goto target)) :
    s.reduce (ε := ε) T rule head size = (.reduced rule head target,
      { s with
        parser := { s.parser with
          states := target :: uncovered :: below
          items := .head head :: s.parser.items.drop size }
        args := (s.parser.items.take size).reverse.map some }) := by
  have hlength : size ≤ s.parser.states.length := by
    have h := congrArg List.length hstates
    rw [List.length_drop, List.length_cons] at h
    omega
  unfold reduce
  rw [unwind_of_le size s.parser.states s.parser.items [] hlength hitems]
  simp only [hstates, hgoto, List.append_nil]

section Effects

variable [Token τ ι] (T : ParseTable σ ι ρ)

/-- What is done with the lookahead token when the table has given its move. -/
def respond (s : Session σ ι τ ς) (tok : τ) :
    Except LookupError (Move σ ι ρ) → Turn σ ι ρ ε × Session σ ι τ ς
  | .error e => (.failed (.table e), s)
  | .ok (.shift target) =>
    (.shifted (Token.symbol tok) s.parser.position target, s.shift tok target)
  | .ok (.reduce rule head size) => s.reduce T rule head size
  | .ok .accept => s.accept
  | .ok (.goto _) => (.failed (.table .incorrectSymbol), s)
  | .ok .error => (.rejected (Token.symbol tok) s.parser.position, s)

/-- What an answer of the table can do, and all that it changes. -/
inductive Effect (s : Session σ ι τ ς) (tok : τ) : Turn σ ι ρ ε × Session σ ι τ ς → Prop
  | shift {target : σ} :
      Effect s tok (.shifted (Token.symbol tok) s.parser.position target, s.shift tok target)
  | reduce {rule : ρ} {head : ι} {target : σ} {states : List σ} {items : List (StackItem τ ι)}
      {args : Args τ ι} :
      Effect s tok (.reduced rule head target,
        { s with parser := { s.parser with states, items }, args })
  | accept {item : StackItem τ ι} {items : List (StackItem τ ι)} :
      Effect s tok (.accepted, { s with
        parser := { s.parser with items, accepted := true }, args := [some item] })
  | reject : Effect s tok (.rejected (Token.symbol tok) s.parser.position, s)
  | fail {e : ParseFailure ε} {states : List σ} {items : List (StackItem τ ι)} {args : Args τ ι} :
      e.Internal → Effect s tok (.failed e,
        { s with parser := { s.parser with states, items }, args })

theorem effect_reduce (s : Session σ ι τ ς) (tok : τ) (rule : ρ) (head : ι) (size : Nat) :
    Effect (ε := ε) s tok (s.reduce T rule head size) := by
  have hinternal := unwind_internal (ε := ε) size s.parser.states s.parser.items []
  unfold reduce
  generalize unwind (ε := ε) size s.parser.states s.parser.items [] = unwound at hinternal ⊢
  obtain ⟨_ | e, _ | ⟨uncovered, states⟩, items, args⟩ := unwound
  · exact .fail trivial
  · simp only
    split
    · exact .fail trivial
    · exact .reduce
    · exact .fail trivial
  · exact .fail (hinternal e rfl)
  · exact .fail (hinternal e rfl)

theorem effect_respond (s : Session σ ι τ ς) (tok : τ)
    (answer : Except LookupError (Move σ ι ρ)) :
    Effect (ε := ε) s tok (s.respond T tok answer) := by
  cases answer with
  | error e => exact .fail trivial
  | ok move =>
    cases move with
    | shift target => exact .shift
    | reduce rule head size => exact effect_reduce T s tok rule head size
    | goto target => exact .fail trivial
    | error => exact .reject
    | accept =>
      unfold respond accept
      cases s.parser.items with
      | nil => exact .fail trivial
      | cons item items => exact .accept

end Effects

variable [TokenSource ς ε τ]

/-- The tokens that are still to be shifted. -/
def Awaits (s : Session σ ι τ ς) (toks : List τ) : Prop :=
  ∃ rest, Supplies s.source rest ∧ toks = s.parser.lookahead.toList ++ rest

/-- The session with a turn more to its count. -/
def counted (s : Session σ ι τ ς) : Session σ ι τ ς :=
  { s with parser := { s.parser with steps := s.parser.steps + 1 } }

/-- The session with a lookahead token that was pulled from the source. -/
def primed (s : Session σ ι τ ς) (tok : τ) (source : ς) : Session σ ι τ ς :=
  { s with source, parser := { s.parser with lookahead := some tok } }

theorem exceededLimit_counted (s : Session σ ι τ ς) (h : s.parser.stepLimit = none) :
    s.counted.parser.exceededLimit = none := by
  have hlimit : s.counted.parser.stepLimit = none := h
  rw [Parser.exceededLimit, hlimit, Option.filter_none]

theorem awaits_start (T : ParseTable σ ι ρ) {source : ς} {toks : List τ}
    (h : Supplies source toks) : (start T source).Awaits toks := ⟨toks, h, rfl⟩

theorem peek_of_lookahead (s : Session σ ι τ ς) (tok : τ) (h : s.parser.lookahead = some tok) :
    s.peek = (.ok tok, s) := by
  unfold peek
  rw [h]

theorem peek_of_awaits (s : Session σ ι τ ς) (tok : τ) (toks : List τ)
    (h : s.Awaits (tok :: toks)) :
    ∃ source, Supplies source toks ∧ s.peek = (.ok tok, s.primed tok source) := by
  obtain ⟨rest, hrest, htoks⟩ := h
  cases hlook : s.parser.lookahead with
  | some t =>
    rw [hlook, Option.toList_some, List.singleton_append] at htoks
    obtain ⟨rfl, rfl⟩ := List.cons.inj htoks
    have hsame : s.primed tok s.source = s := by
      unfold primed
      rw [← hlook]
    exact ⟨s.source, hrest, by rw [hsame, s.peek_of_lookahead tok hlook]⟩
  | none =>
    rw [hlook, Option.toList_none, List.nil_append] at htoks
    subst htoks
    cases hrest with
    | next hpull hrest =>
      refine ⟨_, hrest, ?_⟩
      unfold peek
      simp only [hlook, hpull]
      rfl

theorem peek_of_awaits_nil (s : Session σ ι τ ς) (h : s.Awaits []) :
    ∃ s', s.peek = (.error .unexpectedEnd, s') := by
  obtain ⟨rest, hrest, htoks⟩ := h
  obtain ⟨hlook, rfl⟩ := List.append_eq_nil_iff.mp htoks.symm
  rw [Option.toList_eq_nil_iff] at hlook
  cases hrest with
  | done hpull =>
    unfold peek
    rw [hlook]
    simp only [hpull]
    exact ⟨_, rfl⟩

theorem awaits_of_peek (s : Session σ ι τ ς) (tok : τ) (toks : List τ) (source : ς)
    (h : s.Awaits toks) (hpeek : s.peek = (.ok tok, s.primed tok source)) :
    ∃ rest, toks = tok :: rest ∧ Supplies source rest := by
  cases toks with
  | nil =>
    obtain ⟨s', hend⟩ := s.peek_of_awaits_nil h
    rw [hpeek] at hend
    cases hend
  | cons first rest =>
    obtain ⟨source', hsource, hfirst⟩ := s.peek_of_awaits first rest h
    rw [hpeek] at hfirst
    obtain ⟨htok, hprimed⟩ := Prod.mk.inj hfirst
    cases htok
    have hsame : source = source' := congrArg Session.source hprimed
    rw [hsame]
    exact ⟨rest, rfl, hsource⟩

/-- Whatever the source does, there is a lookahead token afterwards, or a failure that changes
nothing but the source. -/
theorem peek_cases (s : Session σ ι τ ς) :
    (∃ tok source, s.peek = (.ok tok, s.primed tok source)) ∨
    ∃ e source, s.peek = (.error e, { s with source }) ∧
      (e = .unexpectedEnd ∨ ∃ x, e = .lexer x) := by
  cases hlook : s.parser.lookahead with
  | some tok =>
    left
    have hsame : s.primed tok s.source = s := by
      unfold primed
      rw [← hlook]
    exact ⟨tok, s.source, by rw [hsame, s.peek_of_lookahead tok hlook]⟩
  | none =>
    unfold peek
    simp only [hlook]
    rcases TokenSource.pull s.source with ⟨_ | ⟨x | tok⟩, source⟩
    · exact Or.inr ⟨.unexpectedEnd, source, rfl, Or.inl rfl⟩
    · exact Or.inr ⟨.lexer x, source, rfl, Or.inr ⟨x, rfl⟩⟩
    · exact Or.inl ⟨tok, source, rfl⟩

variable [Token τ ι] (T : ParseTable σ ι ρ)

theorem act_of_peek (s s' : Session σ ι τ ς) (current : σ) (tok : τ)
    (hpeek : s.peek = (.ok tok, s')) :
    s.act T current = s'.respond T tok (T.move current (Token.symbol tok)) := by
  unfold act
  rw [hpeek]
  simp only
  cases T.move current (Token.symbol tok) with
  | error e => rfl
  | ok move => cases move <;> rfl

theorem turn_eq (s : Session σ ι τ ς) :
    s.turn T = match s.counted.parser.exceededLimit with
      | some limit => (.failed (.stepLimitExceeded limit), s.counted)
      | none => match s.counted.parser.states with
        | [] => (.failed .emptyStateStack, s.counted)
        | current :: _ => s.counted.act T current := rfl

/-- How a turn comes about, for any source and with or without a step limit. -/
inductive Arises (s : Session σ ι τ ς) : Turn σ ι ρ ε × Session σ ι τ ς → Prop
  | exceeded {limit : Nat} : s.counted.parser.exceededLimit = some limit →
      Arises s (.failed (.stepLimitExceeded limit), s.counted)
  | stateless : s.counted.parser.exceededLimit = none → s.parser.states = [] →
      Arises s (.failed .emptyStateStack, s.counted)
  | tokenless {e : ParseFailure ε} {source : ς} : s.counted.parser.exceededLimit = none →
      s.counted.peek = (.error e, { s.counted with source }) →
      e = .unexpectedEnd ∨ (∃ x, e = .lexer x) →
      Arises s (.failed e, { s.counted with source })
  | answered {current : σ} {below : List σ} {tok : τ} {source : ς} :
      s.counted.parser.exceededLimit = none → s.parser.states = current :: below →
      s.counted.peek = (.ok tok, s.counted.primed tok source) →
      Arises s
        ((s.counted.primed tok source).respond T tok (T.move current (Token.symbol tok)))

theorem arises (s : Session σ ι τ ς) : Arises T s (s.turn T) := by
  unfold turn
  simp only
  split
  · rename_i limit hexceeded
    exact .exceeded hexceeded
  · rename_i hwithin
    split
    · rename_i hstates
      exact .stateless hwithin hstates
    · rename_i current below hstates
      rcases s.counted.peek_cases with ⟨tok, source, hpeek⟩ | ⟨e, source, hpeek, he⟩
      · have hact := act_of_peek T s.counted (s.counted.primed tok source) current tok hpeek
        have hanswered : Arises T s (s.counted.act T current) :=
          hact ▸ .answered hwithin hstates hpeek
        exact hanswered
      · have hact : s.counted.act T current = (.failed e, { s.counted with source }) := by
          rw [act, hpeek]
        have htokenless : Arises T s (s.counted.act T current) := hact ▸ .tokenless hwithin hpeek he
        exact htokenless

/-- With tokens to come, the table answers to the first of them. -/
theorem turn_of_awaits (s : Session σ ι τ ς) (current : σ) (below : List σ) (tok : τ)
    (toks : List τ) (hwithin : s.counted.parser.exceededLimit = none)
    (hstates : s.parser.states = current :: below) (h : s.Awaits (tok :: toks)) :
    ∃ source, Supplies source toks ∧ s.turn T =
      (s.counted.primed tok source).respond T tok (T.move current (Token.symbol tok)) := by
  have harises := arises T s
  generalize s.turn T = result at harises ⊢
  cases harises with
  | exceeded hexceeded => cases hwithin.symm.trans hexceeded
  | stateless _ hnone => cases hstates.symm.trans hnone
  | tokenless _ hpeek =>
    obtain ⟨source, -, hfirst⟩ := s.counted.peek_of_awaits tok toks h
    cases hfirst.symm.trans hpeek
  | answered _ hstates' hpeek =>
    cases hstates.symm.trans hstates'
    obtain ⟨rest, htoks, hsource⟩ := s.counted.awaits_of_peek _ _ _ h hpeek
    cases htoks
    exact ⟨_, hsource, rfl⟩

/-- With no tokens to come, a turn changes nothing but the source and the count. -/
theorem turn_of_awaits_nil (s : Session σ ι τ ς) (current : σ) (below : List σ)
    (hwithin : s.counted.parser.exceededLimit = none)
    (hstates : s.parser.states = current :: below) (h : s.Awaits []) :
    ∃ source, s.turn T = (.failed .unexpectedEnd, { s.counted with source }) := by
  have harises := arises T s
  generalize s.turn T = result at harises ⊢
  cases harises with
  | exceeded hexceeded => cases hwithin.symm.trans hexceeded
  | stateless _ hnone => cases hstates.symm.trans hnone
  | tokenless _ hpeek =>
    obtain ⟨s', hend⟩ := s.counted.peek_of_awaits_nil h
    cases hend.symm.trans hpeek
    exact ⟨_, rfl⟩
  | answered _ _ hpeek =>
    obtain ⟨rest, htoks, -⟩ := s.counted.awaits_of_peek _ _ _ h hpeek
    cases htoks

end Session
end ShiftReduce
