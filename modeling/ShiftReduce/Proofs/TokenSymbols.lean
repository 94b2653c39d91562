import ShiftReduce.Proofs.ParserRuns

namespace ShiftReduce
namespace Session

variable {σ ι ρ τ τ' ε ς ς' : Type} [Token τ ι] [Token τ' ι]

/-- The sessions differ in their tokens, but not in what these stand for. -/
structure Alike (s : Session σ ι τ ς) (s' : Session σ ι τ' ς') : Prop where
  states : s.parser.states = s'.parser.states
  symbols : s.parser.items.map StackItem.symbol = s'.parser.items.map StackItem.symbol
  position : s.parser.position = s'.parser.position

theorem unwind_alike (size : Nat) (states : List σ) (items : List (StackItem τ ι))
    (items' : List (StackItem τ' ι)) (args : Args τ ι) (args' : Args τ' ι)
    (h : items.map StackItem.symbol = items'.map StackItem.symbol) :
    ∃ failure states' left left' args₁ args₂,
      unwind (ε := ε) size states items args = (failure, states', left, args₁) ∧
      unwind (ε := ε) size states items' args' = (failure, states', left', args₂) ∧
      left.map StackItem.symbol = left'.map StackItem.symbol := by
  induction size generalizing states items items' args args' with
  | zero => exact ⟨_, _, _, _, _, _, rfl, rfl, h⟩
  | succ size ih =>
    cases states with
    | nil => exact ⟨_, _, _, _, _, _, rfl, rfl, h⟩
    | cons top states =>
      cases items with
      | nil =>
        cases items' with
        | nil => exact ⟨_, _, _, _, _, _, rfl, rfl, h⟩
        | cons item' items' => cases h
      | cons item items =>
        cases items' with
        | nil => cases h
        | cons item' items' => exact ih states items items' _ _ (List.cons.inj h).2

theorem reduce_alike (T : ParseTable σ ι ρ) {s : Session σ ι τ ς} {s' : Session σ ι τ' ς'}
    (h : Alike s s') (rule : ρ) (head : ι) (size : Nat) :
    (s.reduce (ε := ε) T rule head size).1 = (s'.reduce T rule head size).1 ∧
      Alike (s.reduce (ε := ε) T rule head size).2 (s'.reduce (ε := ε) T rule head size).2 := by
  obtain ⟨failure, states, left, left', args, args', hunwind, hunwind', hleft⟩ :=
    unwind_alike (ε := ε) size s.parser.states s.parser.items s'.parser.items [] [] h.symbols
  unfold reduce
  rw [← h.states, hunwind, hunwind']
  cases failure with
  | some e => exact ⟨rfl, rfl, hleft, h.position⟩
  | none =>
    cases states with
    | nil => exact ⟨rfl, rfl, hleft, h.position⟩
    | cons uncovered below =>
      simp only
      cases T.move uncovered head with
      | error e => exact ⟨rfl, rfl, hleft, h.position⟩
      | ok move =>
        cases move with
        | goto target => exact ⟨rfl, rfl, congrArg (head :: ·) hleft, h.position⟩
        | shift | reduce | accept | error => exact ⟨rfl, rfl, hleft, h.position⟩

theorem accept_alike {s : Session σ ι τ ς} {s' : Session σ ι τ' ς'} (h : Alike s s') :
    (s.accept (ρ := ρ) (ε := ε)).1 = s'.accept.1 ∧
      Alike (s.accept (ρ := ρ) (ε := ε)).2 (s'.accept (ρ := ρ) (ε := ε)).2 := by
  have hsymbols := h.symbols
  unfold accept
  cases hitems : s.parser.items with
  | nil =>
    rw [hitems, List.map_nil] at hsymbols
    rw [List.map_eq_nil_iff.mp hsymbols.symm]
    exact ⟨rfl, h⟩
  | cons item items =>
    rw [hitems, List.map_cons] at hsymbols
    obtain ⟨item', items', hitems', -, hrest⟩ := List.map_eq_cons_iff.mp hsymbols.symm
    rw [hitems']
    exact ⟨rfl, h.states, hrest.symm, h.position⟩

/-- The same answer of the table to tokens of one symbol leads to the same. -/
theorem respond_alike (T : ParseTable σ ι ρ) {s : Session σ ι τ ς} {s' : Session σ ι τ' ς'}
    (h : Alike s s') {tok : τ} {tok' : τ'} (htok : Token.symbol tok = Token.symbol tok')
    (answer : Except LookupError (Move σ ι ρ)) :
    (s.respond (ε := ε) T tok answer).1 = (s'.respond T tok' answer).1 ∧
      Alike (s.respond (ε := ε) T tok answer).2 (s'.respond (ε := ε) T tok' answer).2 := by
  cases answer with
  | error e => exact ⟨rfl, h⟩
  | ok move =>
    cases move with
    | shift target =>
      refine ⟨?_, congrArg (target :: ·) h.states, ?_, congrArg (· + 1) h.position⟩
      · simp only [respond, htok, h.position]
      · have hitems : Token.symbol tok :: s.parser.items.map StackItem.symbol =
            Token.symbol tok' :: s'.parser.items.map StackItem.symbol := by
          rw [htok, h.symbols]
        exact hitems
    | reduce rule head size => exact reduce_alike T h rule head size
    | goto target => exact ⟨rfl, h⟩
    | accept => exact accept_alike h
    | error =>
      refine ⟨?_, h⟩
      simp only [respond, htok, h.position]

variable [TokenSource ς ε τ] [TokenSource ς' ε τ']

/-- What is still to be shifted stands for these symbols. -/
def Reads (s : Session σ ι τ ς) (symbols : List ι) : Prop :=
  ∃ toks, s.Awaits toks ∧ toks.map Token.symbol = symbols

/-- What a turn makes of the symbols to be read and of the position. -/
inductive Paced (s : Session σ ι τ ς) : List ι → Turn σ ι ρ ε × Session σ ι τ ς → Prop
  | shift {X : ι} {symbols : List ι} {position : Nat} {target : σ} {next : Session σ ι τ ς} :
      next.Reads symbols → next.parser.position = s.parser.position + 1 →
      Paced s (X :: symbols) (.shifted X position target, next)
  | reduce {symbols : List ι} {rule : ρ} {head : ι} {target : σ} {next : Session σ ι τ ς} :
      next.Reads symbols → next.parser.position = s.parser.position →
      Paced s symbols (.reduced rule head target, next)
  | reject {X : ι} {symbols : List ι} {next : Session σ ι τ ς} :
      Paced s (X :: symbols) (.rejected X s.parser.position, next)
  | accept {symbols : List ι} {next : Session σ ι τ ς} : Paced s symbols (.accepted, next)
  | fail {symbols : List ι} {e : ParseFailure ε} {next : Session σ ι τ ς} :
      (∀ position, e ≠ .rejected position) → Paced s symbols (.failed e, next)

theorem paced (T : ParseTable σ ι ρ) (s : Session σ ι τ ς) (symbols : List ι)
    (h : s.Reads symbols) : Paced s symbols (s.turn T) := by
  obtain ⟨toks, hawaits, rfl⟩ := h
  have harises := arises T s
  generalize s.turn T = result at harises
  cases harises with
  | exceeded => exact .fail (by simp)
  | stateless => exact .fail (by simp)
  | tokenless _ _ hfailure =>
    refine .fail ?_
    intro position he
    subst he
    simp at hfailure
  | @answered current below tok source _ hstates hpeek =>
    obtain ⟨toks, rfl, hsource⟩ := s.counted.awaits_of_peek tok toks source hawaits hpeek
    have heffect := effect_respond (ε := ε) T (s.counted.primed tok source) tok
      (T.move current (Token.symbol tok))
    generalize (s.counted.primed tok source).respond T tok _ = result at heffect
    cases heffect with
    | shift => exact .shift ⟨toks, ⟨toks, hsource, rfl⟩, rfl⟩ rfl
    | reduce => exact .reduce ⟨tok :: toks, ⟨toks, hsource, rfl⟩, rfl⟩ rfl
    | accept => exact .accept
    | reject => exact .reject
    | fail hinternal =>
      refine .fail ?_
      intro position he
      subst he
      exact hinternal

theorem reads_of_shifted (T : ParseTable σ ι ρ) {s next : Session σ ι τ ς} {X : ι} {position : Nat}
    {target : σ} (hturn : s.turn T = (.shifted X position target, next)) {symbols : List ι}
    (h : s.Reads symbols) : ∃ rest, symbols = X :: rest ∧ next.Reads rest ∧
      next.parser.position = s.parser.position + 1 := by
  have hpaced := paced T s symbols h
  rw [hturn] at hpaced
  cases hpaced with
  | shift hnext hposition => exact ⟨_, rfl, hnext, hposition⟩

theorem reads_of_reduced (T : ParseTable σ ι ρ) {s next : Session σ ι τ ς} {rule : ρ} {head : ι}
    {target : σ} (hturn : s.turn T = (.reduced rule head target, next)) {symbols : List ι}
    (h : s.Reads symbols) : next.Reads symbols ∧ next.parser.position = s.parser.position := by
  have hpaced := paced T s symbols h
  rw [hturn] at hpaced
  cases hpaced with
  | reduce hnext hposition => exact ⟨hnext, hposition⟩

theorem reads_of_rejected (T : ParseTable σ ι ρ) {s next : Session σ ι τ ς} {turn : Turn σ ι ρ ε}
    {position : Nat} (hturn : s.turn T = (turn, next))
    (hresult : turn.result? = some (.error (.rejected position))) {symbols : List ι}
    (h : s.Reads symbols) : ∃ X rest, symbols = X :: rest ∧ turn = .rejected X position ∧
      s.parser.position = position := by
  have hpaced := paced T s symbols h
  rw [hturn] at hpaced
  cases hpaced with
  | shift => cases hresult
  | reduce => cases hresult
  | accept => cases hresult
  | reject =>
    cases hresult
    exact ⟨_, _, rfl, rfl, rfl⟩
  | fail hother =>
    cases hresult
    exact False.elim (hother position rfl)

/-- As long as the same symbols come next, a turn that reads them is the turn of both sessions. -/
theorem turn_alike (T : ParseTable σ ι ρ) {s next : Session σ ι τ ς} {s' : Session σ ι τ' ς'}
    (h : Alike s s') {turn : Turn σ ι ρ ε} (hturn : s.turn T = (turn, next))
    (hread : ∀ e, turn ≠ .failed e) {symbols symbols' : List ι}
    (hreads : s.Reads symbols) (hreads' : s'.Reads symbols')
    (hfirst : symbols.head? = symbols'.head?)
    (hwithin : s'.counted.parser.exceededLimit = none) :
    ∃ next', s'.turn T = (turn, next') ∧ Alike next next' := by
  obtain ⟨toks, hawaits, rfl⟩ := hreads
  obtain ⟨toks', hawaits', rfl⟩ := hreads'
  have harises := arises T s
  rw [hturn] at harises
  generalize hresult : (turn, next) = result at harises
  cases harises with
  | exceeded =>
    cases hresult
    exact False.elim (hread _ rfl)
  | stateless =>
    cases hresult
    exact False.elim (hread _ rfl)
  | tokenless =>
    cases hresult
    exact False.elim (hread _ rfl)
  | @answered current below tok source _ hstates hpeek =>
    obtain ⟨rest, rfl, -⟩ := s.counted.awaits_of_peek tok toks source hawaits hpeek
    obtain ⟨tok', rest', rfl, htok⟩ : ∃ tok' rest', toks' = tok' :: rest' ∧
        Token.symbol tok = Token.symbol tok' := by
      cases toks' with
      | nil => cases hfirst
      | cons tok' rest' => exact ⟨tok', rest', rfl, Option.some.inj hfirst⟩
    have hstates' : s'.parser.states = current :: below := h.states.symm.trans hstates
    obtain ⟨source', -, hturn'⟩ :=
      s'.turn_of_awaits T current below tok' rest' hwithin hstates' hawaits'
    have hprimed : Alike (s.counted.primed tok source) (s'.counted.primed tok' source') :=
      ⟨h.states, h.symbols, h.position⟩
    obtain ⟨hsame, halike⟩ :=
      respond_alike (ε := ε) T hprimed htok (T.move current (Token.symbol tok))
    rw [← hresult] at hsame halike
    rw [htok] at hsame halike
    refine ⟨_, ?_, halike⟩
    rw [hturn']
    exact Prod.ext hsame.symm rfl

theorem steps_turn (T : ParseTable σ ι ρ) (s : Session σ ι τ ς) :
    (s.turn T).2.parser.steps = s.parser.steps + 1 ∧
      (s.turn T).2.parser.stepLimit = s.parser.stepLimit := by
  have harises := arises T s
  generalize s.turn T = result at harises
  cases harises with
  | exceeded => exact ⟨rfl, rfl⟩
  | stateless => exact ⟨rfl, rfl⟩
  | tokenless => exact ⟨rfl, rfl⟩
  | @answered current below tok source =>
    have heffect := effect_respond (ε := ε) T (s.counted.primed tok source) tok
      (T.move current (Token.symbol tok))
    generalize (s.counted.primed tok source).respond T tok _ = result at heffect
    cases heffect with
    | shift | reduce | accept | reject | fail => exact ⟨rfl, rfl⟩

/-- Turns that shift or reduce read from the front of what is to come, one symbol for each shift. -/
theorem reads_of_advances (T : ParseTable σ ι ρ) {s last : Session σ ι τ ς} {rules : List ρ}
    (h : Advances T s rules last) {symbols : List ι} (hreads : s.Reads symbols) :
    ∃ ahead rest, symbols = ahead ++ rest ∧ last.Reads rest ∧
      last.parser.position = s.parser.position + ahead.length := by
  induction h generalizing symbols with
  | refl => exact ⟨[], symbols, rfl, hreads, rfl⟩
  | shift hturn _ ih =>
    obtain ⟨_, rfl, hnext, hposition⟩ := reads_of_shifted T hturn hreads
    obtain ⟨ahead, rest, rfl, hlast, hlength⟩ := ih hnext
    refine ⟨_ :: ahead, rest, rfl, hlast, ?_⟩
    rw [hlength, hposition, List.length_cons]
    omega
  | reduce hturn _ ih =>
    obtain ⟨hnext, hposition⟩ := reads_of_reduced T hturn hreads
    obtain ⟨ahead, rest, rfl, hlast, hlength⟩ := ih hnext
    exact ⟨ahead, rest, rfl, hlast, by rw [hlength, hposition]⟩

/-- A parse that ends with a syntax error has read the symbols before its position, and rejects the
one there. -/
theorem exists_rejected_of_parse (T : ParseTable σ ι ρ) {s final : Session σ ι τ ς} {budget : Nat}
    {position : Nat} {symbols : List ι} (hreading : s.parser.accepted = false)
    (hreads : s.Reads symbols)
    (h : s.parse T budget = some (.error (.rejected position), final)) :
    ∃ rules last next ahead X rest, symbols = ahead ++ X :: rest ∧ Advances T s rules last ∧
      last.parser.position = s.parser.position + ahead.length ∧
      last.turn T = (.rejected X position, next) ∧ last.parser.position = position := by
  obtain ⟨rules, last, turn, next, hadv, hturn, -, -, herror, -⟩ :=
    advances_of_parse T budget s final _ hreading h
  obtain ⟨ahead, _, rfl, hlast, hlength⟩ := reads_of_advances T hadv hreads
  obtain ⟨X, rest, rfl, rfl, hposition⟩ := reads_of_rejected T hturn (herror _ rfl) hlast
  exact ⟨rules, last, next, ahead, X, rest, rfl, hadv, hlength, hturn, hposition⟩

/-- What is read up to the last session and the symbol after it determine the turns, with or without
a step limit. -/
theorem advances_alike (T : ParseTable σ ι ρ) {s last : Session σ ι τ ς} {s' : Session σ ι τ' ς'}
    {rules : List ρ} (h : Advances T s rules last) (halike : Alike s s') {ahead : List ι} {X : ι}
    {rest rest' : List ι} (hreads : s.Reads (ahead ++ X :: rest))
    (hreads' : s'.Reads (ahead ++ X :: rest')) (hlimit : s'.parser.stepLimit = none)
    (hposition : last.parser.position = s.parser.position + ahead.length) :
    ∃ last', Advances T s' rules last' ∧ Alike last last' ∧ last.Reads (X :: rest) ∧
      last'.Reads (X :: rest') ∧ last'.parser.stepLimit = none := by
  have hfirst (ahead : List ι) : (ahead ++ X :: rest).head? = (ahead ++ X :: rest').head? := by
    rw [List.head?_append, List.head?_append]
    rfl
  induction h generalizing s' ahead with
  | refl =>
    have hnone : ahead = [] := List.length_eq_zero_iff.mp (by omega)
    subst hnone
    exact ⟨s', .refl s', halike, hreads, hreads', hlimit⟩
  | shift hturn hrest ih =>
    obtain ⟨next', hturn', hnext'⟩ := turn_alike T halike hturn (by simp) hreads hreads'
      (hfirst ahead) (s'.exceededLimit_counted hlimit)
    obtain ⟨_, hsymbols, hread, hmore⟩ := reads_of_shifted T hturn hreads
    obtain ⟨_, hsymbols', hread', -⟩ := reads_of_shifted T hturn' hreads'
    have hlimit' := (steps_turn T s').2
    rw [hturn', hlimit] at hlimit'
    cases ahead with
    | nil =>
      obtain ⟨_, _, -, -, hlength⟩ := reads_of_advances T hrest hread
      rw [List.length_nil] at hposition
      omega
    | cons Y ahead =>
      obtain ⟨-, rfl⟩ := List.cons.inj hsymbols
      obtain ⟨-, rfl⟩ := List.cons.inj hsymbols'
      rw [List.length_cons] at hposition
      obtain ⟨last', hadv, hlast⟩ := ih hnext' hread hread' hlimit' (by omega)
      exact ⟨last', .shift hturn' hadv, hlast⟩
  | reduce hturn hrest ih =>
    obtain ⟨next', hturn', hnext'⟩ := turn_alike T halike hturn (by simp) hreads hreads'
      (hfirst ahead) (s'.exceededLimit_counted hlimit)
    obtain ⟨hread, hsame⟩ := reads_of_reduced T hturn hreads
    obtain ⟨hread', -⟩ := reads_of_reduced T hturn' hreads'
    have hlimit' := (steps_turn T s').2
    rw [hturn', hlimit] at hlimit'
    obtain ⟨last', hadv, hlast⟩ := ih hnext' hread hread' hlimit' (by rw [hposition, hsame])
    exact ⟨last', .reduce hturn' hadv, hlast⟩

end Session
end ShiftReduce
