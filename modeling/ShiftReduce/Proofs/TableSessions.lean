import ShiftReduce.Proofs.ParserRuns
import ShiftReduce.Proofs.SLRTable
import ShiftReduce.Proofs.StackPaths

namespace ShiftReduce
/-- The states of the parser are a path of the automaton, over the symbols of the items. -/
def Parser.OnPath {τ : Type} [Token τ Symbol] (t : Table) (p : Parser StateId Symbol τ) : Prop :=
  t.automaton.Path p.states (p.items.map StackItem.symbol)

namespace Session

variable {τ ε ς : Type} [Token τ Symbol]

section Responses

variable {g : Grammar} {t : Table} {s : Session StateId Symbol τ ς} {tok : τ} {current : StateId}
  {below : List StateId}

theorem respond_shift (hfits : t.Fits g) (h : s.parser.OnPath t)
    (hstates : s.parser.states = current :: below) {target : StateId}
    (hasks : g.Asks t.automaton current (Token.symbol tok) (.shift target)) :
    s.respond (ε := ε) t.parseTable tok (t.parseTable.move current (Token.symbol tok)) =
        (.shifted (Token.symbol tok) s.parser.position target, s.shift tok target) ∧
      (s.shift tok target).parser.OnPath t := by
  have hmove : t.parseTable.move current (Token.symbol tok) = .ok (.shift target) := by
    simp only [Table.parseTable, Table.move, hfits.action_of_asks hasks]
  obtain ⟨_, _, _, hget⟩ := g.asks_shift hasks
  unfold Parser.OnPath at h
  rw [hstates] at h
  have hstep := Automaton.Path.step h hget
  rw [← hstates] at hstep
  exact ⟨by rw [hmove, respond], hstep⟩

theorem respond_reduce (hfits : t.Fits g) (h : s.parser.OnPath t)
    (hstates : s.parser.states = current :: below) {p : ProductionId} {q : Production}
    (hasks : g.Asks t.automaton current (Token.symbol tok) (.reduce p))
    (hq : g.production? p = some q) :
    ∃ rest target states items, s.parser.items.map StackItem.symbol = q.tail.reverse ++ rest ∧
      s.respond (ε := ε) t.parseTable tok (t.parseTable.move current (Token.symbol tok)) =
        (.reduced p (.nonterminal q.head) target, { s with
          parser := { s.parser with states, items }
          args := (s.parser.items.take q.tail.length).reverse.map some }) ∧
      t.automaton.Path states (.nonterminal q.head :: rest) ∧
      items.map StackItem.symbol = .nonterminal q.head :: rest := by
  have hmove : t.parseTable.move current (Token.symbol tok) =
      .ok (.reduce p (.nonterminal q.head) q.tail.length) :=
    hfits.move_of_reduce (hfits.action_of_asks hasks) hq
  obtain ⟨_, q', _, hs, hq', hp, hitem, -⟩ := g.asks_reduce hasks
  rw [hq] at hq'
  cases hq'
  unfold Parser.OnPath at h
  rw [hstates] at h
  obtain ⟨rest, uncovered, deeper, target, hsymbols, hdrop, hrest, hget⟩ :=
    h.of_reducible hfits.canonical hs hp hq hitem
  have hgoto : t.parseTable.move uncovered (.nonterminal q.head) = .ok (.goto target) := by
    simp only [Table.parseTable, Table.move, hfits.action_of_asks (.goto hget)]
  have hlength : q.tail.length ≤ s.parser.items.length := by
    have hsame := congrArg List.length hsymbols
    rw [List.length_map, List.length_append, List.length_reverse] at hsame
    omega
  have hdrop' : s.parser.states.drop q.tail.length = uncovered :: deeper := by
    rw [hstates]
    exact hdrop
  have hreduce := reduce_of_le (ε := ε) t.parseTable s p (.nonterminal q.head) q.tail.length
    uncovered target deeper hdrop' hlength hgoto
  refine ⟨rest, target, target :: uncovered :: deeper,
    .head (.nonterminal q.head) :: s.parser.items.drop q.tail.length, hsymbols, ?_,
    .step hrest hget, ?_⟩
  · rw [hmove, respond, hreduce]
  · have hitems : (s.parser.items.drop q.tail.length).map StackItem.symbol = rest := by
      rw [List.map_drop, hsymbols, List.drop_left' List.length_reverse]
    exact congrArg (.nonterminal q.head :: ·) hitems

theorem respond_accept (hfits : t.Fits g) (h : s.parser.OnPath t)
    (hstates : s.parser.states = current :: below)
    (hasks : g.Asks t.automaton current (Token.symbol tok) .accept) :
    ∃ item, s.parser.items = [item] ∧ item.symbol = .nonterminal g.root ∧
      s.respond (ε := ε) t.parseTable tok (t.parseTable.move current (Token.symbol tok)) =
        (.accepted, { s with
          parser := { s.parser with items := [], accepted := true }
          args := [some item] }) := by
  have hmove : t.parseTable.move current (Token.symbol tok) = .ok .accept := by
    simp only [Table.parseTable, Table.move, hfits.action_of_asks hasks]
  obtain ⟨-, items, hs, hitem⟩ := g.asks_accept hasks
  unfold Parser.OnPath at h
  rw [hstates] at h
  have hroot := h.of_finalItem hfits.canonical hs hitem
  obtain ⟨item, hitems, hsymbol⟩ := List.map_eq_singleton_iff.mp hroot
  refine ⟨item, hitems, hsymbol, ?_⟩
  rw [hmove, respond, accept, hitems]

/-- What the table's answer to the lookahead token can lead to. -/
inductive Responded (g : Grammar) (t : Table) (s : Session StateId Symbol τ ς) (tok : τ) :
    Turn StateId Symbol ProductionId ε × Session StateId Symbol τ ς → Prop
  | shift {u : Terminal} {target : StateId} :
      Token.symbol tok = .terminal u → u ≠ .endOfInput → g.contains (.terminal u) →
      (s.shift tok target).parser.OnPath t →
      Responded g t s tok
        (.shifted (Token.symbol tok) s.parser.position target, s.shift tok target)
  | reduce {current target : StateId} {below states : List StateId} {p : ProductionId}
      {q : Production} {rest : List Symbol} {items : List (StackItem τ Symbol)} :
      s.parser.states = current :: below →
      g.Asks t.automaton current (Token.symbol tok) (.reduce p) → g.production? p = some q →
      s.parser.items.map StackItem.symbol = q.tail.reverse ++ rest →
      t.automaton.Path states (.nonterminal q.head :: rest) →
      items.map StackItem.symbol = .nonterminal q.head :: rest →
      Responded g t s tok (.reduced p (.nonterminal q.head) target, { s with
        parser := { s.parser with states, items }
        args := (s.parser.items.take q.tail.length).reverse.map some })
  | accept {item : StackItem τ Symbol} :
      Token.symbol tok = Symbol.endOfInput → s.parser.items = [item] →
      item.symbol = .nonterminal g.root →
      Responded g t s tok (.accepted, { s with
        parser := { s.parser with items := [], accepted := true }
        args := [some item] })
  | goto {current target : StateId} {below : List StateId} {n : Nonterminal} :
      s.parser.states = current :: below → Token.symbol tok = .nonterminal n →
      g.contains (.nonterminal n) →
      t.automaton.transitions.get? current (.nonterminal n) = some target →
      Responded g t s tok (.failed (.table .incorrectSymbol), s)
  | reject : Responded g t s tok (.rejected (Token.symbol tok) s.parser.position, s)

theorem responded (hfits : t.Fits g) (h : s.parser.OnPath t)
    (hstates : s.parser.states = current :: below) (tok : τ) :
    Responded (ε := ε) g t s tok
      (s.respond t.parseTable tok (t.parseTable.move current (Token.symbol tok))) := by
  have hpath := h
  unfold Parser.OnPath at hpath
  rw [hstates] at hpath
  obtain ⟨_, hs⟩ := hpath.exists_kernel hfits.canonical
  rcases hfits.action_cases hs (Token.symbol tok) with ⟨c, hasks, haction⟩ | herror
  · have hdeclared := (g.valid.mem_symbols _).mp
      (g.mem_symbols_of_asks t.automaton hfits.canonical current _ _ hasks)
    cases c with
    | shift target =>
      obtain ⟨u, hu, hne, -⟩ := g.asks_shift hasks
      rw [hu] at hdeclared
      obtain ⟨hrespond, hnext⟩ := respond_shift hfits h hstates hasks
      rw [hrespond]
      exact .shift hu hne hdeclared hnext
    | reduce p =>
      obtain ⟨_, q, _, -, hq, -⟩ := g.asks_reduce hasks
      obtain ⟨rest, target, states, items, hsymbols, hrespond, hnext, hitems⟩ :=
        respond_reduce hfits h hstates hasks hq
      rw [hrespond]
      exact .reduce hstates hasks hq hsymbols hnext hitems
    | goto target =>
      obtain ⟨n, hn, hget⟩ := g.asks_goto hasks
      have hmove : t.parseTable.move current (Token.symbol tok) = .ok (.goto target) := by
        simp only [Table.parseTable, Table.move, haction]
      rw [hn] at hget hdeclared
      rw [hmove, respond]
      exact .goto hstates hn hdeclared hget
    | accept =>
      obtain ⟨hu, -⟩ := g.asks_accept hasks
      obtain ⟨item, hitems, hsymbol, hrespond⟩ := respond_accept hfits h hstates hasks
      rw [hrespond]
      exact .accept hu hitems hsymbol
    | error => exact False.elim (g.not_asks_error hasks)
  · have hmove : t.parseTable.move current (Token.symbol tok) = .ok .error := by
      simp only [Table.parseTable, Table.move, herror]
    rw [hmove, respond]
    exact .reject

end Responses

variable [TokenSource ς ε τ]

/-- The stacks of the session hold these symbols, and these tokens are still to be shifted. -/
structure Tracks (t : Table) (s : Session StateId Symbol τ ς) (symbols : List Symbol)
    (toks : List τ) : Prop where
  path : t.automaton.Path s.parser.states symbols
  items : s.parser.items.map StackItem.symbol = symbols
  awaits : s.Awaits toks
  unlimited : s.parser.stepLimit = none

theorem tracks_start (t : Table) {source : ς} {toks : List τ} (h : Supplies source toks) :
    (start t.parseTable source).Tracks t [] toks :=
  ⟨.start, rfl, awaits_start t.parseTable h, rfl⟩

theorem Tracks.onPath {t : Table} {s : Session StateId Symbol τ ς} {symbols : List Symbol}
    {toks : List τ} (h : s.Tracks t symbols toks) : s.parser.OnPath t := by
  unfold Parser.OnPath
  rw [h.items]
  exact h.path

theorem Tracks.within {t : Table} {s : Session StateId Symbol τ ς} {symbols : List Symbol}
    {toks : List τ} (h : s.Tracks t symbols toks) : s.counted.parser.exceededLimit = none :=
  s.exceededLimit_counted h.unlimited

variable {g : Grammar} {t : Table} {s : Session StateId Symbol τ ς} {symbols : List Symbol}
  {tok : τ} {toks : List τ} {current : StateId} {below : List StateId}

theorem turn_shift (hfits : t.Fits g) (h : s.Tracks t symbols (tok :: toks))
    (hstates : s.parser.states = current :: below) {target : StateId}
    (hasks : g.Asks t.automaton current (Token.symbol tok) (.shift target)) :
    ∃ next, s.turn t.parseTable = (.shifted (Token.symbol tok) s.parser.position target, next) ∧
      next.Tracks t (Token.symbol tok :: symbols) toks ∧
      next.parser.position = s.parser.position + 1 := by
  obtain ⟨source, hsource, hturn⟩ :=
    s.turn_of_awaits t.parseTable current below tok toks h.within hstates h.awaits
  have hprimed : (s.counted.primed tok source).parser.OnPath t := h.onPath
  obtain ⟨hrespond, hnext⟩ := respond_shift (ε := ε) hfits hprimed hstates hasks
  refine ⟨_, hturn.trans hrespond, ⟨?_, ?_, ⟨toks, hsource, rfl⟩, h.unlimited⟩, rfl⟩
  · rw [← h.items]
    exact hnext
  · exact congrArg (Token.symbol tok :: ·) h.items

theorem turn_reduce (hfits : t.Fits g) (h : s.Tracks t symbols (tok :: toks))
    (hstates : s.parser.states = current :: below) {p : ProductionId} {q : Production}
    (hasks : g.Asks t.automaton current (Token.symbol tok) (.reduce p))
    (hq : g.production? p = some q) :
    ∃ rest target next, symbols = q.tail.reverse ++ rest ∧
      s.turn t.parseTable = (.reduced p (.nonterminal q.head) target, next) ∧
      next.Tracks t (.nonterminal q.head :: rest) (tok :: toks) ∧
      next.parser.position = s.parser.position := by
  obtain ⟨source, hsource, hturn⟩ :=
    s.turn_of_awaits t.parseTable current below tok toks h.within hstates h.awaits
  have hprimed : (s.counted.primed tok source).parser.OnPath t := h.onPath
  obtain ⟨rest, target, states, items, hsymbols, hrespond, hpath, hitems⟩ :=
    respond_reduce (ε := ε) hfits hprimed hstates hasks hq
  exact ⟨rest, target, _, h.items.symm.trans hsymbols, hturn.trans hrespond,
    ⟨hpath, hitems, ⟨toks, hsource, rfl⟩, h.unlimited⟩, rfl⟩

theorem turn_accept (hfits : t.Fits g) (h : s.Tracks t symbols (tok :: toks))
    (hstates : s.parser.states = current :: below)
    (hasks : g.Asks t.automaton current (Token.symbol tok) .accept) :
    symbols = [.nonterminal g.root] ∧ ∃ next, s.turn t.parseTable = (.accepted, next) ∧
      next.parser.position = s.parser.position := by
  obtain ⟨source, hsource, hturn⟩ :=
    s.turn_of_awaits t.parseTable current below tok toks h.within hstates h.awaits
  have hprimed : (s.counted.primed tok source).parser.OnPath t := h.onPath
  obtain ⟨item, hitems, hroot, hrespond⟩ := respond_accept (ε := ε) hfits hprimed hstates hasks
  have hitems' : s.parser.items = [item] := hitems
  refine ⟨?_, _, hturn.trans hrespond, rfl⟩
  rw [← h.items, hitems', List.map_singleton, hroot]

/-- What a turn can be. -/
inductive Turned (g : Grammar) (t : Table) (s : Session StateId Symbol τ ς) :
    List Symbol → List τ → Turn StateId Symbol ProductionId ε × Session StateId Symbol τ ς → Prop
  | shift {symbols : List Symbol} {tok : τ} {toks : List τ} {u : Terminal} {target : StateId}
      {position : Nat} {next : Session StateId Symbol τ ς} :
      Token.symbol tok = .terminal u → u ≠ .endOfInput → g.contains (.terminal u) →
      next.Tracks t (.terminal u :: symbols) toks →
      next.parser.position = s.parser.position + 1 →
      Turned g t s symbols (tok :: toks) (.shifted (Token.symbol tok) position target, next)
  | reduce {rest : List Symbol} {tok : τ} {toks : List τ} {current target : StateId}
      {below : List StateId} {p : ProductionId} {q : Production}
      {next : Session StateId Symbol τ ς} :
      s.parser.states = current :: below →
      g.Asks t.automaton current (Token.symbol tok) (.reduce p) → g.production? p = some q →
      next.Tracks t (.nonterminal q.head :: rest) (tok :: toks) →
      next.parser.position = s.parser.position →
      Turned g t s (q.tail.reverse ++ rest) (tok :: toks)
        (.reduced p (.nonterminal q.head) target, next)
  | accept {tok : τ} {toks : List τ} {next : Session StateId Symbol τ ς} :
      Token.symbol tok = Symbol.endOfInput → next.parser.position = s.parser.position →
      Turned g t s [.nonterminal g.root] (tok :: toks) (.accepted, next)
  | refuse {symbols : List Symbol} {toks : List τ} {next : Session StateId Symbol τ ς}
      {turn : Turn StateId Symbol ProductionId ε} {e : ParseFailure ε} :
      turn.result? = some (.error e) → Turned g t s symbols toks (turn, next)

theorem turned (hfits : t.Fits g) (h : s.Tracks t symbols toks) :
    Turned g t s symbols toks (s.turn t.parseTable) := by
  obtain ⟨current, below, hstates⟩ := h.path.exists_top
  cases toks with
  | nil =>
    obtain ⟨next, hturn⟩ :=
      s.turn_of_awaits_nil t.parseTable current below h.within hstates h.awaits
    rw [hturn]
    exact .refuse rfl
  | cons tok toks =>
    obtain ⟨source, hsource, hturn⟩ :=
      s.turn_of_awaits t.parseTable current below tok toks h.within hstates h.awaits
    have hprimed : (s.counted.primed tok source).parser.OnPath t := h.onPath
    have hresponded := responded (ε := ε) hfits hprimed hstates tok
    rw [← hturn] at hresponded
    generalize s.turn t.parseTable = result at hresponded
    cases hresponded with
    | shift hu hne hdeclared hnext =>
      refine .shift hu hne hdeclared ⟨?_, ?_, ⟨toks, hsource, rfl⟩, h.unlimited⟩ rfl
      · rw [← hu, ← h.items]
        exact hnext
      · rw [← hu, ← h.items]
        rfl
    | reduce htop hasks hq hitems hpath hnext =>
      obtain rfl := h.items.symm.trans hitems
      exact .reduce htop hasks hq ⟨hpath, hnext, ⟨toks, hsource, rfl⟩, h.unlimited⟩ rfl
    | accept hu hitems hroot =>
      have hitems' : s.parser.items = [_] := hitems
      obtain rfl : symbols = [.nonterminal g.root] := by
        rw [← h.items, hitems', List.map_singleton, hroot]
      exact .accept hu rfl
    | goto => exact .refuse rfl
    | reject => exact .refuse rfl

theorem tracks_advance (hfits : t.Fits g) {last : Session StateId Symbol τ ς}
    {rules : List ProductionId}
    (h : Advances t.parseTable s rules last) (hs : s.Tracks t symbols toks) :
    ∃ symbols' toks', last.Tracks t symbols' toks' := by
  induction h generalizing symbols toks with
  | refl => exact ⟨symbols, toks, hs⟩
  | shift hturn _ ih =>
    have hturned := turned hfits hs
    rw [hturn] at hturned
    cases hturned with
    | shift _ _ _ hnext _ => exact ih hnext
    | refuse he => cases he
  | reduce hturn _ ih =>
    have hturned := turned hfits hs
    rw [hturn] at hturned
    cases hturned with
    | reduce _ _ _ hnext _ => exact ih hnext
    | refuse he => cases he

end Session
end ShiftReduce
