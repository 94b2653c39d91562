import ShiftReduce.Proofs.ErrorPosition
import ShiftReduce.Proofs.LookaheadReductions
import ShiftReduce.Proofs.StepLimits

namespace ShiftReduce

namespace Grammar

/-- What is left of a tail behind the dot, with the symbol after it in front. -/
theorem exists_drop_of_afterDot (g : Grammar) {i : Item} {X : Symbol} (h : g.afterDot? i = some X) :
    ∃ q, g.production? i.production = some q ∧
      q.tail.drop i.index = X :: q.tail.drop (i.index + 1) ∧
      q.tail = q.tail.take i.index ++ X :: q.tail.drop (i.index + 1) := by
  obtain ⟨q, hq, hget⟩ := g.afterDot?_eq_some_iff.mp h
  obtain ⟨hlt, hX⟩ := List.getElem?_eq_some_iff.mp hget
  have hdrop : q.tail.drop i.index = X :: q.tail.drop (i.index + 1) := by
    rw [← hX]
    exact List.drop_eq_getElem_cons hlt
  refine ⟨q, hq, hdrop, ?_⟩
  rw [← hdrop, List.take_append_drop]

/-- The terminal may come behind the dot of the item. -/
def AdmitsAfter (g : Grammar) (item : Item) (u : Terminal) : Prop :=
  ∃ q, g.production? item.production = some q ∧ g.Admits q (q.tail.drop item.index) u

/-- What may come behind a dot that has come over a nonterminal, or behind one that such a dot
entails, may come after the nonterminal. -/
theorem follow_of_successor (g : Grammar) {items : ItemSet} {n : Nonterminal} {item : Item}
    {u : Terminal} (hitem : item ∈ g.successor items (.nonterminal n))
    (hadmits : g.AdmitsAfter item u) : g.Collects (.follow n) u := by
  have hentails := g.mem_expand.mp hitem
  clear hitem
  induction hentails with
  | @kernel j hj =>
    obtain ⟨q, hq, hadmits⟩ := hadmits
    obtain ⟨i, -, hX, rfl⟩ := g.mem_kernel.mp hj
    obtain ⟨q', hq', -, htail⟩ := g.exists_drop_of_afterDot hX
    cases hq.symm.trans hq'
    exact g.follow_of_admits hq htail hadmits
  | @expansion i j _ hij ih =>
    obtain ⟨q, hq, hadmits⟩ := hadmits
    obtain ⟨m, hm, r, hr, rfl, hindex⟩ := g.mem_expansion.mp hij
    cases hq.symm.trans hr
    rw [hindex, List.drop_zero] at hadmits
    obtain ⟨Y, rest, htail⟩ := List.exists_cons_of_ne_nil (g.tail_ne_nil hr)
    rw [htail] at hadmits
    have hbegins : g.Begins (.nonterminal q.head) u := g.begins_head hr htail hadmits
    obtain ⟨q', hq', hdrop, -⟩ := g.exists_drop_of_afterDot hm
    refine ih ⟨q', hq', ?_⟩
    rw [hdrop]
    exact hbegins

/-- The terminal is in FOLLOW of the heads of all these productions. -/
def FollowsAll (g : Grammar) (rules : List ProductionId) (u : Terminal) : Prop :=
  ∀ p ∈ rules, ∀ q, g.production? p = some q →
    ∃ follow sets, g.follow (.nonterminal q.head) .empty = (.ok follow, sets) ∧ u ∈ follow

/-- Every candidate of a cell under a terminal comes from an item behind whose dot the terminal may
come. -/
theorem admitsAfter_of_asks (g : Grammar) {a : Automaton} {s : StateId} {u : Terminal} {c : Action}
    (h : g.Asks a s (.terminal u) c) :
    ∃ items item, a.state? s = some items ∧ item ∈ items ∧ g.AdmitsAfter item u := by
  generalize hX : Symbol.terminal u = X at h
  cases h with
  | @shift items item v target hs hitem hafter hne hget =>
    cases hX
    obtain ⟨q, hq, hdrop, -⟩ := g.exists_drop_of_afterDot hafter
    refine ⟨items, item, hs, hitem, q, hq, ?_⟩
    rw [hdrop]
    exact rfl
  | @reduce items item n follow sets v hs hitem hn hfollow ht =>
    cases hX
    have hcollects := (g.collects_iff_of_follow n follow sets hfollow u).mp ht
    obtain ⟨-, q, hq, rfl, hindex⟩ := hn
    refine ⟨items, item, hs, hitem, q, hq, ?_⟩
    rw [hindex, List.drop_length]
    exact hcollects
  | @accept items hs hitem =>
    cases hX
    exact ⟨items, finalItem, hs, hitem, g.augmentedProduction, g.production?_augmented, rfl⟩
  | goto => cases hX

end Grammar

theorem Table.Fits.mem_expected_iff {g : Grammar} {t : Table} (hfits : t.Fits g) {s : StateId}
    {items : ItemSet} (hs : t.automaton.state? s = some items) (u : Terminal) :
    .terminal u ∈ t.expected s ↔ ∃ c, g.Asks t.automaton s (.terminal u) c := by
  obtain ⟨row, hrow, hrowFits⟩ := hfits.row hs
  have hnodup : (row.map Prod.fst).Nodup := by
    rw [hrowFits.keys]
    exact g.valid.symbols_nodup
  have hexpected : .terminal u ∈ t.expected s ↔
      ∃ c, row.lookup (.terminal u) = some c ∧ c ≠ .error := by
    rw [Table.expected, hrow]
    simp only [List.mem_map, List.mem_filter, Prod.exists, Bool.and_eq_true, Bool.not_eq_true',
      Action.isError, decide_eq_false_iff_not]
    constructor
    · rintro ⟨X, c, ⟨hmem, -, hc⟩, rfl⟩
      exact ⟨c, (mem_iff_lookup_eq_some row hnodup _ c).mp hmem, hc⟩
    · rintro ⟨c, hlookup, hc⟩
      exact ⟨_, c, ⟨(mem_iff_lookup_eq_some row hnodup _ c).mpr hlookup, rfl, hc⟩, rfl⟩
  rw [hexpected]
  constructor
  · rintro ⟨c, hlookup, hc⟩
    by_contra hnone
    have herror := hrowFits.unasked (.terminal u) fun c hasks => hnone ⟨c, hasks⟩
    rw [hlookup] at herror
    exact hc herror
  · rintro ⟨c, hasks⟩
    have hcell := hrowFits.asked _ c hasks
    cases hlookup : row.lookup (.terminal u) with
    | none =>
      rw [hlookup] at hcell
      exact False.elim (g.not_asks_error (hcell ▸ hasks))
    | some d =>
      rw [hlookup, Option.getD_some] at hcell
      refine ⟨d, rfl, ?_⟩
      rintro rfl
      exact g.not_asks_error (hcell ▸ hasks)

namespace Session

variable {τ ε ς : Type} [Token τ Symbol] [TokenSource ς ε τ] {g : Grammar} {t : Table}

/-- The current state has a candidate under the terminal. -/
def Continues (g : Grammar) (t : Table) (s : Session StateId Symbol τ ς) (u : Terminal) : Prop :=
  ∃ current below c, s.parser.states = current :: below ∧
    g.Asks t.automaton current (.terminal u) c

variable {s last : Session StateId Symbol τ ς} {rules : List ProductionId}
  {symbols : List Symbol} {tok : τ} {toks : List τ} {u : Terminal}

/-- Where a nonterminal is on top of the stack, the parser goes on with what follows it. -/
theorem Continues.follow (hfits : t.Fits g) (h : s.Continues g t u)
    {n : Nonterminal} (hs : s.Tracks t (.nonterminal n :: symbols) toks) :
    g.Collects (.follow n) u := by
  obtain ⟨current, below, c, hstates, hasks⟩ := h
  obtain ⟨items, item, hitems, hitem, hadmits⟩ := g.admitsAfter_of_asks hasks
  have hpath := hs.path
  rw [hstates] at hpath
  cases hpath with
  | @step before _ _ _ _ _ hget =>
    obtain ⟨items', -, -, htarget⟩ := hfits.canonical.edge before _ current hget
    cases hitems.symm.trans htarget
    exact g.follow_of_successor hitem hadmits

/-- What the parser goes on with after reductions follows the head of each of them. -/
theorem follow_of_reduces (hfits : t.Fits g) (h : Reduces t.parseTable s rules last)
    (hs : s.Tracks t symbols toks) (hlast : last.Continues g t u) :
    (∀ p ∈ rules, ∀ q, g.production? p = some q → g.Collects (.follow q.head) u) ∧
      ∀ n rest, symbols = .nonterminal n :: rest → g.Collects (.follow n) u := by
  induction h generalizing symbols toks with
  | refl =>
    refine ⟨fun p hp => False.elim (List.not_mem_nil hp), ?_⟩
    rintro n rest rfl
    exact hlast.follow hfits hs
  | reduce hturn _ ih =>
    have hturned := turned hfits hs
    rw [hturn] at hturned
    cases hturned with
    | @reduce rest tok toks current _ below p q next hstates hasks hq hnext hposition =>
      obtain ⟨hrules, htop⟩ := ih hnext hlast
      have hhead : g.Collects (.follow q.head) u := htop q.head rest rfl
      refine ⟨?_, ?_⟩
      · intro p' hp' q' hq'
        rcases List.mem_cons.mp hp' with rfl | hp'
        · cases hq.symm.trans hq'
          exact hhead
        · exact hrules p' hp' q' hq'
      · intro n rest' htop
        obtain ⟨before, X, htail⟩ := List.eq_nil_or_concat q.tail |>.resolve_left (g.tail_ne_nil hq)
        rw [htail, List.concat_eq_append, List.reverse_append, List.reverse_singleton,
          List.singleton_append, List.cons_append, List.cons.injEq] at htop
        obtain ⟨rfl, -⟩ := htop
        exact g.follow_of_last hq (htail.trans List.concat_eq_append) hhead
    | refuse he => cases he

/-- The reductions on one token are made on another as well, if that follows their heads. -/
theorem reduces_on (hfits : t.Fits g) {τ' ς' : Type} [Token τ' Symbol] [TokenSource ς' ε τ']
    {s' : Session StateId Symbol τ' ς'} {tok' : τ'} {toks' : List τ'}
    (h : Reduces t.parseTable s rules last) (hs : s.Tracks t symbols toks)
    (hs' : s'.Tracks t symbols (tok' :: toks')) (hu : Token.symbol tok' = Symbol.terminal u)
    (hfollow : ∀ p ∈ rules, ∀ q, g.production? p = some q → g.Collects (.follow q.head) u) :
    ∃ last' symbols', last.Tracks t symbols' toks ∧ Advances t.parseTable s' rules last' ∧
      last'.Tracks t symbols' (tok' :: toks') := by
  induction h generalizing symbols s' with
  | refl => exact ⟨s', symbols, hs, .refl s', hs'⟩
  | @reduce s next last rules p _ _ hturn _ ih =>
    have hturned := turned hfits hs
    rw [hturn] at hturned
    cases hturned with
    | @reduce rest tok toks current _ below _ q _ hstates hasks hq hnext _ =>
      obtain ⟨items, q', v, hitems, hq', hp, hitem, -⟩ := g.asks_reduce hasks
      cases hq.symm.trans hq'
      have hholds : s'.Holds t ⟨p, q.tail.length⟩ :=
        ⟨current, below, items, (hs'.path.states_eq hs.path).trans hstates, hitems, hitem⟩
      obtain ⟨next', hadv, hnext'⟩ := advances_complete hfits hs' hholds hp hq hu
        (hfollow p List.mem_cons_self q hq)
      obtain ⟨last', symbols', hlast, hadv', hlast'⟩ := ih hnext hnext'
        fun p' hp' => hfollow p' (List.mem_cons_of_mem _ hp')
      exact ⟨last', symbols', hlast, hadv.trans _ hadv', hlast'⟩
    | refuse he => cases he

theorem continues_of_sentence (hfits : t.Fits g) {source : ς} {sentence : List Terminal}
    {all : List τ} (hsource : Supplies source all)
    (hall : all.map Token.symbol = sentence.map Symbol.terminal ++ [.endOfInput])
    (hderives : g.Derives [.nonterminal g.root] (sentence.map .terminal))
    (h : Advances t.parseTable (start t.parseTable source) rules last)
    (hlast : last.Tracks t symbols (tok :: toks)) (hu : Token.symbol tok = Symbol.terminal u) :
    last.Continues g t u := by
  obtain ⟨current, below, hstates⟩ := hlast.path.exists_top
  have hpath := hlast.path
  rw [hstates] at hpath
  obtain ⟨kernel, hs⟩ := hpath.exists_kernel hfits.canonical
  rcases hfits.action_cases hs (.terminal u) with ⟨c, hasks, -⟩ | herror
  · exact ⟨current, below, c, hstates, hasks⟩
  · obtain ⟨rest, hsource', hturn⟩ := last.turn_of_awaits t.parseTable current below tok toks
      hlast.within hstates hlast.awaits
    have hmove : t.parseTable.move current (Token.symbol tok) = .ok .error := by
      simp only [Table.parseTable, Table.move, hu, herror]
    rw [hmove, respond] at hturn
    obtain ⟨others, hrightmost⟩ := (g.derives_word_iff sentence).mp hderives
    obtain ⟨last', final, hadv', haccept⟩ := advances_to_accept hfits hsource hall hrightmost
    obtain ⟨-, rfl⟩ := h.unique _ (by rw [hturn]; rfl) hadv' (by rw [haccept]; rfl)
    rw [hturn] at haccept
    cases haccept

theorem Tracks.mem_expected_iff (hfits : t.Fits g) (h : s.Tracks t symbols toks) (u : Terminal) :
    .terminal u ∈ s.parser.expected t.parseTable ↔ s.Continues g t u := by
  obtain ⟨current, below, hstates⟩ := h.path.exists_top
  have hpath := h.path
  rw [hstates] at hpath
  obtain ⟨kernel, hs⟩ := hpath.exists_kernel hfits.canonical
  have hexpected : s.parser.expected t.parseTable = t.expected current := by
    rw [Parser.expected, hstates]
    rfl
  rw [hexpected, hfits.mem_expected_iff hs u]
  constructor
  · rintro ⟨c, hasks⟩
    exact ⟨current, below, c, hstates, hasks⟩
  · rintro ⟨current', below', c, hstates', hasks⟩
    cases hstates.symm.trans hstates'
    exact ⟨c, hasks⟩

/-- On all tokens that begin with those shifted, the parser comes to the same stack. -/
theorem settles_alike (hfits : t.Fits g) {τ' ς' : Type} [Token τ' Symbol] [TokenSource ς' ε τ']
    {source : ς} {source' : ς'} {all : List τ} {all' : List τ'} (hsource : Supplies source all)
    (hsource' : Supplies source' all') {shifted : List Terminal} {more : List Symbol}
    (hsettled : Settles t.parseTable (start t.parseTable source) s)
    (hs : s.Accounts g t (all.map Token.symbol) rules symbols shifted toks)
    (hbegins : all'.map Token.symbol = shifted.map Symbol.terminal ++ more) :
    ∃ s' rules' toks', Advances t.parseTable (start t.parseTable source') rules' s' ∧
      s'.Tracks t symbols toks' ∧ toks'.map Token.symbol = more := by
  cases hsettled with
  | start =>
    obtain rfl : symbols = [] := hs.tracks.items.symm
    obtain rfl : shifted = [] := List.length_eq_zero_iff.mp hs.position.symm
    exact ⟨_, [], all', .refl _, tracks_start t hsource', hbegins⟩
  | @shift before _ _ X _ _ hadv hturn =>
    have hreads : (start t.parseTable source).Reads (all.map Token.symbol) :=
      ⟨all, awaits_start t.parseTable hsource, rfl⟩
    obtain ⟨ahead, rest, hall, hbefore, hlength⟩ := reads_of_advances t.parseTable hadv hreads
    obtain ⟨rest, rfl, -, hposition⟩ := reads_of_shifted t.parseTable hturn hbefore
    have hshifted : shifted.map Symbol.terminal = ahead ++ [X] := by
      have hsplit : shifted.map Symbol.terminal ++ toks.map Token.symbol =
          (ahead ++ [X]) ++ rest := by
        rw [← hs.tokens, hall, List.append_cons]
      refine List.append_inj_left hsplit ?_
      have hzero : (start (τ := τ) t.parseTable source).parser.position = 0 := rfl
      rw [List.length_map, ← hs.position, hposition, hlength, hzero, List.length_append,
        List.length_singleton, Nat.zero_add]
    rw [hall] at hreads
    have hreads' : (start t.parseTable source').Reads (ahead ++ X :: more) := by
      refine ⟨all', awaits_start t.parseTable hsource', ?_⟩
      rw [hbegins, hshifted, ← List.append_cons]
    have hstart : Alike (start (τ := τ) t.parseTable source)
        (start (τ := τ') t.parseTable source') := ⟨rfl, rfl, rfl⟩
    obtain ⟨before', hadv', halike, hread, hread', hlimit⟩ :=
      advances_alike t.parseTable hadv hstart hreads hreads' rfl hlength
    obtain ⟨s', hturn', halike'⟩ := turn_alike t.parseTable halike hturn (by simp) hread hread' rfl
      (before'.exceededLimit_counted hlimit)
    have hadvance := hadv'.trans _ (.shift hturn' (.refl s'))
    obtain ⟨symbols', shifted', toks', hs'⟩ :=
      accounts_advance hfits hadvance (accounts_start (g := g) hsource')
    have hsymbols : symbols' = symbols := by
      rw [← hs'.tracks.items, ← halike'.symbols, hs.tracks.items]
    refine ⟨s', _, toks', hadvance, hsymbols ▸ hs'.tracks, ?_⟩
    have hsplit := hs'.tokens.symm.trans hbegins
    refine List.append_inj_right hsplit ?_
    rw [List.length_map, List.length_map, ← hs'.position, ← hs.position, halike'.position]

/-- Reductions leave the tokens and the position as they are, and FOLLOW of their heads is known. -/
theorem tracks_of_reduces (hfits : t.Fits g) (h : Reduces t.parseTable s rules last)
    (hs : s.Tracks t symbols toks) :
    (∃ symbols', last.Tracks t symbols' toks) ∧ last.parser.position = s.parser.position ∧
      ∀ p ∈ rules, ∀ q, g.production? p = some q → g.Resolves (.follow q.head) := by
  induction h generalizing symbols toks with
  | refl => exact ⟨⟨symbols, hs⟩, rfl, fun p hp => False.elim (List.not_mem_nil hp)⟩
  | reduce hturn _ ih =>
    have hturned := turned hfits hs
    rw [hturn] at hturned
    cases hturned with
    | reduce _ hasks hq hnext hposition =>
      obtain ⟨hlast, hsame, hresolved⟩ := ih hnext
      refine ⟨hlast, hsame.trans hposition, ?_⟩
      intro p' hp' q' hq'
      rcases List.mem_cons.mp hp' with rfl | hp'
      · obtain ⟨_, q'', _, -, hq'', -, -, -, hresolves, -⟩ := g.asks_reduce hasks
        cases hq''.symm.trans hq'
        exact hresolves
      · exact hresolved p' hp' q' hq'
    | refuse he => cases he

/-- After reductions on a rejected token, the parser goes on with a token that can come next exactly
if it follows their heads. -/
theorem continues_iff (hfits : t.Fits g) {source : ς} {all : List τ}
    (hsource : Supplies source all) {settled : Session StateId Symbol τ ς}
    {earlier : List ProductionId} {shifted : List Terminal}
    (hsettled : Settles t.parseTable (start t.parseTable source) settled)
    (hs : settled.Accounts g t (all.map Token.symbol) earlier symbols shifted toks)
    (hreduces : Reduces t.parseTable settled rules last) {sentence : List Terminal}
    (hderives : g.Derives [.nonterminal g.root] (sentence.map .terminal))
    (hbegins : shifted ++ [u] <+: sentence ++ [Terminal.endOfInput]) :
    last.Continues g t u ↔
      ∀ p ∈ rules, ∀ q, g.production? p = some q → g.Collects (.follow q.head) u := by
  refine ⟨fun h => (follow_of_reduces hfits hreduces hs.tracks h).1, ?_⟩
  intro hfollow
  -- On the sentence the parser comes to the same stack and makes the same reductions.
  obtain ⟨more, hmore⟩ := hbegins
  have hsource' := supplies_ok ε (sentence ++ [Terminal.endOfInput])
  have hsymbols : (sentence ++ [Terminal.endOfInput]).map Token.symbol =
      shifted.map Symbol.terminal ++ .terminal u :: more.map .terminal := by
    calc
      _ = (shifted ++ [u] ++ more).map Symbol.terminal := by
        rw [hmore]
        rfl
      _ = _ := by simp
  obtain ⟨s', rules', toks', hadv, hs', htoks⟩ :=
    settles_alike hfits hsource hsource' hsettled hs hsymbols
  obtain ⟨tok', toks', rfl, hu, -⟩ := List.map_eq_cons_iff.mp htoks
  obtain ⟨last', symbols', hlast, hadv', hlast'⟩ :=
    reduces_on hfits hreduces hs.tracks hs' hu hfollow
  have hsentence : (sentence ++ [Terminal.endOfInput]).map Token.symbol =
      sentence.map Symbol.terminal ++ [.endOfInput] := List.map_append
  obtain ⟨current, below, c, hstates, hasks⟩ := continues_of_sentence hfits hsource' hsentence
    hderives (hadv.trans _ hadv') hlast' hu
  exact ⟨current, below, c, (hlast.path.states_eq hlast'.path).trans hstates, hasks⟩

theorem expected_of_toAcceptance (hfits : t.Fits g) {source : ς} (hsource : Supplies source toks)
    {word : List Terminal} (hword : toks.map Token.symbol = word.map Symbol.terminal)
    {budget position : Nat} {final : Session StateId Symbol τ ς}
    (h : toAcceptance t.parseTable budget [] (start t.parseTable source) =
      some (.error (.rejected position), final)) {sentence : List Terminal}
    (hderives : g.Derives [.nonterminal g.root] (sentence.map .terminal))
    (hbegins : word.take position ++ [u] <+: sentence ++ [Terminal.endOfInput]) :
    .terminal u ∈ final.parser.expected t.parseTable ↔
      g.FollowsAll (Turn.reducedSinceShift []
        (turnsUntil t.parseTable Turn.isLast budget (start t.parseTable source))) u := by
  obtain ⟨settled, last, turn, hsettled, hreduces, hturn, hresult⟩ :=
    settles_of_toAcceptance t.parseTable budget [] .start (.refl _) h
  obtain ⟨earlier, hadv⟩ := hsettled.advances
  obtain ⟨symbols, shifted, rest, hs⟩ :=
    accounts_advance hfits hadv (accounts_start (g := g) hsource)
  obtain ⟨⟨symbols', hlast⟩, hsame, hresolved⟩ := tracks_of_reduces hfits hreduces hs.tracks
  obtain ⟨X, _, -, rfl, hposition⟩ :=
    reads_of_rejected t.parseTable hturn hresult ⟨rest, hlast.awaits, rfl⟩
  have hshifted : word.take position = shifted := by
    have hlength : position = shifted.length := by rw [← hposition, hsame, hs.position]
    have htake := congrArg (List.take position) (hword.symm.trans hs.tokens)
    rw [← List.map_take, List.take_left' (by rw [List.length_map, hlength])] at htake
    exact List.map_injective_iff.mpr (fun _ _ heq => Symbol.terminal.inj heq) htake
  rw [hshifted] at hbegins
  have hexpected : final.parser.expected t.parseTable = last.parser.expected t.parseTable := by
    rw [Parser.expected, Parser.expected, states_of_rejected t.parseTable hturn]
  rw [hexpected, hlast.mem_expected_iff hfits u,
    continues_iff hfits hsource hsettled hs hreduces hderives hbegins]
  constructor
  · intro hfollow p hp q hq
    obtain ⟨follow, sets, hanswer⟩ :=
      (g.follow_ok_iff q.head (g.contains_head hq)).mpr (hresolved p hp q hq)
    exact ⟨follow, sets, hanswer,
      (g.collects_iff_of_follow _ _ _ hanswer u).mpr (hfollow p hp q hq)⟩
  · intro hfollow p hp q hq
    obtain ⟨follow, sets, hanswer, hu⟩ := hfollow p hp q hq
    exact (g.collects_iff_of_follow _ _ _ hanswer u).mp hu

end Session

/-- After a syntax error a parser expects, of the terminals that go on to a sentence, those that
follow all heads reduced since its last shift. -/
theorem expected_exact {τ ε ς : Type} [Token τ Symbol] [TokenSource ς ε τ] (g : Grammar)
    (o : BuildOptions) (t : Table) (ht : g.table o = .ok t) (source : ς) (toks : List τ)
    (hsource : Supplies source toks) (word : List Terminal)
    (hword : toks.map Token.symbol = word.map Symbol.terminal) (limit : Option Nat)
    (budget position : Nat) (final : Session StateId Symbol τ ς)
    (h : Session.parse t.parseTable budget
      ⟨{ Parser.start t.parseTable with stepLimit := limit }, source, []⟩ =
        some (.error (.rejected position), final))
    (u : Terminal) (sentence : List Terminal)
    (hderives : g.Derives [.nonterminal g.root] (sentence.map .terminal))
    (hbegins : word.take position ++ [u] <+: sentence ++ [Terminal.endOfInput]) :
    .terminal u ∈ final.parser.expected t.parseTable ↔
      g.FollowsAll (Turn.reducedSinceShift [] (Session.parseTurns t.parseTable budget
        ⟨{ Parser.start t.parseTable with stepLimit := limit }, source, []⟩)) u := by
  have hfits := g.table_fits o t ht
  obtain ⟨⟨result, reached⟩, hrun, hfinal⟩ := Option.map_eq_some_iff.mp h
  cases hfinal
  cases limit with
  | none =>
    have hplain := Session.expected_of_toAcceptance hfits hsource hword hrun hderives hbegins
    exact hplain
  | some limit =>
    have hnone : (Session.start (τ := τ) t.parseTable source).parser.stepLimit = none := rfl
    obtain ⟨plain, hrun', rfl, hturns⟩ :=
      Session.toAcceptance_of_limited t.parseTable budget [] hnone (by simp) hrun
    have hplain := Session.expected_of_toAcceptance hfits hsource hword hrun' hderives hbegins
    rw [← hturns] at hplain
    exact hplain

/-- A grammar in which `x` may be reduced before `w`, though only behind `z`. -/
def contextDeclarations : List Declaration :=
  SampleGrammars.declarations ["x", "y", "t", "z", "w"] ["S", "A"]
    [("S", ["A", "y"]),
     ("S", ["x", "t"]),
     ("S", ["z", "A", "w"]),
     ("A", ["x"])]

/-- On `x w` the parser reduces `x` to `A` and rejects `w`. It expects `y`, which goes on to a
sentence and follows `A`. -/
theorem expected_exact_context : ∃ g t final, Grammar.define contextDeclarations = .ok g ∧
    g.table .thorough = .ok t ∧
    Session.parse t.parseTable 8
      ⟨{ Parser.start t.parseTable with stepLimit := some 8 },
        TokenTape.ofList [(⟨1⟩ : Terminal), ⟨5⟩], []⟩ = some (.error (.rejected 1), final) ∧
    (.terminal ⟨2⟩ ∈ final.parser.expected t.parseTable ↔ g.FollowsAll [⟨4⟩] ⟨2⟩) := by
  obtain ⟨g, t, hg, ht, hrun, hturns, hroot, hfirst, hfourth⟩ :=
    Grammar.exists_table contextDeclarations
      (fun g t =>
        (Session.parse t.parseTable 8
          ⟨{ Parser.start t.parseTable with stepLimit := some 8 },
            TokenTape.ofList [(⟨1⟩ : Terminal), ⟨5⟩], []⟩).map Prod.fst =
          some (.error (.rejected 1)) ∧
        Turn.reducedSinceShift [] (Session.parseTurns t.parseTable 8
          ⟨{ Parser.start t.parseTable with stepLimit := some 8 },
            TokenTape.ofList [(⟨1⟩ : Terminal), ⟨5⟩], []⟩) = [⟨4⟩] ∧
        g.root = ⟨1⟩ ∧ g.production? ⟨1⟩ = some ⟨⟨1⟩, [.nonterminal ⟨2⟩, .terminal ⟨2⟩]⟩ ∧
        g.production? ⟨4⟩ = some ⟨⟨2⟩, [.terminal ⟨1⟩]⟩) (by decide +kernel)
  obtain ⟨⟨result, final⟩, hparse, rfl⟩ := Option.map_eq_some_iff.mp hrun
  -- `S`, `A y` and `x y`.
  have hderives : g.Derives [.nonterminal g.root] ([⟨1⟩, ⟨2⟩].map .terminal) := by
    rw [hroot]
    exact (g.derives_production hfirst).trans
      (g.derives_append (g.derives_production hfourth) [.terminal ⟨2⟩])
  have hexact := expected_exact g .thorough t ht (TokenTape.ofList [(⟨1⟩ : Terminal), ⟨5⟩]) _
    (TokenTape.supplies [] _) [⟨1⟩, ⟨5⟩] rfl (some 8) 8 1 final hparse ⟨2⟩ [⟨1⟩, ⟨2⟩] hderives
    (by decide)
  rw [hturns] at hexact
  exact ⟨g, t, final, hg, ht, hparse, hexact⟩

/-- Having reduced `x` to `A` before it rejects `w`, the parser does not expect `t`, with which `x`
could have gone on. -/
theorem expected_misses_continuation : ∃ g t final,
    Grammar.define contextDeclarations = .ok g ∧ g.table .thorough = .ok t ∧
    (Session.start t.parseTable (TokenTape.ofList [(⟨1⟩ : Terminal), ⟨5⟩])).parse t.parseTable 8 =
      some (.error (.rejected 1), final) ∧
    g.Derives [.nonterminal g.root] ([⟨1⟩, ⟨3⟩].map .terminal) ∧
    [⟨1⟩, ⟨5⟩].take 1 ++ [⟨3⟩] <+: [⟨1⟩, ⟨3⟩] ++ [Terminal.endOfInput] ∧
    .terminal ⟨3⟩ ∉ final.parser.expected t.parseTable := by
  obtain ⟨g, t, hg, ht, hrun, hexpects, hroot, hsecond⟩ := Grammar.exists_table contextDeclarations
    (fun g t =>
      ((Session.start t.parseTable (TokenTape.ofList [(⟨1⟩ : Terminal), ⟨5⟩])).parse
        t.parseTable 8).map Prod.fst = some (.error (.rejected 1)) ∧
      ((Session.start t.parseTable (TokenTape.ofList [(⟨1⟩ : Terminal), ⟨5⟩])).parse
        t.parseTable 8).map (fun answer => answer.2.parser.expected t.parseTable) =
          some [.terminal ⟨2⟩] ∧
      g.root = ⟨1⟩ ∧ g.production? ⟨2⟩ = some ⟨⟨1⟩, [.terminal ⟨1⟩, .terminal ⟨3⟩]⟩)
    (by decide +kernel)
  obtain ⟨⟨result, final⟩, hparse, rfl⟩ := Option.map_eq_some_iff.mp hrun
  have hderives : g.Derives [.nonterminal g.root] ([⟨1⟩, ⟨3⟩].map .terminal) := by
    rw [hroot]
    exact g.derives_production hsecond
  refine ⟨g, t, final, hg, ht, hparse, hderives, by decide, ?_⟩
  rw [hparse] at hexpects
  have hexpected : final.parser.expected t.parseTable = [.terminal ⟨2⟩] := Option.some.inj hexpects
  rw [hexpected]
  decide

end ShiftReduce
