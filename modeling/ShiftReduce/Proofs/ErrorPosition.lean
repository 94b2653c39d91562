import ShiftReduce.Proofs.ParseCompleteness
import ShiftReduce.Proofs.ParseSoundness
import ShiftReduce.Proofs.SententialForms
import ShiftReduce.Proofs.TokenSymbols
import ShiftReduce.SampleGrammars

namespace ShiftReduce
namespace Session

variable {τ ε ς : Type} [Token τ Symbol] [TokenSource ς ε τ] {g : Grammar} {t : Table}

/-- What has been shifted begins a form derived from the root. -/
theorem derives_of_accounts (hfits : t.Fits g) {all : List Symbol}
    {s : Session StateId Symbol τ ς} {rules : List ProductionId} {symbols : List Symbol}
    {word : List Terminal} {toks : List τ} (h : s.Accounts g t all rules symbols word toks) :
    ∃ rest, g.Derives [.nonterminal g.root] (word.map .terminal ++ rest) := by
  obtain ⟨_, _, items, hstates, hs, hvalid⟩ := h.tracks.path.exists_valid hfits.canonical
  have hpath := h.tracks.path
  rw [hstates] at hpath
  obtain ⟨item, hitem⟩ := hpath.exists_item hfits.canonical hs
  have hderives := g.derives_of_rightmost (h.derives [])
  rw [List.map_nil, List.append_nil, List.append_nil] at hderives
  have hend : .endOfInput ∉ word := fun hmem => (h.declared _ hmem).2 rfl
  exact g.derives_of_validFor_word ((hvalid item).mp hitem) hderives hend

/-- A fresh parser shifts the symbols in `ahead` and rejects the one after them. -/
structure Rejects (t : Table) (s last : Session StateId Symbol τ ς) (ahead : List Symbol)
    (X : Symbol) (rest : List Symbol) : Prop where
  fresh : ∃ limit, s.parser = { Parser.start t.parseTable with stepLimit := limit }
  reads : s.Reads (ahead ++ X :: rest)
  reached : ∃ rules, Advances t.parseTable s rules last
  position : last.parser.position = ahead.length
  turn : ∃ next, last.turn t.parseTable = (.rejected X ahead.length, next)

variable {s last : Session StateId Symbol τ ς} {ahead rest : List Symbol} {X : Symbol}

/-- Where a fresh parser rejects, it does so on all tokens that are alike up to there, and without a
step limit. -/
theorem Rejects.alike {τ' ς' : Type} [Token τ' Symbol] [TokenSource ς' ε τ']
    (h : Rejects t s last ahead X rest) {source : ς'} {toks : List τ'} {rest' : List Symbol}
    (hsource : Supplies source toks) (htoks : toks.map Token.symbol = ahead ++ X :: rest') :
    ∃ last', Rejects t (start t.parseTable source) last' ahead X rest' := by
  obtain ⟨limit, hfresh⟩ := h.fresh
  obtain ⟨rules, hadv⟩ := h.reached
  obtain ⟨next, hturn⟩ := h.turn
  have halike : Alike s (start (τ := τ') t.parseTable source) := by
    refine ⟨?_, ?_, ?_⟩
    · rw [hfresh]
      rfl
    · rw [hfresh]
      rfl
    · rw [hfresh]
      rfl
  have hlength : last.parser.position = s.parser.position + ahead.length := by
    rw [h.position, hfresh]
    exact (Nat.zero_add _).symm
  have hreads : (start t.parseTable source).Reads (ahead ++ X :: rest') :=
    ⟨toks, awaits_start t.parseTable hsource, htoks⟩
  obtain ⟨last', hadv', hlast, hread, hread', hlimit⟩ :=
    advances_alike t.parseTable hadv halike h.reads hreads rfl hlength
  obtain ⟨next', hturn', -⟩ := turn_alike t.parseTable hlast hturn (by simp) hread hread' rfl
    (last'.exceededLimit_counted hlimit)
  exact ⟨last', ⟨none, rfl⟩, hreads, ⟨rules, hadv'⟩, hlast.position.symm.trans h.position,
    ⟨next', hturn'⟩⟩

theorem not_rejects_of_derives (hfits : t.Fits g) {source : ς} {toks : List τ}
    (hsource : Supplies source toks) {sentence : List Terminal}
    (htoks : toks.map Token.symbol = sentence.map Symbol.terminal ++ [.endOfInput])
    (hderives : g.Derives [.nonterminal g.root] (sentence.map .terminal)) :
    ¬ Rejects t (start t.parseTable source) last ahead X rest := by
  intro h
  obtain ⟨rules, hadv⟩ := h.reached
  obtain ⟨next, hturn⟩ := h.turn
  obtain ⟨others, hrightmost⟩ := (g.derives_word_iff sentence).mp hderives
  obtain ⟨last', final, hadv', haccept⟩ := advances_to_accept hfits hsource htoks hrightmost
  obtain ⟨-, rfl⟩ := hadv.unique _ (by rw [hturn]; rfl) hadv' (by rw [haccept]; rfl)
  rw [hturn] at haccept
  cases haccept

theorem Rejects.not_sentence (hfits : t.Fits g) (h : Rejects t s last ahead X rest)
    (sentence : List Terminal)
    (hderives : g.Derives [.nonterminal g.root] (sentence.map .terminal)) (more : List Symbol) :
    sentence.map Symbol.terminal ++ [.endOfInput] ≠ ahead ++ X :: more := by
  intro hbegins
  have hsource := supplies_ok ε (sentence ++ [Terminal.endOfInput])
  have hsymbols : (sentence ++ [Terminal.endOfInput]).map Token.symbol =
      sentence.map Symbol.terminal ++ [.endOfInput] := List.map_append
  obtain ⟨last', hlast⟩ := h.alike hsource (hsymbols.trans hbegins)
  exact not_rejects_of_derives hfits hsource hsymbols hderives hlast

theorem Rejects.derives (hfits : t.Fits g) (h : Rejects t s last ahead X rest) :
    ∃ more, g.Derives [.nonterminal g.root] (ahead ++ more) := by
  obtain ⟨limit, hfresh⟩ := h.fresh
  obtain ⟨toks, ⟨supplied, hsource, hsupplied⟩, htoks⟩ := h.reads
  rw [hfresh] at hsupplied
  obtain rfl : toks = supplied := hsupplied
  obtain ⟨last', hlast⟩ := h.alike hsource htoks
  obtain ⟨rules, hadv⟩ := hlast.reached
  obtain ⟨symbols, shifted, toks', haccounts⟩ :=
    accounts_advance hfits hadv (accounts_start (g := g) hsource)
  obtain ⟨more, hform⟩ := derives_of_accounts hfits haccounts
  have hlength : ahead.length = (shifted.map Symbol.terminal).length := by
    rw [List.length_map, ← haccounts.position, hlast.position]
  have hshifted := List.append_inj_left (htoks.symm.trans haccounts.tokens) hlength
  rw [← hshifted] at hform
  exact ⟨more, hform⟩

end Session

/-- Where a parse ends with a syntax error, the tokens before the reported one begin a form derived
from the root; with it they begin no sentence. -/
theorem rejects_first_offence {τ ε ς : Type} [Token τ Symbol] [TokenSource ς ε τ] (g : Grammar)
    (o : BuildOptions) (t : Table) (ht : g.table o = .ok t) (source : ς) (toks : List τ)
    (hsource : Supplies source toks) (word : List Terminal)
    (hword : toks.map Token.symbol = word.map Symbol.terminal) (limit : Option Nat)
    (args : Args τ Symbol) (budget position : Nat) (final : Session StateId Symbol τ ς)
    (h : Session.parse t.parseTable budget
      ⟨{ Parser.start t.parseTable with stepLimit := limit }, source, args⟩ =
        some (.error (.rejected position), final)) :
    position < word.length ∧
    (∀ sentence, g.Derives [.nonterminal g.root] (sentence.map .terminal) →
      ¬ word.take (position + 1) <+: sentence ++ [Terminal.endOfInput]) ∧
    ∃ form, g.Derives [.nonterminal g.root] form ∧
      (word.take position).map Symbol.terminal <+: form := by
  have hfits := g.table_fits o t ht
  have hreads : Session.Reads
      ⟨{ Parser.start t.parseTable with stepLimit := limit }, source, args⟩
      (word.map Symbol.terminal) := ⟨toks, ⟨toks, hsource, rfl⟩, hword⟩
  obtain ⟨rules, last, next, ahead, X, rest, hsplit, hadv, hlength, hturn, hposition⟩ :=
    Session.exists_rejected_of_parse t.parseTable rfl hreads h
  have hahead : last.parser.position = ahead.length := hlength.trans (Nat.zero_add _)
  obtain rfl : position = ahead.length := hposition.symm.trans hahead
  rw [hsplit] at hreads
  have hrejects := Session.Rejects.mk ⟨limit, rfl⟩ hreads ⟨rules, hadv⟩ hahead ⟨next, hturn⟩
  refine ⟨?_, ?_, ?_⟩
  · have htotal := congrArg List.length hsplit
    rw [List.length_map, List.length_append, List.length_cons] at htotal
    omega
  · intro sentence hderives ⟨more, hmore⟩
    have hfront : (ahead ++ [X] ++ rest).take (ahead.length + 1) = ahead ++ [X] :=
      List.take_left' (by rw [List.length_append, List.length_singleton])
    have hbegins : sentence.map Symbol.terminal ++ [.endOfInput] =
        ahead ++ X :: more.map .terminal := by
      calc
        _ = (sentence ++ [Terminal.endOfInput]).map Symbol.terminal := List.map_append.symm
        _ = (ahead ++ [X] ++ rest).take (ahead.length + 1) ++ more.map .terminal := by
          rw [← hmore, List.map_append, List.map_take, hsplit, List.append_cons]
        _ = ahead ++ X :: more.map .terminal := by rw [hfront, ← List.append_cons]
    exact hrejects.not_sentence hfits sentence hderives _ hbegins
  · obtain ⟨more, hform⟩ := hrejects.derives hfits
    refine ⟨_, hform, ?_⟩
    rw [List.map_take, hsplit, List.take_left]
    exact List.prefix_append ahead more

/-- The second of `x x $` is the token that no list goes on with. -/
theorem rejects_first_offence_list : ∃ g t final, Grammar.define SampleGrammars.list = .ok g ∧
    g.table .thorough = .ok t ∧
    Session.parse t.parseTable 20
      ⟨{ Parser.start t.parseTable with stepLimit := some 8 },
        TokenTape.ofList [(⟨1⟩ : Terminal), ⟨1⟩, .endOfInput], []⟩ =
          some (.error (.rejected 1), final) ∧
    (∀ sentence, g.Derives [.nonterminal g.root] (sentence.map .terminal) →
      ¬ [⟨1⟩, ⟨1⟩] <+: sentence ++ [Terminal.endOfInput]) ∧
    ∃ form, g.Derives [.nonterminal g.root] form ∧ [Symbol.terminal ⟨1⟩] <+: form := by
  obtain ⟨g, t, hg, ht, hrun⟩ := Grammar.exists_table SampleGrammars.list
    (fun _ t =>
      (Session.parse t.parseTable 20
        ⟨{ Parser.start t.parseTable with stepLimit := some 8 },
          TokenTape.ofList [(⟨1⟩ : Terminal), ⟨1⟩, .endOfInput], []⟩).map Prod.fst =
        some (.error (.rejected 1))) (by decide +kernel)
  obtain ⟨⟨result, final⟩, hparse, rfl⟩ := Option.map_eq_some_iff.mp hrun
  obtain ⟨-, hnone, hform⟩ := rejects_first_offence g .thorough t ht _ _
    (TokenTape.supplies [] _) [⟨1⟩, ⟨1⟩, .endOfInput] rfl _ _ 20 1 final hparse
  exact ⟨g, t, final, hg, ht, hparse, hnone, hform⟩

end ShiftReduce
