import ShiftReduce.ExplicitTable
import ShiftReduce.Proofs.MeteredSources

/-! A shifted token is a leaf, and a reduction puts the trees of its items under a node. Whatever
the table says, the leaves are the tokens given, in their order. -/
namespace ShiftReduce

/-- What the parser has made of tokens: a token that was shifted, or a reduction with what it was
made of. -/
inductive Tree (τ ι ρ : Type) where
  | leaf (tok : τ)
  | node (rule : ρ) (head : ι) (children : List (Tree τ ι ρ))

namespace Tree

variable {τ ι ρ : Type}

/-- The item that stands on the stack for the tree. -/
def item : Tree τ ι ρ → StackItem τ ι
  | leaf tok => .token tok
  | node _ head _ => .head head

mutual

/-- The tokens of a tree from left to right. -/
def leaves : Tree τ ι ρ → List τ
  | leaf tok => [tok]
  | node _ _ children => word children

/-- The tokens of trees that stand side by side. -/
def word : List (Tree τ ι ρ) → List τ
  | [] => []
  | tree :: trees => leaves tree ++ word trees

end

theorem word_append (trees more : List (Tree τ ι ρ)) :
    word (trees ++ more) = word trees ++ word more := by
  induction trees with
  | nil => rfl
  | cons tree trees ih => rw [List.cons_append, word, word, ih, List.append_assoc]

theorem word_singleton (tree : Tree τ ι ρ) : word [tree] = tree.leaves := List.append_nil _

end Tree

/-- The trees of the items on the stack, the latest one in front, and those that acceptance has
handed over. -/
structure Forest (τ ι ρ : Type) where
  standing : List (Tree τ ι ρ)
  handed : List (Tree τ ι ρ)

namespace Forest

variable {σ ι ρ τ ε ς : Type}

/-- The forest of a new parser. -/
def bare : Forest τ ι ρ := ⟨[], []⟩

/-- The tokens of the trees from left to right, those handed over being the last. -/
def word (f : Forest τ ι ρ) : List τ := Tree.word (f.standing.reverse ++ f.handed)

/-- What a turn that leads to `next` makes of the trees. -/
def grow (f : Forest τ ι ρ) (next : Session σ ι τ ς) : Turn σ ι ρ ε → Forest τ ι ρ
  | .shifted _ _ _ =>
    match next.parser.items with
    | .token tok :: _ => { f with standing := .leaf tok :: f.standing }
    | _ => f
  | .reduced rule head _ =>
    let size := next.args.length
    { f with
      standing := .node rule head (f.standing.take size).reverse :: f.standing.drop size }
  | .accepted =>
    let size := next.args.length
    ⟨f.standing.drop size, (f.standing.take size).reverse⟩
  | .rejected _ _ => f
  | .failed _ => f

/-- The items that come with an outcome are those of the trees under the new node, or that of the
tree handed over. -/
def Hands (f : Forest τ ι ρ) (args : Args τ ι) : Outcome ρ → Prop
  | .reduce rule => ∃ head children rest, f.standing = .node rule head children :: rest ∧
      args = children.map fun tree => some tree.item
  | .accept => ∃ tree, f.handed = [tree] ∧ args = [some tree.item]

/-- The trees are those of the items on the stack, and their tokens are the ones given, but for the
lookahead token. -/
structure Fits (f : Forest τ ι ρ) (p : Parser σ ι τ) (given : List τ) : Prop where
  items : f.standing.map Tree.item = p.items
  given : given = f.word ++ p.lookahead.toList
  position : f.word.length = p.position
  handed : p.accepted = false → f.handed = []

theorem fits_start (T : ParseTable σ ι ρ) (stepLimit : Option Nat) :
    (bare : Forest τ ι ρ).Fits { Parser.start T with stepLimit := stepLimit } [] :=
  ⟨rfl, rfl, rfl, fun _ => rfl⟩

end Forest

namespace Session

variable {σ ι ρ τ ε ς : Type} (T : ParseTable σ ι ρ)

theorem le_of_unwind (size : Nat) (states : List σ) (items : List (StackItem τ ι))
    (args : Args τ ι) (h : (unwind (ε := ε) size states items args).1 = none) :
    size ≤ states.length ∧ size ≤ items.length := by
  induction size generalizing states items args with
  | zero => exact ⟨Nat.zero_le _, Nat.zero_le _⟩
  | succ size ih =>
    cases states with
    | nil => cases h
    | cons top states =>
      cases items with
      | nil => cases h
      | cons item items =>
        obtain ⟨hstates, hitems⟩ := ih states items _ h
        exact ⟨Nat.succ_le_succ hstates, Nat.succ_le_succ hitems⟩

/-- A reduction fails, or it puts its head in the place of the items that it hands over. -/
theorem reduce_cases (s next : Session σ ι τ ς) (rule : ρ) (head : ι) (size : Nat)
    (turn : Turn σ ι ρ ε) (h : s.reduce T rule head size = (turn, next)) :
    (∃ e, turn = .failed e) ∨ ∃ target states, turn = .reduced rule head target ∧
      size ≤ s.parser.items.length ∧ next = { s with
        parser := { s.parser with states, items := .head head :: s.parser.items.drop size }
        args := (s.parser.items.take size).reverse.map some } := by
  unfold reduce at h
  have hle := le_of_unwind (ε := ε) size s.parser.states s.parser.items []
  have hunwound := unwind_of_le (ε := ε) size s.parser.states s.parser.items []
  generalize unwind (ε := ε) size s.parser.states s.parser.items [] = unwound at h hle hunwound
  obtain ⟨_ | e, states, items, args⟩ := unwound
  · obtain ⟨hstates, hitems⟩ := hle rfl
    have hall := hunwound hstates hitems
    rw [List.append_nil] at hall
    cases hall
    simp only at h
    split at h
    · cases h
      exact Or.inl ⟨_, rfl⟩
    · split at h
      · cases h
        exact Or.inl ⟨_, rfl⟩
      · cases h
        exact Or.inr ⟨_, _, rfl, hitems, rfl⟩
      · cases h
        exact Or.inl ⟨_, rfl⟩
  · cases h
    exact Or.inl ⟨e, rfl⟩

end Session

namespace Forest

variable {σ ι ρ τ ε ς : Type} (T : ParseTable σ ι ρ) {f : Forest τ ι ρ}

theorem word_node (f : Forest τ ι ρ) (hhanded : f.handed = []) (rule : ρ) (head : ι) (size : Nat) :
    word { f with
      standing := .node rule head (f.standing.take size).reverse :: f.standing.drop size } =
      f.word := by
  unfold word
  rw [hhanded, List.append_nil, List.append_nil, List.reverse_cons, Tree.word_append,
    Tree.word_singleton, Tree.leaves, ← Tree.word_append, ← List.reverse_append,
    List.take_append_drop]

theorem Fits.of_reduce {s next : Session σ ι τ ς} {given : List τ} (hf : f.Fits s.parser given)
    (hreading : s.parser.accepted = false) {rule : ρ} {head : ι} {size : Nat}
    {turn : Turn σ ι ρ ε} (h : s.reduce T rule head size = (turn, next))
    (hintact : ∀ e, turn ≠ .failed e) :
    (f.grow next turn).Fits next.parser given ∧
      ∃ target, turn = .reduced rule head target ∧
        (f.grow next turn).Hands next.args (.reduce rule) := by
  rcases Session.reduce_cases T s next rule head size turn h with ⟨e, hfailed⟩ |
    ⟨target, states, rfl, hsize, rfl⟩
  · exact False.elim (hintact e hfailed)
  · have hlength : ((s.parser.items.take size).reverse.map some).length = size := by
      simp only [List.length_map, List.length_reverse, List.length_take]
      omega
    have hword := f.word_node (hf.handed hreading) rule head size
    simp only [grow, hlength]
    refine ⟨⟨?_, ?_, ?_, hf.handed⟩, target, rfl, head, _, _, rfl, ?_⟩
    · rw [List.map_cons, List.map_drop, hf.items, Tree.item]
    · rw [hword]
      exact hf.given
    · rw [hword]
      exact hf.position
    · rw [List.map_reverse, List.map_take, ← hf.items, List.map_reverse, List.map_take,
        List.map_map]
      rfl

theorem Fits.of_accept {s next : Session σ ι τ ς} {given : List τ} (hf : f.Fits s.parser given)
    (hreading : s.parser.accepted = false) {turn : Turn σ ι ρ ε} (h : s.accept = (turn, next)) :
    (f.grow next turn).Fits next.parser given ∧
      ((∃ e, turn = .failed e) ∨
        turn = .accepted ∧ (f.grow next turn).Hands next.args .accept) := by
  unfold Session.accept at h
  split at h
  · cases h
    exact ⟨hf, Or.inl ⟨_, rfl⟩⟩
  · rename_i item items hitems
    cases h
    obtain ⟨tree, trees, hstanding, hitem, htrees⟩ :=
      List.map_eq_cons_iff.mp (hf.items.trans hitems)
    have hgrow : f.grow { s with
        parser := { s.parser with items, accepted := true }, args := [some item] }
        (.accepted : Turn σ ι ρ ε) = ⟨trees, [tree]⟩ := by
      simp only [grow, hstanding, List.length_singleton, List.drop_one, List.tail_cons,
        List.take_succ_cons, List.take_zero, List.reverse_singleton]
    have hword : word (⟨trees, [tree]⟩ : Forest τ ι ρ) = f.word := by
      unfold word
      rw [hf.handed hreading, hstanding, List.reverse_cons, List.append_nil]
    rw [hgrow]
    refine ⟨⟨htrees, ?_, ?_, fun hopen => by cases hopen⟩, Or.inr ⟨rfl, tree, rfl, ?_⟩⟩
    · rw [hword]
      exact hf.given
    · rw [hword]
      exact hf.position
    · rw [hitem]

/-- After an answer the trees fit, and with an outcome come the items of its trees. Only a reduction
that fails can lose them. -/
theorem Fits.of_respond [Token τ ι] {s next : Session σ ι τ ς} {tok : τ} {given : List τ}
    (hf : f.Fits s.parser given) (hreading : s.parser.accepted = false)
    (hlook : s.parser.lookahead = some tok) {answer : Except LookupError (Move σ ι ρ)}
    {turn : Turn σ ι ρ ε} (h : s.respond T tok answer = (turn, next))
    (hintact : ∀ rule head size e, answer = .ok (.reduce rule head size) → turn ≠ .failed e) :
    (f.grow next turn).Fits next.parser given ∧
      ∀ outcome, turn.result? = some (.ok outcome) →
        (f.grow next turn).Hands next.args outcome := by
  have hnone (e : ParseFailure ε) (outcome : Outcome ρ)
      (houtcome : (Turn.failed e : Turn σ ι ρ ε).result? = some (.ok outcome)) :
      (f.grow next turn).Hands next.args outcome := by cases houtcome
  cases answer with
  | error e =>
    cases h
    exact ⟨hf, hnone _⟩
  | ok move =>
    cases move with
    | goto target =>
      cases h
      exact ⟨hf, hnone _⟩
    | error =>
      cases h
      exact ⟨hf, fun outcome houtcome => by cases houtcome⟩
    | shift target =>
      cases h
      have hword : word { f with standing := .leaf tok :: f.standing } = f.word ++ [tok] := by
        unfold word
        rw [hf.handed hreading, List.append_nil, List.append_nil, List.reverse_cons,
          Tree.word_append, Tree.word_singleton, Tree.leaves]
      refine ⟨⟨?_, ?_, ?_, hf.handed⟩, fun outcome houtcome => by cases houtcome⟩
      · exact congrArg (StackItem.token tok :: ·) hf.items
      · have hgiven := hf.given
        rw [hlook, Option.toList_some] at hgiven
        rw [hgiven]
        exact hword.symm.trans (List.append_nil _).symm
      · have hlength := congrArg List.length hword
        rw [List.length_append, List.length_singleton, hf.position] at hlength
        exact hlength
    | reduce rule head size =>
      obtain ⟨hnext, target, rfl, hhands⟩ :=
        hf.of_reduce T hreading h fun e => hintact rule head size e rfl
      refine ⟨hnext, ?_⟩
      intro outcome houtcome
      cases houtcome
      exact hhands
    | accept =>
      obtain ⟨hnext, ⟨e, rfl⟩ | ⟨rfl, hhands⟩⟩ := hf.of_accept hreading h
      · exact ⟨hnext, hnone e⟩
      · refine ⟨hnext, ?_⟩
        intro outcome houtcome
        cases houtcome
        exact hhands

end Forest

namespace Session

variable {σ ι ρ τ ε ς : Type} [Token τ ι] [TokenSource ς ε τ] (T : ParseTable σ ι ρ)

/-- The table asks for a reduction, and the turn fails at it. -/
def BreaksOff (s : Session σ ι τ ς) : Prop :=
  ∃ current below tok rule head size e next, s.parser.states = current :: below ∧
    T.move current (Token.symbol tok) = .ok (.reduce rule head size) ∧
    s.turn T = (.failed e, next) ∧ e.Internal ∧ next.parser.lookahead = some tok

end Session

namespace Forest

variable {σ ι ρ τ ε ς : Type} [Token τ ι] [TokenSource ς ε τ] (T : ParseTable σ ι ρ)
  {f : Forest τ ι ρ} {s next : Session σ ι τ (Metered ς τ)} {turn : Turn σ ι ρ ε}

/-- A turn that breaks no reduction off keeps the trees in line with the stack and the tokens. -/
theorem Fits.of_turn (hf : f.Fits s.parser s.source.given) (hreading : s.parser.accepted = false)
    (hturn : s.turn T = (turn, next)) (hintact : ¬ s.BreaksOff T) :
    (f.grow next turn).Fits next.parser next.source.given ∧
      ∀ outcome, turn.result? = some (.ok outcome) →
        (f.grow next turn).Hands next.args outcome ∧ next.parser.lookahead ≠ none := by
  have harises := Session.arises T s
  rw [hturn] at harises
  generalize hresult : (turn, next) = result at harises
  cases harises with
  | exceeded =>
    cases hresult
    exact ⟨⟨hf.items, hf.given, hf.position, hf.handed⟩, fun _ h => by cases h⟩
  | stateless =>
    cases hresult
    exact ⟨⟨hf.items, hf.given, hf.position, hf.handed⟩, fun _ h => by cases h⟩
  | @tokenless e source _ hpeek =>
    cases hresult
    have hgiven : source.given = s.source.given :=
      Session.given_of_peek_error (s := s.counted) hpeek
    refine ⟨⟨hf.items, ?_, hf.position, hf.handed⟩, fun _ h => by cases h⟩
    exact hgiven.trans hf.given
  | @answered current below tok source _ hstates hpeek =>
    have hgiven : source.given = f.word ++ [tok] := Session.given_of_peek_ok hpeek hf.given
    have hprimed : f.Fits (s.counted.primed tok source).parser source.given :=
      ⟨hf.items, hgiven, hf.position, hf.handed⟩
    have heffect := Session.effect_respond (ε := ε) T (s.counted.primed tok source) tok
      (T.move current (Token.symbol tok))
    have hmade (rule : ρ) (head : ι) (size : Nat) (e : ParseFailure ε)
        (hmove : T.move current (Token.symbol tok) = .ok (.reduce rule head size)) :
        turn ≠ .failed e := by
      intro hfailed
      rw [← hresult] at heffect
      subst hfailed
      cases heffect with
      | fail hinternal =>
        exact hintact ⟨current, below, tok, rule, head, size, e, _, hstates, hmove, hturn,
          hinternal, rfl⟩
    obtain ⟨hnext, hhands⟩ := hprimed.of_respond T hreading rfl hresult.symm hmade
    rw [← hresult] at heffect
    cases heffect with
    | shift | reject | fail => exact ⟨hnext, fun _ h => by cases h⟩
    | reduce | accept => exact ⟨hnext, fun outcome h => ⟨hhands outcome h, Option.some_ne_none tok⟩⟩

end Forest
end ShiftReduce
