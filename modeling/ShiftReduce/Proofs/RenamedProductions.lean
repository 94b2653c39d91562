import ShiftReduce.Proofs.CanonicalCollection
import Mathlib.Data.Set.Function

/-! Grammars with the same productions under other numbers: one exploration goes along with the
other, because all that it asks of item sets is which of them are equal. -/
namespace ShiftReduce

/-- The item with another number for its production. -/
def Item.rename (r : ProductionId → ProductionId) (item : Item) : Item :=
  ⟨r item.production, item.index⟩

/-- The items with other numbers for their productions. -/
def renameItems (r : ProductionId → ProductionId) (items : ItemSet) : ItemSet :=
  .ofList (items.toList.map (Item.rename r))

def Exploration.rename (r : ProductionId → ProductionId) (e : Exploration) : Exploration :=
  ⟨e.found.map (renameItems r), e.transitions, e.pending⟩

def Automaton.rename (r : ProductionId → ProductionId) (a : Automaton) : Automaton :=
  ⟨a.states.map (renameItems r), a.transitions⟩

theorem mem_renameItems {r : ProductionId → ProductionId} {items : ItemSet} {j : Item} :
    j ∈ renameItems r items ↔ ∃ i ∈ items, i.rename r = j := by
  rw [renameItems, OrderedSet.mem_ofList, List.mem_map]
  exact Iff.rfl

theorem isEmpty_renameItems (r : ProductionId → ProductionId) (items : ItemSet) :
    (renameItems r items).isEmpty = items.isEmpty := by
  have hsame : (renameItems r items).isEmpty = false ↔ items.isEmpty = false := by
    rw [OrderedSet.isEmpty_eq_false_iff, OrderedSet.isEmpty_eq_false_iff]
    constructor
    · intro ⟨j, hj⟩
      obtain ⟨i, hi, -⟩ := mem_renameItems.mp hj
      exact ⟨i, hi⟩
    · intro ⟨i, hi⟩
      exact ⟨_, mem_renameItems.mpr ⟨i, hi, rfl⟩⟩
  cases hempty : items.isEmpty with
  | false => exact hsame.mpr hempty
  | true =>
    rw [hempty] at hsame
    simpa using hsame

/-- `r` matches the numbers of `g` with those of the same productions in `h`. -/
structure Grammar.Renames (g h : Grammar) (r : ProductionId → ProductionId) : Prop where
  bijOn : Set.BijOn r {p | ∃ q, g.production? p = some q} {p | ∃ q, h.production? p = some q}
  augmented : r .augmented = .augmented
  production : ∀ p q, g.production? p = some q → h.production? (r p) = some q

namespace Grammar.Renames

variable {g h : Grammar} {r : ProductionId → ProductionId} (hr : g.Renames h r)
include hr

theorem exists_production {p : ProductionId} {q : Production} (hp : h.production? p = some q) :
    ∃ p', r p' = p ∧ g.production? p' = some q := by
  obtain ⟨p', ⟨q', hq'⟩, rfl⟩ := hr.bijOn.surjOn ⟨q, hp⟩
  have hsame := hr.production p' q' hq'
  rw [hp] at hsame
  exact ⟨p', rfl, hq'.trans hsame.symm⟩

theorem afterDot?_rename {i : Item} (hi : g.HasItem i) :
    h.afterDot? (i.rename r) = g.afterDot? i := by
  obtain ⟨q, hq, -⟩ := hi
  have hq' : h.production? (i.rename r).production = some q := hr.production _ _ hq
  unfold afterDot?
  rw [hq, hq']
  rfl

theorem rename_injective {i j : Item} (hi : g.HasItem i) (hj : g.HasItem j)
    (hsame : i.rename r = j.rename r) : i = j := by
  obtain ⟨q, hq, -⟩ := hi
  obtain ⟨q', hq', -⟩ := hj
  have hproduction : i.production = j.production :=
    hr.bijOn.injOn ⟨q, hq⟩ ⟨q', hq'⟩ (congrArg Item.production hsame)
  have hindex : (i.rename r).index = (j.rename r).index := congrArg Item.index hsame
  calc
    i = ⟨i.production, i.index⟩ := rfl
    _ = ⟨j.production, j.index⟩ := congrArg₂ Item.mk hproduction hindex
    _ = j := rfl

theorem renameItems_injective {items items' : ItemSet} (hitems : ∀ i ∈ items, g.HasItem i)
    (hitems' : ∀ i ∈ items', g.HasItem i) (hsame : renameItems r items = renameItems r items') :
    items = items' := by
  apply OrderedSet.ext_mem
  intro i
  constructor
  · intro hi
    have hmem : i.rename r ∈ renameItems r items' := hsame ▸ mem_renameItems.mpr ⟨i, hi, rfl⟩
    obtain ⟨j, hj, hji⟩ := mem_renameItems.mp hmem
    rwa [← hr.rename_injective (hitems' j hj) (hitems i hi) hji]
  · intro hi
    have hmem : i.rename r ∈ renameItems r items := hsame ▸ mem_renameItems.mpr ⟨i, hi, rfl⟩
    obtain ⟨j, hj, hji⟩ := mem_renameItems.mp hmem
    rwa [← hr.rename_injective (hitems j hj) (hitems' i hi) hji]

theorem expand_rename {items items' : List Item} (hitems : ∀ i ∈ items, g.HasItem i)
    (hsame : ∀ j, j ∈ items' ↔ ∃ i ∈ items, i.rename r = j) :
    h.expand items' = renameItems r (g.expand items) := by
  apply OrderedSet.ext_mem
  intro j
  rw [mem_renameItems]
  constructor
  · intro hj
    have hentails := h.mem_expand.mp hj
    clear hj
    induction hentails with
    | kernel hj =>
      obtain ⟨i, hi, hij⟩ := (hsame _).mp hj
      exact ⟨i, g.mem_expand_of_mem hi, hij⟩
    | @expansion k j _ hkj ih =>
      obtain ⟨i, hi, rfl⟩ := ih
      obtain ⟨n, hn, q, hq, hhead, hindex⟩ := h.mem_expansion.mp hkj
      rw [hr.afterDot?_rename (g.hasItem_expand hitems hi)] at hn
      obtain ⟨p, hp, hpq⟩ := hr.exists_production hq
      refine ⟨⟨p, 0⟩, g.front_mem_expand hi hn hpq hhead, ?_⟩
      rw [Item.rename, hp, ← hindex]
  · rintro ⟨i, hi, rfl⟩
    have hentails := g.mem_expand.mp hi
    rw [h.mem_expand]
    clear hi
    induction hentails with
    | kernel hi => exact .kernel ((hsame _).mpr ⟨_, hi, rfl⟩)
    | @expansion i j hi hij ih =>
      obtain ⟨n, hn, q, hq, hhead, hindex⟩ := g.mem_expansion.mp hij
      have hknown := g.hasItem_expand hitems (g.mem_expand.mpr hi)
      refine .expansion ih (h.mem_expansion.mpr ⟨n, ?_, q, hr.production _ q hq, hhead, hindex⟩)
      rw [hr.afterDot?_rename hknown, hn]

theorem successor_rename {items : ItemSet} (hitems : ∀ i ∈ items, g.HasItem i) (X : Symbol) :
    h.successor (renameItems r items) X = renameItems r (g.successor items X) := by
  apply hr.expand_rename (fun _ hi => g.hasItem_kernel hi)
  intro j
  rw [h.mem_kernel]
  constructor
  · rintro ⟨k, hk, hX, rfl⟩
    obtain ⟨i, hi, rfl⟩ := mem_renameItems.mp hk
    rw [hr.afterDot?_rename (hitems i hi)] at hX
    exact ⟨i.next, g.mem_kernel.mpr ⟨i, hi, hX, rfl⟩, rfl⟩
  · rintro ⟨j, hj, rfl⟩
    obtain ⟨i, hi, hX, rfl⟩ := g.mem_kernel.mp hj
    refine ⟨i.rename r, mem_renameItems.mpr ⟨i, hi, rfl⟩, ?_, rfl⟩
    rw [hr.afterDot?_rename (hitems i hi), hX]

theorem knows_rename {items : ItemSet} (hitems : ∀ i ∈ items, g.HasItem i) :
    h.Knows (renameItems r items).toList := by
  intro j hj
  obtain ⟨i, hi, rfl⟩ := mem_renameItems.mp hj
  obtain ⟨q, hq, -⟩ := hitems i hi
  exact ⟨q, hr.production _ q hq⟩

end Grammar.Renames

namespace Exploration

variable {g h : Grammar} {r : ProductionId → ProductionId} {e e' : Exploration}

theorem Sound.step {source : StateId} {X : Symbol} (hs : e.Sound g)
    (h : e.step g source X = .ok e') : e'.Sound g := by
  obtain ⟨items, hitems, ⟨-, rfl⟩ | ⟨hfull, hrecord⟩⟩ := step_cases g e e' source X hs h
  · exact hs
  · exact sound_record g e e' source X items hs hitems hfull hrecord

theorem Sound.steps {source : StateId} {symbols : List Symbol} (hs : e.Sound g)
    (h : e.steps g source symbols = .ok e') : e'.Sound g := by
  induction symbols generalizing e with
  | nil =>
    cases h
    exact hs
  | cons X symbols ih =>
    unfold Exploration.steps at h
    split at h
    · cases h
    · rename_i e₁ hstep
      exact ih (hs.step hstep) h

theorem place_rename (hr : g.Renames h r) {found : List ItemSet} {items : ItemSet}
    (hfound : ∀ old ∈ found, ∀ i ∈ old, g.HasItem i) (hitems : ∀ i ∈ items, g.HasItem i) :
    place (found.map (renameItems r)) (renameItems r items) = place found items := by
  have hidx : (found.map (renameItems r)).idxOf? (renameItems r items) = found.idxOf? items := by
    induction found with
    | nil => rfl
    | cons old found ih =>
      obtain ⟨hold, hrest⟩ := List.forall_mem_cons.mp hfound
      have hsame : (renameItems r old == renameItems r items) = (old == items) := by
        rw [Bool.eq_iff_iff, beq_iff_eq, beq_iff_eq]
        exact ⟨hr.renameItems_injective hold hitems, congrArg (renameItems r)⟩
      rw [List.map_cons, List.idxOf?_cons, List.idxOf?_cons, hsame, ih hrest]
  rw [place, place, hidx, List.length_map]

theorem record_rename (hr : g.Renames h r) (hs : e.Sound g) {source : StateId} {X : Symbol}
    {items : ItemSet} (hitems : ∀ i ∈ items, g.HasItem i) :
    (e.rename r).record source X (renameItems r items) =
      (e.record source X items).map (rename r) := by
  have hplace : place (e.rename r).found (renameItems r items) = place e.found items :=
    place_rename hr hs.hasItem hitems
  unfold record
  rw [hplace]
  generalize place e.found items = placed
  obtain ⟨index, new⟩ := placed
  have htransitions : (e.rename r).transitions = e.transitions := rfl
  simp only [htransitions]
  split
  · cases e.transitions.insert source X ⟨index⟩ with
    | error c => rfl
    | ok transitions =>
      cases new with
      | false => rfl
      | true =>
        have hfound : (e.rename r).found ++ [renameItems r items] =
            (e.found ++ [items]).map (renameItems r) := by
          rw [List.map_append]
          rfl
        simp only [if_true, hfound]
        rfl
  · rfl

/-- A step of one exploration is the step of the other. -/
theorem step_rename (hr : g.Renames h r) (hs : e.Sound g) (source : StateId) (X : Symbol) :
    (e.rename r).step h source X = (e.step g source X).map (rename r) := by
  have hfound : (e.rename r).found[source.number]? =
      (e.found[source.number]?).map (renameItems r) := List.getElem?_map
  unfold step
  rw [hfound]
  cases hitems : e.found[source.number]? with
  | none => rfl
  | some items =>
    have hknown := hs.hasItem items (List.mem_of_getElem? hitems)
    simp only [Option.map_some, h.goto_eq_ok (hr.knows_rename hknown) X,
      g.goto_eq_ok (g.knows_of_hasItem hknown) X, hr.successor_rename hknown X,
      isEmpty_renameItems]
    split
    · rfl
    · exact record_rename hr hs fun _ hi => g.hasItem_successor items X hi

theorem steps_rename (hr : g.Renames h r) (hs : e.Sound g) (source : StateId)
    (symbols : List Symbol) :
    (e.rename r).steps h source symbols = (e.steps g source symbols).map (rename r) := by
  induction symbols generalizing e with
  | nil => rfl
  | cons X symbols ih =>
    rw [steps, steps, step_rename hr hs]
    cases hstep : e.step g source X with
    | error x => rfl
    | ok e₁ => exact ih (hs.step hstep)

theorem run_rename (hr : g.Renames h r) (hsymbols : g.symbols = h.symbols) (hs : e.Sound g)
    (budget : Nat) : (e.rename r).run h budget = (e.run g budget).map (rename r) := by
  induction budget generalizing e with
  | zero =>
    have hlength : (e.rename r).found.length = e.found.length := List.length_map _
    rw [run, run, hlength]
    rfl
  | succ budget ih =>
    have hpending : (e.rename r).pending = e.pending := rfl
    rw [run, run, hpending]
    cases hpop : e.pending.pop with
    | none => rfl
    | some popped =>
      obtain ⟨source, pending⟩ := popped
      have hs' : Sound g { e with pending } :=
        { hs with pending := Worklist.valid_pop _ _ hs.pending _ hpop }
      have hsteps := steps_rename hr hs' source g.symbols
      simp only
      rw [← hsymbols]
      have hsame : { e.rename r with pending } = rename r { e with pending } := rfl
      rw [hsame, hsteps]
      cases hstep : steps g source g.symbols { e with pending } with
      | error x => rfl
      | ok e₁ => exact ih (hs'.steps hstep)

end Exploration

/-- The automaton is the same but for the numbers of productions, or there is none. -/
theorem Grammar.Renames.automaton {g h : Grammar} {r : ProductionId → ProductionId}
    (hr : g.Renames h r) (hsymbols : g.symbols = h.symbols) :
    h.automaton = g.automaton.map (Automaton.rename r) := by
  have hstart : h.expand [startItem] = renameItems r (g.expand [startItem]) := by
    apply hr.expand_rename g.hasItem_startItem
    intro j
    simp only [List.mem_singleton, exists_eq_left]
    rw [Item.rename, startItem, hr.augmented]
    exact eq_comm
  have hrun := Exploration.run_rename hr hsymbols (Exploration.sound_start g)
    (StateId.capacity + 1)
  have hsame : Exploration.rename r ⟨[g.expand [startItem]], .empty,
      (Worklist.empty.push StateId.start).2⟩ = ⟨[h.expand [startItem]], .empty,
      (Worklist.empty.push StateId.start).2⟩ := by
    rw [hstart]
    rfl
  rw [hsame] at hrun
  unfold Grammar.automaton
  rw [g.closure_eq_ok (g.knows_of_hasItem g.hasItem_startItem),
    h.closure_eq_ok (h.knows_of_hasItem h.hasItem_startItem)]
  simp only [hrun]
  cases Exploration.run g (StateId.capacity + 1)
      ⟨[g.expand [startItem]], .empty, (Worklist.empty.push StateId.start).2⟩ with
  | error x => rfl
  | ok e => rfl

end ShiftReduce
