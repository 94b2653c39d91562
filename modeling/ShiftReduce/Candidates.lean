import ShiftReduce.Automaton
import ShiftReduce.Analysis

namespace ShiftReduce

/-- An action together with the symbol whose cell should hold it. -/
abbrev Candidate : Type := Symbol × Action

namespace Grammar

/-- What one item of state `s` asks for. Acceptance takes the place of shifting the end of input and
of reducing the augmented production. -/
def itemCandidates (g : Grammar) (a : Automaton) (s : StateId) (item : Item) (sets : Analysis) :
    Except BuildError (List Candidate) × Analysis :=
  match g.production? item.production with
  | none => (.error (.misuse (.foreignProduction s item.production)), sets)
  | some p =>
    match p.tail[item.index]? with
    | some (.nonterminal _) => (.ok [], sets)
    | some (.terminal t) =>
      if item.production = .augmented ∧ t = .endOfInput then (.ok [], sets)
      else
        match a.transitions.get? s (.terminal t) with
        | some target => (.ok [(.terminal t, .shift target)], sets)
        | none => (.error (.misuse (.missingTransition s (g.nameOf (.terminal t)))), sets)
    | none =>
      if item.production = .augmented then (.ok [], sets)
      else
        match g.follow (.nonterminal p.head) sets with
        | (.error e, sets) => (.error e, sets)
        | (.ok follow, sets) =>
          (.ok (follow.toList.map fun t => (.terminal t, .reduce item.production)), sets)

/-- What the items of state `s` ask for, item by item. -/
def itemsCandidates (g : Grammar) (a : Automaton) (s : StateId) :
    List Item → Analysis → Except BuildError (List Candidate) × Analysis
  | [], sets => (.ok [], sets)
  | item :: items, sets =>
    match g.itemCandidates a s item sets with
    | (.error e, sets) => (.error e, sets)
    | (.ok candidates, sets) =>
      match g.itemsCandidates a s items sets with
      | (.error e, sets) => (.error e, sets)
      | (.ok rest, sets) => (.ok (candidates ++ rest), sets)

/-- Acceptance, on the end of input where the root is complete. -/
def acceptCandidates (items : ItemSet) : List Candidate :=
  if finalItem ∈ items then [(.endOfInput, .accept)] else []

/-- The transitions of state `s` under nonterminals. -/
def gotoCandidates (a : Automaton) (s : StateId) : List Candidate :=
  (a.transitions.edgesFrom s).filterMap fun (X, target) =>
    match X with
    | .terminal _ => none
    | .nonterminal _ => some (X, .goto target)

/-- All that state `s` asks for: first its items, then acceptance, then its transitions. -/
def stateCandidates (g : Grammar) (a : Automaton) (s : StateId) (items : ItemSet)
    (sets : Analysis) : Except BuildError (List Candidate) × Analysis :=
  match g.itemsCandidates a s items.toList sets with
  | (.error e, sets) => (.error e, sets)
  | (.ok candidates, sets) =>
    (.ok (candidates ++ acceptCandidates items ++ gotoCandidates a s), sets)

end Grammar
end ShiftReduce
