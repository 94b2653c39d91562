import ShiftReduce.AnalysisText
import ShiftReduce.AutomatonText
import ShiftReduce.Candidates
import ShiftReduce.Table

/-! The first candidate of a cell is its action, and each candidate that differs from it is a
conflict. -/
namespace ShiftReduce

/-- A row while candidates are being written into it. -/
structure RowDraft where
  cells : Row
  conflicts : List Conflict
deriving DecidableEq, Repr

namespace RowDraft

def empty : RowDraft := ⟨[], []⟩

def write (g : Grammar) (s : StateId) (draft : RowDraft) (candidate : Candidate) : RowDraft :=
  match draft.cells.lookup candidate.1 with
  | none => { draft with cells := draft.cells ++ [candidate] }
  | some existing =>
    if existing = candidate.2 then draft
    else
      { draft with
        conflicts := draft.conflicts ++
          [⟨s, candidate.1, g.nameOf candidate.1, existing, candidate.2⟩] }

def ofCandidates (g : Grammar) (s : StateId) (candidates : List Candidate) : RowDraft :=
  candidates.foldl (write g s) empty

/-- The finished row; cells to which nothing was written are errors. -/
def row (g : Grammar) (draft : RowDraft) : Row :=
  g.symbols.map fun X => (X, (draft.cells.lookup X).getD .error)

end RowDraft

/-- How far the search for conflicts goes. -/
structure BuildOptions where
  stopAtConflict : Bool
deriving DecidableEq, Repr

/-- Finds the conflicts of all states. -/
def BuildOptions.thorough : BuildOptions := ⟨false⟩

/-- Finds the first conflict. -/
def BuildOptions.stopping : BuildOptions := ⟨true⟩

namespace Grammar

/-- The rows and conflicts of the states from number `s` on. A search that stops goes no further
than the first state with a conflict. -/
def fillRows (g : Grammar) (o : BuildOptions) (a : Automaton) (s : Nat) :
    List ItemSet → Analysis → Except BuildError (List Row × List Conflict) × Analysis
  | [], sets => (.ok ([], []), sets)
  | items :: states, sets =>
    match g.stateCandidates a ⟨s⟩ items sets with
    | (.error e, sets) => (.error e, sets)
    | (.ok candidates, sets) =>
      let draft := RowDraft.ofCandidates g ⟨s⟩ candidates
      match o.stopAtConflict, draft.conflicts with
      | true, conflict :: _ => (.ok ([draft.row g], [conflict]), sets)
      | _, conflicts =>
        match g.fillRows o a (s + 1) states sets with
        | (.error e, sets) => (.error e, sets)
        | (.ok (rows, more), sets) => (.ok (draft.row g :: rows, conflicts ++ more), sets)

/-- The texts of conflicts, which go into the log. -/
def conflictTexts (g : Grammar) : List Conflict → Except Dangling (List String)
  | [] => .ok []
  | conflict :: conflicts =>
    match conflict.render g with
    | .error d => .error d
    | .ok text =>
      match g.conflictTexts conflicts with
      | .error d => .error d
      | .ok texts => .ok (text :: texts)

/-- The table of an automaton, which may be that of another grammar. -/
def tableOf (g : Grammar) (o : BuildOptions) (a : Automaton) : Except BuildError Table :=
  match (g.fillRows o a 0 a.states .empty).1 with
  | .error e => .error e
  | .ok (rows, []) => .ok ⟨a, rows, g.productions⟩
  | .ok (_, conflicts) =>
    match g.conflictTexts conflicts with
    | .error d => .error (.dangling d)
    | .ok _ => .error (.conflict conflicts)

/-- The events of `tableOf`. -/
def tableOfEvents (g : Grammar) (o : BuildOptions) (a : Automaton) : List Event :=
  let (filled, sets) := g.fillRows o a 0 a.states .empty
  sets.events g ++
    match filled with
    | .error _ => []
    | .ok (rows, []) => [.tableComplete rows.length]
    | .ok (_, conflicts) =>
      match g.conflictTexts conflicts with
      | .error _ => []
      | .ok texts => texts.map .conflictFound

/-- The table of a grammar. -/
def table (g : Grammar) (o : BuildOptions) : Except BuildError Table :=
  match g.automaton with
  | .error e => .error e
  | .ok a => g.tableOf o a

/-- The events of `table`. -/
def tableEvents (g : Grammar) (o : BuildOptions) : List Event :=
  match g.automaton with
  | .error _ => []
  | .ok a => a.events g ++ g.tableOfEvents o a

end Grammar
end ShiftReduce
