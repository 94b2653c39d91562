import ShiftReduce.Automaton

namespace ShiftReduce

/-- The cells of a state, in the order of the symbols of the grammar. -/
abbrev Row : Type := List (Symbol × Action)

structure Table where
  automaton : Automaton
  /-- The place of a row is the number of its state. -/
  rows : List Row
  /-- The productions that reductions refer to. -/
  productions : List Production
deriving DecidableEq, Repr

namespace Table

def row (t : Table) (s : StateId) : Except Misuse Row :=
  match t.rows[s.number]? with
  | some row => .ok row
  | none => .error (.unknownState s)

/-- The action in a state; a symbol without a cell is an error in every state. -/
def action (t : Table) (s : StateId) (X : Symbol) : Except Misuse Action :=
  match t.row s with
  | .error e => .error e
  | .ok row => .ok ((row.lookup X).getD .error)

/-- The lines of a row, one for each cell that is not an error. -/
def rowText (g : Grammar) : Row → Except Dangling String
  | [] => .ok ""
  | (X, action) :: row =>
    if action.isError then rowText g row
    else
      match action.render g with
      | .error d => .error d
      | .ok text =>
        match rowText g row with
        | .error d => .error d
        | .ok rest => .ok ("- " ++ g.nameOf X ++ " => " ++ text ++ "\n" ++ rest)

/-- The text of the rows from state `s` on, parted by empty lines. -/
def rowsText (g : Grammar) (s : Nat) : List Row → Except Dangling String
  | [] => .ok ""
  | row :: rows =>
    match rowText g row with
    | .error d => .error d
    | .ok text =>
      match rowsText g (s + 1) rows with
      | .error d => .error d
      | .ok rest =>
        .ok ((if s = 0 then "" else "\n") ++ (StateId.mk s).heading ++ text ++ rest)

/-- The table in the names of a grammar, which may lack the productions of the table. -/
def render (t : Table) (g : Grammar) : Except Dangling String := rowsText g 0 t.rows

end Table
end ShiftReduce
