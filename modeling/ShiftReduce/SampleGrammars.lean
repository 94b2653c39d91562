import ShiftReduce.Definition

namespace ShiftReduce
namespace SampleGrammars

/-- The declarations of a grammar written with names: its terminals, its nonterminals, its rules. -/
def declarations (terminals nonterminals : List String) (rules : List (String × List String)) :
    List Declaration :=
  let symbol (name : String) : Symbol :=
    match terminals.idxOf? name with
    | some i => .terminal ⟨i + 1⟩
    | none => .nonterminal ⟨nonterminals.idxOf name + 1⟩
  terminals.map .terminal ++ nonterminals.map .nonterminal ++
    rules.map fun (head, tail) => .rule (symbol head) (tail.map symbol)

def expression : List Declaration :=
  declarations ["+", "*", "(", ")", "id"] ["S", "E", "T", "F"]
    [("S", ["E"]),
     ("E", ["E", "+", "T"]),
     ("E", ["T"]),
     ("T", ["T", "*", "F"]),
     ("T", ["F"]),
     ("F", ["(", "E", ")"]),
     ("F", ["id"])]

def arithmetic : List Declaration :=
  declarations ["(", ")", "+", "-", "*", "/", "NUM"] ["PROGRAM", "EXPR", "FACTOR", "TERM"]
    [("PROGRAM", ["EXPR"]),
     ("EXPR", ["EXPR", "+", "FACTOR"]),
     ("EXPR", ["EXPR", "-", "FACTOR"]),
     ("EXPR", ["FACTOR"]),
     ("FACTOR", ["FACTOR", "*", "TERM"]),
     ("FACTOR", ["FACTOR", "/", "TERM"]),
     ("FACTOR", ["TERM"]),
     ("TERM", ["NUM"]),
     ("TERM", ["(", "EXPR", ")"])]

/-- A list with commas, recursive on the right. -/
def list : List Declaration :=
  declarations ["x", ","] ["START", "LIST"]
    [("START", ["LIST"]),
     ("LIST", ["x", ",", "LIST"]),
     ("LIST", ["x"])]

def json : List Declaration :=
  declarations ["\x7b", "\x7d", "[", "]", ":", ",", "STRING", "NUMBER"]
    ["JSON", "VALUE", "OBJECT", "MEMBERS", "PAIR", "ARRAY", "ELEMENTS"]
    [("JSON", ["VALUE"]),
     ("VALUE", ["OBJECT"]),
     ("VALUE", ["ARRAY"]),
     ("VALUE", ["STRING"]),
     ("VALUE", ["NUMBER"]),
     ("OBJECT", ["\x7b", "MEMBERS", "\x7d"]),
     ("OBJECT", ["\x7b", "\x7d"]),
     ("MEMBERS", ["PAIR"]),
     ("MEMBERS", ["PAIR", ",", "MEMBERS"]),
     ("PAIR", ["STRING", ":", "VALUE"]),
     ("ARRAY", ["[", "ELEMENTS", "]"]),
     ("ARRAY", ["[", "]"]),
     ("ELEMENTS", ["VALUE"]),
     ("ELEMENTS", ["VALUE", ",", "ELEMENTS"])]

/-- No table: after `ID` the end of input follows both `A` and `T`. -/
def assignment : List Declaration :=
  declarations ["=", "+", "ID", "NUM"] ["A", "E", "T"]
    [("A", ["E", "=", "E"]),
     ("A", ["ID"]),
     ("E", ["E", "+", "T"]),
     ("E", ["T"]),
     ("T", ["NUM"]),
     ("T", ["ID"])]

/-- No table: `A -> x` is said twice. -/
def duplicate : List Declaration :=
  declarations ["x"] ["S", "A"]
    [("S", ["A"]),
     ("A", ["x"]),
     ("A", ["x"])]

/-- No FIRST sets: `A` and `B` begin with each other. -/
def indirectLeftRecursion : List Declaration :=
  declarations ["a", "b", "c"] ["S", "A", "B"]
    [("S", ["A"]),
     ("A", ["B", "a"]),
     ("B", ["A", "b"]),
     ("B", ["c"])]

/-- No FOLLOW sets for `A` and `B`, which end with each other. -/
def cyclicFollow : List Declaration :=
  declarations ["a", "b", "c", "d"] ["S", "A", "B"]
    [("S", ["a", "A"]),
     ("A", ["b", "B"]),
     ("A", ["c"]),
     ("B", ["d", "A"])]

end SampleGrammars
end ShiftReduce
