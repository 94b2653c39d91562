import ShiftReduce.Printable

namespace ShiftReduce

/-- The hexadecimal numeral of a character in braces, as `\u` takes it. -/
def codePoint (c : Char) : String := "\\u\x7b" ++ String.ofList (Nat.toDigits 16 c.toNat) ++ "\x7d"

/-- The character between single quotes. -/
def charText (c : Char) : String :=
  "'" ++
    (if c = '\x00' then "\\0"
    else if c = '\t' then "\\t"
    else if c = '\r' then "\\r"
    else if c = '\n' then "\\n"
    else if c = '\\' then "\\\\"
    else if c = '\'' then "\\'"
    else if isPrintable c then c.toString
    else codePoint c) ++ "'"

end ShiftReduce
