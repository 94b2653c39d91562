namespace ShiftReduce

/-- The decimal numeral of `n`, filled up with zeros on the left to three digits. -/
def threeDigits (n : Nat) : String :=
  if n < 10 then "00" ++ toString n
  else if n < 100 then "0" ++ toString n
  else toString n

/-- A name between an opening and a closing quote. -/
def quoted (name : String) : String := "`" ++ name ++ "'"

end ShiftReduce
