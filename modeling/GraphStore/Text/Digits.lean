/-!
# Numbers in decimal digits

* `Text.digitsValue` : the number that decimal digits denote;
* `Text.wordOfDigits?` : the same as a machine word, if the text is digits only and the number
  fits.
-/

namespace GraphStore.Text

/-- The number denoted by decimal digits, most significant digit first. -/
def digitsValue (digits : List Char) : Nat :=
  digits.foldl (fun n d => 10 * n + (d.toNat - '0'.toNat)) 0

/-- The machine word spelled by one or more ASCII digits and nothing else. -/
def wordOfDigits? (cs : List Char) : Option UInt64 :=
  if cs ≠ [] ∧ cs.all Char.isDigit ∧ digitsValue cs < UInt64.size then
    some (.ofNat (digitsValue cs))
  else none

end GraphStore.Text
