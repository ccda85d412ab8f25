import GraphStore.Text.Printable

/-!
# Quoted text

* `quoted s` : `s` between quotation marks, with the characters that could be misread escaped;
* `hexText` : a number in lowercase hexadecimal digits without leading zeros;
* `listText`, `recordText`, `openRecordText` : the one-line notation for lists and records.
-/

namespace GraphStore.Text

def hexText (n : Nat) : String := String.ofList (Nat.toDigits 16 n)

/-- A character inside quotation marks. Quotes, backslashes and unprintable characters are
escaped. -/
def escape (c : Char) : String :=
  match c with
  | '\x00' => "\\0"
  | '\t' => "\\t"
  | '\n' => "\\n"
  | '\r' => "\\r"
  | '\"' => "\\\""
  | '\\' => "\\\\"
  | c => if isPrintable c then c.toString else "\\u\x7b" ++ hexText c.toNat ++ "\x7d"

def quoted (s : String) : String := "\"" ++ String.join (s.toList.map escape) ++ "\""

def listText (items : List String) : String := "[" ++ ", ".intercalate items ++ "]"

def mapText (items : List (String × String)) : String :=
  "\x7b" ++ ", ".intercalate (items.map fun (key, value) => key ++ ": " ++ value) ++ "\x7d"

def wrappedText (name inner : String) : String := name ++ "(" ++ inner ++ ")"

def fieldsText (fields : List (String × String)) : String :=
  ", ".intercalate (fields.map fun (name, value) => name ++ ": " ++ value)

def recordText (name : String) (fields : List (String × String)) : String :=
  name ++ " \x7b " ++ fieldsText fields ++ " \x7d"

/-- A named record of which only some fields are shown. -/
def openRecordText (name : String) (fields : List (String × String)) : String :=
  if fields.isEmpty then name ++ " \x7b .. \x7d"
  else name ++ " \x7b " ++ fieldsText fields ++ ", .. \x7d"

def optionText : Option String → String
  | none => "None"
  | some text => wrappedText "Some" text

end GraphStore.Text
