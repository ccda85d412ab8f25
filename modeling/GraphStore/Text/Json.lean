import GraphStore.Text.Digits

/-!
# Reading JSON documents

* `Json` : a document as written: members keep their order and repetitions, numbers their
  spelling, and a string that no text corresponds to (half of a surrogate pair) has no content;
* `Json.parse?` : the document a text spells, if it is one document and nothing else;
* `Json.members?` : the members of a record, written as an object or as an array;
* `Json.text?`, `Json.word?`, `Json.bool?` : scalar contents.
-/

namespace GraphStore

inductive Json where
  | null
  | bool (value : Bool)
  | number (spelling : List Char)
  | string (content : Option String)
  | array (items : List Json)
  | object (members : List (Option String × Json))
deriving Inhabited

namespace Json

/-! ## Lexical elements -/

/-- The characters allowed between elements. -/
def isBlank (c : Char) : Bool := c == ' ' || c == '\t' || c == '\n' || c == '\r'

def skipBlanks (cs : List Char) : List Char := cs.dropWhile isBlank

def expect? : List Char → List Char → Option (List Char)
  | [], cs => some cs
  | _ :: _, [] => none
  | e :: es, c :: cs => if e = c then expect? es cs else none

def hexDigit? (c : Char) : Option Nat :=
  if '0' ≤ c ∧ c ≤ '9' then some (c.toNat - '0'.toNat)
  else if 'a' ≤ c ∧ c ≤ 'f' then some (c.toNat - 'a'.toNat + 10)
  else if 'A' ≤ c ∧ c ≤ 'F' then some (c.toNat - 'A'.toNat + 10)
  else none

/-- What one step through a string yields: a character, or a code unit of sixteen bits. -/
inductive Unit16 where
  | char (c : Char)
  | escaped (unit : Nat)

def unit? : List Char → Option (Unit16 × List Char)
  | '\\' :: 'u' :: a :: b :: c :: d :: rest => do
    let unit := (((← hexDigit? a) * 16 + (← hexDigit? b)) * 16 + (← hexDigit? c)) * 16
      + (← hexDigit? d)
    return (.escaped unit, rest)
  | '\\' :: c :: rest =>
    match c with
    | '\"' | '\\' | '/' => some (.char c, rest)
    | 'b' => some (.char '\x08', rest)
    | 'f' => some (.char '\x0c', rest)
    | 'n' => some (.char '\n', rest)
    | 'r' => some (.char '\r', rest)
    | 't' => some (.char '\t', rest)
    | _ => none
  | c :: rest => if c.toNat < 0x20 || c == '\\' then none else some (.char c, rest)
  | [] => none

/-- The code units of a string up to its closing quote, at most `limit` of them. -/
def units? : Nat → List Char → Option (List Unit16 × List Char)
  | 0, _ => none
  | _, '\"' :: rest => some ([], rest)
  | limit + 1, cs => do
    let (unit, rest) ← unit? cs
    let (units, rest) ← units? limit rest
    return (unit :: units, rest)

/-- The text of code units: escaped surrogates count only in pairs. -/
def decode? : List Unit16 → Option (List Char)
  | [] => some []
  | .char c :: rest => (decode? rest).map (c :: ·)
  | .escaped hi :: .escaped lo :: rest =>
    if 0xd800 ≤ hi ∧ hi < 0xdc00 then
      if 0xdc00 ≤ lo ∧ lo < 0xe000 then
        (decode? rest).map (Char.ofNat (0x10000 + (hi - 0xd800) * 0x400 + (lo - 0xdc00)) :: ·)
      else none
    else if 0xdc00 ≤ hi ∧ hi < 0xe000 then none
    else (decode? (.escaped lo :: rest)).map (Char.ofNat hi :: ·)
  | .escaped unit :: rest =>
    if 0xd800 ≤ unit ∧ unit < 0xe000 then none
    else (decode? rest).map (Char.ofNat unit :: ·)

def content? (cs : List Char) : Option (Option String × List Char) := do
  let (units, rest) ← units? (cs.length + 1) cs
  return ((decode? units).map String.ofList, rest)

/-- Leading digits and the text after them; at least one digit is needed. -/
def digits? (cs : List Char) : Option (List Char × List Char) :=
  match cs.takeWhile Char.isDigit with
  | [] => none
  | ds => some (ds, cs.dropWhile Char.isDigit)

/-- A number: no superfluous leading zero, and digits around the point and in the exponent. -/
def number? (cs : List Char) : Option (List Char × List Char) := do
  let (sign, cs) := match cs with
    | '-' :: rest => (['-'], rest)
    | _ => ([], cs)
  let (int, cs) ← digits? cs
  guard (int.head? ≠ some '0' ∨ int.length = 1)
  let (frac, cs) ← match cs with
    | '.' :: rest => do
      let (ds, rest) ← digits? rest
      pure ('.' :: ds, rest)
    | _ => pure ([], cs)
  let (exp, cs) ← match cs with
    | e :: rest =>
      if e = 'e' ∨ e = 'E' then do
        let (sign, rest) := match rest with
          | '+' :: rest => (['+'], rest)
          | '-' :: rest => (['-'], rest)
          | _ => ([], rest)
        let (ds, rest) ← digits? rest
        pure (e :: sign ++ ds, rest)
      else pure ([], cs)
    | [] => pure ([], cs)
  return (sign ++ int ++ frac ++ exp, cs)

/-! ## Documents -/

mutual

/-- A document at the front of a text, nested at most `depth` deep. -/
def value? : Nat → List Char → Option (Json × List Char)
  | 0, _ => none
  | depth + 1, cs =>
    match skipBlanks cs with
    | '\"' :: rest => do
      let (s, rest) ← content? rest
      return (.string s, rest)
    | '[' :: rest => do
      let rest := skipBlanks rest
      if let some rest := expect? [']'] rest then return (.array [], rest)
      let (items, rest) ← items? depth rest
      return (.array items, rest)
    | '\x7b' :: rest => do
      let rest := skipBlanks rest
      if let some rest := expect? ['\x7d'] rest then return (.object [], rest)
      let (members, rest) ← members depth rest
      return (.object members, rest)
    | cs =>
      match expect? "null".toList cs, expect? "true".toList cs, expect? "false".toList cs with
      | some rest, _, _ => some (.null, rest)
      | _, some rest, _ => some (.bool true, rest)
      | _, _, some rest => some (.bool false, rest)
      | _, _, _ => (number? cs).map fun (ds, rest) => (.number ds, rest)

def items? : Nat → List Char → Option (List Json × List Char)
  | 0, _ => none
  | depth + 1, cs => do
    let (item, rest) ← value? depth cs
    match skipBlanks rest with
    | ']' :: rest => return ([item], rest)
    | ',' :: rest => do
      let (items, rest) ← items? depth rest
      return (item :: items, rest)
    | _ => none

def members : Nat → List Char → Option (List (Option String × Json) × List Char)
  | 0, _ => none
  | depth + 1, cs => do
    let rest ← expect? ['\"'] (skipBlanks cs)
    let (name, rest) ← content? rest
    let rest ← expect? [':'] (skipBlanks rest)
    let (item, rest) ← value? depth rest
    match skipBlanks rest with
    | '\x7d' :: rest => return ([(name, item)], rest)
    | ',' :: rest => do
      let (others, rest) ← members depth rest
      return ((name, item) :: others, rest)
    | _ => none

end

def parse? (text : String) : Option Json := do
  let cs := text.toList
  let (doc, rest) ← value? (2 * cs.length + 2) cs
  guard (skipBlanks rest).isEmpty
  return doc

/-! ## Contents -/

def text? : Json → Option String
  | string content => content
  | _ => none

def bool? : Json → Option Bool
  | bool value => some value
  | _ => none

/-- A number spelled with digits only that fits into a machine word. -/
def word? : Json → Option UInt64
  | number spelling => Text.wordOfDigits? spelling
  | _ => none

/-- The members of a record with the given member names. An object gives them by name, each at
most once, and may hold others; an array gives them by position and holds no others. -/
def members? (names : List String) : Json → Option (List (Option Json))
  | object members => do
    guard (members.all fun (name, _) => name.isSome)
    guard (names.all fun name => (members.filter fun m => m.1 = some name).length ≤ 1)
    return names.map fun name => (members.find? fun m => m.1 = some name).map Prod.snd
  | array items => do
    guard (items.length ≤ names.length)
    return (List.range names.length).map fun i => items[i]?
  | _ => none

end Json

end GraphStore
