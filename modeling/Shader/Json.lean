/-!
# JSON

A reader and a compact printer. A number written without fraction and exponent is an integer of any
size; other numbers are kept as they are written. An object keeps its fields in order, repeated ones
included.
-/

namespace Shader

inductive Json where
  | null
  | bool (b : Bool)
  | integer (n : Int)
  /-- A number with a fraction or an exponent, and the negative zero. -/
  | decimal (text : String)
  | string (s : String)
  | array (items : List Json)
  | object (fields : List (String × Json))

namespace Json

/-! ## Reading -/

def isBlank (c : Char) : Bool := c = ' ' || c = '\n' || c = '\t' || c = '\r'

def skipBlanks (cs : List Char) : List Char := cs.dropWhile isBlank

def after? (word : String) (cs : List Char) : Option (List Char) :=
  if word.toList.isPrefixOf cs then some (cs.drop word.length) else none

def digitsOf (cs : List Char) : List Char := cs.takeWhile Char.isDigit

def natOfDigits (ds : List Char) : Nat := ds.foldl (fun n d => 10 * n + (d.toNat - 48)) 0

def digits? (cs : List Char) : Option (List Char × List Char) :=
  match digitsOf cs with
  | [] => none
  | ds => some (ds, cs.drop ds.length)

def fraction? (cs : List Char) : Option (List Char × List Char) :=
  match cs with
  | '.' :: rest => (digits? rest).map (fun (ds, rest) => ('.' :: ds, rest))
  | _ => some ([], cs)

def exponent? (cs : List Char) : Option (List Char × List Char) :=
  match cs with
  | e :: rest =>
    if e = 'e' || e = 'E' then
      match rest with
      | '+' :: rest => (digits? rest).map (fun (ds, rest) => (e :: '+' :: ds, rest))
      | '-' :: rest => (digits? rest).map (fun (ds, rest) => (e :: '-' :: ds, rest))
      | _ => (digits? rest).map (fun (ds, rest) => (e :: ds, rest))
    else some ([], cs)
  | [] => some ([], cs)

/-- An unsigned number: no digit follows a zero that starts it. -/
def number? (negative : Bool) (cs : List Char) : Option (Json × List Char) := do
  let (whole, rest) ← digits? cs
  if whole.length > 1 && whole.head? = some '0' then none
  else
    let (fraction, rest) ← fraction? rest
    let (exponent, rest) ← exponent? rest
    if fraction.isEmpty && exponent.isEmpty && !(negative && whole = ['0']) then
      let n : Int := natOfDigits whole
      return (.integer (if negative then -n else n), rest)
    else
      let sign := if negative then "-" else ""
      return (.decimal (sign ++ String.ofList (whole ++ fraction ++ exponent)), rest)

def hexDigit? (c : Char) : Option Nat :=
  if '0' ≤ c && c ≤ '9' then some (c.toNat - 48)
  else if 'a' ≤ c && c ≤ 'f' then some (c.toNat - 87)
  else if 'A' ≤ c && c ≤ 'F' then some (c.toNat - 55)
  else none

def hex4? (a b c d : Char) : Option Nat := do
  return (((← hexDigit? a) * 16 + (← hexDigit? b)) * 16 + (← hexDigit? c)) * 16 + (← hexDigit? d)

/-- The character that stands for itself after a backslash, or names a control character. -/
def escaped? (c : Char) : Option Char :=
  if c = '"' || c = '\\' || c = '/' then some c
  else if c = 'b' then some (Char.ofNat 8)
  else if c = 'f' then some (Char.ofNat 12)
  else if c = 'n' then some '\n'
  else if c = 'r' then some '\r'
  else if c = 't' then some '\t'
  else none

/-- One unit of a string: a character, or one half of a character beyond the first 65536. -/
inductive Piece where
  | char (c : Char)
  | high (n : Nat)
  | low (n : Nat)

def pieceOf (n : Nat) : Piece :=
  if 0xD800 ≤ n ∧ n ≤ 0xDBFF then .high (n - 0xD800)
  else if 0xDC00 ≤ n ∧ n ≤ 0xDFFF then .low (n - 0xDC00)
  else .char (Char.ofNat n)

/-- The units of a string up to its closing quote, and the text after that. -/
def pieces? : List Char → Option (List Piece × List Char)
  | [] => none
  | '"' :: rest => some ([], rest)
  | '\\' :: 'u' :: a :: b :: c :: d :: rest => do
    let n ← hex4? a b c d
    let (ps, rest) ← pieces? rest
    return (pieceOf n :: ps, rest)
  | '\\' :: c :: rest => do
    let c ← escaped? c
    let (ps, rest) ← pieces? rest
    return (.char c :: ps, rest)
  | c :: rest => do
    if c.toNat < 0x20 then none
    else
      let (ps, rest) ← pieces? rest
      return (.char c :: ps, rest)

/-- The characters of units; a half without the other one is none. -/
def join? : List Piece → Option (List Char)
  | [] => some []
  | .char c :: ps => (join? ps).map (c :: ·)
  | .high h :: .low l :: ps => (join? ps).map (Char.ofNat (0x10000 + h * 1024 + l) :: ·)
  | .high _ :: _ => none
  | .low _ :: _ => none

/-- The characters of units, with U+FFFD for a half without the other one. -/
def join : List Piece → List Char
  | [] => []
  | .char c :: ps => c :: join ps
  | .high h :: .low l :: ps => Char.ofNat (0x10000 + h * 1024 + l) :: join ps
  | .high _ :: ps | .low _ :: ps => Char.ofNat 0xFFFD :: join ps

/-- A field's name, from after its opening quote. If it is to be `whole`, it has no half
characters. -/
def key? (whole : Bool) (cs : List Char) : Option (String × List Char) := do
  let (ps, rest) ← pieces? cs
  let name ← if whole then join? ps else some (join ps)
  return (String.ofList name, rest)

mutual

/-- The value at the start of the text and the text after it, for a text of less than `fuel`
characters. In an outermost object field names are `whole`. -/
def value? (fuel : Nat) (whole : Bool) (cs : List Char) : Option (Json × List Char) :=
  match fuel with
  | 0 => none
  | fuel + 1 =>
    match cs with
    | 'n' :: rest => (after? "ull" rest).map (.null, ·)
    | 't' :: rest => (after? "rue" rest).map (.bool true, ·)
    | 'f' :: rest => (after? "alse" rest).map (.bool false, ·)
    | '"' :: rest => (pieces? rest).map (fun (ps, rest) => (.string (String.ofList (join ps)), rest))
    | '[' :: rest =>
      match skipBlanks rest with
      | ']' :: rest => some (.array [], rest)
      | rest => (items? fuel rest).map (fun (items, rest) => (.array items, rest))
    | '\x7b' :: rest =>
      match skipBlanks rest with
      | '\x7d' :: rest => some (.object [], rest)
      | rest => (fields? fuel whole rest).map (fun (fields, rest) => (.object fields, rest))
    | '-' :: rest => number? true rest
    | _ => number? false cs

def items? (fuel : Nat) (cs : List Char) : Option (List Json × List Char) :=
  match fuel with
  | 0 => none
  | fuel + 1 => do
    let (item, rest) ← value? fuel false cs
    match skipBlanks rest with
    | ',' :: rest =>
      let (items, rest) ← items? fuel (skipBlanks rest)
      return (item :: items, rest)
    | ']' :: rest => return ([item], rest)
    | _ => none

def fields? (fuel : Nat) (whole : Bool) (cs : List Char) : Option (List (String × Json) × List Char) :=
  match fuel with
  | 0 => none
  | fuel + 1 =>
    match cs with
    | '"' :: rest => do
      let (key, rest) ← key? whole rest
      match skipBlanks rest with
      | ':' :: rest =>
        let (item, rest) ← value? fuel false (skipBlanks rest)
        match skipBlanks rest with
        | ',' :: rest =>
          let (fields, rest) ← fields? fuel whole (skipBlanks rest)
          return ((key, item) :: fields, rest)
        | '\x7d' :: rest => return ([(key, item)], rest)
        | _ => none
      | _ => none
    | _ => none

end

def parse? (s : String) : Option Json := do
  let cs := skipBlanks s.toList
  let (v, rest) ← value? (cs.length + 1) true cs
  if (skipBlanks rest).isEmpty then some v else none

/-! ## Printing -/

def escape (c : Char) : List Char :=
  if c = '"' then ['\\', '"']
  else if c = '\\' then ['\\', '\\']
  else if c = '\n' then ['\\', 'n']
  else if c = '\r' then ['\\', 'r']
  else if c = '\t' then ['\\', 't']
  else if c.toNat < 0x20 then
    let digits := Nat.toDigits 16 c.toNat
    ['\\', 'u'] ++ List.replicate (4 - digits.length) '0' ++ digits
  else [c]

def quote (s : String) : String := "\"" ++ String.ofList (s.toList.flatMap escape) ++ "\""

mutual

def compact : Json → String
  | .null => "null"
  | .bool b => if b then "true" else "false"
  | .integer n => toString n
  | .decimal text => text
  | .string s => quote s
  | .array items => "[" ++ ",".intercalate (compactItems items) ++ "]"
  | .object fields => "\x7b" ++ ",".intercalate (compactFields fields) ++ "\x7d"

def compactItems : List Json → List String
  | [] => []
  | v :: vs => v.compact :: compactItems vs

def compactFields : List (String × Json) → List String
  | [] => []
  | (key, v) :: fs => (quote key ++ ":" ++ v.compact) :: compactFields fs

end

/-! ## Access -/

def field? (v : Json) (key : String) : Option Json :=
  match v with
  | .object fields => (fields.find? (·.1 == key)).map (·.2)
  | _ => none

def toNat? : Json → Option Nat
  | .integer n => n.toNat?
  | _ => none

end Json

end Shader
