import TaskFarm.Decimal.Numeral
import TaskFarm.Decimal.Positional
import TaskFarm.Wire.Json

/-!
# JSON as text

A reader and a writer of JSON texts.  An integer that fits 64 bits is read as an integer; other
numbers become the nearest double.  The reader is given more fuel than a text of its length can
use up.
-/

namespace TaskFarm.Wire.Json

/-- The white space that JSON allows between its parts. -/
def isSpace (c : Char) : Bool :=
  c == ' ' || c == '\t' || c == '\n' || c == '\r'

/-- The text behind leading white space. -/
def skipSpace (cs : List Char) : List Char :=
  cs.dropWhile isSpace

def hexDigit? (c : Char) : Option Nat :=
  if '0' ≤ c ∧ c ≤ '9' then
    some (c.toNat - '0'.toNat)
  else if 'a' ≤ c ∧ c ≤ 'f' then
    some (c.toNat - 'a'.toNat + 10)
  else if 'A' ≤ c ∧ c ≤ 'F' then
    some (c.toNat - 'A'.toNat + 10)
  else
    none

/-- The number that hexadecimal digits spell. -/
def hexValue? (digits : List Char) : Option Nat :=
  digits.foldlM (fun value c => (hexDigit? c).map fun digit => 16 * value + digit) 0

/-- The first four characters as a code unit, and the rest. -/
def codeUnit? (cs : List Char) : Option (Nat × List Char) :=
  if (cs.take 4).length = 4 then
    (hexValue? (cs.take 4)).map fun unit => (unit, cs.drop 4)
  else
    none

/-- The character behind an escaped `u`; two surrogates make one character. -/
def escapedUnit? (cs : List Char) : Option (Char × List Char) :=
  (codeUnit? cs).bind fun (unit, rest) =>
    if 0xD800 ≤ unit ∧ unit < 0xDC00 then
      if rest.take 2 = ['\\', 'u'] then
        (codeUnit? (rest.drop 2)).bind fun (low, rest) =>
          if 0xDC00 ≤ low ∧ low < 0xE000 then
            some (Char.ofNat (0x10000 + (unit - 0xD800) * 0x400 + (low - 0xDC00)), rest)
          else
            none
      else
        none
    else if 0xDC00 ≤ unit ∧ unit < 0xE000 then
      none
    else
      some (Char.ofNat unit, rest)

/-- The character behind a backslash. -/
def escaped? : List Char → Option (Char × List Char)
  | [] => none
  | c :: rest =>
    if c = 'u' then escapedUnit? rest
    else if c = 'n' then some ('\n', rest)
    else if c = 't' then some ('\t', rest)
    else if c = 'r' then some ('\r', rest)
    else if c = 'b' then some (Char.ofNat 8, rest)
    else if c = 'f' then some (Char.ofNat 12, rest)
    else if c = '"' ∨ c = '\\' ∨ c = '/' then some (c, rest)
    else none

/-- The characters up to the closing quote, and the text behind it. -/
def readString (fuel : Nat) (read : List Char) (cs : List Char) : Option (String × List Char) :=
  match fuel, cs with
  | 0, _ => none
  | _, [] => none
  | fuel + 1, c :: rest =>
    if c = '"' then
      some (String.ofList read.reverse, rest)
    else if c = '\\' then
      (escaped? rest).bind fun (c, rest) => readString fuel (c :: read) rest
    else if c.toNat < 0x20 then
      none
    else
      readString fuel (c :: read) rest

/-- The character may occur in a number. -/
def isNumberChar (c : Char) : Bool :=
  Decimal.isDigit c || c == '-' || c == '+' || c == '.' || c == 'e' || c == 'E'

/-- The value of a number's text: an integer if it is written as one and fits 64 bits. -/
def number? (text : List Char) : Option Json :=
  let (minus, digits) :=
    match text with
    | '-' :: digits => (true, digits)
    | _ => (false, text)
  match digits with
  | [] => none
  | first :: rest =>
    if !Decimal.isDigit first || (first == '0' && (rest.head?.map Decimal.isDigit).getD false) then
      none
    else
      let value := Decimal.digitsValue digits
      if digits.all Decimal.isDigit && !minus && value < UInt64.size then
        some (.natural value)
      else if digits.all Decimal.isDigit && minus && 0 < value && 2 * value ≤ UInt64.size then
        some (.negative value)
      else
        (Decimal.Numeral.read? text).bind fun numeral =>
          if numeral.value.isFinite then some (.float numeral.value) else none

/-- A word of three or four letters, or a number. -/
def readWord (cs : List Char) : Option (Json × List Char) :=
  if cs.take 4 = ['n', 'u', 'l', 'l'] then
    some (.null, cs.drop 4)
  else if cs.take 4 = ['t', 'r', 'u', 'e'] then
    some (.boolean true, cs.drop 4)
  else if cs.take 5 = ['f', 'a', 'l', 's', 'e'] then
    some (.boolean false, cs.drop 5)
  else
    (number? (cs.takeWhile isNumberChar)).map fun value => (value, cs.dropWhile isNumberChar)

mutual

/-- A value at the start of a text, and the text behind it. -/
def readValue : Nat → List Char → Option (Json × List Char)
  | 0, _ => none
  | fuel + 1, cs =>
    match skipSpace cs with
    | '"' :: rest => (readString rest.length [] rest).map fun (s, rest) => (.string s, rest)
    | '[' :: rest =>
      match skipSpace rest with
      | ']' :: rest => some (.array [], rest)
      | rest => (readItems fuel rest).map fun (items, rest) => (.array items, rest)
    | '\x7b' :: rest =>
      match skipSpace rest with
      | '\x7d' :: rest => some (.object [], rest)
      | rest => (readFields fuel rest).map fun (fields, rest) => (.object fields, rest)
    | rest => readWord rest

/-- The items of an array up to its closing bracket. -/
def readItems : Nat → List Char → Option (List Json × List Char)
  | 0, _ => none
  | fuel + 1, cs =>
    (readValue fuel cs).bind fun (item, rest) =>
      match skipSpace rest with
      | ']' :: rest => some ([item], rest)
      | ',' :: rest => (readItems fuel rest).map fun (items, rest) => (item :: items, rest)
      | _ => none

/-- The fields of an object up to its closing brace. -/
def readFields : Nat → List Char → Option (List (String × Json) × List Char)
  | 0, _ => none
  | fuel + 1, cs =>
    match skipSpace cs with
    | '"' :: rest =>
      (readString rest.length [] rest).bind fun (name, rest) =>
        match skipSpace rest with
        | ':' :: rest =>
          (readValue fuel rest).bind fun (value, rest) =>
            match skipSpace rest with
            | '\x7d' :: rest => some ([(name, value)], rest)
            | ',' :: rest =>
              (readFields fuel rest).map fun (fields, rest) => ((name, value) :: fields, rest)
            | _ => none
        | _ => none
    | _ => none

end

def parse? (text : String) : Option Json :=
  let cs := text.toList
  match readValue (2 * cs.length + 2) cs with
  | some (value, rest) => if (skipSpace rest).isEmpty then some value else none
  | none => none

/-- The escaped form of a character inside quotes. -/
def escapeChar (c : Char) : List Char :=
  if c = '"' then ['\\', '"']
  else if c = '\\' then ['\\', '\\']
  else if c.toNat < 0x20 then
    ['\\', 'u', '0', '0', Nat.digitChar (c.toNat / 16), Nat.digitChar (c.toNat % 16)]
  else [c]

def quote (s : String) : String :=
  String.ofList ('"' :: (s.toList.flatMap escapeChar ++ ['"']))

/-- The text of a double: digits with a point, or `null` where there is no such number. -/
def floatText (x : Float) : String :=
  if x.isFinite then
    let digits := Decimal.text x
    if digits.toList.contains '.' then digits else digits ++ ".0"
  else
    "null"

mutual

def compact : Json → String
  | .null => "null"
  | .boolean true => "true"
  | .boolean false => "false"
  | .natural n => toString n
  | .negative n => "-" ++ toString n
  | .float x => floatText x
  | .string s => quote s
  | .array items => "[" ++ String.intercalate "," (compactItems items) ++ "]"
  | .object fields => "\x7b" ++ String.intercalate "," (compactFields fields) ++ "\x7d"

def compactItems : List Json → List String
  | [] => []
  | item :: items => compact item :: compactItems items

def compactFields : List (String × Json) → List String
  | [] => []
  | (name, value) :: fields => (quote name ++ ":" ++ compact value) :: compactFields fields

end

end TaskFarm.Wire.Json
