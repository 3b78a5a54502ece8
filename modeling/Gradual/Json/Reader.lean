import Gradual.Json.Basic

/-!
# Reading JSON text

A reader takes characters and gives what it read with the characters left.
-/

namespace Gradual.Json

abbrev Chars := List Char

def skipBlanks (cs : Chars) : Chars :=
  cs.dropWhile fun c => c == ' ' || c == '\t' || c == '\n' || c == '\r'

/-! ## Strings -/

def hexDigit? (c : Char) : Option Nat :=
  if '0' ≤ c ∧ c ≤ '9' then some (c.toNat - '0'.toNat)
  else if 'a' ≤ c ∧ c ≤ 'f' then some (c.toNat - 'a'.toNat + 10)
  else if 'A' ≤ c ∧ c ≤ 'F' then some (c.toNat - 'A'.toNat + 10)
  else none

def hexUnit? (a b c d : Char) : Option Nat := do
  return (((← hexDigit? a) * 16 + (← hexDigit? b)) * 16 + (← hexDigit? c)) * 16 + (← hexDigit? d)

def isHighSurrogate (u : Nat) : Bool :=
  0xd800 ≤ u && u < 0xdc00

def isLowSurrogate (u : Nat) : Bool :=
  0xdc00 ≤ u && u < 0xe000

def escaped? : Char → Option Char
  | '"' => some '"'
  | '\\' => some '\\'
  | '/' => some '/'
  | 'b' => some '\x08'
  | 'f' => some '\x0c'
  | 'n' => some '\n'
  | 'r' => some '\r'
  | 't' => some '\t'
  | _ => none

/-- The rest of a string whose opening quote and first characters were read.
A code above `ffff` is written as a pair of surrogates. -/
def readString (read : String) : Chars → Option (String × Chars)
  | '"' :: cs => some (read, cs)
  | '\\' :: 'u' :: a :: b :: c :: d :: cs =>
    match hexUnit? a b c d with
    | none => none
    | some u =>
      if isHighSurrogate u then
        match cs with
        | '\\' :: 'u' :: a :: b :: c :: d :: cs =>
          match hexUnit? a b c d with
          | none => none
          | some l =>
            if isLowSurrogate l then
              readString (read.push (Char.ofNat (0x10000 + (u - 0xd800) * 0x400 + (l - 0xdc00)))) cs
            else none
        | _ => none
      else if isLowSurrogate u then none
      else readString (read.push (Char.ofNat u)) cs
  | '\\' :: c :: cs =>
    match escaped? c with
    | some c => readString (read.push c) cs
    | none => none
  | c :: cs => if c.toNat < 0x20 then none else readString (read.push c) cs
  | [] => none

/-! ## Numbers -/

def takeDigits (cs : Chars) : Chars × Chars :=
  cs.span Char.isDigit

def natOfDigits (ds : Chars) : Nat :=
  ds.foldl (fun n c => n * 10 + (c.toNat - '0'.toNat)) 0

def takeFraction : Chars → Option (Chars × Chars)
  | '.' :: cs =>
    match takeDigits cs with
    | ([], _) => none
    | (ds, cs) => some ('.' :: ds, cs)
  | cs => some ([], cs)

def isExponentMark (c : Char) : Bool :=
  c == 'e' || c == 'E'

def takeExponent : Chars → Option (Chars × Chars)
  | c :: cs =>
    if isExponentMark c then
      let (sign, cs) := match cs with
        | '+' :: cs => (['+'], cs)
        | '-' :: cs => (['-'], cs)
        | cs => ([], cs)
      match takeDigits cs with
      | ([], _) => none
      | (ds, cs) => some (c :: sign ++ ds, cs)
    else some ([], c :: cs)
  | [] => some ([], [])

/-- A number. Without fraction and exponent it is an integer, except that a
zero with a sign is none. -/
def readNumber (cs : Chars) : Option (Json × Chars) := do
  let (sign, cs) := match cs with
    | '-' :: cs => (['-'], cs)
    | cs => ([], cs)
  let (whole, cs) := takeDigits cs
  if whole.isEmpty || (whole.length > 1 && whole.head? == some '0') then none
  let (fraction, cs) ← takeFraction cs
  let (exponent, cs) ← takeExponent cs
  let n := natOfDigits whole
  if fraction.isEmpty && exponent.isEmpty && !(n == 0 && !sign.isEmpty) then
    return (.int (if sign.isEmpty then n else -n), cs)
  else
    return (.decimal (String.ofList (sign ++ whole ++ fraction ++ exponent)), cs)

/-! ## Values -/

/-- Adds a field; of two fields of one name the later one counts. -/
def addField (fields : List (String × Json)) (name : String) (j : Json) : List (String × Json) :=
  (name, j) :: fields.filter (·.1 != name)

mutual

/-- A value, nested no deeper than `fuel`. -/
def readValue : Nat → Chars → Option (Json × Chars)
  | 0, _ => none
  | fuel + 1, cs =>
    match skipBlanks cs with
    | '\x7b' :: cs =>
      match skipBlanks cs with
      | '\x7d' :: cs => some (.obj [], cs)
      | cs => readFields fuel [] cs
    | '[' :: cs =>
      match skipBlanks cs with
      | ']' :: cs => some (.arr [], cs)
      | cs => readItems fuel [] cs
    | '"' :: cs =>
      match readString "" cs with
      | some (s, cs) => some (.str s, cs)
      | none => none
    | 'n' :: 'u' :: 'l' :: 'l' :: cs => some (.null, cs)
    | 't' :: 'r' :: 'u' :: 'e' :: cs => some (.bool true, cs)
    | 'f' :: 'a' :: 'l' :: 's' :: 'e' :: cs => some (.bool false, cs)
    | cs => readNumber cs

/-- The rest of an array of which `read` was read, the last item first. -/
def readItems : Nat → List Json → Chars → Option (Json × Chars)
  | 0, _, _ => none
  | fuel + 1, read, cs =>
    match readValue fuel cs with
    | none => none
    | some (j, cs) =>
      match skipBlanks cs with
      | ',' :: cs => readItems fuel (j :: read) cs
      | ']' :: cs => some (.arr (j :: read).reverse, cs)
      | _ => none

/-- The rest of an object of which `read` was read, the last field first. -/
def readFields : Nat → List (String × Json) → Chars → Option (Json × Chars)
  | 0, _, _ => none
  | fuel + 1, read, cs =>
    match skipBlanks cs with
    | '"' :: cs =>
      match readString "" cs with
      | none => none
      | some (name, cs) =>
        match skipBlanks cs with
        | ':' :: cs =>
          match readValue fuel cs with
          | none => none
          | some (j, cs) =>
            match skipBlanks cs with
            | ',' :: cs => readFields fuel (addField read name j) cs
            | '\x7d' :: cs => some (.obj (addField read name j).reverse, cs)
            | _ => none
        | _ => none
    | _ => none

end

/-- The value that a text is, with blanks around it. No value nests deeper
than its text is long, and no step but the one into an item leaves the text as
it is. -/
def parse? (text : String) : Option Json :=
  let cs := text.toList
  match readValue (2 * cs.length + 2) cs with
  | some (j, cs) => if (skipBlanks cs).isEmpty then some j else none
  | none => none

end Gradual.Json
