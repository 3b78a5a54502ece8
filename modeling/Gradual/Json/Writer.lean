import Gradual.Json.Basic
import Gradual.Text.Quoted

/-!
# Writing JSON text

Strings are quoted; controls and the characters that end a line are written by
their code.
-/

namespace Gradual.Json

def unit (n : Nat) : String :=
  let digits := Text.hex n
  "\\u" ++ "".pushn '0' (4 - digits.length) ++ digits

def endsLine (c : Char) : Bool :=
  c == '\u0085' || c == '\u2028' || c == '\u2029'

def writeChar (c : Char) : String :=
  match c with
  | '"' => "\\\""
  | '\\' => "\\\\"
  | c => if c.toNat < 0x20 || endsLine c then unit c.toNat else String.singleton c

def writeString (s : String) : String :=
  "\"" ++ String.join (s.toList.map writeChar) ++ "\""

mutual

def write : Json → String
  | .null => "null"
  | .bool b => if b then "true" else "false"
  | .int n => toString n
  | .decimal digits => digits
  | .str s => writeString s
  | .arr items => "[" ++ ",".intercalate (writeItems items) ++ "]"
  | .obj fields => "\x7b" ++ ",".intercalate (writeFields fields) ++ "\x7d"

def writeItems : List Json → List String
  | [] => []
  | j :: rest => j.write :: writeItems rest

def writeFields : List (String × Json) → List String
  | [] => []
  | (name, j) :: rest => (writeString name ++ ":" ++ j.write) :: writeFields rest

end

end Gradual.Json
