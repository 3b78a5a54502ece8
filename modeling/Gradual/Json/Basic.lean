/-!
# JSON values

Trees are handed over as JSON values. An integer is a number written without
fraction and exponent; no other number is read as one, whatever its value.
-/

namespace Gradual

inductive Json where
  | null
  | bool (b : Bool)
  | int (n : Int)
  /-- A number that is not an integer, as it was written. -/
  | decimal (digits : String)
  | str (s : String)
  | arr (items : List Json)
  | obj (fields : List (String × Json))

namespace Json

/-- No object in the value has two fields of one name. -/
inductive WellFormed : Json → Prop where
  | null : WellFormed .null
  | bool {b} : WellFormed (.bool b)
  | int {n} : WellFormed (.int n)
  | decimal {digits} : WellFormed (.decimal digits)
  | str {s} : WellFormed (.str s)
  | arr {items} : (∀ j ∈ items, WellFormed j) → WellFormed (.arr items)
  | obj {fields} :
      (fields.map Prod.fst).Nodup → (∀ field ∈ fields, WellFormed field.2) → WellFormed (.obj fields)

def nat (n : Nat) : Json :=
  .int n

def str? : Json → Option String
  | .str s => some s
  | _ => none

def bool? : Json → Option Bool
  | .bool b => some b
  | _ => none

def arr? : Json → Option (List Json)
  | .arr items => some items
  | _ => none

/-- An integer that fits in a signed word of 64 bits. -/
def int64? : Json → Option Int64
  | .int n => if -0x8000000000000000 ≤ n ∧ n < 0x8000000000000000 then some (Int64.ofInt n) else none
  | _ => none

/-- An integer that fits in an unsigned word of 64 bits. -/
def nat? : Json → Option Nat
  | .int n => if 0 ≤ n ∧ n < 0x10000000000000000 then some n.toNat else none
  | _ => none

def field? (name : String) : Json → Option Json
  | .obj fields => fields.lookup name
  | _ => none

/-- One of several named shapes, with its content. A name alone stands for the
name with the content `null`. -/
def variant? : Json → Option (String × Json)
  | .str name => some (name, .null)
  | .obj [(name, content)] => some (name, content)
  | _ => none

theorem sizeOf_variant? {j content : Json} {name : String}
    (h : j.variant? = some (name, content)) : sizeOf content < sizeOf j := by
  unfold variant? at h
  split at h
  · cases h
    obtain ⟨bytes, _⟩ := name
    simp only [null.sizeOf_spec, str.sizeOf_spec, String.ofByteArray.sizeOf_spec]
    omega
  · cases h
    simp only [obj.sizeOf_spec, List.cons.sizeOf_spec, Prod.mk.sizeOf_spec]
    omega
  · cases h

/-- A field among `fields`, which is smaller than all of them together. -/
def member? (name : String) :
    (fields : List (String × Json)) → Option { j : Json // sizeOf j < sizeOf fields }
  | [] => none
  | (k, j) :: rest =>
    if k = name then
      some ⟨j, by simp only [List.cons.sizeOf_spec, Prod.mk.sizeOf_spec]; omega⟩
    else
      (member? name rest).map fun ⟨j, _⟩ => ⟨j, by simp only [List.cons.sizeOf_spec]; omega⟩

end Json

end Gradual
