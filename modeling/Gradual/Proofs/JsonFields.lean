import Mathlib.Data.List.Nodup
import Gradual.Json.Encode
import Gradual.Json.Reader

/-!
# Fields of JSON objects

In a well-formed value no object has two fields of one name (`Json.WellFormed`),
so a field that is there is the one that is found by its name. Reading gives
well-formed values only: of two fields of one name the later one is kept
(`Json.parse?_wellFormed`). And trees are encoded to nothing else
(`Expr.toJson_wellFormed`).
-/

namespace Gradual

namespace Json

variable {items : List Json} {fields : List (String × Json)} {j : Json} {name : String}

theorem lookup_eq_some_iff_mem (hnames : (fields.map Prod.fst).Nodup) :
    fields.lookup name = some j ↔ (name, j) ∈ fields := by
  induction fields with
  | nil => simp
  | cons field rest ih =>
    obtain ⟨k, i⟩ := field
    obtain ⟨hk, hrest⟩ := List.nodup_cons.mp hnames
    rw [List.lookup_cons]
    by_cases hname : name = k
    · subst hname
      have hnot : (name, j) ∉ rest := fun hmem => hk (List.mem_map.mpr ⟨(name, j), hmem, rfl⟩)
      simp [hnot, eq_comm]
    · simp [beq_false_of_ne hname, hname, ih hrest]

theorem WellFormed.field?_eq_some_iff (h : (Json.obj fields).WellFormed) :
    (Json.obj fields).field? name = some j ↔ (name, j) ∈ fields := by
  cases h with
  | obj hnames _ => exact lookup_eq_some_iff_mem hnames

/-! ## What is read -/

theorem WellFormed.addField (h : (Json.obj fields).WellFormed) (name : String) (hj : j.WellFormed) :
    (Json.obj (addField fields name j)).WellFormed := by
  cases h with
  | obj hnames hfields =>
    refine .obj (List.nodup_cons.mpr ⟨?_, ?_⟩) fun field hfield => ?_
    · simp
    · exact hnames.sublist (List.filter_sublist.map Prod.fst)
    · rcases List.mem_cons.mp hfield with rfl | hfield
      · exact hj
      · exact hfields field (List.mem_filter.mp hfield).1

theorem WellFormed.addItem (h : (Json.arr items).WellFormed) (hj : j.WellFormed) :
    (Json.arr (j :: items)).WellFormed := by
  cases h with
  | arr hitems => exact .arr (List.forall_mem_cons.mpr ⟨hj, hitems⟩)

theorem WellFormed.reverse_arr (h : (Json.arr items).WellFormed) : (Json.arr items.reverse).WellFormed := by
  cases h with
  | arr hitems => exact .arr fun j hj => hitems j (List.mem_reverse.mp hj)

theorem WellFormed.reverse_obj (h : (Json.obj fields).WellFormed) : (Json.obj fields.reverse).WellFormed := by
  cases h with
  | obj hnames hfields =>
    refine .obj ?_ fun field hfield => hfields field (List.mem_reverse.mp hfield)
    rw [List.map_reverse]
    exact List.nodup_reverse.mpr hnames

theorem readNumber_wellFormed {cs rest : Chars} (h : readNumber cs = some (j, rest)) : j.WellFormed := by
  simp only [readNumber, Option.bind_eq_bind, Option.pure_def] at h
  -- With a sign or without one, what follows is the same.
  split at h
  all_goals
    split at h
    · cases h
    · obtain ⟨fraction, -, h⟩ := Option.bind_eq_some_iff.mp h
      obtain ⟨exponent, -, h⟩ := Option.bind_eq_some_iff.mp h
      split at h
      · cases h; exact .int
      · cases h; exact .decimal

mutual

theorem readValue_wellFormed : ∀ (fuel : Nat) {cs rest : Chars} {j : Json},
    readValue fuel cs = some (j, rest) → j.WellFormed
  | 0, cs, rest, j, h => by cases h
  | fuel + 1, cs, rest, j, h => by
    rw [readValue] at h
    split at h
    · split at h
      · cases h; exact .obj (by simp) (by simp)
      · exact readFields_wellFormed fuel (.obj (by simp) (by simp)) h
    · split at h
      · cases h; exact .arr (by simp)
      · exact readItems_wellFormed fuel (.arr (by simp)) h
    · split at h
      · cases h; exact .str
      · cases h
    · cases h; exact .null
    · cases h; exact .bool
    · cases h; exact .bool
    · exact readNumber_wellFormed h

theorem readItems_wellFormed : ∀ (fuel : Nat) {read : List Json} {cs rest : Chars} {j : Json},
    (Json.arr read).WellFormed → readItems fuel read cs = some (j, rest) → j.WellFormed
  | 0, read, cs, rest, j, _, h => by cases h
  | fuel + 1, read, cs, rest, j, hread, h => by
    rw [readItems] at h
    split at h
    · cases h
    · rename_i i cs' hi
      have hitem := readValue_wellFormed fuel hi
      split at h
      · exact readItems_wellFormed fuel (hread.addItem hitem) h
      · cases h; exact (hread.addItem hitem).reverse_arr
      · cases h

theorem readFields_wellFormed : ∀ (fuel : Nat) {read : List (String × Json)} {cs rest : Chars} {j : Json},
    (Json.obj read).WellFormed → readFields fuel read cs = some (j, rest) → j.WellFormed
  | 0, read, cs, rest, j, _, h => by cases h
  | fuel + 1, read, cs, rest, j, hread, h => by
    rw [readFields] at h
    split at h
    · split at h
      · cases h
      · split at h
        · split at h
          · cases h
          · rename_i i cs' hi
            have hvalue := readValue_wellFormed fuel hi
            split at h
            · exact readFields_wellFormed fuel (hread.addField _ hvalue) h
            · cases h; exact (hread.addField _ hvalue).reverse_obj
            · cases h
        · cases h
    · cases h

end

theorem parse?_wellFormed {text : String} (h : parse? text = some j) : j.WellFormed := by
  simp only [parse?] at h
  split at h
  · rename_i hread
    split at h
    · cases h; exact readValue_wellFormed _ hread
    · cases h
  · cases h

/-! ## What is written -/

theorem WellFormed.tagged (tag : String) (h : j.WellFormed) : (Json.obj [(tag, j)]).WellFormed :=
  .obj (by simp) (by simpa using h)

end Json

theorem Ty.toJson_wellFormed (ty : Ty) : ty.toJson.WellFormed := by
  induction ty with
  | fn a b iha ihb => exact .tagged _ (.arr (by simp [iha, ihb]))
  | ref c ih => exact .tagged _ ih
  | dyn | bool | int | string | unit => exact .str

theorem BinOp.toJson_wellFormed (op : BinOp) : op.toJson.WellFormed := by
  cases op <;> exact .str

theorem Constant.toJson_wellFormed (c : Constant) : c.toJson.WellFormed := by
  cases c with
  | bool b => exact .tagged _ .bool
  | int n => exact .tagged _ .int
  | str s => exact .tagged _ .str
  | unit => exact .str

namespace Expr

theorem optionalToJson_wellFormed (ty : Option Ty) : (optionalToJson ty).WellFormed := by
  cases ty with
  | none => exact .null
  | some ty => exact ty.toJson_wellFormed

mutual

theorem toJson_wellFormed : ∀ e : Expr, e.toJson.WellFormed
  | .const c => .tagged _ c.toJson_wellFormed
  | .var x => .tagged _ .str
  | .binary op l r => by
    refine .tagged _ (.obj (by simp) ?_)
    simp [op.toJson_wellFormed, toJson_wellFormed l, toJson_wellFormed r]
  | .cond c t e => by
    refine .tagged _ (.obj (by simp) ?_)
    simp [toJson_wellFormed c, toJson_wellFormed t, toJson_wellFormed e]
  | .lam x xTy ret body => by
    refine .tagged _ (.obj (by simp) ?_)
    simp [Json.WellFormed.str, xTy.toJson_wellFormed, optionalToJson_wellFormed ret, toJson_wellFormed body]
  | .app f a => by
    refine .tagged _ (.obj (by simp) ?_)
    simp [toJson_wellFormed f, toJson_wellFormed a]
  | .seq es => .tagged _ (.arr (toJsonAll_wellFormed es))
  | .decl x ty v => by
    refine .tagged _ (.obj (by simp) ?_)
    simp [Json.WellFormed.str, optionalToJson_wellFormed ty, toJson_wellFormed v]
  | .assign t v => by
    refine .tagged _ (.obj (by simp) ?_)
    simp [toJson_wellFormed t, toJson_wellFormed v]
  | .deref t => .tagged _ (toJson_wellFormed t)
  | .alloc v ty => by
    refine .tagged _ (.obj (by simp) ?_)
    simp [toJson_wellFormed v, optionalToJson_wellFormed ty]
  | .print v => .tagged _ (toJson_wellFormed v)
  | .cast ty e => by
    refine .tagged _ (.obj (by simp) ?_)
    simp [ty.toJson_wellFormed, toJson_wellFormed e]

theorem toJsonAll_wellFormed : ∀ es : List Expr, ∀ j ∈ toJsonAll es, j.WellFormed
  | [] => by simp [toJsonAll]
  | e :: es => List.forall_mem_cons.mpr ⟨toJson_wellFormed e, toJsonAll_wellFormed es⟩

end

end Expr

end Gradual
