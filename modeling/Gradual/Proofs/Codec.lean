import Gradual.Json.Decode
import Gradual.Proofs.JsonFields

/-!
# Encoding loses nothing

Decoding the JSON value that a tree was encoded to gives the tree back, and the
same holds of types, constants and operators (`json_lossless`). Tags that types,
constants and trees have in common do no harm, since each is read where only
one of them can stand; the one place where `null` means something of its own is
an optional type, and no type is encoded to it.
-/

namespace Gradual

/-! ## Types, operators and constants -/

theorem Ty.ofJson?_toJson (ty : Ty) : Ty.ofJson? ty.toJson = some ty := by
  induction ty with
  | fn a b iha ihb =>
    rw [Ty.ofJson?]
    simp [Ty.toJson, Json.variant?, iha, ihb]
  | ref c ih =>
    rw [Ty.ofJson?]
    simp [Ty.toJson, Json.variant?, ih]
  | _ =>
    rw [Ty.ofJson?]
    simp [Ty.toJson, Json.variant?]

theorem Ty.toJson_ne_null (ty : Ty) : ty.toJson ≠ .null := by
  cases ty <;> simp [Ty.toJson]

theorem BinOp.ofJson?_toJson (op : BinOp) : BinOp.ofJson? op.toJson = some op := by
  cases op <;> rfl

theorem Json.int64?_toInt (n : Int64) : (Json.int n.toInt).int64? = some n := by
  have hlo := n.le_toInt
  have hhi := n.toInt_lt
  simp only [Json.int64?]
  rw [if_pos ⟨by omega, by omega⟩, Int64.ofInt_toInt]

theorem Constant.ofJson?_toJson (c : Constant) : Constant.ofJson? c.toJson = some c := by
  cases c with
  | int n => simp [Constant.ofJson?, Constant.toJson, Json.variant?, Json.int64?_toInt]
  | _ => rfl

/-! ## Trees -/

namespace Expr

theorem optionalTy?_of_ne_null {j : Json} (h : j ≠ .null) : optionalTy? (some j) = (Ty.ofJson? j).map some := by
  cases j with
  | null => exact absurd rfl h
  | _ => rfl

theorem optionalTy?_toJson (ty : Option Ty) : optionalTy? (some (optionalToJson ty)) = some ty := by
  cases ty with
  | none => rfl
  | some ty =>
    rw [optionalToJson, optionalTy?_of_ne_null ty.toJson_ne_null, Ty.ofJson?_toJson]
    rfl

mutual

theorem ofJson?_toJson : ∀ e : Expr, ofJson? e.toJson = some e
  | .const c => by
    rw [ofJson?]
    simp [toJson, Json.variant?, Constant.ofJson?_toJson]
  | .var x => by
    rw [ofJson?]
    simp [toJson, Json.variant?]
  | .binary op l r => by
    have hl := ofJson?_toJson l
    have hr := ofJson?_toJson r
    rw [ofJson?]
    simp [toJson, Json.variant?, Json.member?, BinOp.ofJson?_toJson, hl, hr]
  | .cond c t e => by
    have hc := ofJson?_toJson c
    have ht := ofJson?_toJson t
    have he := ofJson?_toJson e
    rw [ofJson?]
    simp [toJson, Json.variant?, Json.member?, hc, ht, he]
  | .lam x xTy ret body => by
    have hb := ofJson?_toJson body
    rw [ofJson?]
    simp [toJson, Json.variant?, Json.member?, List.lookup_cons, Json.str?, Ty.ofJson?_toJson,
      optionalTy?_toJson, hb]
  | .app f a => by
    have hf := ofJson?_toJson f
    have ha := ofJson?_toJson a
    rw [ofJson?]
    simp [toJson, Json.variant?, Json.member?, hf, ha]
  | .seq es => by
    have hes := mapM_ofJson?_toJsonAll es
    rw [ofJson?]
    simp [toJson, Json.variant?, hes]
  | .decl x ty v => by
    have hv := ofJson?_toJson v
    rw [ofJson?]
    simp [toJson, Json.variant?, Json.member?, List.lookup_cons, Json.str?, optionalTy?_toJson, hv]
  | .assign t v => by
    have ht := ofJson?_toJson t
    have hv := ofJson?_toJson v
    rw [ofJson?]
    simp [toJson, Json.variant?, Json.member?, ht, hv]
  | .deref t => by
    have ht := ofJson?_toJson t
    rw [ofJson?]
    simp [toJson, Json.variant?, ht]
  | .alloc v ty => by
    have hv := ofJson?_toJson v
    rw [ofJson?]
    simp [toJson, Json.variant?, Json.member?, List.lookup_cons, optionalTy?_toJson, hv]
  | .print v => by
    have hv := ofJson?_toJson v
    rw [ofJson?]
    simp [toJson, Json.variant?, hv]
  | .cast ty e => by
    have he := ofJson?_toJson e
    rw [ofJson?]
    simp [toJson, Json.variant?, Json.member?, Ty.ofJson?_toJson, he]

theorem mapM_ofJson?_toJsonAll : ∀ es : List Expr, (toJsonAll es).mapM ofJson? = some es
  | [] => by simp [toJsonAll]
  | e :: es => by
    have he := ofJson?_toJson e
    have hes := mapM_ofJson?_toJsonAll es
    simp [toJsonAll, he, hes]

end

end Expr

/-! ## What follows -/

structure Lossless {α : Type} (encode : α → Json) (decode : Json → Option α) : Prop where
  wellFormed : ∀ a, (encode a).WellFormed
  decode_encode : ∀ a, decode (encode a) = some a
  encode_injective : ∀ a b, encode a = encode b → a = b
  /-- The value may have been spelled in another way than it is encoded. -/
  decode_again : ∀ j a, decode j = some a → decode (encode a) = some a

theorem Lossless.of_decode_encode {α : Type} {encode : α → Json} {decode : Json → Option α}
    (hw : ∀ a, (encode a).WellFormed) (h : ∀ a, decode (encode a) = some a) : Lossless encode decode := by
  refine ⟨hw, h, fun a b hab => ?_, fun _ a _ => h a⟩
  have hb := h b
  rw [← hab, h a] at hb
  exact Option.some.inj hb

theorem json_lossless :
    Lossless Expr.toJson Expr.ofJson? ∧ Lossless Ty.toJson Ty.ofJson? ∧
      Lossless Constant.toJson Constant.ofJson? ∧ Lossless BinOp.toJson BinOp.ofJson? :=
  ⟨.of_decode_encode Expr.toJson_wellFormed Expr.ofJson?_toJson,
    .of_decode_encode Ty.toJson_wellFormed Ty.ofJson?_toJson,
    .of_decode_encode Constant.toJson_wellFormed Constant.ofJson?_toJson,
    .of_decode_encode BinOp.toJson_wellFormed BinOp.ofJson?_toJson⟩

end Gradual
