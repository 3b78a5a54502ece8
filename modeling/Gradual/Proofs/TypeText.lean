import Gradual.Eval.Error
import Gradual.Expr.Text
import Gradual.Typing.Error

/-!
# A type is known from its text

Parentheses are written in two places only, around a function type before an
arrow and after `ref`. What is written in such a place ends where it ends,
whatever comes after it (`Ty.OperandUnique`); a whole text does so if no arrow
comes after it (`Ty.TextUnique`). The two are shown together, by induction on
the type, and hold in the middle of a message just as well.
-/

namespace Gradual

namespace Ty

/-! ## Operands -/

def operandText (ty : Ty) : String :=
  parenthesize ty.isFn ty.text

theorem text_fn (a b : Ty) :
    (fn a b).text.toList = a.operandText.toList ++ ' ' :: '-' :: '>' :: ' ' :: b.text.toList := by
  simp [text, operandText]

theorem operandText_ref (c : Ty) :
    (ref c).operandText.toList = 'r' :: 'e' :: 'f' :: ' ' :: c.operandText.toList := by
  simp [operandText, parenthesize, isFn, text]

theorem operandText_fn (a b : Ty) : (fn a b).operandText.toList = '(' :: ((fn a b).text.toList ++ [')']) := by
  simp [operandText, parenthesize, isFn]

theorem operandText_of_not_fn {ty : Ty} (h : ty.isFn = false) : ty.operandText = ty.text := by
  simp [operandText, parenthesize, h]

theorem exists_of_isFn {ty : Ty} (h : ty.isFn = true) : ∃ a b, ty = fn a b := by
  cases ty with
  | fn a b => exact ⟨a, b, rfl⟩
  | _ => cases h

theorem text_ne_close (ty : Ty) (r s : List Char) : ty.text.toList ++ r ≠ ')' :: s := by
  induction ty generalizing r with
  | fn a b iha =>
    rw [text_fn]
    cases ha : a.isFn with
    | true => simp [operandText, parenthesize, ha]
    | false =>
      rw [operandText_of_not_fn ha, List.append_assoc]
      exact iha _
  | _ => simp [text]

theorem unit_ne_fn (a b : Ty) (r s : List Char) :
    unit.operandText.toList ++ r ≠ (fn a b).operandText.toList ++ s := by
  intro h
  have hclose : ')' :: r = (fn a b).text.toList ++ ([')'] ++ s) := by
    rw [operandText_fn] at h
    simpa [operandText, parenthesize, isFn, text] using h
  exact text_ne_close _ _ _ hclose.symm

/-! ## Unique reading -/

def NoArrow (r : List Char) : Prop :=
  ¬ [' ', '-', '>', ' '] <+: r

def OperandUnique (a : Ty) : Prop :=
  ∀ (b : Ty) (r s : List Char), a.operandText.toList ++ r = b.operandText.toList ++ s → a = b ∧ r = s

def TextUnique (a : Ty) : Prop :=
  ∀ (b : Ty) (r s : List Char), NoArrow r → NoArrow s → a.text.toList ++ r = b.text.toList ++ s → a = b ∧ r = s

theorem operandUnique_leaf {a : Ty} (ha : a.isComposite = false) : OperandUnique a := by
  intro b r s h
  cases b with
  | fn x y =>
    cases a with
    | unit => exact absurd h (unit_ne_fn x y r s)
    | fn | ref => simp [isComposite] at ha
    | _ => simp [operandText, parenthesize, isFn, text] at h
  | _ => cases a <;> simp_all [operandText, parenthesize, isFn, text, isComposite]

theorem operandUnique_ref {c : Ty} (hc : OperandUnique c) : OperandUnique (ref c) := by
  intro b r s h
  rw [operandText_ref] at h
  cases b with
  | ref c' =>
    rw [operandText_ref] at h
    obtain ⟨rfl, hrest⟩ := hc c' r s (by simpa using h)
    exact ⟨rfl, hrest⟩
  | _ => simp [operandText, parenthesize, isFn, text] at h

theorem operandUnique_fn {a b : Ty} (hab : TextUnique (fn a b)) : OperandUnique (fn a b) := by
  intro ty r s h
  cases ty with
  | fn x y =>
    rw [operandText_fn, operandText_fn] at h
    have hclose : ∀ r, NoArrow (')' :: r) := by simp [NoArrow]
    obtain ⟨hty, hrest⟩ := hab (fn x y) (')' :: r) (')' :: s) (hclose r) (hclose s) (by simpa using h)
    exact ⟨hty, by simpa using hrest⟩
  | unit => exact absurd h.symm (unit_ne_fn a b s r)
  | _ => simp [operandText, parenthesize, isFn, text] at h

theorem textUnique_of_not_fn {a : Ty} (ha : a.isFn = false) (hop : OperandUnique a) : TextUnique a := by
  intro ty r s hr _ h
  rw [← operandText_of_not_fn ha] at h
  cases hty : ty.isFn with
  | false =>
    rw [← operandText_of_not_fn hty] at h
    exact hop ty r s h
  | true =>
    obtain ⟨x, y, rfl⟩ := exists_of_isFn hty
    -- The text of `x` comes first, so `a` is `x`, and the arrow after it is one after `a`.
    rw [text_fn, List.append_assoc] at h
    obtain ⟨-, rfl⟩ := hop x r _ h
    exact absurd ⟨_, rfl⟩ hr

theorem textUnique_fn {a b : Ty} (ha : OperandUnique a) (hb : TextUnique b) : TextUnique (fn a b) := by
  intro ty r s hr hs h
  rw [text_fn, List.append_assoc] at h
  cases hty : ty.isFn with
  | false =>
    rw [← operandText_of_not_fn hty] at h
    obtain ⟨-, rfl⟩ := ha ty _ s h
    exact absurd ⟨_, rfl⟩ hs
  | true =>
    obtain ⟨x, y, rfl⟩ := exists_of_isFn hty
    rw [text_fn, List.append_assoc] at h
    obtain ⟨rfl, h⟩ := ha x _ _ h
    obtain ⟨rfl, hrest⟩ := hb y r s hr hs (by simpa using h)
    exact ⟨rfl, hrest⟩

theorem unique (ty : Ty) : OperandUnique ty ∧ TextUnique ty := by
  induction ty with
  | fn a b iha ihb =>
    have htext := textUnique_fn iha.1 ihb.2
    exact ⟨operandUnique_fn htext, htext⟩
  | ref c ih =>
    have hop := operandUnique_ref ih.1
    exact ⟨hop, textUnique_of_not_fn rfl hop⟩
  | _ => exact ⟨operandUnique_leaf rfl, textUnique_of_not_fn rfl (operandUnique_leaf rfl)⟩

theorem text_append_eq_iff {a b : Ty} {r s : String} (hr : NoArrow r.toList) (hs : NoArrow s.toList) :
    a.text ++ r = b.text ++ s ↔ a = b ∧ r = s := by
  constructor
  · intro h
    have hchars : a.text.toList ++ r.toList = b.text.toList ++ s.toList := by
      rw [← String.toList_append, ← String.toList_append, h]
    obtain ⟨hty, hrest⟩ := a.unique.2 b _ _ hr hs hchars
    exact ⟨hty, String.toList_inj.mp hrest⟩
  · rintro ⟨rfl, rfl⟩
    rfl

theorem text_eq_iff {a b : Ty} : a.text = b.text ↔ a = b := by
  have hend : NoArrow "".toList := by simp [NoArrow]
  have h := text_append_eq_iff (a := a) (b := b) hend hend
  simpa using h

example : (fn (ref int) int).text = "ref Int -> Int" ∧ (ref (fn int int)).text = "ref (Int -> Int)" := ⟨rfl, rfl⟩

end Ty

/-! ## Messages and rendered casts -/

theorem TypeError.mismatch_message_eq_iff {site : Site} {a b a' b' : Ty} :
    (mismatch site a b).message = (mismatch site a' b').message ↔ a = a' ∧ b = b' := by
  have hcomma : ∀ t : Ty, Ty.NoArrow (", got " ++ t.text).toList := by simp [Ty.NoArrow]
  unfold message text
  simp only [String.append_assoc, String.append_right_inj]
  rw [Ty.text_append_eq_iff (hcomma b) (hcomma b')]
  simp only [String.append_right_inj, Ty.text_eq_iff]

theorem RuntimeError.castFailed_message_eq_iff {shown : String} {a b a' b' : Ty} :
    (castFailed shown a b).message = (castFailed shown a' b').message ↔ a = a' ∧ b = b' := by
  -- A space comes after the first type, but no arrow.
  have hspace : ∀ t : Ty, Ty.NoArrow (" is not consistent with " ++ t.text).toList := by simp [Ty.NoArrow]
  unfold message text
  simp only [String.append_assoc, String.append_right_inj]
  rw [Ty.text_append_eq_iff (hspace b) (hspace b')]
  simp only [String.append_right_inj, Ty.text_eq_iff]

theorem Expr.text_cast (ty : Ty) (e : Expr) : (cast ty e).text = "<" ++ ty.text ++ ">" ++ e.text := rfl

theorem Expr.cast_text_eq_iff {a b : Ty} {e e' : Expr} :
    (cast a e).text = (cast b e').text ↔ a = b ∧ e.text = e'.text := by
  have hangle : ∀ s : String, Ty.NoArrow (">" ++ s).toList := by simp [Ty.NoArrow]
  simp only [text_cast, String.append_assoc, String.append_right_inj]
  rw [Ty.text_append_eq_iff (hangle e.text) (hangle e'.text), String.append_right_inj]

/-- Different types have different texts, and are told apart by every message
that speaks of them and by the casts to them. -/
theorem Ty.text_unambiguous :
    (∀ a b : Ty, a.text = b.text ↔ a = b) ∧
    (∀ (site : Site) (a b a' b' : Ty),
      (TypeError.mismatch site a b).message = (TypeError.mismatch site a' b').message ↔ a = a' ∧ b = b') ∧
    (∀ a b : Ty, (TypeError.notAFunction a).message = (TypeError.notAFunction b).message ↔ a = b) ∧
    (∀ a b : Ty, (TypeError.notAReference a).message = (TypeError.notAReference b).message ↔ a = b) ∧
    (∀ (shown : String) (a b a' b' : Ty),
      (RuntimeError.castFailed shown a b).message = (RuntimeError.castFailed shown a' b').message ↔
        a = a' ∧ b = b') ∧
    ∀ (a b : Ty) (e e' : Expr), (Expr.cast a e).text = (Expr.cast b e').text ↔ a = b ∧ e.text = e'.text := by
  refine ⟨fun a b => text_eq_iff, fun site a b a' b' => TypeError.mismatch_message_eq_iff, ?_, ?_,
    fun shown a b a' b' => RuntimeError.castFailed_message_eq_iff, fun a b e e' => Expr.cast_text_eq_iff⟩
  · intro a b
    unfold TypeError.message TypeError.text
    rw [String.append_right_inj, String.append_right_inj, text_eq_iff]
  · intro a b
    unfold TypeError.message TypeError.text
    rw [String.append_right_inj, String.append_right_inj, text_eq_iff]

end Gradual
