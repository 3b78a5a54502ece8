import Gradual.Eval.Bridge
import Gradual.Proofs.Worlds

/-!
# The invariant of a running machine

In a machine that runs a typed tree, the tree or value in focus has a type,
and the frames below take a value of that type, each in its place
(`Machine.Fine`).
-/

namespace Gradual

def RuntimeError.Fine (D : Discipline) : RuntimeError → Prop
  | .scope _ => False
  | .castFailed _ _ target => D.casts target
  | .internal _ _ _ => D.Blind
  | .unchecked _ => False
  | _ => True

/-! ## Frames and stacks -/

/-- The frame takes a value of the first type where the scope is `s`, and leads
to a value of the second type where it is `s'`. -/
inductive FrameFits (D : Discipline) (W : World) :
    Frame → Chain → Place → Scope Ty → Ty → Scope Ty → Ty → Prop where
  | right {c P s s' op r lTy rTy ty} :
      Typed D P s r rTy s' → op.Takes lTy rTy ty → FrameFits D W (.right op r c) c P s lTy s' ty
  | operate {c P s op a lTy rTy ty} :
      HasTy D W a lTy → op.Takes lTy rTy ty → FrameFits D W (.operate op a) c P s rTy s ty
  | branch {c P s st se t e ty tLets eLets} :
      Typed D ⟨P.layers s, tLets⟩ {} t ty st → Typed D ⟨P.layers s, eLets⟩ {} e ty se →
      FrameFits D W (.branch t e c) c P s .bool s ty
  | argument {c P s s' a dom cod} :
      Typed D P s a dom s' → FrameFits D W (.argument a c) c P s (.fn dom cod) s' cod
  | call {c P s f dom cod} :
      HasTy D W (.closure f) (.fn dom cod) → FrameFits D W (.call f) c P s dom s cod
  | seqDone {c P s ty} : FrameFits D W (.seq [] c) c P s ty s ty
  | seqMore {c P s s' e es last ty} :
      Typed D P s (.seq (e :: es)) ty s' → FrameFits D W (.seq (e :: es) c) c P s last s' ty
  | declare {c P s x ty} :
      s.binds x = false → x ∈ P.lets → FrameFits D W (.declare x c) c P s ty (s.insert x ty) .unit
  | assigned {c P s s' v cell} :
      Typed D P s v cell s' → FrameFits D W (.assigned v c) c P s (.ref cell) s' (.ref cell)
  | write {c P s i cell} :
      HasTy D W (.ref i) (.ref cell) → FrameFits D W (.write i) c P s cell s (.ref cell)
  | deref {c P s cell} : FrameFits D W .deref c P s (.ref cell) s cell
  | allocate {c P s ty} : FrameFits D W (.allocate ty) c P s ty s (.ref ty)
  | print {c P s ty} : FrameFits D W .print c P s ty s .unit
  | cast {c P s eTy ty} : D.casts ty → FrameFits D W (.cast ty) c P s eTy s ty

/-- The stack takes a value of the type, given where the scope is `s`. In the
end there is a value of type `goalTy` and the global scope is `goal`. -/
inductive Accepts (D : Discipline) (W : World) (goal : Scope Ty) (goalTy : Ty) :
    List Frame → Chain → Place → Scope Ty → Ty → Prop where
  | nil {P} : Accepts D W goal goalTy [] [] P goal goalTy
  | frame {f K c P s s' ty ty'} :
      FrameFits D W f c P s ty s' ty' → Accepts D W goal goalTy K c P s' ty' →
      Accepts D W goal goalTy (f :: K) c P s ty
  /-- The end of a branch, whose scope is left without a frame to mark it. -/
  | exit {K n c P P' s s' ty} :
      W.Sees D c (P.layers s) → (∀ i ∈ c, i < n) → Accepts D W goal goalTy K c P s ty →
      Accepts D W goal goalTy K (n :: c) P' s' ty
  | leave {K n c c' P P' s s' ty ty'} :
      W.Sees D c (P.layers s) → (∀ i ∈ c, i < n) → (∀ ρ, D.fits ρ ty → D.fits ρ ty') →
      Accepts D W goal goalTy K c P s ty' → Accepts D W goal goalTy (.leave :: K) (n :: c') P' s' ty

section
variable {D : Discipline} {W W' : World} {goal : Scope Ty} {goalTy : Ty}

theorem FrameFits.mono {f : Frame} {c : Chain} {P : Place} {s s' : Scope Ty} {ty ty' : Ty}
    (h : FrameFits D W f c P s ty s' ty') (hle : W.Le D W') : FrameFits D W' f c P s ty s' ty' := by
  cases h with
  | right hr hop => exact .right hr hop
  | operate ha hop => exact .operate (ha.mono hle) hop
  | branch ht he => exact .branch ht he
  | argument ha => exact .argument ha
  | call hf => exact .call (hf.mono hle)
  | seqDone => exact .seqDone
  | seqMore hs => exact .seqMore hs
  | declare hx hl => exact .declare hx hl
  | assigned hv => exact .assigned hv
  | write hi => exact .write (hi.mono hle)
  | deref => exact .deref
  | allocate => exact .allocate
  | print => exact .print
  | cast ht => exact .cast ht

/-- While the scope at `k` grows, the scopes that the stack comes back to stay
as they are: they are all older. -/
theorem Accepts.mono {k : Option Nat} {K : List Frame} {c : Chain} {P : Place} {s : Scope Ty} {ty : Ty}
    (h : Accepts D W goal goalTy K c P s ty) (hle : W.LeAt D k W')
    (hk : ∀ i ∈ c.head?, ∃ n, k = some n ∧ i ≤ n) : Accepts D W' goal goalTy K c P s ty := by
  -- Chains descend, so what lies below a scope that is no newer than `k` is older than `k`.
  have older : ∀ {c : Chain} {n : Nat}, (∀ i ∈ c, i < n) → (∃ m, k = some m ∧ n ≤ m) →
      k ≠ none ∧ (∀ i ∈ c, some i ≠ k) ∧ ∀ i ∈ c.head?, ∃ m, k = some m ∧ i ≤ m := by
    rintro c n hc ⟨m, rfl, hm⟩
    refine ⟨by simp, fun i hi he => ?_, fun i hi => ⟨m, rfl, ?_⟩⟩
    · have := hc i hi
      have : i = m := by simpa using he
      omega
    · have := hc i (List.mem_of_mem_head? hi)
      omega
  induction h with
  | nil => exact .nil
  | frame hf _ ih => exact .frame (hf.mono hle.toLe) (ih hk)
  | exit hs hn _ ih =>
    obtain ⟨h₁, h₂, h₃⟩ := older hn (hk _ rfl)
    exact .exit (hs.away hle h₁ h₂) hn (ih h₃)
  | leave hs hn hty _ ih =>
    obtain ⟨h₁, h₂, h₃⟩ := older hn (hk _ rfl)
    exact .leave (hs.away hle h₁ h₂) hn hty (ih h₃)

theorem Accepts.top {f : Frame} {K : List Frame} {c : Chain} {P : Place} {s : Scope Ty} {ty : Ty}
    (h : Accepts D W goal goalTy (f :: K) c P s ty) (hs : W.Sees D c (P.layers s)) (hf : f ≠ .leave) :
    ∃ c P s s' ty', W.Sees D c (P.layers s) ∧ FrameFits D W f c P s ty s' ty' ∧
      Accepts D W goal goalTy K c P s' ty' := by
  generalize hK : f :: K = K' at h
  induction h with
  | nil => cases hK
  | frame hfit hrest _ => cases hK; exact ⟨_, _, _, _, _, hs, hfit, hrest⟩
  -- The branch is over: the frame waits in the scope around it.
  | exit hs' _ _ ih => exact ih hs' hK
  | leave _ _ _ _ _ => cases hK; exact absurd rfl hf

theorem Accepts.caller {K : List Frame} {c : Chain} {P : Place} {s : Scope Ty} {ty : Ty}
    (h : Accepts D W goal goalTy (.leave :: K) c P s ty) :
    ∃ c P s ty', W.Sees D c (P.layers s) ∧ (∀ ρ, D.fits ρ ty → D.fits ρ ty') ∧
      Accepts D W goal goalTy K c P s ty' := by
  generalize hK : Frame.leave :: K = K' at h
  induction h with
  | nil => cases hK
  | frame hfit _ _ => cases hK; cases hfit
  | exit _ _ _ ih => exact ih hK
  | leave hs _ hty hrest _ => cases hK; exact ⟨_, _, _, _, hs, hty, hrest⟩

end

/-! ## Machines -/

/-- What holds of a machine all through the run of a typed tree. -/
inductive Machine.Fine (D : Discipline) (goal : Scope Ty) (goalTy : Ty) (W : World) : Machine → Prop where
  | eval {e c P s s' ty K d st} :
      State.Fine D W st → W.Sees D c (P.layers s) → Typed D P s e ty s' →
      Accepts D W goal goalTy K c P s' ty → Machine.Fine D goal goalTy W ⟨.eval e c, K, d, st⟩
  | value {v c P s ty K d st} :
      State.Fine D W st → W.Sees D c (P.layers s) → HasTy D W v ty →
      Accepts D W goal goalTy K c P s ty → Machine.Fine D goal goalTy W ⟨.done (.ok v), K, d, st⟩
  | error {err K d st} :
      State.Fine D W st → RuntimeError.Fine D err →
      Machine.Fine D goal goalTy W ⟨.done (.error err), K, d, st⟩

theorem Machine.Fine.state {D : Discipline} {goal : Scope Ty} {goalTy : Ty} {W : World} {m : Machine}
    (h : m.Fine D goal goalTy W) : m.state.Fine D W := by
  cases h with
  | eval hst _ _ _ => exact hst
  | value hst _ _ _ => exact hst
  | error hst _ => exact hst

end Gradual
