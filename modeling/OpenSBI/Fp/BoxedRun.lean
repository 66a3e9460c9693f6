import OpenSBI.Fp.HighHalf

namespace OpenSBI

variable {x : Xlen}

/-- The instruction behind a trap is the one at the interrupted pc, or the one a misaligned load is
presented with. -/
inductive FpTrap.Carries (env : TrapEnv x) (s : TrapState x) : FpTrap x → Word x → Prop
  | illegal (mtval tval2 tinst word : Word x) (hw : Fetched env s word)
      (hm : mtval=word ∨ rvX mtval 0 2≠3) (ht : andMask tinst 1=0) :
      Carries env s (.illegal mtval tval2 tinst) word
  | misalignedLoad (addr tval2 tinst word : Word x) (len : Nat) (hp : Presented env s tinst word len) :
      Carries env s (.misalignedLoad addr tval2 tinst) word

/-- A trap of a run: the state on entry, and the instruction that took it. -/
structure FpStep (x : Xlen) where
  entry : TrapState x
  trap : FpTrap x
  word : Word x

namespace FpStep

variable (sf : Softfloat) (env : TrapEnv x) (st : FpStep x)

def result : TrapState x := st.trap.handle sf env st.entry

def Emulated : Prop := (st.result sf env).redirects=st.entry.redirects

/-- The slots it writes as singles are boxed already, and those it reads as singles are boxed or read
as the canonical NaN. -/
structure Meets : Prop where
  dest : ∀ r,fpDest st.word=some (.S,r) → Boxed (st.entry.fpr r)
  operands : ∀ i,decodeFp st.word=some i → ∀ r∈i.singleOperands,ReadsBoxed (st.entry.fpr r)

end FpStep

/-- Runs of traps: between two of them the context changes all but the slots. -/
inductive FpRun (sf : Softfloat) (env : TrapEnv x) :
    (Fin 32 → BitVec 64) → List (FpStep x) → (Fin 32 → BitVec 64) → Prop
  | nil (f : Fin 32 → BitVec 64) : FpRun sf env f [] f
  | cons (st : FpStep x) {rest : List (FpStep x)} {g : Fin 32 → BitVec 64}
      (hc : st.trap.Carries env st.entry st.word) (h : FpRun sf env (st.result sf env).fpr rest g) :
      FpRun sf env st.entry.fpr (st::rest) g

section Step

variable {sf : Softfloat} {env : TrapEnv x} {s : TrapState x} {word : Word x} {st : FpStep x}

theorem handle_keepsHigh (he : env.softFp=true) {trap : FpTrap x} (hc : trap.Carries env s word) :
    KeepsHigh word s (trap.handle sf env s) := by
  cases hc with
  | illegal mtval tval2 tinst word hw hm ht => exact sbiIllegalInsnHandler_keepsHigh he hw hm ht
  | misalignedLoad addr tval2 tinst word len hp =>
    exact sbiMisalignedLoadHandler_keepsHigh (trappedInsn_ok hp)

/-- A boxed slot stays so unless a double goes to it. -/
theorem FpStep.keeps (he : env.softFp=true) (hc : st.trap.Carries env st.entry st.word) {r : Fin 32}
    (hr : fpDest st.word≠some (.D,r)) : Boxed ((st.result sf env).fpr r) ↔ Boxed (st.entry.fpr r) := by
  have hk : highHalf ((st.result sf env).fpr r)=highHalf (st.entry.fpr r) :=
    handle_keepsHigh he hc r hr
  show highHalf _=_ ↔ highHalf _=_
  rw [hk]

end Step

section Run

variable {sf : Softfloat} {env : TrapEnv x} {f g : Fin 32 → BitVec 64} {steps : List (FpStep x)}

theorem FpRun.carries (h : FpRun sf env f steps g) {st : FpStep x} (hst : st∈steps) :
    st.trap.Carries env st.entry st.word := by
  induction h with
  | nil f => cases hst
  | cons u hc h ih =>
    obtain he | ht := List.mem_cons.mp hst
    · rw [he]
      exact hc
    · exact ih ht

/-- Over a run, a slot keeps its box until a double goes to it. -/
theorem FpRun.keeps (he : env.softFp=true) (h : FpRun sf env f steps g) {r : Fin 32}
    (hr : ∀ u∈steps,fpDest u.word≠some (.D,r)) : Boxed (g r) ↔ Boxed (f r) := by
  induction h with
  | nil f => rfl
  | cons st hc h ih =>
    rw [ih fun u hu => hr u (List.mem_cons_of_mem st hu)]
    exact FpStep.keeps he hc (hr st (List.mem_cons_self ..))

/-- From boxed slots a run of singles alone finds all slots boxed. -/
theorem FpRun.meets_of_singles (he : env.softFp=true) (h : FpRun sf env f steps g) (hf : ∀ r,Boxed (f r))
    (hs : ∀ u∈steps,∀ r,fpDest u.word≠some (.D,r)) : ∀ st∈steps,st.Meets := by
  induction h with
  | nil f =>
    intro st hst
    cases hst
  | cons u hc h ih =>
    intro st hst
    obtain rfl | ht := List.mem_cons.mp hst
    · exact ⟨fun r _ => hf r,fun i _ r _ => .inl (hf r)⟩
    · refine ih (fun r => ?_) (fun v hv => hs v (List.mem_cons_of_mem u hv)) st ht
      exact (FpStep.keeps he hc (hs u (List.mem_cons_self ..) r)).mpr (hf r)

end Run
end OpenSBI
