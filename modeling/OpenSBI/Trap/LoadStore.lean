import OpenSBI.Trap.Access

namespace OpenSBI

variable {x : Xlen}

/-- The fields that select a 32-bit encoding, and those that select a 16-bit one. -/
def Major (insn : Word x) (op f : Nat) : Prop := rvX insn 0 7=op ∧ rvX insn 12 3=f
def Quadrant (insn : Word x) (q f : Nat) : Prop := rvX insn 0 2=q ∧ rvX insn 13 3=f

instance (insn : Word x) (op f : Nat) : Decidable (Major insn op f) :=
  inferInstanceAs (Decidable (_∧_))
instance (insn : Word x) (q f : Nat) : Decidable (Quadrant insn q f) :=
  inferInstanceAs (Decidable (_∧_))

/-- An integer load as the ISA names it; `width` is in bytes. -/
structure LoadInsn where
  rd : Fin 32
  width : Nat
  signed : Bool

/-- The integer load encodings of RV32IC and RV64IC. -/
inductive LoadEncoding (insn : Word x) : LoadInsn → Prop
  | lh (h : Major insn 0x03 1) : LoadEncoding insn ⟨regNum insn 7,2,true⟩
  | lw (h : Major insn 0x03 2) : LoadEncoding insn ⟨regNum insn 7,4,true⟩
  | ld (hx : x=.rv64) (h : Major insn 0x03 3) : LoadEncoding insn ⟨regNum insn 7,8,true⟩
  | lhu (h : Major insn 0x03 5) : LoadEncoding insn ⟨regNum insn 7,2,false⟩
  | lwu (hx : x=.rv64) (h : Major insn 0x03 6) : LoadEncoding insn ⟨regNum insn 7,4,false⟩
  | cLw (h : Quadrant insn 0 2) : LoadEncoding insn ⟨regOf (8+rvX insn 2 3),4,true⟩
  | cLd (hx : x=.rv64) (h : Quadrant insn 0 3) : LoadEncoding insn ⟨regOf (8+rvX insn 2 3),8,true⟩
  | cLwsp (h : Quadrant insn 2 2) (hr : regNum insn 7≠0) : LoadEncoding insn ⟨regNum insn 7,4,true⟩
  | cLdsp (hx : x=.rv64) (h : Quadrant insn 2 3) (hr : regNum insn 7≠0) :
      LoadEncoding insn ⟨regNum insn 7,8,true⟩

/-- The value a load writes, from the little-endian number in memory. -/
def LoadInsn.value (l : LoadInsn) (v : Nat) : Word x :=
  if l.signed then (BitVec.ofNat (8*l.width) v).signExtend x.bits else BitVec.ofNat x.bits v

/-- An integer store: its source register and width in bytes. -/
structure StoreInsn where
  rs2 : Fin 32
  width : Nat

/-- The integer store encodings of RV32IC and RV64IC. -/
inductive StoreEncoding (insn : Word x) : StoreInsn → Prop
  | sh (h : Major insn 0x23 1) : StoreEncoding insn ⟨regNum insn 20,2⟩
  | sw (h : Major insn 0x23 2) : StoreEncoding insn ⟨regNum insn 20,4⟩
  | sd (hx : x=.rv64) (h : Major insn 0x23 3) : StoreEncoding insn ⟨regNum insn 20,8⟩
  | cSw (h : Quadrant insn 0 6) : StoreEncoding insn ⟨regOf (8+rvX insn 2 3),4⟩
  | cSd (hx : x=.rv64) (h : Quadrant insn 0 7) : StoreEncoding insn ⟨regOf (8+rvX insn 2 3),8⟩
  | cSwsp (h : Quadrant insn 2 6) : StoreEncoding insn ⟨regNum insn 2,4⟩
  | cSdsp (hx : x=.rv64) (h : Quadrant insn 2 7) : StoreEncoding insn ⟨regNum insn 2,8⟩

/-- The instruction a handler is given and its length in bytes: the one at the interrupted pc, or
a transformed one in `tinst`, whose bit 1 is clear when the original is a 16-bit one. -/
inductive Presented (env : TrapEnv x) (s : TrapState x) (tinst : Word x) : Word x → Nat → Prop
  | fetched (insn : Word x) (h : andMask tinst 1=0) (hf : Fetched env s insn) :
      Presented env s tinst insn (if rvX insn 0 2=3 then 4 else 2)
  | transformed (h : andMask tinst 1≠0) :
      Presented env s tinst (orMask tinst 3) (if andMask tinst 2≠0 then 4 else 2)

/-- The registers the exit path gives back: slot 0 stands for x0. -/
def archGpr (g : Fin 32 → Word x) (r : Fin 32) : Word x := if r.val=0 then 0 else g r

/-- The entry path clears slot 0, so every slot holds the register it stands for. -/
theorem archGpr_of_zero {g : Fin 32 → Word x} (h : g 0=0) : archGpr g=g := by
  funext r
  by_cases hr : r.val=0
  · have h0 : r=0 := Fin.ext hr
    rw [archGpr,if_pos hr,h0,h]
  · rw [archGpr,if_neg hr]

theorem rvX_quadrant (insn : Word x) : rvX insn 0 2=rvX insn 0 7%4 := by
  rw [rvX,rvX]
  omega

/-- A 16-bit encoding has no 32-bit major opcode. -/
theorem Quadrant.not_major {insn : Word x} {q f op : Nat} (h : Quadrant insn q f) (hq : q≠3)
    (ho : op%4=3) : rvX insn 0 7≠op := by
  intro he
  have hr := rvX_quadrant insn
  rw [h.1,he,ho] at hr
  exact hq hr

theorem rvX_lt (insn : Word x) (s n : Nat) : rvX insn s n<2^n := Nat.mod_lt _ (Nat.two_pow_pos n)

theorem insnLen_quadrant (insn : Word x) : insnLen insn=if rvX insn 0 2=3 then 4 else 2 := by
  have hl : insn.toNat &&& 3=rvX insn 0 2 := by
    rw [rvX,Nat.pow_zero,Nat.div_one]
    exact Nat.and_two_pow_sub_one_eq_mod insn.toNat 2
  rw [insnLen,hl]
  by_cases h : rvX insn 0 2=3
  · rw [if_neg (not_not.mpr h),if_pos h]
  · rw [if_pos h,if_neg h]

theorem orMask_three (tinst : Word x) : rvX (orMask tinst 3) 0 2=3 := by
  rw [rvX,Nat.pow_zero,Nat.div_one,orMask,BitVec.toNat_or,toNat_ofNat_lt (by decide),
    ← Nat.and_two_pow_sub_one_eq_mod _ 2]
  apply Nat.eq_of_testBit_eq
  intro i
  rw [Nat.testBit_and,Nat.testBit_or]
  cases Nat.testBit 3 i <;> simp

/-- Both handlers start from the instruction that is presented. -/
theorem trappedInsn_ok {env : TrapEnv x} {s : TrapState x} {tinst insn : Word x} {len : Nat}
    (h : Presented env s tinst insn len) : trappedInsn env tinst s=.ok (insn,len) := by
  cases h with
  | fetched insn h hf =>
    rw [trappedInsn,if_neg (not_not.mpr h),sbiGetInsn_fetched hf]
    exact congrArg Except.ok (Prod.ext rfl (insnLen_quadrant insn))
  | transformed h =>
    have hl : insnLen (orMask tinst 3)=4 := by
      rw [insnLen_quadrant,if_pos (orMask_three tinst)]
    rw [trappedInsn,if_pos h]
    dsimp only
    rw [hl]

section Loads

theorem sshiftRight_shiftLeft {n k : Nat} (hk : k<n) (a : BitVec n) :
    (a <<< k).sshiftRight k=(a.setWidth (n-k)).signExtend n := by
  apply BitVec.eq_of_getLsbD_eq
  intro i hi
  rw [BitVec.getLsbD_sshiftRight,BitVec.getLsbD_signExtend]
  simp only [hi,decide_true,Bool.true_and,BitVec.getLsbD_shiftLeft,BitVec.getLsbD_setWidth,
    BitVec.msb_eq_getLsbD_last]
  by_cases h : i<n-k
  · have h1 : k+i<n := by omega
    have h2 : ¬n ≤ i := by omega
    simp [h,h1,h2]
  · have h1 : ¬k+i<n := by omega
    have h2 : ¬n ≤ i := by omega
    have h3 : n-1-k=n-k-1 := by omega
    have h4 : n-k-1<n-k := by omega
    have h5 : ¬n-1<k := by omega
    have h6 : n-1<n := by omega
    simp [h,h1,h2,h3,h4,h5,h6]

/-- The shift left and back is a sign extension from the bytes read. -/
theorem shift_value (v : Nat) {w : Nat} (h0 : 0<w) (hw : 8*w ≤ x.bits) :
    (BitVec.ofNat x.bits v <<< ulongShift x w).sshiftRight (ulongShift x w)=
      (BitVec.ofNat (8*w) v).signExtend x.bits := by
  have hb : x.bits-ulongShift x w=8*w := by
    cases x <;> simp only [ulongShift,Xlen.bits] at hw ⊢ <;> omega
  have hlt : ulongShift x w<x.bits := by omega
  rw [sshiftRight_shiftLeft hlt,hb]
  congr 1
  apply BitVec.eq_of_toNat_eq
  rw [BitVec.toNat_setWidth,BitVec.toNat_ofNat,BitVec.toNat_ofNat]
  exact Nat.mod_mod_of_dvd _ (Nat.pow_dvd_pow 2 hw)

theorem regNum_rs2sAsRd (insn : Word x) : regNum (rs2sAsRd insn) SH_RD=regOf (8+rvX insn 2 3) := by
  have h := rvX_lt insn 2 3
  apply Fin.ext
  show rvX (BitVec.ofNat x.bits (rvcRs2s insn*2^SH_RD)) SH_RD 5=(8+rvX insn 2 3)%32
  rw [rvX,toNat_ofNat_lt] <;> simp only [rvcRs2s,SH_RD,SH_RS2C] <;> omega

/-- What the load chain has to find for an encoding. -/
structure LoadPlan.Serves (p : LoadPlan x) (l : LoadInsn) : Prop where
  fp : p.fp=false
  len : p.len=l.width
  rd : regNum p.insn SH_RD=l.rd
  value : ∀ v,(BitVec.ofNat x.bits v <<< p.shift).sshiftRight p.shift=l.value v

theorem serves_signed (insn : Word x) {w : Nat} {rd : Fin 32} (h0 : 0<w) (hw : 8*w ≤ x.bits)
    (hr : regNum insn SH_RD=rd) :
    (LoadPlan.mk false (ulongShift x w) w insn).Serves ⟨rd,w,true⟩ :=
  ⟨rfl,rfl,hr,fun v => by rw [shift_value v h0 hw]; rfl⟩

theorem serves_unsigned (insn : Word x) (w : Nat) :
    (LoadPlan.mk false 0 w insn).Serves ⟨regNum insn SH_RD,w,false⟩ :=
  ⟨rfl,rfl,rfl,fun v => by simp [LoadInsn.value]⟩

theorem regNum_ne_zero {insn : Word x} {s : Nat} : regNum insn s≠0 ↔ rvX insn s 5≠0 := by
  rw [ne_eq,ne_eq,Fin.ext_iff]
  rfl

/-- No pattern of the chain shadows the one that belongs to the encoding. -/
theorem loadPlan_serves (env : TrapEnv x) {insn : Word x} {l : LoadInsn} (h : LoadEncoding insn l) :
    ∃ p,loadPlan env insn=some p ∧ p.Serves l := by
  have hb := x.bits_ge
  cases h with
  | lh h =>
    refine ⟨_,?_,serves_signed insn (by decide) (by omega) rfl⟩
    simp [loadPlan,h.1,h.2]
  | lw h =>
    refine ⟨_,?_,serves_signed insn (by decide) (by omega) rfl⟩
    simp [loadPlan,h.1,h.2]
  | ld hx h =>
    subst hx
    refine ⟨_,?_,serves_signed insn (by decide) (by decide) rfl⟩
    simp [loadPlan,h.1,h.2]
  | lhu h =>
    refine ⟨_,?_,serves_unsigned insn 2⟩
    simp [loadPlan,h.1,h.2]
  | lwu hx h =>
    refine ⟨_,?_,serves_unsigned insn 4⟩
    simp [loadPlan,h.1,h.2,hx]
  | cLw h =>
    have h3 := h.not_major (by decide) (rfl : 3%4=3)
    have h7 := h.not_major (by decide) (rfl : 7%4=3)
    refine ⟨_,?_,serves_signed (rs2sAsRd insn) (by decide) (by omega) (regNum_rs2sAsRd insn)⟩
    simp [loadPlan,h.1,h.2,h3,h7]
  | cLd hx h =>
    subst hx
    have h3 := h.not_major (by decide) (rfl : 3%4=3)
    have h7 := h.not_major (by decide) (rfl : 7%4=3)
    refine ⟨_,?_,serves_signed (rs2sAsRd insn) (by decide) (by decide) (regNum_rs2sAsRd insn)⟩
    simp [loadPlan,h.1,h.2,h3,h7]
  | cLwsp h hr =>
    have h3 := h.not_major (by decide) (rfl : 3%4=3)
    have h7 := h.not_major (by decide) (rfl : 7%4=3)
    have hd : rvX insn SH_RD 5≠0 := regNum_ne_zero.mp hr
    refine ⟨_,?_,serves_signed insn (by decide) (by omega) rfl⟩
    simp [loadPlan,h.1,h.2,h3,h7,hd]
  | cLdsp hx h hr =>
    subst hx
    have h3 := h.not_major (by decide) (rfl : 3%4=3)
    have h7 := h.not_major (by decide) (rfl : 7%4=3)
    have hd : rvX insn SH_RD 5≠0 := regNum_ne_zero.mp hr
    refine ⟨_,?_,serves_signed insn (by decide) (by decide) rfl⟩
    simp [loadPlan,h.1,h.2,h3,h7,hd]

/-- The state after a load without a fault: `rd` and the pc, and nothing else. -/
def LoadDone (s t : TrapState x) (rd : Fin 32) (val : Word x) (len : Nat) : Prop :=
  ∃ g,t={ s with regs := { s.regs with gpr := g,mepc := s.regs.mepc+BitVec.ofNat x.bits len } } ∧
    archGpr g=if rd.val=0 then archGpr s.regs.gpr else Function.update (archGpr s.regs.gpr) rd val

theorem archGpr_update (g : Fin 32 → Word x) (rd : Fin 32) (val : Word x) :
    archGpr (Function.update g rd val)=
      if rd.val=0 then archGpr g else Function.update (archGpr g) rd val := by
  funext r
  by_cases hd : rd.val=0
  · rw [if_pos hd,archGpr,archGpr]
    by_cases hr : r.val=0
    · rw [if_pos hr,if_pos hr]
    · have hne : r≠rd := by
        intro h
        exact hr (h ▸ hd)
      rw [if_neg hr,if_neg hr,Function.update_of_ne hne]
  · rw [if_neg hd]
    by_cases hr : r=rd
    · subst hr
      rw [archGpr,if_neg hd,Function.update_self,Function.update_self]
    · rw [archGpr,Function.update_of_ne hr,Function.update_of_ne hr,archGpr]

theorem loadCommit_done {p : LoadPlan x} {l : LoadInsn} (h : p.Serves l) (s : TrapState x) (v len : Nat) :
    LoadDone s ((loadCommit p v s).advance len) l.rd (l.value v) len := by
  refine ⟨Function.update s.regs.gpr l.rd (l.value v),?_,archGpr_update _ _ _⟩
  simp [loadCommit,h.fp,h.rd,h.value,TrapState.setReg,TrapState.advance]

/-- Misaligned integer loads are emulated exactly, whichever way the instruction is given. -/
theorem sbiMisalignedLoadHandler_exact (env : TrapEnv x) (s : TrapState x)
    (addr tval2 tinst insn : Word x) (len : Nat) (l : LoadInsn)
    (hp : Presented env s tinst insn len) (he : LoadEncoding insn l) :
    (NoFault env.loadFault addr l.width →
      ∃ t,sbiMisalignedLoadHandler env addr tval2 tinst s=(SBI_OK,t) ∧
        LoadDone s t l.rd (l.value (readBytes s.mem addr l.width)) len) ∧
    ∀ f,FirstFault env.loadFault addr l.width f →
      sbiMisalignedLoadHandler env addr tval2 tinst s=
        sbiTrapRedirect env ⟨s.regs.mepc,f.cause,f.tval,f.tval2,f.tinst⟩ s ∧
      (sbiMisalignedLoadHandler env addr tval2 tinst s).2.regs.gpr=s.regs.gpr := by
  obtain ⟨p,hpl,hs⟩ := loadPlan_serves env he
  constructor
  · intro hn
    refine ⟨(loadCommit p (readBytes s.mem addr l.width) s).advance len,?_,loadCommit_done hs s _ len⟩
    rw [sbiMisalignedLoadHandler,trappedInsn_ok hp]
    dsimp only
    rw [hpl]
    dsimp only
    rw [hs.len,loadLoop_ok hn]
  · intro f hf
    have hr : sbiMisalignedLoadHandler env addr tval2 tinst s=
        sbiTrapRedirect env ⟨s.regs.mepc,f.cause,f.tval,f.tval2,f.tinst⟩ s := by
      rw [sbiMisalignedLoadHandler,trappedInsn_ok hp]
      dsimp only
      rw [hpl]
      dsimp only
      rw [hs.len,loadLoop_error hf]
      rfl
    rw [hr]
    exact ⟨rfl,(sbiTrapRedirect_sameContext env _ s).gpr⟩

/-- `lh t0` given as a transformed instruction, at address 1 of a memory that holds 1, 2 there. -/
theorem lh_exact :
    ∃ t,sbiMisalignedLoadHandler (.quiet .rv64) 1 0 0x1283 (.idle 0 fun a => a.setWidth 8)=(SBI_OK,t) ∧
      LoadDone (.idle 0 fun a => a.setWidth 8) t 5
        ((LoadInsn.mk 5 2 true).value (readBytes (fun a : Word .rv64 => a.setWidth 8) 1 2)) 4 :=
  (sbiMisalignedLoadHandler_exact (.quiet .rv64) (.idle 0 fun a => a.setWidth 8) 1 0 0x1283 0x1283 4
    ⟨5,2,true⟩ (.transformed (by decide)) (.lh (by decide))).1 (fun _ _ => rfl)

end Loads

section Stores

variable {env : TrapEnv x} {s : TrapState x} {insn : Word x} {st : StoreInsn}

/-- A store relative to the stack pointer with the five immediate bits in the place of `rd` zero. -/
def SpStoreRdZero (insn : Word x) : Prop := rvX insn 0 2=2 ∧ rvX insn SH_RD 5=0

instance (insn : Word x) : Decidable (SpStoreRdZero insn) := inferInstanceAs (Decidable (_∧_))

theorem storePlan_serves (h : StoreEncoding insn st) (hz : ¬SpStoreRdZero insn) :
    storePlan env s insn=some ⟨st.width,(s.getReg st.rs2).toNat⟩ := by
  cases h with
  | sh h => simp [storePlan,h.1,h.2,SH_RS2]
  | sw h => simp [storePlan,h.1,h.2,SH_RS2]
  | sd hx h => simp [storePlan,h.1,h.2,hx,SH_RS2]
  | cSw h =>
    have h3 := h.not_major (by decide) (rfl : 0x23%4=3)
    have h7 := h.not_major (by decide) (rfl : 0x27%4=3)
    simp [storePlan,h.1,h.2,h3,h7,rvcRs2s,SH_RS2C]
  | cSd hx h =>
    have h3 := h.not_major (by decide) (rfl : 0x23%4=3)
    have h7 := h.not_major (by decide) (rfl : 0x27%4=3)
    simp [storePlan,h.1,h.2,h3,h7,hx,rvcRs2s,SH_RS2C]
  | cSwsp h =>
    have h3 := h.not_major (by decide) (rfl : 0x23%4=3)
    have h7 := h.not_major (by decide) (rfl : 0x27%4=3)
    have hd : rvX insn SH_RD 5≠0 := fun hd => hz ⟨h.1,hd⟩
    simp [storePlan,h.1,h.2,h3,h7,hd,SH_RS2C]
  | cSdsp hx h =>
    have h3 := h.not_major (by decide) (rfl : 0x23%4=3)
    have h7 := h.not_major (by decide) (rfl : 0x27%4=3)
    have hd : rvX insn SH_RD 5≠0 := fun hd => hz ⟨h.1,hd⟩
    simp [storePlan,h.1,h.2,h3,h7,hx,hd,SH_RS2C]

/-- The test taken over from the load chain leaves these stores without a plan. -/
theorem storePlan_none (h : StoreEncoding insn st) (hz : SpStoreRdZero insn) :
    storePlan env s insn=none := by
  have hq := rvX_quadrant insn
  have hz1 := hz.1
  cases h with
  | sh h => rw [h.1,hz1] at hq; exact absurd hq (by decide)
  | sw h => rw [h.1,hz1] at hq; exact absurd hq (by decide)
  | sd hx h => rw [h.1,hz1] at hq; exact absurd hq (by decide)
  | cSw h => exact absurd (hz1.symm.trans h.1) (by decide)
  | cSd hx h => exact absurd (hz1.symm.trans h.1) (by decide)
  | cSwsp h =>
    have h3 := h.not_major (by decide) (rfl : 0x23%4=3)
    have h7 := h.not_major (by decide) (rfl : 0x27%4=3)
    simp [storePlan,h.1,h.2,h3,h7,hz.2]
  | cSdsp hx h =>
    have h3 := h.not_major (by decide) (rfl : 0x23%4=3)
    have h7 := h.not_major (by decide) (rfl : 0x27%4=3)
    simp [storePlan,h.1,h.2,h3,h7,hx,hz.2]

/-- The store handler does what the store says: the bytes and the pc without a fault, the fault's
own redirection otherwise, and in no case a misaligned-store trap. -/
def StoreExact (env : TrapEnv x) (s : TrapState x) (addr tval2 tinst : Word x) (len : Nat)
    (st : StoreInsn) : Prop :=
  (NoFault env.storeFault addr st.width →
    sbiMisalignedStoreHandler env addr tval2 tinst s=(SBI_OK,{ s with
      mem := writeBytes s.mem addr (archGpr s.regs.gpr st.rs2).toNat st.width
      regs := { s.regs with mepc := s.regs.mepc+BitVec.ofNat x.bits len } })) ∧
  (∀ f,FirstFault env.storeFault addr st.width f →
    ∃ mem,sbiMisalignedStoreHandler env addr tval2 tinst s=
      sbiTrapRedirect env ⟨s.regs.mepc,f.cause,f.tval,f.tval2,f.tinst⟩ { s with mem := mem }) ∧
  ∀ trap,(sbiMisalignedStoreHandler env addr tval2 tinst s).2.redirects=s.redirects++[trap] →
    trap.cause≠BitVec.ofNat x.bits CAUSE_MISALIGNED_STORE

theorem FirstFault.cause_ne {f : Fault x} {addr : Word x} {n : Nat}
    (h : FirstFault env.storeFault addr n f) :
    f.cause≠BitVec.ofNat x.bits CAUSE_MISALIGNED_STORE := by
  obtain ⟨i,-,hf,-⟩ := h
  exact env.byteStore hf

theorem storeHandler_ok {addr tval2 tinst : Word x} {len : Nat} (hp : Presented env s tinst insn len)
    (he : StoreEncoding insn st) (hz : ¬SpStoreRdZero insn)
    (hn : NoFault env.storeFault addr st.width) :
    sbiMisalignedStoreHandler env addr tval2 tinst s=(SBI_OK,{ s with
      mem := writeBytes s.mem addr (s.getReg st.rs2).toNat st.width
      regs := { s.regs with mepc := s.regs.mepc+BitVec.ofNat x.bits len } }) := by
  rw [sbiMisalignedStoreHandler,trappedInsn_ok hp]
  dsimp only
  rw [storePlan_serves he hz]
  dsimp only
  rw [storeLoop_ok _ hn]
  rfl

theorem storeHandler_fault (addr tval2 tinst : Word x) {len : Nat} {f : Fault x}
    (hp : Presented env s tinst insn len) (he : StoreEncoding insn st) (hz : ¬SpStoreRdZero insn)
    (hf : FirstFault env.storeFault addr st.width f) :
    ∃ mem,sbiMisalignedStoreHandler env addr tval2 tinst s=
      sbiTrapRedirect env ⟨s.regs.mepc,f.cause,f.tval,f.tval2,f.tinst⟩ { s with mem := mem } := by
  obtain ⟨mem,hm⟩ := storeLoop_error (s := s) (s.getReg st.rs2).toNat hf
  refine ⟨mem,?_⟩
  rw [sbiMisalignedStoreHandler,trappedInsn_ok hp]
  dsimp only
  rw [storePlan_serves he hz]
  dsimp only
  rw [hm]
  rfl

theorem storeHandler_sentBack {addr tval2 tinst : Word x} {len : Nat}
    (hp : Presented env s tinst insn len) (he : StoreEncoding insn st) (hz : SpStoreRdZero insn) :
    sbiMisalignedStoreHandler env addr tval2 tinst s=sbiTrapRedirect env
      ⟨s.regs.mepc,BitVec.ofNat x.bits CAUSE_MISALIGNED_STORE,addr,tval2,tinst⟩ s := by
  rw [sbiMisalignedStoreHandler,trappedInsn_ok hp]
  dsimp only
  rw [storePlan_none he hz]

theorem not_storeExact {addr tval2 tinst : Word x} {len : Nat} (hp : Presented env s tinst insn len)
    (he : StoreEncoding insn st) (hz : SpStoreRdZero insn) :
    ¬StoreExact env s addr tval2 tinst len st := by
  intro h
  have hb := h.2.2 ⟨s.regs.mepc,BitVec.ofNat x.bits CAUSE_MISALIGNED_STORE,addr,tval2,tinst⟩
  rw [storeHandler_sentBack hp he hz] at hb
  exact hb (sbiTrapRedirect_redirects env _ s) rfl

/-- Misaligned integer stores are emulated exactly but for `C.SWSP` and `C.SDSP` whose immediate
leaves bits 11 to 7 zero: those go back to the supervisor. -/
theorem sbiMisalignedStoreHandler_exact (env : TrapEnv x) (s : TrapState x)
    (addr tval2 tinst insn : Word x) (len : Nat) (st : StoreInsn) (h0 : s.regs.gpr 0=0)
    (hp : Presented env s tinst insn len) (he : StoreEncoding insn st) :
    StoreExact env s addr tval2 tinst len st ↔ ¬SpStoreRdZero insn := by
  constructor
  · intro h hz
    exact not_storeExact hp he hz h
  · intro hz
    refine ⟨?_,fun f hf => storeHandler_fault addr tval2 tinst hp he hz hf,?_⟩
    · rw [archGpr_of_zero h0]
      exact storeHandler_ok hp he hz
    intro trap ht
    obtain hn | ⟨f,hf⟩ := noFault_or_firstFault env.storeFault addr st.width
    · rw [storeHandler_ok hp he hz hn] at ht
      have hl := congrArg List.length ht
      simp at hl
    · obtain ⟨mem,hm⟩ := storeHandler_fault addr tval2 tinst hp he hz hf
      rw [hm,sbiTrapRedirect_redirects] at ht
      have htrap : _=trap := List.head_eq_of_cons_eq (List.append_cancel_left ht)
      rw [← htrap]
      exact hf.cause_ne

/-- `c.swsp t0` at address 0, with the immediate in the high byte. -/
def swspMem (hi : BitVec 8) (a : Word .rv64) : BitVec 8 := if a=0 then 0x16 else if a=1 then hi else 0

theorem swsp_presented_zero : Presented (.quiet .rv64) (.idle 0 (swspMem 0xc0)) 0 0xc016 2 :=
  .fetched 0xc016 (by decide) ⟨rfl,by decide⟩

theorem swsp_presented_four : Presented (.quiet .rv64) (.idle 0 (swspMem 0xc2)) 0 0xc216 2 :=
  .fetched 0xc216 (by decide) ⟨rfl,by decide⟩

theorem swsp_sentBack : Presented (.quiet .rv64) (.idle 0 (swspMem 0xc0)) 0 0xc016 2 ∧
    StoreEncoding (0xc016 : Word .rv64) ⟨5,4⟩ ∧
    ¬StoreExact (.quiet .rv64) (.idle 0 (swspMem 0xc0)) 2 0 0 2 ⟨5,4⟩ :=
  ⟨swsp_presented_zero,.cSwsp (by decide),
    not_storeExact swsp_presented_zero (.cSwsp (by decide)) (by decide)⟩

theorem swsp_exact : StoreExact (.quiet .rv64) (.idle 0 (swspMem 0xc2)) 2 0 0 2 ⟨5,4⟩ :=
  (sbiMisalignedStoreHandler_exact (.quiet .rv64) (.idle 0 (swspMem 0xc2)) 2 0 0 0xc216 2 ⟨5,4⟩ rfl
    swsp_presented_four (.cSwsp (by decide))).mpr (by decide)

end Stores
end OpenSBI
