import OpenSBI.Trap.Access

namespace OpenSBI

variable {x : Xlen}

def SSTATUS_SIE_SHIFT : Nat := 1
def SSTATUS_SPIE_SHIFT : Nat := 5
def SSTATUS_SPP_SHIFT : Nat := 8
def HSTATUS_SPV_SHIFT : Nat := 7
def HSTATUS_SPVP_SHIFT : Nat := 8

/-- Outside the listed bits the two words agree. -/
def SameBits (a b : Word x) (fields : List Nat) : Prop :=
  ∀ i,i∉fields → b.getLsbD i=a.getLsbD i

/-- The bit of MPV: it is in MSTATUS on RV64 and in MSTATUSH on RV32. -/
def mpvBits : Xlen → List Nat
  | .rv32 => []
  | .rv64 => [39]

def mpvhBits : Xlen → List Nat
  | .rv32 => [7]
  | .rv64 => []

theorem getLsbD_clearMask (a : Word x) (m i : Nat) :
    (clearMask a m).getLsbD i=(a.getLsbD i && !m.testBit i) := by
  rw [clearMask,BitVec.getLsbD_and,BitVec.getLsbD_not,BitVec.getLsbD_ofNat]
  cases h : a.getLsbD i with
  | false => rfl
  | true => simp [BitVec.lt_of_getLsbD h]

theorem getLsbD_orMask (a : Word x) (m i : Nat) :
    (orMask a m).getLsbD i=(a.getLsbD i || (decide (i<x.bits) && m.testBit i)) := by
  rw [orMask,BitVec.getLsbD_or,BitVec.getLsbD_ofNat]

theorem andMask_two_pow {n : Nat} (h : n<x.bits) (a : Word x) :
    andMask a (2^n)≠0 ↔ a.getLsbD n=true := by
  have hp : BitVec.ofNat x.bits (2^n)=Word.bit n := by
    apply BitVec.eq_of_toNat_eq
    rw [Word.toNat_bit h,BitVec.toNat_ofNat,
      Nat.mod_eq_of_lt (Nat.pow_lt_pow_right (by decide) h)]
  rw [andMask,hp]
  exact Word.and_bit_ne_zero h a

/-- One of the fields below bit 31. -/
theorem bit_lt_bits {n : Nat} (h : n<32) : n<x.bits := h.trans_le x.bits_ge

theorem getLsbD_clearBit (a : Word x) (n i : Nat) :
    (clearMask a (2^n)).getLsbD i=if i=n then false else a.getLsbD i := by
  rw [getLsbD_clearMask,Nat.testBit_two_pow]
  by_cases h : i=n
  · simp [h]
  · simp [h,Ne.symm h]

theorem getLsbD_setBit (a : Word x) {n : Nat} (hn : n<x.bits) (i : Nat) :
    (orMask a (2^n)).getLsbD i=if i=n then true else a.getLsbD i := by
  rw [getLsbD_orMask,Nat.testBit_two_pow]
  by_cases h : i=n
  · simp [h,hn]
  · simp [h,Ne.symm h]

/-- A flag that is cleared and then set where `c` holds. -/
theorem getLsbD_flag (a : Word x) {n : Nat} (hn : n<x.bits) (c : Prop) [Decidable c] (i : Nat) :
    (if c then orMask (clearMask a (2^n)) (2^n) else clearMask a (2^n)).getLsbD i=
      if i=n then decide c else a.getLsbD i := by
  by_cases hc : c
  · rw [if_pos hc,getLsbD_setBit _ hn,getLsbD_clearBit]
    by_cases h : i=n <;> simp [h,hc]
  · rw [if_neg hc,getLsbD_clearBit]
    by_cases h : i=n <;> simp [h,hc]

theorem getLsbD_pushSie (w : Word x) (mode i : Nat) :
    (pushSie w mode).getLsbD i=
      if i=SSTATUS_SPP_SHIFT then decide (mode=PRV_S)
      else if i=SSTATUS_SPIE_SHIFT then w.getLsbD SSTATUS_SIE_SHIFT
      else if i=SSTATUS_SIE_SHIFT then false else w.getLsbD i := by
  have h8 : MSTATUS_SPP=2^8 := rfl
  have h5 : MSTATUS_SPIE=2^5 := rfl
  have h1 : MSTATUS_SIE=2^1 := rfl
  have hspp := getLsbD_flag w (n := 8) (bit_lt_bits (by decide)) (mode=PRV_S)
  have hspie : ∀ v : Word x,
      (if andMask (clearMask v MSTATUS_SPIE) MSTATUS_SIE≠0 then orMask (clearMask v MSTATUS_SPIE) MSTATUS_SPIE
        else clearMask v MSTATUS_SPIE)=
      if v.getLsbD 1=true then orMask (clearMask v (2^5)) (2^5) else clearMask v (2^5) := by
    intro v
    have hsie : andMask (clearMask v (2^5)) MSTATUS_SIE≠0 ↔ v.getLsbD 1=true := by
      rw [h1,andMask_two_pow (bit_lt_bits (by decide)),getLsbD_clearBit]
      simp
    simp only [h5,hsie]
  simp only [pushSie,hspie]
  rw [h1,getLsbD_clearBit,getLsbD_flag _ (bit_lt_bits (by decide)),h8,hspp,hspp]
  simp only [SSTATUS_SPP_SHIFT,SSTATUS_SPIE_SHIFT,SSTATUS_SIE_SHIFT]
  by_cases i1 : i=1 <;> by_cases i5 : i=5 <;> by_cases i8 : i=8 <;> simp [i1,i5,i8]

/-- MPP as its two bits. -/
theorem TrapRegs.prevMode_eq (r : TrapRegs x) :
    r.prevMode=(r.mstatus.getLsbD 11).toNat+2*(r.mstatus.getLsbD 12).toNat := by
  have hm : MSTATUS_MPP=2^11*(2^2-1) := rfl
  rw [TrapRegs.prevMode,andMask_toNat _ _ (by decide),hm,land_field,MSTATUS_MPP_SHIFT,
    Nat.mul_div_cancel_left _ (Nat.two_pow_pos 11),BitVec.getLsbD,BitVec.getLsbD,Nat.toNat_testBit,
    Nat.toNat_testBit]
  omega

/-- MPV as its bit. -/
theorem TrapRegs.prevVirt_rv64 (r : TrapRegs .rv64) : r.prevVirt=r.mstatus.getLsbD 39 := by
  have hm : MSTATUS_MPV=2^39 := rfl
  rw [Bool.eq_iff_iff,TrapRegs.prevVirt,decide_eq_true_iff,hm]
  exact andMask_two_pow (by decide) _

theorem TrapRegs.prevVirt_rv32 (r : TrapRegs .rv32) : r.prevVirt=r.mstatusH.getLsbD 7 := by
  have hm : MSTATUSH_MPV=2^7 := rfl
  rw [Bool.eq_iff_iff,TrapRegs.prevVirt,decide_eq_true_iff,hm]
  exact andMask_two_pow (by decide) _

theorem getLsbD_setMppS (w : Word x) (i : Nat) :
    (setMppS w).getLsbD i=if i=11 then true else if i=12 then false else w.getLsbD i := by
  have hm : MSTATUS_MPP.testBit i=decide (i=11 ∨ i=12) := by
    have h : MSTATUS_MPP=2^11*(2^2-1) := rfl
    rw [h,Nat.testBit_two_pow_mul,Nat.testBit_two_pow_sub_one,Bool.eq_iff_iff]
    simp only [Bool.and_eq_true,decide_eq_true_iff]
    omega
  have hs : PRV_S*2^MSTATUS_MPP_SHIFT=2^11 := rfl
  rw [setMppS,hs,getLsbD_setBit _ (bit_lt_bits (by decide)),getLsbD_clearMask,hm]
  by_cases h11 : i=11 <;> by_cases h12 : i=12 <;> simp [h11,h12]

/-- Setting MPV changes nothing but its bit. -/
theorem setMpv_sameBits (r : TrapRegs x) (next : Bool) :
    SameBits r.mstatus (r.setMpv next).mstatus (mpvBits x) ∧
      SameBits r.mstatusH (r.setMpv next).mstatusH (mpvhBits x) ∧
      (r.setMpv next).prevVirt=next := by
  have ha : ∀ (n : Nat) (a : Word x) (b : Bool),n<x.bits →
      orMask (clearMask a (2^n)) (if b then 2^n else 0)=
        if b=true then orMask (clearMask a (2^n)) (2^n) else clearMask a (2^n) := by
    intro n a b hn
    cases b with
    | true => rfl
    | false => simp [orMask]
  cases x with
  | rv32 =>
    have hm : MSTATUSH_MPV=2^7 := rfl
    have hv : (r.setMpv next).mstatusH=if next=true then orMask (clearMask r.mstatusH (2^7)) (2^7)
        else clearMask r.mstatusH (2^7) := ha 7 r.mstatusH next (by decide)
    refine ⟨fun i _ => rfl,fun i hi => ?_,?_⟩
    · rw [hv,getLsbD_flag _ (by decide),if_neg (by simpa [mpvhBits] using hi)]
    · rw [TrapRegs.prevVirt_rv32,hv,getLsbD_flag _ (by decide),if_pos rfl,Bool.decide_eq_true]
  | rv64 =>
    have hv : (r.setMpv next).mstatus=if next=true then orMask (clearMask r.mstatus (2^39)) (2^39)
        else clearMask r.mstatus (2^39) := ha 39 r.mstatus next (by decide)
    refine ⟨fun i hi => ?_,fun i _ => rfl,?_⟩
    · rw [hv,getLsbD_flag _ (by decide),if_neg (by simpa [mpvBits] using hi)]
    · rw [TrapRegs.prevVirt_rv64,hv,getLsbD_flag _ (by decide),if_pos rfl,Bool.decide_eq_true]

theorem getLsbD_hstatusOf (w : Word x) (mode : Nat) (virt : Bool) (i : Nat) :
    (hstatusOf w mode virt).getLsbD i=
      if i=HSTATUS_SPV_SHIFT then virt
      else if i=HSTATUS_SPVP_SHIFT then decide (mode=PRV_S) else w.getLsbD i := by
  have h7 : HSTATUS_SPV=2^7 := rfl
  have h8 : HSTATUS_SPVP=2^8 := rfl
  have hm : ∀ (c : Prop) [Decidable c] (n : Nat),n<32 →
      (if c then 2^n else 0).testBit i=(decide c && decide (i=n)) := by
    intro c _ n hn
    by_cases hc : c <;> simp [hc,Nat.testBit_two_pow,eq_comm]
  simp only [hstatusOf,h7,h8,getLsbD_orMask,getLsbD_clearBit,hm _ 7 (by decide),
    hm _ 8 (by decide),HSTATUS_SPV_SHIFT,HSTATUS_SPVP_SHIFT]
  by_cases i7 : i=7
  · simp [i7,show 7<x.bits from bit_lt_bits (by decide)]
  · by_cases i8 : i=8
    · simp [i8,show 8<x.bits from bit_lt_bits (by decide)]
    · simp [i7,i8]

end OpenSBI
