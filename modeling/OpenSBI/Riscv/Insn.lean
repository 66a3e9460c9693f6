import OpenSBI.Riscv.Csr

namespace OpenSBI

variable {x : Xlen}

/-- `RV_X()`: the `n` bits of an instruction from bit `s` on. -/
def rvX (insn : Word x) (s n : Nat) : Nat := insn.toNat/2^s%2^n

/-- The register number in the field at bit `pos`, as `REG_OFFSET()` cuts it out. -/
def regNum (insn : Word x) (pos : Nat) : Fin 32 :=
  ⟨rvX insn pos 5,Nat.mod_lt _ (by decide)⟩

def SH_RD : Nat := 7
def SH_RS1 : Nat := 15
def SH_RS2 : Nat := 20
def SH_RS2C : Nat := 2

/-- `RVC_RS1S()`, `RVC_RS2S()`: the registers x8 to x15 of the compressed forms. -/
def rvcRs1s (insn : Word x) : Nat := 8+rvX insn SH_RD 3
def rvcRs2s (insn : Word x) : Nat := 8+rvX insn SH_RS2C 3
def rvcRs2 (insn : Word x) : Nat := rvX insn SH_RS2C 5

def rvcLwImm (insn : Word x) : Nat := rvX insn 6 1*2^2+rvX insn 10 3*2^3+rvX insn 5 1*2^6
def rvcLdImm (insn : Word x) : Nat := rvX insn 10 3*2^3+rvX insn 5 2*2^6
def rvcLwspImm (insn : Word x) : Nat := rvX insn 4 3*2^2+rvX insn 12 1*2^5+rvX insn 2 2*2^6
def rvcLdspImm (insn : Word x) : Nat := rvX insn 5 2*2^3+rvX insn 12 1*2^5+rvX insn 2 3*2^6
def rvcSwspImm (insn : Word x) : Nat := rvX insn 9 4*2^2+rvX insn 7 2*2^6
def rvcSdspImm (insn : Word x) : Nat := rvX insn 10 3*2^3+rvX insn 7 3*2^6

def getRm (insn : Word x) : Nat := rvX insn 12 3

/-- `IMM_I()` and `IMM_S()`, sign-extended from the 32-bit instruction. -/
def immI (insn : Word x) : Word x := ((toU32 insn).sshiftRight 20).signExtend x.bits
def immS (insn : Word x) : Word x :=
  ((toU32 insn).sshiftRight 25 <<< 5 ||| BitVec.ofNat 32 (rvX insn 7 5)).signExtend x.bits

/-- A pair `INSN_MASK_*`, `INSN_MATCH_*`. -/
structure InsnPattern where
  mask : Nat
  value : Nat

def InsnPattern.matches (p : InsnPattern) (insn : Word x) : Bool :=
  insn.toNat &&& p.mask==p.value

def INSN_LH : InsnPattern := ⟨0x707f,0x1003⟩
def INSN_LW : InsnPattern := ⟨0x707f,0x2003⟩
def INSN_LD : InsnPattern := ⟨0x707f,0x3003⟩
def INSN_LHU : InsnPattern := ⟨0x707f,0x5003⟩
def INSN_LWU : InsnPattern := ⟨0x707f,0x6003⟩
def INSN_SH : InsnPattern := ⟨0x707f,0x1023⟩
def INSN_SW : InsnPattern := ⟨0x707f,0x2023⟩
def INSN_SD : InsnPattern := ⟨0x707f,0x3023⟩
def INSN_FLW : InsnPattern := ⟨0x707f,0x2007⟩
def INSN_FLD : InsnPattern := ⟨0x707f,0x3007⟩
def INSN_FSW : InsnPattern := ⟨0x707f,0x2027⟩
def INSN_FSD : InsnPattern := ⟨0x707f,0x3027⟩
def INSN_C_LD : InsnPattern := ⟨0xe003,0x6000⟩
def INSN_C_SD : InsnPattern := ⟨0xe003,0xe000⟩
def INSN_C_LW : InsnPattern := ⟨0xe003,0x4000⟩
def INSN_C_SW : InsnPattern := ⟨0xe003,0xc000⟩
def INSN_C_LDSP : InsnPattern := ⟨0xe003,0x6002⟩
def INSN_C_SDSP : InsnPattern := ⟨0xe003,0xe002⟩
def INSN_C_LWSP : InsnPattern := ⟨0xe003,0x4002⟩
def INSN_C_SWSP : InsnPattern := ⟨0xe003,0xc002⟩
def INSN_C_FLD : InsnPattern := ⟨0xe003,0x2000⟩
def INSN_C_FLW : InsnPattern := ⟨0xe003,0x6000⟩
def INSN_C_FSD : InsnPattern := ⟨0xe003,0xa000⟩
def INSN_C_FSW : InsnPattern := ⟨0xe003,0xe000⟩
def INSN_C_FLDSP : InsnPattern := ⟨0xe003,0x2002⟩
def INSN_C_FSDSP : InsnPattern := ⟨0xe003,0xa002⟩
def INSN_C_FLWSP : InsnPattern := ⟨0xe003,0x6002⟩
def INSN_C_FSWSP : InsnPattern := ⟨0xe003,0xe002⟩
def INSN_FMV_W_X : InsnPattern := ⟨0xfff0707f,0xf0000053⟩
def INSN_FMV_D_X : InsnPattern := ⟨0xfff0707f,0xf2000053⟩

/-- `INSN_LEN()`. -/
def insnLen (insn : Word x) : Nat := if insn.toNat &&& 3≠3 then 2 else 4

/-! ## Masks as fields -/

/-- A mask of `n` bits from bit `s` on. -/
theorem land_field (a s n : Nat) : a &&& 2^s*(2^n-1)=2^s*(a/2^s%2^n) := by
  apply Nat.eq_of_testBit_eq
  intro i
  rw [Nat.testBit_and,Nat.testBit_two_pow_mul,Nat.testBit_two_pow_mul,Nat.testBit_two_pow_sub_one,
    Nat.testBit_mod_two_pow,Nat.testBit_div_two_pow]
  by_cases hi : s ≤ i
  · rw [Nat.sub_add_cancel hi]
    simp [hi,Bool.and_comm]
  · simp [hi]

/-- A field above a mask that lies below it. -/
theorem land_above (a k m t : Nat) (h : k<2^t) :
    a &&& (2^t*(2^m-1)+k)=2^t*(a/2^t%2^m)+(a &&& k) := by
  have hr : a &&& k<2^t := Nat.and_lt_two_pow a h
  rw [Nat.two_pow_add_eq_or_of_lt h,Nat.and_or_distrib_left,land_field,Nat.two_pow_add_eq_or_of_lt hr]

/-- Two fields that lie apart, one of them at the low end. -/
theorem land_fields (a n m t : Nat) (h : n ≤ t) :
    a &&& (2^t*(2^m-1)+(2^n-1))=2^t*(a/2^t%2^m)+a%2^n := by
  have hn : 2^n-1<2^t :=
    (Nat.sub_lt (Nat.two_pow_pos n) Nat.one_pos).trans_le (Nat.pow_le_pow_right (by decide) h)
  rw [land_above a _ m t hn,Nat.and_two_pow_sub_one_eq_mod]

theorem land_major (a : Nat) : a &&& 0x707f=2^12*(a/2^12%2^3)+a%2^7 :=
  land_fields a 7 3 12 (by decide)

theorem land_quadrant (a : Nat) : a &&& 0xe003=2^13*(a/2^13%2^3)+a%2^2 :=
  land_fields a 2 3 13 (by decide)

/-- The 32-bit patterns compare the major opcode and `funct3`. -/
@[simp] theorem matches_major (insn : Word x) (v : Nat) (hv : 2^12*(v/2^12%2^3)+v%2^7=v) :
    (InsnPattern.mk 0x707f v).matches insn=true ↔
      rvX insn 12 3=v/2^12 ∧ rvX insn 0 7=v%2^7 := by
  rw [InsnPattern.matches,beq_iff_eq,land_major,rvX,rvX,Nat.pow_zero,Nat.div_one]
  show 2^12*(insn.toNat/2^12%2^3)+insn.toNat%2^7=v ↔ _
  omega

theorem land_move (a : Nat) :
    a &&& 0xfff0707f=2^20*(a/2^20%2^12)+(2^12*(a/2^12%2^3)+a%2^7) := by
  have h := land_above a 0x707f 12 20 (by decide)
  rw [land_major] at h
  exact h

/-- The patterns of the moves into FP registers compare bits 31 to 20 as well. -/
theorem matches_move (insn : Word x) (v : Nat)
    (hv : 2^20*(v/2^20%2^12)+(2^12*(v/2^12%2^3)+v%2^7)=v) :
    (InsnPattern.mk 0xfff0707f v).matches insn=true ↔
      rvX insn 20 12=v/2^20 ∧ rvX insn 12 3=v/2^12%2^3 ∧ rvX insn 0 7=v%2^7 := by
  rw [InsnPattern.matches,beq_iff_eq,land_move,rvX,rvX,rvX,Nat.pow_zero,Nat.div_one]
  show 2^20*(insn.toNat/2^20%2^12)+(2^12*(insn.toNat/2^12%2^3)+insn.toNat%2^7)=v ↔ _
  omega

/-- The 16-bit patterns compare the quadrant and `funct3`. -/
@[simp] theorem matches_quadrant (insn : Word x) (v : Nat) (hv : 2^13*(v/2^13%2^3)+v%2^2=v) :
    (InsnPattern.mk 0xe003 v).matches insn=true ↔
      rvX insn 13 3=v/2^13 ∧ rvX insn 0 2=v%2^2 := by
  rw [InsnPattern.matches,beq_iff_eq,land_quadrant,rvX,rvX,Nat.pow_zero,Nat.div_one]
  show 2^13*(insn.toNat/2^13%2^3)+insn.toNat%2^2=v ↔ _
  omega

attribute [simp] INSN_LH INSN_LW INSN_LD INSN_LHU INSN_LWU INSN_SH INSN_SW INSN_SD INSN_FLW INSN_FLD
  INSN_FSW INSN_FSD INSN_C_LD INSN_C_SD INSN_C_LW INSN_C_SW INSN_C_LDSP INSN_C_SDSP INSN_C_LWSP
  INSN_C_SWSP INSN_C_FLD INSN_C_FLW INSN_C_FSD INSN_C_FSW INSN_C_FLDSP INSN_C_FSDSP INSN_C_FLWSP
  INSN_C_FSWSP

end OpenSBI
