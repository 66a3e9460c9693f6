import Mathlib.Tactic.IntervalCases
import OpenSBI.Riscv.Error
import OpenSBI.Riscv.Pmp

namespace OpenSBI

open Math

variable {x : Xlen}

def PMP_SHIFT : Nat := 2
def PMP_R : Word x := 0x01
def PMP_W : Word x := 0x02
def PMP_X : Word x := 0x04
def PMP_A : Word x := 0x18
def PMP_A_NA4 : Word x := 0x10
def PMP_A_NAPOT : Word x := 0x18
def PMP_L : Word x := 0x80

/-- `pmpcfg_csr` of `pmp_set()`; RV64 only has the even-numbered registers. -/
def pmpcfgCsr (x : Xlen) (n : Nat) : Nat :=
  match x with
  | .rv32 => CSR_PMPCFG0+(n >>> 2)
  | .rv64 => (CSR_PMPCFG0+(n >>> 2))/2*2

/-- `pmpcfg_shift` of `pmp_set()`. -/
def pmpcfgShift (x : Xlen) (n : Nat) : Nat :=
  match x with
  | .rv32 => (n &&& 3) <<< 3
  | .rv64 => (n &&& 7) <<< 3

/-- The configuration `pmp_set()` stores for an entry: the A field follows from the size. -/
def pmpProt (prot : Word x) (log2len : Nat) : Word x :=
  (prot &&& ~~~PMP_A) ||| (if log2len=PMP_SHIFT then PMP_A_NA4 else PMP_A_NAPOT)

/-- The address `pmp_set()` stores for an entry. -/
def pmpEncode (addr : Word x) (log2len : Nat) : Word x :=
  if log2len=PMP_SHIFT then Word.shr addr PMP_SHIFT
  else if log2len=x.bits then Word.max
  else
    let addrmask := Word.bit (log2len-PMP_SHIFT)-1
    (Word.shr addr PMP_SHIFT &&& ~~~addrmask) ||| Word.shr addrmask 1

/-- The register value with the byte at `shift` replaced. -/
def pmpcfgInsert (old prot : Word x) (shift : Nat) : Word x :=
  let cfgmask := ~~~Word.shl 0xff shift
  (old &&& cfgmask) ||| (Word.shl prot shift &&& ~~~cfgmask)

/-- `pmp_set()`; `none` is the panic of an unknown CSR number. -/
def pmpSet (csrs : Csrs x) (n : Nat) (prot addr : Word x) (log2len : Nat) :
    Option (Int × Csrs x) :=
  if PMP_COUNT≤n ∨ x.bits<log2len ∨ log2len<PMP_SHIFT then some (SBI_EINVAL,csrs)
  else do
    let old ← csrReadNum csrs (pmpcfgCsr x n)
    let pmpcfg := pmpcfgInsert old (pmpProt prot log2len) (pmpcfgShift x n)
    let csrs1 ← csrWriteNum csrs (CSR_PMPADDR0+n) (pmpEncode addr log2len)
    let csrs2 ← csrWriteNum csrs1 (pmpcfgCsr x n) pmpcfg
    some (SBI_OK,csrs2)

/-- `pmp_set()` addresses the register of the architecture. -/
theorem pmpcfgCsr_eq (n : Nat) : pmpcfgCsr x n=pmpcfgReg x n := by
  cases x with
  | rv32 => simp only [pmpcfgCsr,pmpcfgReg,Nat.shiftRight_eq_div_pow]
  | rv64 => simp only [pmpcfgCsr,pmpcfgReg,Nat.shiftRight_eq_div_pow,CSR_PMPCFG0]; omega

/-- `pmp_set()` addresses the byte of the architecture. -/
theorem pmpcfgShift_eq (n : Nat) : pmpcfgShift x n=8*pmpcfgByte x n := by
  have h3 : n &&& 3=n%4 := Nat.and_two_pow_sub_one_eq_mod n 2
  have h7 : n &&& 7=n%8 := Nat.and_two_pow_sub_one_eq_mod n 3
  cases x with
  | rv32 => simp only [pmpcfgShift,pmpcfgByte,h3,Nat.shiftLeft_eq]; omega
  | rv64 => simp only [pmpcfgShift,pmpcfgByte,h7,Nat.shiftLeft_eq]; omega

theorem pmpcfgByte_le (n : Nat) : 8*pmpcfgByte x n+8≤x.bits := by
  cases x <;> simp only [pmpcfgByte,Xlen.bits] <;> omega

theorem pmpcfgReg_range {n : Nat} (h : n<PMP_COUNT) :
    CSR_PMPCFG0≤pmpcfgReg x n ∧ pmpcfgReg x n<CSR_PMPCFG0+16 := by
  unfold PMP_COUNT at h
  cases x <;> simp only [pmpcfgReg,CSR_PMPCFG0] <;> omega

/-- Two entries that share register and byte are the same entry. -/
theorem pmpcfg_slot_inj {i j : Nat} (hr : pmpcfgReg x i=pmpcfgReg x j)
    (hb : pmpcfgByte x i=pmpcfgByte x j) : i=j := by
  cases x <;> simp only [pmpcfgReg,pmpcfgByte] at hr hb <;> omega

theorem getLsbD_ff (i : Nat) : (0xff : Word x).getLsbD i=decide (i<8) := by
  have h : (0xff : Word x).toNat=2^8-1 := by cases x <;> rfl
  rw [BitVec.getLsbD,h,Nat.testBit_two_pow_sub_one]

/-- Replacing one byte leaves the others alone. -/
theorem extract_pmpcfgInsert (old prot : Word x) (k j : Nat) (hk : 8*k+8≤x.bits) :
    (pmpcfgInsert old prot (8*k)).extractLsb' (8*j) 8=
      if j=k then prot.setWidth 8 else old.extractLsb' (8*j) 8 := by
  have hs : 8*k%x.bits=8*k := Nat.mod_eq_of_lt (by omega)
  apply BitVec.eq_of_getLsbD_eq
  intro i hi
  simp only [pmpcfgInsert,Word.shl,hs,BitVec.getLsbD_extractLsb',BitVec.getLsbD_or,
    BitVec.getLsbD_and,BitVec.getLsbD_not,BitVec.getLsbD_shiftLeft,getLsbD_ff,hi,decide_true,
    Bool.true_and]
  by_cases hjk : j=k
  · subst hjk
    have hlt : 8*j+i<x.bits := by omega
    simp [hlt,hi]
  · have hout : ¬(8*k≤8*j+i ∧ 8*j+i-8*k<8) := by omega
    rw [if_neg hjk,BitVec.getLsbD_extractLsb']
    by_cases hlt : 8*j+i<x.bits
    · by_cases hle : 8*j+i<8*k
      · simp [hi,hlt,hle]
      · have h8 : ¬8*j+i-8*k<8 := by omega
        simp [hi,hlt,hle,h8]
    · have hge := BitVec.getLsbD_of_ge old (8*j+i) (by omega)
      simp [hi,hlt,hge]

/-- Entry `n` holds what `pmp_set()` stores for the given block. -/
structure PmpEntry (csrs : Csrs x) (n : Nat) (prot addr : Word x) (log2len : Nat) : Prop where
  cfg : pmpcfg csrs n=(pmpProt prot log2len).setWidth 8
  addr : pmpaddr csrs n=pmpEncode addr log2len

/-- `pmp_set()` on an existing entry and a supported size programs that entry and no other. -/
theorem pmpSet_spec (csrs : Csrs x) {n log2len : Nat} (prot addr : Word x) (hn : n<PMP_COUNT)
    (h2 : PMP_SHIFT≤log2len) (hx : log2len≤x.bits) :
    ∃ csrs',pmpSet csrs n prot addr log2len=some (SBI_OK,csrs') ∧
      PmpEntry csrs' n prot addr log2len ∧
      ∀ j,j<PMP_COUNT → j≠n → pmpcfg csrs' j=pmpcfg csrs j ∧ pmpaddr csrs' j=pmpaddr csrs j := by
  have hr := pmpcfgReg_range (x := x) hn
  have hc := csrKnown_pmpcfg (x := x) hr.1 hr.2
  have ha : csrKnown x (CSR_PMPADDR0+n)=true :=
    csrKnown_pmpaddr (Nat.le_add_right _ _) (Nat.add_lt_add_left hn _)
  have hne : ∀ j m,m<PMP_COUNT → CSR_PMPADDR0+j≠pmpcfgReg x m := by
    intro j m hm
    have := (pmpcfgReg_range (x := x) hm).2
    simp only [CSR_PMPADDR0,CSR_PMPCFG0] at this ⊢
    omega
  refine ⟨Function.update (Function.update csrs (CSR_PMPADDR0+n) (pmpEncode addr log2len))
    (pmpcfgReg x n) (pmpcfgInsert (csrs (pmpcfgReg x n)) (pmpProt prot log2len)
      (8*pmpcfgByte x n)),?_,⟨?_,?_⟩,?_⟩
  · rw [pmpSet,if_neg (by omega)]
    simp only [csrReadNum,csrWriteNum,pmpcfgCsr_eq,pmpcfgShift_eq,hc,ha,if_true]
    rfl
  · simp only [pmpcfg,Function.update_self]
    rw [extract_pmpcfgInsert _ _ _ _ (pmpcfgByte_le n),if_pos rfl]
  · simp only [pmpaddr,ne_eq,hne n n hn,not_false_eq_true,Function.update_of_ne,
      Function.update_self]
  · intro j hj hjn
    have haj : CSR_PMPADDR0+j≠CSR_PMPADDR0+n := by omega
    constructor
    · simp only [pmpcfg]
      by_cases hreg : pmpcfgReg x j=pmpcfgReg x n
      · have hb : pmpcfgByte x j≠pmpcfgByte x n := fun h => hjn (pmpcfg_slot_inj hreg h)
        rw [hreg,Function.update_self,extract_pmpcfgInsert _ _ _ _ (pmpcfgByte_le n),if_neg hb]
      · rw [Function.update_of_ne hreg,Function.update_of_ne (hne n j hj).symm]
    · simp only [pmpaddr,ne_eq,hne j n hn,not_false_eq_true,Function.update_of_ne,haj]

theorem pmpProt_mode (prot : Word x) (log2len : Nat) :
    pmpMode ((pmpProt prot log2len).setWidth 8)=
      if log2len=PMP_SHIFT then .na4 else .napot := by
  have a3 : (PMP_A : Word x).getLsbD 3=true := by cases x <;> rfl
  have a4 : (PMP_A : Word x).getLsbD 4=true := by cases x <;> rfl
  have b3 : (PMP_A_NA4 : Word x).getLsbD 3=false := by cases x <;> rfl
  have b4 : (PMP_A_NA4 : Word x).getLsbD 4=true := by cases x <;> rfl
  have c3 : (PMP_A_NAPOT : Word x).getLsbD 3=true := by cases x <;> rfl
  have c4 : (PMP_A_NAPOT : Word x).getLsbD 4=true := by cases x <;> rfl
  unfold pmpMode pmpProt
  split_ifs <;>
    simp [a3,a4,b3,b4,c3,c4]

/-- The permission bits of an entry are those asked for. -/
theorem pmpProt_permits (prot : Word x) (log2len : Nat) (acc : Access) :
    pmpPermits ((pmpProt prot log2len).setWidth 8) acc=prot.getLsbD acc.bit := by
  have low : ∀ i,i<3 → (PMP_A : Word x).getLsbD i=false ∧
      (PMP_A_NA4 : Word x).getLsbD i=false ∧ (PMP_A_NAPOT : Word x).getLsbD i=false := by
    intro i hi
    interval_cases i <;> cases x <;> exact ⟨rfl,rfl,rfl⟩
  have key : ∀ i,i<3 → ((pmpProt prot log2len).setWidth 8).getLsbD i=prot.getLsbD i := by
    intro i hi
    have hx : i<x.bits := by have := x.bits_ge; omega
    have h8 : i<8 := by omega
    obtain ⟨h1,h2,h3⟩ := low i hi
    unfold pmpProt
    rw [BitVec.getLsbD_setWidth,BitVec.getLsbD_or,BitVec.getLsbD_and,BitVec.getLsbD_not,h1]
    split_ifs
    · simp only [h2,hx,h8,decide_true,Bool.not_false,Bool.true_and,Bool.and_true,Bool.or_false]
    · simp only [h3,hx,h8,decide_true,Bool.not_false,Bool.true_and,Bool.and_true,Bool.or_false]
  cases acc <;> exact key _ (by decide)

end OpenSBI
