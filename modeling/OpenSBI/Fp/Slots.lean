import OpenSBI.Trap.LoadStore
import OpenSBI.Scratch.Alloc

namespace OpenSBI

variable {x : Xlen}

/-- `__SIZEOF_POINTER__`, also the size of the members of `struct sbi_trap_regs`. -/
def pointerBytes (x : Xlen) : Nat := x.bits/8

def SBI_TRAP_REGS_last : Nat := 35

/-- `sizeof(struct sbi_trap_regs)`: the 32 registers, mepc, mstatus and mstatusH. -/
def sizeofTrapRegs (x : Xlen) : Nat := (32+3)*pointerBytes x

/-- `SBI_TRAP_REGS_OFFSET(last)` and `SBI_TRAP_REGS_SIZE`. -/
def trapRegsOffsetLast (x : Xlen) : Nat := SBI_TRAP_REGS_last*pointerBytes x
def SBI_TRAP_REGS_SIZE (x : Xlen) : Nat := trapRegsOffsetLast x+32*pointerBytes x

/-- `SHIFT_RIGHT(insn, (pos)-3) & 0xf8`. -/
def fpSlotOffset (insn : Word x) (pos : Nat) : Word x :=
  andMask (if pos<3 then insn <<< (3-pos) else insn >>> (pos-3)) 0xf8

/-- The address `GET_F64_REG()` takes: `regs` is a pointer to the structure, so `SBI_TRAP_REGS_last`
is added in units of its size. -/
def fpSlot (regs insn : Word x) (pos : Nat) : Word x :=
  regs+BitVec.ofNat x.bits (SBI_TRAP_REGS_last*sizeofTrapRegs x)+fpSlotOffset insn pos

/-- The frame `TRAP_SAVE_AND_SETUP_SP_T0` carves out: below `sp` when the trap came from M-mode, below
the scratch space in `tp` otherwise. -/
def trapFrame (mstatus sp tp : Word x) : Word x :=
  let mpp := andMask (mstatus >>> MSTATUS_MPP_SHIFT) PRV_M
  let cameFromM : Word x := (if mpp.toNat<PRV_M then 1 else 0)-1
  (tp ^^^ (cameFromM &&& (sp ^^^ tp)))-BitVec.ofNat x.bits (SBI_TRAP_REGS_SIZE x)

/-- The slot lies in the frame, past the integer and CSR part. -/
def InFrame (regs slot : Word x) : Prop :=
  regs.toNat+trapRegsOffsetLast x ≤ slot.toNat ∧ slot.toNat+8 ≤ regs.toNat+SBI_TRAP_REGS_SIZE x

theorem fpSlotOffset_toNat (insn : Word x) (pos : Nat) :
    (fpSlotOffset insn pos).toNat ≤ 8*31 ∧ (fpSlotOffset insn pos).toNat%8=0 := by
  have h := land_field (if pos<3 then insn <<< (3-pos) else insn >>> (pos-3)).toNat 3 5
  rw [fpSlotOffset,andMask_toNat _ _ (by decide)]
  have hm : (0xf8 : Nat)=2^3*(2^5-1) := by decide
  rw [hm,h]
  omega

theorem fpSlotOffset_field (insn : Word x) {pos : Nat} (h : 3 ≤ pos) :
    (fpSlotOffset insn pos).toNat=8*(regNum insn pos).val := by
  have hl := land_field (insn >>> (pos-3)).toNat 3 5
  have hm : (0xf8 : Nat)=2^3*(2^5-1) := by decide
  have hp : 2^pos=2^(pos-3)*2^3 := by rw [← Nat.pow_add,Nat.sub_add_cancel h]
  rw [fpSlotOffset,if_neg (by omega),andMask_toNat _ _ (by decide),hm,hl,BitVec.toNat_ushiftRight,
    Nat.shiftRight_eq_div_pow,Nat.div_div_eq_div_mul,← hp]
  rfl

/-- No slot of the emulator lies in the frame of the trap: the macro steps over thirty-five
structures instead of thirty-five members. -/
theorem fpSlot_outside (regs insn : Word x) (pos : Nat) : ¬InFrame regs (fpSlot regs insn pos) := by
  obtain ⟨ho,-⟩ := fpSlotOffset_toNat insn pos
  have hr := regs.isLt
  intro h
  obtain ⟨h1,h2⟩ := h
  rw [fpSlot,BitVec.toNat_add,BitVec.toNat_add,BitVec.toNat_ofNat] at h1 h2
  cases x <;>
    simp only [Xlen.bits,trapRegsOffsetLast,SBI_TRAP_REGS_SIZE,SBI_TRAP_REGS_last,sizeofTrapRegs,
      pointerBytes] at * <;> omega

/-- Slots of different registers do not overlap. -/
theorem fpSlot_disjoint (regs a b : Word x) {pos : Nat} (hp : 3 ≤ pos) (h : regNum a pos≠regNum b pos) :
    8 ≤ (fpSlot regs a pos-fpSlot regs b pos).toNat := by
  have hne : (regNum a pos).val≠(regNum b pos).val := fun he => h (Fin.ext he)
  have ha := fpSlotOffset_field a hp
  have hb := fpSlotOffset_field b hp
  have hla := (regNum a pos).isLt
  have hlb := (regNum b pos).isLt
  have hd : fpSlot regs a pos-fpSlot regs b pos=fpSlotOffset a pos-fpSlotOffset b pos := by
    rw [fpSlot,fpSlot,add_sub_add_left_eq_sub]
  rw [hd,BitVec.toNat_sub,ha,hb]
  cases x <;> simp only [Xlen.bits] <;> omega

/-- A trap from below M-mode has its frame right below the scratch space. -/
theorem trapFrame_belowM {mstatus sp tp : Word x}
    (h : (andMask (mstatus >>> MSTATUS_MPP_SHIFT) PRV_M).toNat<PRV_M) :
    trapFrame mstatus sp tp=tp-BitVec.ofNat x.bits (SBI_TRAP_REGS_SIZE x) := by
  have hz : (1 : Word x)-1=0 := sub_self 1
  rw [trapFrame,if_pos h,hz]
  congr 1
  apply BitVec.eq_of_getLsbD_eq
  intro i hi
  simp

/-- There the slots lie past the hart's whole scratch space. -/
theorem fpSlot_past_scratch {mstatus sp tp : Word x} (insn : Word x) (pos : Nat)
    (h : (andMask (mstatus >>> MSTATUS_MPP_SHIFT) PRV_M).toNat<PRV_M) (htop : tp.toNat+0x4000 ≤ 2^x.bits) :
    tp.toNat+SBI_SCRATCH_SIZE ≤ (fpSlot (trapFrame mstatus sp tp) insn pos).toNat := by
  obtain ⟨ho,-⟩ := fpSlotOffset_toNat insn pos
  rw [trapFrame_belowM h,fpSlot,BitVec.toNat_add,BitVec.toNat_add,BitVec.toNat_sub,BitVec.toNat_ofNat,
    BitVec.toNat_ofNat]
  cases x <;>
    simp only [Xlen.bits,trapRegsOffsetLast,SBI_TRAP_REGS_SIZE,SBI_TRAP_REGS_last,sizeofTrapRegs,
      pointerBytes,SBI_SCRATCH_SIZE] at * <;> omega

/-- What the emulator needs of the slots: the one it addresses lies in the frame of its own trap, and
no other register shares a byte of it. -/
def LivesInFrame (mstatus sp tp insn : Word x) (pos : Nat) : Prop :=
  let regs := trapFrame mstatus sp tp
  InFrame regs (fpSlot regs insn pos) ∧
    ∀ other,regNum other pos≠regNum insn pos → 8 ≤ (fpSlot regs other pos-fpSlot regs insn pos).toNat

/-- No FP register lives in the trap frame, on RV32 or on RV64. -/
theorem fpRegisters_outside_frame (mstatus sp tp insn : Word x) (pos : Nat) :
    ¬LivesInFrame mstatus sp tp insn pos :=
  fun h => fpSlot_outside _ insn pos h.1

/-- `fadd.d f3, f1, f2` from user mode with the scratch space at 0x80030000: the destination. -/
theorem fadd_rd_outside : ¬LivesInFrame (0 : Word .rv64) 0 0x80030000 0x022081d3 SH_RD := by
  intro h
  exact absurd h.1.2 (by decide)

end OpenSBI
