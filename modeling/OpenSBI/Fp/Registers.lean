import OpenSBI.Trap.Redirect

namespace OpenSBI

variable {x : Xlen}

/-- The register a number selects through `SHIFT_RIGHT(n, -3) & 0xf8`. -/
def regOf (n : Nat) : Fin 32 := ⟨n%32,Nat.mod_lt _ (by decide)⟩

namespace TrapState

/-- `*REG_PTR(insn, pos, regs)`, with the register already cut out of the word. -/
def getReg (s : TrapState x) (r : Fin 32) : Word x := s.regs.gpr r

def setReg (s : TrapState x) (r : Fin 32) (val : Word x) : TrapState x :=
  { s with regs := { s.regs with gpr := Function.update s.regs.gpr r val } }

/-- `regs->mepc += n`. -/
def advance (s : TrapState x) (n : Nat) : TrapState x :=
  { s with regs := { s.regs with mepc := s.regs.mepc+BitVec.ofNat x.bits n } }

def setTp (s : TrapState x) (tp : Word x) : TrapState x := { s with tp := tp }

/-- `SET_FS_DIRTY()`: it sets the bits of the live CSR. -/
def setFsDirty (s : TrapState x) : TrapState x :=
  s.csrWrite CSR_MSTATUS (orMask (s.csrs CSR_MSTATUS) MSTATUS_FS)

def getF64Reg (s : TrapState x) (r : Fin 32) : BitVec 64 := s.fpr r

/-- `GET_F32_REG()`: the low half of the slot. -/
def getF32Reg (s : TrapState x) (r : Fin 32) : BitVec 32 := (s.fpr r).setWidth 32

def setF64Reg (s : TrapState x) (r : Fin 32) (val : BitVec 64) : TrapState x :=
  { s with fpr := Function.update s.fpr r val }

/-- `SET_F32_REG()`: the high half of the slot stays. -/
def setF32Reg (s : TrapState x) (r : Fin 32) (val : BitVec 32) : TrapState x :=
  s.setF64Reg r ((s.fpr r).extractLsb' 32 32++val)

def setF64Rd (s : TrapState x) (r : Fin 32) (val : BitVec 64) : TrapState x :=
  (s.setF64Reg r val).setFsDirty

def setF32Rd (s : TrapState x) (r : Fin 32) (val : BitVec 32) : TrapState x :=
  (s.setF32Reg r val).setFsDirty

/-- `GET_FCSR()`, `GET_FRM()` and `GET_FFLAGS()`. -/
def getFcsr (s : TrapState x) : Nat := s.tp.toNat%2^8
def getFrm (s : TrapState x) : Nat := s.getFcsr/2^5
def getFflags (s : TrapState x) : Nat := s.getFcsr%2^5

/-- `SET_FCSR()`, `SET_FRM()` and `SET_FFLAGS()`; the flags field is one of the low five bits. -/
def setFcsr (s : TrapState x) (value : Nat) : TrapState x :=
  (s.setTp (BitVec.ofNat x.bits (value%2^8))).setFsDirty
def setFrm (s : TrapState x) (value : Nat) : TrapState x := s.setFcsr (s.getFflags ||| value*2^5)
def setFflags (s : TrapState x) (value : Nat) : TrapState x :=
  s.setFcsr (s.getFrm*2^5 ||| value%2^5)

/-- The FS field of the saved MSTATUS is Off. -/
def fsOff (s : TrapState x) : Prop := andMask s.regs.mstatus MSTATUS_FS=0

instance (s : TrapState x) : Decidable s.fsOff := inferInstanceAs (Decidable (_=_))

end TrapState

/-- `SETUP_STATIC_ROUNDING()` on `tp`; `none` where the macro reports the word as illegal. -/
def setupStaticRounding (insn : Word x) (tp : Word x) : Option (Word x) :=
  let tp := andMask tp 0xff
  if getRm insn=7 then some (tp ||| tp <<< 8)
  else if 4<getRm insn then none
  else some (tp ||| BitVec.ofNat x.bits (getRm insn*2^13))

/-- `softfloat_roundingMode`. -/
def softfloatRoundingMode (tp : Word x) : BitVec 32 := (toU32 tp).sshiftRight 13

end OpenSBI
