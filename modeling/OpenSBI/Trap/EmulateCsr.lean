import OpenSBI.Fp.Registers

namespace OpenSBI

def CSR_FFLAGS : Nat := 0x1
def CSR_FRM : Nat := 0x2
def CSR_FCSR : Nat := 0x3
def CSR_HTIMEDELTA : Nat := 0x605
def CSR_HTIMEDELTAH : Nat := 0x615
def CSR_TIME : Nat := 0xc01
def CSR_INSTRET : Nat := 0xc02
def CSR_HPMCOUNTER3 : Nat := 0xc03
def CSR_CYCLEH : Nat := 0xc80
def CSR_TIMEH : Nat := 0xc81
def CSR_INSTRETH : Nat := 0xc82
def CSR_HPMCOUNTER3H : Nat := 0xc83

variable {x : Xlen} (env : TrapEnv x) (s : TrapState x)

/-- `hpm_allowed()`. -/
def hpmAllowed (hpmNum : Nat) : Bool :=
  let mode := s.regs.prevMode
  let cen : Word x := if mode ≤ PRV_S then
      if env.hasMcounteren then
        if s.regs.prevVirt then s.csrs CSR_MCOUNTEREN &&& s.csrs CSR_HCOUNTEREN
        else s.csrs CSR_MCOUNTEREN
      else 0
    else Word.max
  let cen := if mode=PRV_U then
      if env.hasScounteren then cen &&& s.csrs CSR_SCOUNTEREN else 0
    else cen
  cen.getLsbD hpmNum

/-- The soft-float build, where the fcsr registers have cases of their own. -/
def TrapEnv.softFp : Bool := !env.flen && env.fpEmulation

/-- A counter case: the machine counter `mref + num - uref`, when it is allowed. -/
def readCounter (uref mref num : Nat) : Option (Word x) :=
  if hpmAllowed env s (num-uref) then some (s.csrs (mref+num-uref)) else none

/-- `switchcase_hpm()`. -/
def readHpm (uref mref num : Nat) : Option (Word x) :=
  if env.mhpmCount+3 ≤ num-uref then none else readCounter env s uref mref num

def timerVirtValue : BitVec 64 := env.mtime+s.timeDelta

/-- `sbi_emulate_csr_read()`; `none` is SBI_ENOTSUPP. With FS Off the fcsr cases leave the switch
without a value and without an error. -/
def sbiEmulateCsrRead (num : Nat) : Option (Word x) :=
  let hs := s.regs.prevMode=PRV_S ∧ s.regs.prevVirt=false
  let time : BitVec 64 := if s.regs.prevVirt then timerVirtValue env s else env.mtime
  let fcsr (val : Nat) : Option (Word x) :=
    if s.fsOff then some env.uninitCsr else some (BitVec.ofNat x.bits val)
  if num=CSR_HTIMEDELTA then if hs then some (s.timeDelta.setWidth x.bits) else none
  else if num=CSR_CYCLE then readCounter env s CSR_CYCLE CSR_MCYCLE num
  else if num=CSR_TIME then some (time.setWidth x.bits)
  else if num=CSR_INSTRET then readCounter env s CSR_CYCLE CSR_MCYCLE num
  else if x=.rv32 ∧ num=CSR_HTIMEDELTAH then
    if hs then some ((s.timeDelta >>> 32).setWidth x.bits) else none
  else if x=.rv32 ∧ num=CSR_CYCLEH then readCounter env s CSR_CYCLEH CSR_MCYCLEH num
  else if x=.rv32 ∧ num=CSR_TIMEH then some ((time >>> 32).setWidth x.bits)
  else if x=.rv32 ∧ num=CSR_INSTRETH then readCounter env s CSR_CYCLEH CSR_MCYCLEH num
  else if env.softFp ∧ num=CSR_FRM then fcsr s.getFrm
  else if env.softFp ∧ num=CSR_FFLAGS then fcsr s.getFflags
  else if env.softFp ∧ num=CSR_FCSR then fcsr s.getFcsr
  else if csrBlock CSR_HPMCOUNTER3 29 num then readHpm env s CSR_CYCLE CSR_MCYCLE num
  else if x=.rv32 ∧ csrBlock CSR_HPMCOUNTER3H 29 num then readHpm env s CSR_CYCLEH CSR_MCYCLEH num
  else none

def timerSetDelta (delta : Word x) : TrapState x := { s with timeDelta := delta.setWidth 64 }

def timerSetDeltaUpper (delta : Word x) : TrapState x :=
  { s with timeDelta := (s.timeDelta &&& 0xffffffff) ||| (delta.setWidth 64 <<< 32) }

/-- `sbi_emulate_csr_write()`; the fcsr cases do not look at FS. -/
def sbiEmulateCsrWrite (num : Nat) (val : Word x) : Option (TrapState x) :=
  let hs := s.regs.prevMode=PRV_S ∧ s.regs.prevVirt=false
  if num=CSR_HTIMEDELTA then if hs then some (timerSetDelta s val) else none
  else if x=.rv32 ∧ num=CSR_HTIMEDELTAH then if hs then some (timerSetDeltaUpper s val) else none
  else if env.softFp ∧ num=CSR_FRM then some (s.setFrm val.toNat)
  else if env.softFp ∧ num=CSR_FFLAGS then some (s.setFflags val.toNat)
  else if env.softFp ∧ num=CSR_FCSR then some (s.setFcsr val.toNat)
  else none

/-- The CSR instruction of a SYSTEM word: the value it writes and whether it writes at all. -/
def csrOperation (insn csrVal rs1Val : Word x) : Option (Word x×Bool) :=
  let rs1Num := rvX insn SH_RS1 5
  let imm : Word x := BitVec.ofNat x.bits rs1Num
  match getRm insn with
  | 1 => some (rs1Val,true)
  | 2 => some (csrVal ||| rs1Val,rs1Num≠0)
  | 3 => some (csrVal &&& ~~~rs1Val,rs1Num≠0)
  | 5 => some (imm,true)
  | 6 => some (csrVal ||| imm,rs1Num≠0)
  | 7 => some (csrVal &&& ~~~imm,rs1Num≠0)
  | _ => none

/-- `system_opcode_insn()`. -/
def systemOpcodeInsn (insn : Word x) : Int×TrapState x :=
  let csrNum := rvX insn 20 12
  match sbiEmulateCsrRead env s csrNum with
  | none => trulyIllegalInsn env insn s
  | some csrVal =>
    match csrOperation insn csrVal (s.getReg (regNum insn SH_RS1)) with
    | none => trulyIllegalInsn env insn s
    | some (newVal,doWrite) =>
      match if doWrite then sbiEmulateCsrWrite env s csrNum newVal else some s with
      | none => trulyIllegalInsn env insn s
      | some t => (SBI_OK,(t.setReg (regNum insn SH_RD) csrVal).advance 4)

end OpenSBI
