import OpenSBI.Trap.Unpriv
import OpenSBI.Fp.Registers

namespace OpenSBI

variable {x : Xlen}

/-- What the load handler takes from the instruction: `fp`, `shift`, `len`, and `insn` with the
destination in its `rd` field. -/
structure LoadPlan (x : Xlen) where
  fp : Bool
  shift : Nat
  len : Nat
  insn : Word x

/-- `8 * (sizeof(ulong) - len)`. -/
def ulongShift (x : Xlen) (len : Nat) : Nat := 8*(x.bits/8-len)

def TrapEnv.fp (env : TrapEnv x) : Bool := env.flen || env.fpEmulation

/-- `RVC_RS2S(insn) << SH_RD`. -/
def rs2sAsRd (insn : Word x) : Word x := BitVec.ofNat x.bits (rvcRs2s insn*2^SH_RD)

/-- The chain of pattern tests of `sbi_misaligned_load_handler()`. -/
def loadPlan (env : TrapEnv x) (insn : Word x) : Option (LoadPlan x) :=
  if INSN_LW.matches insn then some ⟨false,ulongShift x 4,4,insn⟩
  else if x=.rv64 ∧ INSN_LD.matches insn then some ⟨false,ulongShift x 8,8,insn⟩
  else if x=.rv64 ∧ INSN_LWU.matches insn then some ⟨false,0,4,insn⟩
  else if env.fp ∧ INSN_FLD.matches insn then some ⟨true,0,8,insn⟩
  else if env.fp ∧ INSN_FLW.matches insn then some ⟨true,0,4,insn⟩
  else if INSN_LH.matches insn then some ⟨false,ulongShift x 2,2,insn⟩
  else if INSN_LHU.matches insn then some ⟨false,0,2,insn⟩
  else if x=.rv64 ∧ INSN_C_LD.matches insn then some ⟨false,ulongShift x 8,8,rs2sAsRd insn⟩
  else if x=.rv64 ∧ INSN_C_LDSP.matches insn ∧ rvX insn SH_RD 5≠0 then
    some ⟨false,ulongShift x 8,8,insn⟩
  else if INSN_C_LW.matches insn then some ⟨false,ulongShift x 4,4,rs2sAsRd insn⟩
  else if INSN_C_LWSP.matches insn ∧ rvX insn SH_RD 5≠0 then some ⟨false,ulongShift x 4,4,insn⟩
  else if env.fp ∧ INSN_C_FLD.matches insn then some ⟨true,0,8,rs2sAsRd insn⟩
  else if env.fp ∧ INSN_C_FLDSP.matches insn then some ⟨true,0,8,insn⟩
  else if env.fp ∧ x=.rv32 ∧ INSN_C_FLW.matches insn then some ⟨true,0,4,rs2sAsRd insn⟩
  else if env.fp ∧ x=.rv32 ∧ INSN_C_FLWSP.matches insn then some ⟨true,0,4,insn⟩
  else none

/-- `insn` and `insn_len` of the two handlers: from `tinst`, or fetched. -/
def trappedInsn (env : TrapEnv x) (tinst : Word x) (s : TrapState x) :
    Except (Fault x) (Word x×Nat) :=
  if andMask tinst 1≠0 then
    let insn := orMask tinst 3
    .ok (insn,if andMask tinst 2≠0 then insnLen insn else 2)
  else
    let r := sbiGetInsn env s.regs.mepc s
    match r.2 with
    | some f => .error f
    | none => .ok (r.1,insnLen r.1)

/-- The bytes `val.data_bytes[i] = sbi_load_u8(addr + i)`, until one faults. -/
def loadLoop (env : TrapEnv x) (s : TrapState x) (addr : Word x) : Nat → Except (Fault x) Nat
  | 0 => .ok 0
  | n+1 =>
    let b := sbiLoad env 1 addr s
    match b.2 with
    | some f => .error f
    | none => (loadLoop env s (addr+1) n).map fun v => b.1+2^8*v

/-- The write-back of the load handler. -/
def loadCommit (p : LoadPlan x) (v : Nat) (s : TrapState x) : TrapState x :=
  if !p.fp then
    s.setReg (regNum p.insn SH_RD) ((BitVec.ofNat x.bits v <<< p.shift).sshiftRight p.shift)
  else if p.len=8 then s.setF64Rd (regNum p.insn SH_RD) (BitVec.ofNat 64 v)
  else s.setF32Rd (regNum p.insn SH_RD) (BitVec.ofNat 32 v)

def sbiMisalignedLoadHandler (env : TrapEnv x) (addr tval2 tinst : Word x) (s : TrapState x) :
    Int×TrapState x :=
  match trappedInsn env tinst s with
  | .error f => redirectFault env f s
  | .ok (insn,len) =>
    match loadPlan env insn with
    | none => sbiTrapRedirect env
        ⟨s.regs.mepc,BitVec.ofNat x.bits CAUSE_MISALIGNED_LOAD,addr,tval2,tinst⟩ s
    | some p =>
      match loadLoop env s addr p.len with
      | .error f => redirectFault env f s
      | .ok v => (SBI_OK,(loadCommit p v s).advance len)

/-- What the store handler takes from the instruction: `len` and `val`. -/
structure StorePlan where
  len : Nat
  val : Nat

/-- The chain of pattern tests of `sbi_misaligned_store_handler()`. -/
def storePlan (env : TrapEnv x) (s : TrapState x) (insn : Word x) : Option StorePlan :=
  let rs2 := regNum insn SH_RS2
  let rs2c := regNum insn SH_RS2C
  let rs2s := regOf (rvcRs2s insn)
  if INSN_SW.matches insn then some ⟨4,(s.getReg rs2).toNat⟩
  else if x=.rv64 ∧ INSN_SD.matches insn then some ⟨8,(s.getReg rs2).toNat⟩
  else if env.fp ∧ INSN_FSD.matches insn then some ⟨8,(s.getF64Reg rs2).toNat⟩
  else if env.fp ∧ INSN_FSW.matches insn then some ⟨4,(s.getF32Reg rs2).toNat⟩
  else if INSN_SH.matches insn then some ⟨2,(s.getReg rs2).toNat⟩
  else if x=.rv64 ∧ INSN_C_SD.matches insn then some ⟨8,(s.getReg rs2s).toNat⟩
  else if x=.rv64 ∧ INSN_C_SDSP.matches insn ∧ rvX insn SH_RD 5≠0 then
    some ⟨8,(s.getReg rs2c).toNat⟩
  else if INSN_C_SW.matches insn then some ⟨4,(s.getReg rs2s).toNat⟩
  else if INSN_C_SWSP.matches insn ∧ rvX insn SH_RD 5≠0 then some ⟨4,(s.getReg rs2c).toNat⟩
  else if env.fp ∧ INSN_C_FSD.matches insn then some ⟨8,(s.getF64Reg rs2s).toNat⟩
  else if env.fp ∧ INSN_C_FSDSP.matches insn then some ⟨8,(s.getF64Reg rs2c).toNat⟩
  else if env.fp ∧ x=.rv32 ∧ INSN_C_FSW.matches insn then some ⟨4,(s.getF32Reg rs2s).toNat⟩
  else if env.fp ∧ x=.rv32 ∧ INSN_C_FSWSP.matches insn then some ⟨4,(s.getF32Reg rs2c).toNat⟩
  else none

/-- The stores `sbi_store_u8(addr + i, val.data_bytes[i])`, until one faults. -/
def storeLoop (env : TrapEnv x) (addr : Word x) (val : Nat) :
    Nat → TrapState x → TrapState x×Option (Fault x)
  | 0,s => (s,none)
  | n+1,s =>
    let r := sbiStore env 1 addr (val%2^8) s
    match r.2 with
    | some f => (r.1,some f)
    | none => storeLoop env (addr+1) (val/2^8) n r.1

def sbiMisalignedStoreHandler (env : TrapEnv x) (addr tval2 tinst : Word x) (s : TrapState x) :
    Int×TrapState x :=
  match trappedInsn env tinst s with
  | .error f => redirectFault env f s
  | .ok (insn,len) =>
    match storePlan env s insn with
    | none => sbiTrapRedirect env
        ⟨s.regs.mepc,BitVec.ofNat x.bits CAUSE_MISALIGNED_STORE,addr,tval2,tinst⟩ s
    | some p =>
      let r := storeLoop env addr p.val p.len s
      match r.2 with
      | some f => redirectFault env f r.1
      | none => (SBI_OK,r.1.advance len)

end OpenSBI
