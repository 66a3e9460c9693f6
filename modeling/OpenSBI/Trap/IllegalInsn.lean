import OpenSBI.Trap.Misaligned
import OpenSBI.Trap.EmulateCsr
import OpenSBI.Fp.Emulation

namespace OpenSBI

variable {x : Xlen} (sf : Softfloat) (env : TrapEnv x)

/-- A faulting store returns from the handler; a good one moves the pc on by `len`. -/
def finishStore (r : TrapState x×Option (Fault x)) (len : Nat) : Int×TrapState x :=
  match r.2 with
  | some f => redirectFault env f r.1
  | none => (SBI_OK,r.1.advance len)

/-- `punt_to_misaligned_handler()`: the handler gets `insn` where it expects the address, which goes
into MTVAL. -/
def puntToMisalignedHandler (handler : Word x → Word x → Word x → TrapState x → Int×TrapState x)
    (addr insn : Word x) (s : TrapState x) : Int×TrapState x :=
  handler insn 0 0 (s.csrWrite CSR_MTVAL addr)

/-- `sizeof(uintptr_t)`. -/
def ptrBytes (x : Xlen) : Nat := x.bits/8

def floatStoreOpcodeInsn : InsnFunc x := fun insn s =>
  let addr := s.getReg (rs1Of insn)+immS insn
  if s.fsOff then trulyIllegalInsn env insn s
  else if getRm insn=2 then
    if addr.toNat%4≠0 then puntToMisalignedHandler (sbiMisalignedStoreHandler env) addr insn s
    else finishStore env (sbiStore env 4 addr (s.getF32Reg (rs2Of insn)).toNat s) 4
  else if getRm insn=3 then
    if addr.toNat%ptrBytes x≠0 then
      puntToMisalignedHandler (sbiMisalignedStoreHandler env) addr insn s
    else finishStore env (sbiStoreU64 env addr (s.getF64Reg (rs2Of insn)) s) 4
  else trulyIllegalInsn env insn s

/-- `float_load_opcode_insn()` does not look at the fault of its load. -/
def floatLoadOpcodeInsn : InsnFunc x := fun insn s =>
  let addr := s.getReg (rs1Of insn)+immI insn
  if s.fsOff then trulyIllegalInsn env insn s
  else if getRm insn=2 then
    if addr.toNat%4≠0 then puntToMisalignedHandler (sbiMisalignedLoadHandler env) addr insn s
    else (SBI_OK,(s.setF32Rd (rdOf insn) (BitVec.ofNat 32 (sbiLoad env 4 addr s).1)).advance 4)
  else if getRm insn=3 then
    if addr.toNat%ptrBytes x≠0 then
      puntToMisalignedHandler (sbiMisalignedLoadHandler env) addr insn s
    else (SBI_OK,(s.setF64Rd (rdOf insn) (sbiLoadU64 env addr s).1).advance 4)
  else trulyIllegalInsn env insn s

/-- The end of `emulate_rvc()`: `uptrap` is looked at once the destination is written. -/
def finishRvc (fault : Option (Fault x)) (s : TrapState x) : Int×TrapState x :=
  match fault with
  | some f => redirectFault env f s
  | none => (SBI_OK,s.advance 2)

/-- A load of `emulate_rvc()`, double or (on RV32) single precision. -/
def rvcLoad64 (addr tval2 tinst : Word x) (rd : Fin 32) (s : TrapState x) : Int×TrapState x :=
  if addr.toNat%ptrBytes x≠0 then sbiMisalignedLoadHandler env addr tval2 tinst s
  else
    let r := sbiLoadU64 env addr s
    finishRvc env r.2 (s.setF64Rd rd r.1)

def rvcLoad32 (addr tval2 tinst : Word x) (rd : Fin 32) (s : TrapState x) : Int×TrapState x :=
  if addr.toNat%4≠0 then sbiMisalignedLoadHandler env addr tval2 tinst s
  else
    let r := sbiLoad env 4 addr s
    finishRvc env r.2 (s.setF32Rd rd (BitVec.ofNat 32 r.1))

/-- A store of `emulate_rvc()`. -/
def rvcStore64 (addr tval2 tinst : Word x) (rs2 : Fin 32) (s : TrapState x) : Int×TrapState x :=
  if addr.toNat%ptrBytes x≠0 then sbiMisalignedStoreHandler env addr tval2 tinst s
  else
    let r := sbiStoreU64 env addr (s.getF64Reg rs2) s
    finishRvc env r.2 r.1

def rvcStore32 (addr tval2 tinst : Word x) (rs2 : Fin 32) (s : TrapState x) : Int×TrapState x :=
  if addr.toNat%4≠0 then sbiMisalignedStoreHandler env addr tval2 tinst s
  else
    let r := sbiStore env 4 addr (s.getF32Reg rs2).toNat s
    finishRvc env r.2 r.1

/-- `emulate_rvc()` of a firmware built with the C extension. Its RV32 branches name a function
`load_int32_t()` that no header declares; it stands for a load of four bytes here. -/
def emulateRvc (insn tval2 tinst : Word x) (s : TrapState x) : Int×TrapState x :=
  let rs1s := regOf (rvcRs1s insn)
  let rs2s := regOf (rvcRs2s insn)
  let rs2 := regOf (rvcRs2 insn)
  let at1s (imm : Nat) := s.getReg rs1s+BitVec.ofNat x.bits imm
  let atSp (imm : Nat) := s.getReg 2+BitVec.ofNat x.bits imm
  if env.softFp=false then trulyIllegalInsn env insn s
  else
    let t := s.csrWrite CSR_MEPC (s.regs.mepc+2)
    if s.fsOff then trulyIllegalInsn env insn t
    else if INSN_C_FLD.matches insn then rvcLoad64 env (at1s (rvcLdImm insn)) tval2 tinst rs2s t
    else if INSN_C_FLDSP.matches insn then
      rvcLoad64 env (atSp (rvcLdspImm insn)) tval2 tinst (rdOf insn) t
    else if INSN_C_FSD.matches insn then rvcStore64 env (at1s (rvcLdImm insn)) tval2 tinst rs2s t
    else if INSN_C_FSDSP.matches insn then
      rvcStore64 env (atSp (rvcSdspImm insn)) tval2 tinst rs2 t
    else if x=.rv32 ∧ INSN_C_FLW.matches insn then
      rvcLoad32 env (at1s (rvcLwImm insn)) tval2 tinst rs2s t
    else if x=.rv32 ∧ INSN_C_FLWSP.matches insn then
      rvcLoad32 env (atSp (rvcLwspImm insn)) tval2 tinst (rdOf insn) t
    else if x=.rv32 ∧ INSN_C_FSW.matches insn then
      rvcStore32 env (at1s (rvcLwImm insn)) tval2 tinst rs2s t
    else if x=.rv32 ∧ INSN_C_FSWSP.matches insn then
      rvcStore32 env (atSp (rvcSwspImm insn)) tval2 tinst rs2 t
    else trulyIllegalInsn env insn t

/-- What its branches do `emulate_rvc()` does; all but the first see the MEPC moved on. -/
theorem emulateRvc_rule {P : Int×TrapState x → Prop} {env : TrapEnv x} {insn tval2 tinst : Word x}
    {s t : TrapState x} (ht : t=s.csrWrite CSR_MEPC (s.regs.mepc+2))
    (hsent : P (trulyIllegalInsn env insn s)) (hillegal : P (trulyIllegalInsn env insn t))
    (hfld : INSN_C_FLD.matches insn=true →
      ∀ addr,P (rvcLoad64 env addr tval2 tinst (regOf (rvcRs2s insn)) t))
    (hfldsp : INSN_C_FLDSP.matches insn=true → ∀ addr,P (rvcLoad64 env addr tval2 tinst (rdOf insn) t))
    (hstore : ∀ addr rs2,P (rvcStore64 env addr tval2 tinst rs2 t))
    (hload : ∀ addr rd,P (rvcLoad32 env addr tval2 tinst rd t))
    (hstore32 : ∀ addr rs2,P (rvcStore32 env addr tval2 tinst rs2 t)) :
    P (emulateRvc env insn tval2 tinst s) := by
  subst ht
  refine iteInduction (fun _ => hsent) fun _ => ?_
  refine iteInduction (fun _ => hillegal) fun _ => ?_
  refine iteInduction (fun h => hfld h _) fun _ => ?_
  refine iteInduction (fun h => hfldsp h _) fun _ => ?_
  refine iteInduction (fun _ => hstore _ _) fun _ => ?_
  refine iteInduction (fun _ => hstore _ _) fun _ => ?_
  refine iteInduction (fun _ => hload _ _) fun _ => ?_
  refine iteInduction (fun _ => hload _ _) fun _ => ?_
  refine iteInduction (fun _ => hstore32 _ _) fun _ => ?_
  exact iteInduction (fun _ => hstore32 _ _) fun _ => hillegal

/-- `illegal_insn_table`. -/
def illegalInsnTable (i : Nat) : InsnFunc x :=
  match i with
  | 1 => if env.softFp then floatLoadOpcodeInsn env else trulyIllegalInsn env
  | 9 => if env.softFp then floatStoreOpcodeInsn env else trulyIllegalInsn env
  | 16 => if env.fpEmulation then fmaddOpcodeInsn sf env else trulyIllegalInsn env
  | 17 => if env.fpEmulation then fmaddOpcodeInsn sf env else trulyIllegalInsn env
  | 18 => if env.fpEmulation then fmaddOpcodeInsn sf env else trulyIllegalInsn env
  | 19 => if env.fpEmulation then fmaddOpcodeInsn sf env else trulyIllegalInsn env
  | 20 => if env.fpEmulation then fpOpcodeInsn sf env else trulyIllegalInsn env
  | 28 => fun insn s => systemOpcodeInsn env s insn
  | _ => trulyIllegalInsn env

/-- `sbi_illegal_insn_handler()`. -/
def sbiIllegalInsnHandler (insn tval2 tinst : Word x) (s : TrapState x) : Int×TrapState x :=
  if andMask insn 3≠BitVec.ofNat x.bits 3 then
    let r := sbiGetInsn env s.regs.mepc s
    match r.2 with
    | some f => redirectFault env f s
    | none =>
      if andMask r.1 3≠BitVec.ofNat x.bits 3 then emulateRvc env r.1 tval2 tinst s
      else illegalInsnTable sf env (rvX r.1 2 5) r.1 s
  else illegalInsnTable sf env (rvX insn 2 5) insn s

end OpenSBI
