import OpenSBI.Riscv.Insn
import OpenSBI.Riscv.Error

namespace OpenSBI

def CAUSE_FETCH_ACCESS : Nat := 0x1
def CAUSE_ILLEGAL_INSTRUCTION : Nat := 0x2
def CAUSE_MISALIGNED_LOAD : Nat := 0x4
def CAUSE_LOAD_ACCESS : Nat := 0x5
def CAUSE_MISALIGNED_STORE : Nat := 0x6
def CAUSE_FETCH_PAGE_FAULT : Nat := 0xc
def CAUSE_LOAD_PAGE_FAULT : Nat := 0xd
def CAUSE_STORE_PAGE_FAULT : Nat := 0xf
def CAUSE_FETCH_GUEST_PAGE_FAULT : Nat := 0x14
def CAUSE_LOAD_GUEST_PAGE_FAULT : Nat := 0x15

def CSR_STVEC : Nat := 0x105
def CSR_SCOUNTEREN : Nat := 0x106
def CSR_SEPC : Nat := 0x141
def CSR_SCAUSE : Nat := 0x142
def CSR_STVAL : Nat := 0x143
def CSR_VSSTATUS : Nat := 0x200
def CSR_VSTVEC : Nat := 0x205
def CSR_VSEPC : Nat := 0x241
def CSR_VSCAUSE : Nat := 0x242
def CSR_VSTVAL : Nat := 0x243
def CSR_MSTATUS : Nat := 0x300
def CSR_MEPC : Nat := 0x341
def CSR_MTVAL : Nat := 0x343
def CSR_HSTATUS : Nat := 0x600
def CSR_HCOUNTEREN : Nat := 0x606
def CSR_HTVAL : Nat := 0x643
def CSR_HTINST : Nat := 0x64a

def MSTATUS_SIE : Nat := 0x2
def MSTATUS_SPIE : Nat := 0x20
def MSTATUS_SPP : Nat := 0x100
def MSTATUS_MPP : Nat := 0x1800
def MSTATUS_MPP_SHIFT : Nat := 11
def MSTATUS_FS : Nat := 0x6000
def MSTATUS_MPV : Nat := 0x8000000000
def MSTATUSH_MPV : Nat := 0x80
def HSTATUS_SPV : Nat := 0x80
def HSTATUS_SPVP : Nat := 0x100

variable {x : Xlen}

/-- `a & m`, `a & ~m` and `a | m` for a constant mask. -/
def andMask (a : Word x) (m : Nat) : Word x := a &&& BitVec.ofNat x.bits m
def clearMask (a : Word x) (m : Nat) : Word x := a &&& ~~~BitVec.ofNat x.bits m
def orMask (a : Word x) (m : Nat) : Word x := a ||| BitVec.ofNat x.bits m

/-- `struct sbi_trap_regs`; slot 0 of `gpr` is the `zero` member. -/
structure TrapRegs (x : Xlen) where
  gpr : Fin 32 → Word x
  mepc : Word x
  mstatus : Word x
  mstatusH : Word x

/-- `struct sbi_trap_info`. -/
structure TrapInfo (x : Xlen) where
  epc : Word x
  cause : Word x
  tval : Word x
  tval2 : Word x
  tinst : Word x

/-- What a trap handler works on: the trap frame with the slots `GET_F64_REG()` addresses, the
register `tp` that holds fcsr, the hart's CSRs and the memory of the interrupted context.
`redirects` records the traps handed to `sbi_trap_redirect()`. -/
structure TrapState (x : Xlen) where
  regs : TrapRegs x
  fpr : Fin 32 → BitVec 64
  tp : Word x
  csrs : Csrs x
  mem : Word x → BitVec 8
  timeDelta : BitVec 64
  redirects : List (TrapInfo x)

/-- The trap an unprivileged access takes, as `__sbi_expected_trap` stores it. -/
structure Fault (x : Xlen) where
  cause : Word x
  tval : Word x
  tval2 : Word x
  tinst : Word x
  cause_ne : cause≠0

/-- The hart and the build around the handlers. Accesses of `n` bytes at an address fault or reach
memory; `residue` is what the destination register of a faulting load holds, and `uninitCsr` what
the variable `csr_val` holds before it is set. A byte access is never misaligned. -/
structure TrapEnv (x : Xlen) where
  misaH : Bool
  flen : Bool
  fpEmulation : Bool
  loadFault : Word x → Nat → Option (Fault x)
  storeFault : Word x → Nat → Option (Fault x)
  fetchFault : Word x → Option (Fault x)
  residue : Word x → Nat → BitVec 64
  fetchResidue : Word x → Word x
  uninitCsr : Word x
  mtime : BitVec 64
  hasMcounteren : Bool
  hasScounteren : Bool
  mhpmCount : Nat
  byteStore : ∀ {a f}, storeFault a 1=some f → f.cause≠BitVec.ofNat x.bits CAUSE_MISALIGNED_STORE

/-- A soft-float hart without the H extension whose accesses never fault. -/
def TrapEnv.quiet (x : Xlen) : TrapEnv x where
  misaH := false
  flen := false
  fpEmulation := true
  loadFault _ _ := none
  storeFault _ _ := none
  fetchFault _ := none
  residue _ _ := 0
  fetchResidue _ := 0
  uninitCsr := 0
  mtime := 0
  hasMcounteren := true
  hasScounteren := true
  mhpmCount := 0
  byteStore h := by cases h

/-- Registers all zero under a saved `mstatus`, over the memory `mem`. -/
def TrapState.idle (mstatus : Word x) (mem : Word x → BitVec 8) : TrapState x where
  regs := ⟨fun _ => 0,0,mstatus,0⟩
  fpr _ := 0
  tp := 0
  csrs _ := 0
  mem := mem
  timeDelta := 0
  redirects := []

/-- `(regs->mstatus & MSTATUS_MPP) >> MSTATUS_MPP_SHIFT`. -/
def TrapRegs.prevMode (r : TrapRegs x) : Nat := (andMask r.mstatus MSTATUS_MPP).toNat/2^MSTATUS_MPP_SHIFT

/-- `prev_virt`: the flag is in MSTATUSH on RV32. -/
def TrapRegs.prevVirt (r : TrapRegs x) : Bool :=
  match x with
  | .rv32 => decide (andMask r.mstatusH MSTATUSH_MPV≠0)
  | .rv64 => decide (andMask r.mstatus MSTATUS_MPV≠0)

/-- The MPV update of `sbi_trap_redirect()`. -/
def TrapRegs.setMpv (r : TrapRegs x) (nextVirt : Bool) : TrapRegs x :=
  match x with
  | .rv32 =>
    { r with mstatusH :=
        orMask (clearMask r.mstatusH MSTATUSH_MPV) (if nextVirt then MSTATUSH_MPV else 0) }
  | .rv64 =>
    { r with mstatus := orMask (clearMask r.mstatus MSTATUS_MPV) (if nextVirt then MSTATUS_MPV else 0) }

end OpenSBI
