import OpenSBI.Trap.Redirect

namespace OpenSBI

variable {x : Xlen}

/-- The little-endian number in the `n` bytes from `addr` on. -/
def readBytes (mem : Word x → BitVec 8) (addr : Word x) : Nat → Nat
  | 0 => 0
  | n+1 => (mem addr).toNat+2^8*readBytes mem (addr+1) n

/-- The memory after the `n` low bytes of `val` were stored from `addr` on. -/
def writeBytes (mem : Word x → BitVec 8) (addr : Word x) (val : Nat) : Nat → Word x → BitVec 8
  | 0 => mem
  | n+1 => writeBytes (Function.update mem addr (BitVec.ofNat 8 val)) (addr+1) (val/2^8) n

/-- One `sbi_load_<type>()` of `n` bytes, with the value bits it returns. -/
def sbiLoad (env : TrapEnv x) (n : Nat) (addr : Word x) (s : TrapState x) : Nat × Option (Fault x) :=
  match env.loadFault addr n with
  | some f => ((env.residue addr n).toNat%2^(8*n),some f)
  | none => (readBytes s.mem addr n,none)

/-- One `sbi_store_<type>()` of `n` bytes. -/
def sbiStore (env : TrapEnv x) (n : Nat) (addr : Word x) (val : Nat) (s : TrapState x) :
    TrapState x × Option (Fault x) :=
  match env.storeFault addr n with
  | some f => (s,some f)
  | none => ({ s with mem := writeBytes s.mem addr val n },none)

/-- RV32 makes two accesses of four bytes and returns 0 when one of them faults. -/
def sbiLoadU64 (env : TrapEnv x) (addr : Word x) (s : TrapState x) : BitVec 64 × Option (Fault x) :=
  match x with
  | .rv64 => (BitVec.ofNat 64 (sbiLoad env 8 addr s).1,(sbiLoad env 8 addr s).2)
  | .rv32 =>
    let lo := sbiLoad env 4 addr s
    if lo.2.isSome then (0,lo.2) else
      let hi := sbiLoad env 4 (addr+4) s
      if hi.2.isSome then (0,hi.2) else (BitVec.ofNat 64 (lo.1+2^32*hi.1),none)

def sbiStoreU64 (env : TrapEnv x) (addr : Word x) (val : BitVec 64) (s : TrapState x) :
    TrapState x × Option (Fault x) :=
  match x with
  | .rv64 => sbiStore env 8 addr val.toNat s
  | .rv32 =>
    let lo := sbiStore env 4 addr (val.toNat%2^32) s
    if lo.2.isSome then lo else sbiStore env 4 (addr+4) (val.toNat/2^32) lo.1

theorem causeWord_ne_zero {n : Nat} (h : 0<n) (hn : n<2^32) : BitVec.ofNat x.bits n≠0 := by
  intro he
  have ht := congrArg BitVec.toNat he
  have hp : 2^32 ≤ 2^x.bits := Nat.pow_le_pow_right (by decide) x.bits_ge
  rw [BitVec.toNat_ofNat,Nat.mod_eq_of_lt (by omega)] at ht
  simp at ht
  omega

def Fault.fetch (f : Fault x) (cause : Nat) (mepc : Word x) (h : 0<cause) (hc : cause<2^32) : Fault x :=
  { f with cause := BitVec.ofNat x.bits cause,tval := mepc,cause_ne := causeWord_ne_zero h hc }

/-- The causes of `sbi_get_insn()`: its loads stand for a fetch. -/
def Fault.asFetch (f : Fault x) (mepc : Word x) : Fault x :=
  if f.cause=BitVec.ofNat x.bits CAUSE_LOAD_ACCESS then
    f.fetch CAUSE_FETCH_ACCESS mepc (by decide) (by decide)
  else if f.cause=BitVec.ofNat x.bits CAUSE_LOAD_PAGE_FAULT then
    f.fetch CAUSE_FETCH_PAGE_FAULT mepc (by decide) (by decide)
  else if f.cause=BitVec.ofNat x.bits CAUSE_LOAD_GUEST_PAGE_FAULT then
    f.fetch CAUSE_FETCH_GUEST_PAGE_FAULT mepc (by decide) (by decide)
  else f

/-- One of the two `lhu` of `sbi_get_insn()`. -/
def fetchHalf (env : TrapEnv x) (addr : Word x) (s : TrapState x) : Word x × Option (Fault x) :=
  match env.fetchFault addr with
  | some f => (env.fetchResidue addr,some f)
  | none => (BitVec.ofNat x.bits (readBytes s.mem addr 2),none)

/-- `sbi_get_insn()`: a fault at the first half does not end the sequence. -/
def sbiGetInsn (env : TrapEnv x) (mepc : Word x) (s : TrapState x) : Word x × Option (Fault x) :=
  let lo := fetchHalf env mepc s
  if andMask lo.1 3=BitVec.ofNat x.bits 3 then
    let hi := fetchHalf env (mepc+2) s
    (lo.1+hi.1<<<16,(hi.2 <|> lo.2).map fun f => f.asFetch mepc)
  else (lo.1,lo.2.map fun f => f.asFetch mepc)

/-- `uptrap.epc = regs->mepc; return sbi_trap_redirect(regs, &uptrap)`. -/
def redirectFault (env : TrapEnv x) (f : Fault x) (s : TrapState x) : Int × TrapState x :=
  sbiTrapRedirect env ⟨s.regs.mepc,f.cause,f.tval,f.tval2,f.tinst⟩ s

end OpenSBI
