import OpenSBI.Trap.Confine
import OpenSBI.Fdt.Aclint
import OpenSBI.Ipi.Ecall

namespace OpenSBI

open Reg

variable {x : Xlen}

def CSR_MEDELEG : Nat := 0x302
def CSR_MIDELEG : Nat := 0x303
def SBI_EXT_0_1_SET_TIMER : Nat := 0x0
def SBI_LAST_ERR : Int := SBI_EALREADY_STOPPED
def SBI_ETRAP : Int := -1007

/-! ## The handler of traps -/

/-- The registers of the machine that no trap may change: the vector, delegation and PMP. -/
def MachineCsr (n : Nat) : Prop :=
  n∈[CSR_MTVEC,CSR_MEDELEG,CSR_MIDELEG,CSR_MSCRATCH] ∨ csrBlock CSR_PMPCFG0 16 n=true ∨
    csrBlock CSR_PMPADDR0 64 n=true

/-- What a call into the rest of the firmware leaves alone: it reads the frame, and it works on memory and
CSRs of the firmware. -/
structure Kept (s t : TrapState x) : Prop where
  regs : t.regs=s.regs
  csrs : ∀ n,MachineCsr n → t.csrs n=s.csrs n
  live : clearMask (t.csrs CSR_MSTATUS) MSTATUS_FS=clearMask (s.csrs CSR_MSTATUS) MSTATUS_FS
  mem : t.mem=s.mem

/-- What the handler of an extension hands back. -/
structure EcallReturn (x : Xlen) where
  ret : Int
  outVal : Word x
  trap : TrapInfo x
  state : TrapState x

/-- The firmware behind the traps. A call that does not come back, since it stops, suspends or resets the
hart, is `none`. -/
structure TrapCalls (x : Xlen) where
  findExtension : Word x → Option (Word x → Word x → TrapState x → Option (EcallReturn x))
  ipiProcess : TrapState x → Option (TrapState x)
  pmuCtrIncrFw : Nat → TrapState x → TrapState x
  extension_kept : ∀ {id handle func s r},findExtension id=some handle → handle id func s=some r → Kept s r.state
  ipi_kept : ∀ {s t},ipiProcess s=some t → Kept s t
  pmu_kept : ∀ id s,Kept s (pmuCtrIncrFw id s)

/-- A firmware without extensions, where nobody sends interrupts. -/
def TrapCalls.alone (x : Xlen) : TrapCalls x where
  findExtension _ := none
  ipiProcess s := some s
  pmuCtrIncrFw _ s := s
  extension_kept h := by cases h
  ipi_kept h := by
    cases h
    exact ⟨rfl,fun _ _ => rfl,rfl,rfl⟩
  pmu_kept _ _ := ⟨rfl,fun _ _ => rfl,rfl,rfl⟩

inductive TrapOutcome (x : Xlen) where
  | resumed (s : TrapState x)
  | gone
  | hung

/-- `sbi_trap_error()` of any code but 0. -/
def TrapOutcome.settle (r : Int×TrapState x) : TrapOutcome x := if r.1≠0 then .hung else .resumed r.2

namespace TrapCalls

variable (calls : TrapCalls x) (env : TrapEnv x)

/-- The end of `sbi_ecall_handler()`. -/
def finishEcall (extensionId : Word x) (found : Bool) (r : EcallReturn x) : TrapState x :=
  let s := r.state
  if r.ret=SBI_ETRAP then (sbiTrapRedirect env { r.trap with epc := s.regs.mepc } s).2
  else
    let ret := if r.ret<SBI_LAST_ERR then SBI_EFAIL else r.ret
    let t := (s.advance 4).setReg 10 (BitVec.ofInt x.bits ret)
    if found ∧ SBI_EXT_0_1_SET_TIMER ≤ extensionId.toNat ∧ extensionId.toNat ≤ SBI_EXT_0_1_SHUTDOWN then t
    else t.setReg 11 r.outVal

/-- `sbi_ecall_handler()`, which always returns 0. -/
def sbiEcallHandler (s : TrapState x) : TrapOutcome x :=
  let extensionId := s.getReg 17
  match calls.findExtension extensionId with
  | none => .resumed (finishEcall env extensionId false ⟨SBI_ENOTSUPP,0,⟨0,0,0,0,0⟩,s⟩)
  | some handle =>
    match handle extensionId (s.getReg 16) s with
    | none => .gone
    | some r => .resumed (finishEcall env extensionId true r)

end TrapCalls

/-! ## What a trap may change -/

/-- The firmware's hold on the machine is as it was, and so is what is not the interrupted mode's own. -/
structure TrapGuarded (env : TrapEnv x) (s t : TrapState x) : Prop where
  mode : s.regs.BelowM → t.regs.BelowM
  mstatus : SameBits s.regs.mstatus t.regs.mstatus (trapFields x)
  mstatusH : SameBits s.regs.mstatusH t.regs.mstatusH (mpvhBits x)
  csrs : ∀ n,MachineCsr n → t.csrs n=s.csrs n
  live : clearMask (t.csrs CSR_MSTATUS) MSTATUS_FS=clearMask (s.csrs CSR_MSTATUS) MSTATUS_FS
  mem : ∀ a,t.mem a≠s.mem a → Storable env a

section TrapGuarded

variable {env : TrapEnv x} {s t u : TrapState x}

theorem machineCsr_notMem {n : Nat} (h : MachineCsr n) : n∉trapCsrs := by
  intro hn
  simp only [trapCsrs,List.mem_cons,List.not_mem_nil,or_false] at hn
  revert h
  obtain h | h | h | h | h | h | h | h | h | h | h | h | h := hn <;> rw [h] <;> unfold MachineCsr <;> decide

theorem TrapConfined.guarded (h : TrapConfined env s t) : TrapGuarded env s t :=
  ⟨h.mode,h.mstatus,h.mstatusH,fun n hn => h.csrs n (machineCsr_notMem hn),h.live,h.mem⟩

theorem Kept.guarded (h : Kept s t) : TrapGuarded env s t where
  mode hs := by rwa [h.regs]
  mstatus i _ := by rw [h.regs]
  mstatusH i _ := by rw [h.regs]
  csrs := h.csrs
  live := h.live
  mem a ha := absurd (congrFun h.mem a) ha

theorem TrapGuarded.trans (h : TrapGuarded env s t) (k : TrapGuarded env t u) : TrapGuarded env s u where
  mode hs := k.mode (h.mode hs)
  mstatus := h.mstatus.trans k.mstatus
  mstatusH := h.mstatusH.trans k.mstatusH
  csrs n hn := (k.csrs n hn).trans (h.csrs n hn)
  live := k.live.trans h.live
  mem a ha := by
    by_cases ht : t.mem a=s.mem a
    · exact k.mem a (by rwa [ht])
    · exact h.mem a ht

theorem TrapGuarded.refl : TrapGuarded env s s := TrapConfined.refl.guarded

section Outcome

variable (calls : TrapCalls x) (sf : Softfloat)

end Outcome

end TrapGuarded
end OpenSBI
