import OpenSBI.Fp.Precise
import OpenSBI.Trap.Delegation
import OpenSBI.Riscv.Machine

namespace OpenSBI

variable {x : Xlen}

/-! What a trap can make of the machine when it comes from below M-mode. -/

/-- The CSRs that the handlers write: those of a supervisor's trap, and MEPC, MTVAL and FS in MSTATUS. -/
def trapCsrs : List Nat :=
  [CSR_SCAUSE,CSR_SEPC,CSR_STVAL,CSR_HSTATUS,CSR_HTVAL,CSR_HTINST,CSR_VSCAUSE,CSR_VSEPC,CSR_VSTVAL,CSR_VSSTATUS,
    CSR_MEPC,CSR_MTVAL,CSR_MSTATUS]

/-- The fields of the saved MSTATUS that a trap to the supervisor sets. -/
def trapFields (x : Xlen) : List Nat :=
  [SSTATUS_SIE_SHIFT,SSTATUS_SPIE_SHIFT,SSTATUS_SPP_SHIFT,11,12]++mpvBits x

/-- The interrupted mode may store the byte itself. -/
def Storable (env : TrapEnv x) (a : Word x) : Prop := ∃ b n,env.storeFault b n=none ∧ (a-b).toNat<n

/-- The handlers give the interrupted mode no more than it has. -/
structure TrapConfined (env : TrapEnv x) (s t : TrapState x) : Prop where
  mode : s.regs.BelowM → t.regs.BelowM
  mstatus : SameBits s.regs.mstatus t.regs.mstatus (trapFields x)
  mstatusH : SameBits s.regs.mstatusH t.regs.mstatusH (mpvhBits x)
  csrs : ∀ n∉trapCsrs,t.csrs n=s.csrs n
  live : clearMask (t.csrs CSR_MSTATUS) MSTATUS_FS=clearMask (s.csrs CSR_MSTATUS) MSTATUS_FS
  mem : ∀ a,t.mem a≠s.mem a → Storable env a

/-- A handler's result for a trap: below M-mode its code is not one that hangs the hart. -/
structure Handled (env : TrapEnv x) (s : TrapState x) (r : Int×TrapState x) : Prop where
  confined : TrapConfined env s r.2
  returns : s.regs.BelowM → r.1=SBI_OK

section TrapConfined

variable {env : TrapEnv x} {s t u : TrapState x}

theorem SameBits.trans {a b c : Word x} {fields : List Nat} (h : SameBits a b fields) (k : SameBits b c fields) :
    SameBits a c fields := fun i hi => (k i hi).trans (h i hi)

theorem TrapConfined.refl : TrapConfined env s s :=
  ⟨id,fun _ _ => rfl,fun _ _ => rfl,fun _ _ => rfl,rfl,fun _ h => absurd rfl h⟩

theorem TrapConfined.trans (h : TrapConfined env s t) (k : TrapConfined env t u) : TrapConfined env s u where
  mode hs := k.mode (h.mode hs)
  mstatus := h.mstatus.trans k.mstatus
  mstatusH := h.mstatusH.trans k.mstatusH
  csrs n hn := (k.csrs n hn).trans (h.csrs n hn)
  live := k.live.trans h.live
  mem a ha := by
    by_cases ht : t.mem a=s.mem a
    · exact k.mem a (by rwa [ht])
    · exact h.mem a ht

theorem TrapConfined.ok (h : TrapConfined env s t) : Handled env s (SBI_OK,t) := ⟨h,fun _ => rfl⟩

theorem Handled.after {r : Int×TrapState x} (k : Handled env t r) (h : TrapConfined env s t) : Handled env s r :=
  ⟨h.trans k.confined,fun hs => k.returns (h.mode hs)⟩

end TrapConfined
end OpenSBI
