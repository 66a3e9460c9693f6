import OpenSBI.Trap.Entry
import OpenSBI.Trap.Handler

namespace OpenSBI

variable {x : Xlen}

open Reg

/-! ## A whole trap -/

section Return

variable {env : HartEnv x} {h : Hart x} {flen haveMstatush : Bool} {handle : TrapState x → TrapOutcome x}
  {rest : Hart x → TrapState x} {body : Hart x → Option (Hart x)}

theorem live_mprv {s t : TrapState x}
    (h : clearMask (t.csrs CSR_MSTATUS) MSTATUS_FS=clearMask (s.csrs CSR_MSTATUS) MSTATUS_FS) :
    andMask (t.csrs CSR_MSTATUS) MSTATUS_MPRV=andMask (s.csrs CSR_MSTATUS) MSTATUS_MPRV := by
  rw [← andMask_clearMask (n := MSTATUS_FS) (by decide),h,andMask_clearMask (by decide)]

end Return

/-! ## Runs -/

/-- A hart is below M-mode, and the registers of the machine are those of `csrs`. -/
structure Hart.Held (csrs : Csrs x) (h : Hart x) : Prop where
  mode : h.mode=PRV_S ∨ h.mode=PRV_U
  csrs : ∀ n,MachineCsr n → h.csrs n=csrs n
  mprv : andMask (h.csrs CSR_MSTATUS) MSTATUS_MPRV=0

section Runs

variable (env : HartEnv x) (flen haveMstatush : Bool) (fw : Word x → Prop) (handle : TrapState x → TrapOutcome x)
  (rest : Hart x → TrapState x) (body : Hart x → Option (Hart x))

variable {env flen haveMstatush fw handle rest body} {h g : Hart x} {csrs : Csrs x}

theorem andMask_of_sameBits {a b : Word x} {fields : List Nat} (h : SameBits a b fields) {n : Nat} (hn : n∉fields) :
    andMask b (2^n)=andMask a (2^n) := by
  apply BitVec.eq_of_getLsbD_eq
  intro i hi
  rw [andMask,andMask,BitVec.getLsbD_and,BitVec.getLsbD_and,BitVec.getLsbD_ofNat,Nat.testBit_two_pow]
  by_cases he : n=i
  · subst he
    rw [h n hn]
  · simp [he]

theorem TrapGuarded.mprv {access : TrapEnv x} {s t : TrapState x} (h : TrapGuarded access s t) :
    andMask t.regs.mstatus MSTATUS_MPRV=andMask s.regs.mstatus MSTATUS_MPRV ∧
      andMask (t.csrs CSR_MSTATUS) MSTATUS_MPRV=andMask (s.csrs CSR_MSTATUS) MSTATUS_MPRV := by
  constructor
  · refine andMask_of_sameBits (n := 17) h.mstatus ?_
    cases x <;> decide
  · exact live_mprv h.live

theorem TrapRegs.BelowM.lt {r : TrapRegs x} (h : r.BelowM) : r.prevMode<PRV_M := by
  obtain h | h := h <;> rw [h] <;> decide

section Firmware

variable {calls : TrapCalls x} {sf : Softfloat} {access : TrapState x → TrapEnv x} {h0 : Hart x}
  {l : List (TrapState x×TrapState x)}

end Firmware
end Runs
end OpenSBI
