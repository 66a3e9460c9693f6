import OpenSBI.Fp.Slots
import OpenSBI.Riscv.Machine

namespace OpenSBI

variable {x : Xlen}

/-! The trap handler of the firmware, `_trap_handler` to `mret`. -/

namespace Reg

abbrev zero : Fin 32 := 0
abbrev ra : Fin 32 := 1
abbrev sp : Fin 32 := 2
abbrev gp : Fin 32 := 3
abbrev tp : Fin 32 := 4
abbrev t0 : Fin 32 := 5
abbrev a0 : Fin 32 := 10
abbrev a3 : Fin 32 := 13
abbrev a4 : Fin 32 := 14

end Reg

open Reg

/-- The status that `mret` leaves: MIE from MPIE, MPIE set, MPP at the lowest mode, MPRV cleared below M-mode. -/
def mretStatus (m : Word x) : Word x :=
  let m1 := if andMask m MSTATUS_MPIE≠0 then orMask m MSTATUS_MIE else clearMask m MSTATUS_MIE
  let m2 := clearMask (orMask m1 MSTATUS_MPIE) MSTATUS_MPP
  if (andMask m MSTATUS_MPP).toNat/2^MSTATUS_MPP_SHIFT≠PRV_M then clearMask m2 MSTATUS_MPRV else m2

/-- `mret` -/
def Hart.mret (h : Hart x) : Hart x :=
  let m := h.csrs CSR_MSTATUS
  { h.setCsr CSR_MSTATUS (mretStatus m) with
    pc := h.csrs CSR_MEPC, mode := (andMask m MSTATUS_MPP).toNat/2^MSTATUS_MPP_SHIFT }

theorem mret_csrs {h : Hart x} {n : Nat} (hn : n≠CSR_MSTATUS) : h.mret.csrs n=h.csrs n := by
  simp [Hart.mret,hn]

section Entry

variable {env : HartEnv x} {h : Hart x}

/-- Where the trap's frame is. -/
def Hart.frame (h : Hart x) : Word x := trapFrame (h.csrs CSR_MSTATUS) (h.get sp) (h.csrs CSR_MSCRATCH)

section Saved

variable {r : TrapRegs x} {mem : Word x → BitVec 8} {p : Word x}

end Saved

end Entry
end OpenSBI
