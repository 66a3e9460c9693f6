import OpenSBI.Domain.Cover
import OpenSBI.Domain.RootGrow
import OpenSBI.Riscv.Bitops

namespace OpenSBI

open Math

variable {x : Xlen}

def MTIMER_ADD_REGION_ALIGN : Nat := 0x1000

/-- What a round of `aclint_mtimer_add_regions()` takes off the front of a range: `rsize`. -/
def mtimerRegionSize (pos stop : Word x) : Word x :=
  if pos &&& (BitVec.ofNat _ MTIMER_ADD_REGION_ALIGN-1)≠0 then Word.bit (ffs pos)
  else if stop-pos<BitVec.ofNat _ MTIMER_ADD_REGION_ALIGN then stop-pos
  else BitVec.ofNat _ MTIMER_ADD_REGION_ALIGN

/-- The region that it adds there. -/
def mtimerRegion (pos stop : Word x) : Memregion x :=
  sbiDomainMemregionInit pos (mtimerRegionSize pos stop) SBI_DOMAIN_MEMREGION_MMIO

/-- The loop of `aclint_mtimer_add_regions()`; the outer `none` is a loop that goes on. -/
def mtimerAddLoop (plat : Platform) (fw : Memregion x) (finalized : Bool) (stop : Word x) :
    Nat → Word x → SbiDomain x → Nat → Option (Int×SbiDomain x×Nat)
  | 0,_,_,_ => none
  | fuel+1,pos,root,count =>
    if pos<stop then
      let r := sbiDomainRootAddMemregion plat fw finalized root count (mtimerRegion pos stop)
      if r.1≠0 then some r
      else mtimerAddLoop plat fw finalized stop fuel (pos+mtimerRegionSize pos stop) r.2.1 r.2.2
    else some (0,root,count)

/-- The blocks that the loop adds when each call succeeds. -/
def mtimerBlocksLoop (stop : Word x) : Nat → Word x → List (Memregion x)
  | 0,_ => []
  | fuel+1,pos =>
    if pos<stop then mtimerRegion pos stop::mtimerBlocksLoop stop fuel (pos+mtimerRegionSize pos stop)
    else []

/-- A round takes off at least eight bytes: up to the end of a page at most, and within a page run up to the
end of the range at most. -/
structure RoundSize (pos stop size : Word x) : Prop where
  least : 8 ≤ size.toNat
  aligned : size.toNat%8=0
  page : pos.toNat%MTIMER_ADD_REGION_ALIGN≠0 →
    size.toNat ≤ MTIMER_ADD_REGION_ALIGN-pos.toNat%MTIMER_ADD_REGION_ALIGN
  within : pos.toNat%MTIMER_ADD_REGION_ALIGN=0 →
    size.toNat=min MTIMER_ADD_REGION_ALIGN (stop.toNat-pos.toNat)

variable {pos stop size : Word x}

/-- A round stays below the top of the address space, or ends there. -/
theorem RoundSize.fits (h : RoundSize pos stop size) : pos.toNat+size.toNat ≤ 2^x.bits := by
  have hp := pos.isLt
  have hs := stop.isLt
  have htop : 2^x.bits%MTIMER_ADD_REGION_ALIGN=0 := by cases x <;> rfl
  have hpage := h.page
  have hwithin := h.within
  simp only [MTIMER_ADD_REGION_ALIGN] at htop hpage hwithin
  omega

theorem RoundSize.next (h : RoundSize pos stop size) (hp : pos.toNat%8=0) : (pos+size).toNat%8=0 := by
  have h8 := h.aligned
  have htop : 2^x.bits%8=0 := by cases x <;> rfl
  rw [BitVec.toNat_add,Nat.mod_mod_of_dvd _ (Nat.dvd_of_mod_eq_zero htop)]
  omega

/-- What the loop adds: naturally aligned blocks without permission. -/
structure TimerBlock (b : Memregion x) : Prop where
  flags : b.flags= SBI_DOMAIN_MEMREGION_MMIO
  base : 2^b.order.toNat∣b.base.toNat
  order : b.order≠0

end OpenSBI
