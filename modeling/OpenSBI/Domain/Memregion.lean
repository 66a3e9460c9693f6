import OpenSBI.Math.AlignedBlock
import OpenSBI.Math.FirstMatch
import OpenSBI.Riscv.Hartmask
import OpenSBI.Riscv.Csr

namespace OpenSBI

/-- `struct sbi_domain_memregion`; an entry of order zero ends a region table. -/
structure Memregion (x : Xlen) where
  order : Word x
  base : Word x
  flags : Word x
  deriving DecidableEq,Repr

variable {x : Xlen}

def SBI_DOMAIN_MEMREGION_READABLE : Word x := Word.bit 0
def SBI_DOMAIN_MEMREGION_WRITEABLE : Word x := Word.bit 1
def SBI_DOMAIN_MEMREGION_EXECUTABLE : Word x := Word.bit 2
def SBI_DOMAIN_MEMREGION_MMODE : Word x := Word.bit 3
def SBI_DOMAIN_MEMREGION_MMIO : Word x := Word.bit 31

def SBI_DOMAIN_READ : Word x := Word.bit 0
def SBI_DOMAIN_WRITE : Word x := Word.bit 1
def SBI_DOMAIN_EXECUTE : Word x := Word.bit 2
def SBI_DOMAIN_MMIO : Word x := Word.bit 3

/-- `struct sbi_domain`. The pointers `possible_harts` and `regions` can be NULL. -/
structure SbiDomain (x : Xlen) where
  index : Nat
  assignedHarts : Hartmask
  possibleHarts : Option Hartmask
  regions : Option (List (Memregion x))
  bootHartid : Nat
  nextArg1 : Word x
  nextAddr : Word x
  nextMode : Nat
  systemResetAllowed : Bool

/-- The entries `sbi_domain_for_each_memregion()` visits: those before the first of order zero. -/
def forEachMemregion (l : List (Memregion x)) : List (Memregion x) :=
  l.takeWhile (fun r => r.order≠0)

def SbiDomain.memregions (d : SbiDomain x) : List (Memregion x) :=
  forEachMemregion (d.regions.getD [])

/-- Last address of a region as `sbi_domain_check_addr()` computes it. -/
def Memregion.rend (r : Memregion x) : Word x :=
  if r.order.toNat<x.bits then r.base+(Word.bit r.order.toNat-1) else Word.max

/-- The range test of `sbi_domain_check_addr()`. -/
def Memregion.contains (r : Memregion x) (addr : Word x) : Bool :=
  decide (r.base≤addr) && decide (addr≤r.rend)

/-- The `rwx` flags asked for by an access mask. -/
def accessRwx (accessFlags : Word x) : Word x :=
  (if accessFlags &&& SBI_DOMAIN_READ≠0 then SBI_DOMAIN_MEMREGION_READABLE else 0) |||
  (if accessFlags &&& SBI_DOMAIN_WRITE≠0 then SBI_DOMAIN_MEMREGION_WRITEABLE else 0) |||
  (if accessFlags &&& SBI_DOMAIN_EXECUTE≠0 then SBI_DOMAIN_MEMREGION_EXECUTABLE else 0)

/-- The loop of `sbi_domain_check_addr()` over the region table. -/
def checkAddrLoop (addr : Word x) (mode : Nat) (mmio : Bool) (rwx : Word x) :
    List (Memregion x) → Bool
  | [] => decide (mode=PRV_M)
  | reg::rest =>
      if mode=PRV_M ∧ reg.flags &&& SBI_DOMAIN_MEMREGION_MMODE=0 then
        checkAddrLoop addr mode mmio rwx rest
      else if reg.contains addr then
        if mmio && decide (reg.flags &&& SBI_DOMAIN_MEMREGION_MMIO=0) ||
            !mmio && decide (reg.flags &&& SBI_DOMAIN_MEMREGION_MMIO≠0) then false
        else decide (reg.flags &&& rwx=rwx)
      else checkAddrLoop addr mode mmio rwx rest

/-- `sbi_domain_check_addr()`. -/
def sbiDomainCheckAddr (dom : SbiDomain x) (addr : Word x) (mode : Nat)
    (accessFlags : Word x) : Bool :=
  checkAddrLoop addr mode (decide (accessFlags &&& SBI_DOMAIN_MMIO≠0)) (accessRwx accessFlags)
    dom.memregions

def Memregion.isMmio (r : Memregion x) : Bool :=
  decide (r.flags &&& SBI_DOMAIN_MEMREGION_MMIO≠0)

/-- Below M-mode the loop is a first match over the table. -/
theorem checkAddrLoop_eq {addr : Word x} {mode : Nat} (hm : mode≠PRV_M) (mmio : Bool)
    (rwx : Word x) (l : List (Memregion x)) :
    checkAddrLoop addr mode mmio rwx l=Math.firstMatch l (fun r => r.contains addr)
      (fun r => decide (mmio=r.isMmio) && decide (r.flags &&& rwx=rwx)) := by
  induction l with
  | nil => simp [checkAddrLoop,hm]
  | cons r l ih =>
    rw [checkAddrLoop,if_neg (fun h => hm h.1),Math.firstMatch_cons,ih]
    congr 1
    by_cases hf : r.flags &&& SBI_DOMAIN_MEMREGION_MMIO=0
    · cases mmio <;> simp [Memregion.isMmio,hf]
    · cases mmio <;> simp [Memregion.isMmio]

/-- A region below the full width whose base is a multiple of its size. -/
structure Memregion.Aligned (r : Memregion x) : Prop where
  order : r.order.toNat<x.bits
  base : 2^r.order.toNat∣r.base.toNat

/-- Natural alignment keeps the end of a region from wrapping. -/
theorem Memregion.Aligned.end_le {r : Memregion x} (h : r.Aligned) :
    r.base.toNat+2^r.order.toNat≤2^x.bits := by
  have hlt := r.base.isLt
  have hd : 2^r.order.toNat∣2^x.bits := Nat.pow_dvd_pow 2 (Nat.le_of_lt h.order)
  obtain ⟨q,hq⟩ := h.base
  obtain ⟨n,hn⟩ := hd
  rw [hq,hn] at hlt ⊢
  have hqn : q<n := Nat.lt_of_mul_lt_mul_left hlt
  calc
    2^r.order.toNat*q+2^r.order.toNat = 2^r.order.toNat*(q+1) := by ring
    _ ≤ 2^r.order.toNat*n := Nat.mul_le_mul_left _ hqn

theorem Memregion.Aligned.toNat_rend {r : Memregion x} (h : r.Aligned) :
    r.rend.toNat=r.base.toNat+(2^r.order.toNat-1) := by
  have hp : 0<2^r.order.toNat := Nat.two_pow_pos _
  have he := h.end_le
  rw [Memregion.rend,if_pos h.order,BitVec.toNat_add,Word.toNat_bit_sub_one h.order]
  exact Nat.mod_eq_of_lt (by omega)

/-- An aligned region contains exactly the addresses of its block. -/
theorem Memregion.Aligned.contains_iff {r : Memregion x} (h : r.Aligned) (a : Word x) :
    r.contains a=true ↔ Math.InBlock r.base.toNat r.order.toNat a.toNat := by
  have hp : 0<2^r.order.toNat := Nat.two_pow_pos _
  rw [Memregion.contains,Bool.and_eq_true,decide_eq_true_iff,decide_eq_true_iff,
    BitVec.le_def,BitVec.le_def,h.toNat_rend,Math.InBlock]
  omega

/-- A region of the full width reaches from its base to the top of the address space. -/
theorem Memregion.contains_full {r : Memregion x} (h : x.bits≤r.order.toNat) (a : Word x) :
    r.contains a=true ↔ r.base≤a := by
  rw [Memregion.contains,Memregion.rend,if_neg (by omega)]
  simp [Word.le_max a]

/-- A domain with the given region table, closed by its terminator. -/
def tableDomain (regions : List (Memregion x)) : SbiDomain x where
  index := 0
  assignedHarts := 0
  possibleHarts := some 1
  regions := some (regions++[⟨0,0,0⟩])
  bootHartid := 0
  nextArg1 := 0
  nextAddr := 0x80200000
  nextMode := PRV_S
  systemResetAllowed := false

/-- A firmware region in front of one that grants everything else. -/
def rootTable : List (Memregion .rv64) :=
  [⟨17,0x80000000,SBI_DOMAIN_MEMREGION_MMODE⟩,⟨64,0,7⟩]

end OpenSBI
