import OpenSBI.Riscv.Xlen

namespace OpenSBI

variable {x : Xlen}

def log2roundupLoop (v : Word x) (ret : Nat) : Nat → Nat
  | 0 => ret
  | fuel+1 => if v≤Word.bit ret then ret else log2roundupLoop v (ret+1) fuel

/-- `log2roundup()`; the loop makes at most `__riscv_xlen` rounds. -/
def log2roundup (v : Word x) : Nat := log2roundupLoop v 0 x.bits

private theorem log2roundupLoop_eq {v : Word x} {g ret fuel : Nat} (hg : g<x.bits)
    (hle : v.toNat≤2^g) (hmin : ∀ k,k<g → 2^k<v.toNat) (hret : ret≤g) (hfuel : g<ret+fuel) :
    log2roundupLoop v ret fuel=g := by
  induction fuel generalizing ret with
  | zero => omega
  | succ fuel ih =>
    have hbit : v≤Word.bit ret ↔ v.toNat≤2^ret := by
      rw [BitVec.le_def,Word.toNat_bit (by omega)]
    by_cases he : ret=g
    · rw [log2roundupLoop,if_pos (hbit.mpr (he ▸ hle)),he]
    · have hlt := hmin ret (by omega)
      rw [log2roundupLoop,if_neg (by rw [hbit]; omega)]
      exact ih (by omega) (by omega)

/-- `log2roundup()` finds the least order that is large enough. -/
theorem log2roundup_eq {v : Word x} {g : Nat} (hg : g<x.bits) (hle : v.toNat≤2^g)
    (hmin : ∀ k,k<g → 2^k<v.toNat) : log2roundup v=g :=
  log2roundupLoop_eq hg hle hmin (Nat.zero_le g) (by omega)

/-- On a power of two it is the exponent. -/
theorem log2roundup_two_pow {v : Word x} {g : Nat} (h : v.toNat=2^g) : log2roundup v=g := by
  have hg : g<x.bits := (Nat.pow_lt_pow_iff_right (by decide)).mp (h ▸ v.isLt)
  exact log2roundup_eq hg h.le (fun k hk => h ▸ Nat.pow_lt_pow_right (by decide) hk)

/-- No order below the width that is large enough is passed over. -/
private theorem log2roundupLoop_le_iff {v : Word x} {k ret fuel : Nat} (hk : k<x.bits)
    (hlow : ∀ j,j<ret → 2^j<v.toNat) (hfuel : ret+fuel=x.bits) :
    log2roundupLoop v ret fuel≤k ↔ v.toNat≤2^k := by
  induction fuel generalizing ret with
  | zero =>
    have hlt := hlow k (by omega)
    rw [log2roundupLoop]
    omega
  | succ fuel ih =>
    have hbit : v≤Word.bit ret ↔ v.toNat≤2^ret := by
      rw [BitVec.le_def,Word.toNat_bit (by omega)]
    rw [log2roundupLoop]
    split_ifs with hv
    · rw [hbit] at hv
      constructor
      · exact fun hle => hv.trans (Nat.pow_le_pow_right (by decide) hle)
      · intro hle
        by_contra hlt
        have := hlow k (by omega)
        omega
    · rw [hbit] at hv
      refine ih (fun j hj => ?_) (by omega)
      rcases Nat.lt_succ_iff_lt_or_eq.mp hj with hlt | rfl
      · exact hlow j hlt
      · omega

theorem log2roundup_le_iff {v : Word x} {k : Nat} (hk : k<x.bits) :
    log2roundup v≤k ↔ v.toNat≤2^k :=
  log2roundupLoop_le_iff hk (fun j hj => absurd hj (Nat.not_lt_zero j)) (Nat.zero_add _)

private theorem log2roundupLoop_le (v : Word x) (ret fuel : Nat) :
    log2roundupLoop v ret fuel≤ret+fuel := by
  induction fuel generalizing ret with
  | zero => exact le_refl _
  | succ fuel ih =>
    rw [log2roundupLoop]
    split_ifs
    · omega
    · have := ih (ret+1)
      omega

theorem log2roundup_le (v : Word x) : log2roundup v≤x.bits := by
  have := log2roundupLoop_le v 0 x.bits
  rwa [Nat.zero_add] at this

end OpenSBI
