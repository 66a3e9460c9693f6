import OpenSBI.Math.IntegerRounding
import OpenSBI.Math.StickyRounding
import Mathlib.Algebra.Order.Field.Power
import Mathlib.Data.Int.Log

namespace OpenSBI.Math

/-- A number rounded to a format, with the exceptions that the rounding signals. -/
structure Rounded where
  value : FloatValue
  overflow : Bool
  underflow : Bool
  inexact : Bool
  deriving DecidableEq,Repr

namespace RoundingMode

/-- `q` rounded to a multiple of `u`. -/
def roundOn (mode : RoundingMode) (u q : ℚ) : ℚ := mode.round (q/u)*u

/-- The modes in which a magnitude that is too large stops at the greatest number. -/
def Stops (mode : RoundingMode) : Prop := mode=.rtz ∨ mode=.rdn

instance (mode : RoundingMode) : Decidable mode.Stops := inferInstanceAs (Decidable (_ ∨ _))

section On

variable (mode : RoundingMode) {q : ℚ}

theorem roundOn_eq_iff {u : ℚ} (hu : 0<u) : mode.roundOn u q=q ↔ q/u=⌊q/u⌋ := by
  rw [roundOn,← eq_div_iff hu.ne',round_eq_iff]

theorem roundOn_mul {u : ℚ} (hu : 0<u) (n : ℤ) : mode.roundOn u (n*u)=n*u := by
  rw [roundOn,mul_div_cancel_right₀ _ hu.ne',round_intCast]

variable {k : ℤ} {g sig : ℕ}

theorem roundDiv_range (m u : Nat) : m/u ≤ mode.roundDiv m u ∧ mode.roundDiv m u ≤ m/u+1 := by
  cases mode <;> simp only [roundDiv] <;> (try split) <;> omega

/-- A significand with `g` guard bits that is cut as `q` is. -/
theorem roundOn_sig (hcut : SameCut (2^(k+g-1)) q (sig*2^k)) :
    mode.roundOn (2^(k+g)) q=mode.roundDiv sig (2^g)*2^(k+g) ∧
      (mode.roundOn (2^(k+g)) q=q ↔ sig%2^g=0) := by
  have hu : (0 : ℚ)<2^(k+g-1) := by positivity
  have h2 : (2 : ℚ)^(k+g)=2*2^(k+g-1) := by
    rw [← zpow_one_add₀ two_ne_zero]
    congr 1
    omega
  have hg : (0 : ℕ)<2^g := by positivity
  have hdiv : (sig*2^k : ℚ)/2^(k+g)=(sig : ℚ)/((2^g : ℕ) : ℚ) := by
    rw [zpow_add₀ two_ne_zero,zpow_natCast]
    push_cast
    field_simp
  have h2u : (0 : ℚ)<2*2^(k+g-1) := by positivity
  have hw : SameCut (2*2^(k+g-1)) q (sig*2^k) := by exact_mod_cast hcut.widen 2
  constructor
  · rw [roundOn,h2,hcut.round hu,← h2,hdiv,round_div hg]
    push_cast
    rfl
  · rw [roundOn_eq_iff mode (by positivity),h2,hw.eq_floor_iff h2u,← h2,hdiv,floor_div hg,
      div_eq_iff (by positivity)]
    norm_cast
    rw [eq_comm,Nat.div_mul_self_eq_mod_sub_self]
    have := Nat.mod_le sig (2^g)
    omega

end On
end RoundingMode

namespace BinaryFormat

variable (F : BinaryFormat) (mode : RoundingMode)

/-- The distance between the numbers around `q`, as the format has them and without its least
exponent. -/
def quantum (q : ℚ) : ℚ := 2^(max (Int.log 2 q) (1-F.bias)-F.fracBits)
def wideQuantum (q : ℚ) : ℚ := 2^(Int.log 2 q-F.fracBits)

/-- `q` rounded to the precision of the format; only the first keeps to the least exponent. -/
def roundRat (q : ℚ) : ℚ := mode.roundOn (F.quantum q) q
def roundWide (q : ℚ) : ℚ := mode.roundOn (F.wideQuantum q) q

def maxFinite : ℚ := (2^(F.fracBits+1)-1)*2^F.bias/2^F.fracBits

/-- The number with the sign and the magnitude `q`, rounded once. Underflow is a result that is
tiny after rounding and inexact. -/
def roundTo (negative : Bool) (q : ℚ) : Rounded :=
  let m := mode.signed negative
  let r := F.roundRat m q
  if 2^(F.bias+1) ≤ r then
    ⟨if m.Stops then .finite negative F.maxFinite else .inf negative,true,false,true⟩
  else ⟨.finite negative r,false,decide (r≠q ∧ F.roundWide m q<2^(1-F.bias : ℤ)),decide (r≠q)⟩

section Exponent

variable {q : ℚ} {e : ℤ}

theorem log_eq (hlo : 2^e ≤ q) (hhi : q<2^(e+1)) : Int.log 2 q=e := by
  have hq : 0<q := lt_of_lt_of_le (by positivity) hlo
  have h1 : e ≤ Int.log 2 q := (Int.zpow_le_iff_le_log (by decide) hq).mp (by exact_mod_cast hlo)
  have h2 : Int.log 2 q<e+1 := (Int.lt_zpow_iff_log_lt (by decide) hq).mp (by exact_mod_cast hhi)
  omega

/-- What is cut alike is in one binade. -/
theorem log_of_cut {i k : ℤ} {p sig : ℕ} (hcut : SameCut (2^i) q (sig*2^k)) (hi : i ≤ k+p)
    (hlo : 2^p ≤ sig) (hhi : sig<2^(p+1)) : Int.log 2 q=k+p := by
  have hpow : ∀ j : ℤ,i ≤ j → ∃ n : ℤ,(2 : ℚ)^j=n*2^i := by
    intro j hj
    obtain ⟨c,rfl⟩ := Int.le.dest hj
    refine ⟨2^c,?_⟩
    rw [zpow_add₀ two_ne_zero,zpow_natCast,mul_comm]
    push_cast
    rfl
  have hk : (0 : ℚ)<2^k := by positivity
  apply log_eq
  · obtain ⟨n,hn⟩ := hpow (k+p) hi
    rw [hn,hcut.le_iff,← hn,zpow_add₀ two_ne_zero,mul_comm,zpow_natCast]
    exact mul_le_mul_of_nonneg_right (by exact_mod_cast hlo) hk.le
  · obtain ⟨n,hn⟩ := hpow (k+p+1) (by omega)
    rw [hn,(hcut n).1,← hn,add_assoc,zpow_add₀ two_ne_zero,mul_comm (2^k : ℚ)]
    apply mul_lt_mul_of_pos_right _ hk
    exact_mod_cast hhi

theorem quantum_pos (q : ℚ) : 0<F.quantum q := by
  unfold quantum
  positivity

end Exponent

section Guarded

variable {F} {mode} {q : ℚ} {g sig : ℕ}

theorem roundDiv_le_pow {p : ℕ} (h : sig<2^(p+g)) (mode : RoundingMode) : mode.roundDiv sig (2^g) ≤ 2^p := by
  apply (RoundingMode.roundDiv_range mode sig (2^g)).2.trans
  rw [Nat.succ_le_iff,Nat.div_lt_iff_lt_mul (Nat.two_pow_pos g),← pow_add]
  exact h

theorem pow_le_roundDiv {p : ℕ} (h : 2^(p+g) ≤ sig) (mode : RoundingMode) : 2^p ≤ mode.roundDiv sig (2^g) := by
  apply le_trans _ (RoundingMode.roundDiv_range mode sig (2^g)).1
  rw [Nat.le_div_iff_mul_le (Nat.two_pow_pos g),← pow_add]
  exact h

/-- A significand with guard bits in the range of the normal numbers. -/
theorem roundTo_normal {e : ℕ} {k : ℤ} (negative : Bool) (hF : 2 ≤ F.expBits) 
    (hk : k+F.fracBits+g=e+1-F.bias) (hlo : 2^(F.fracBits+g) ≤ sig) (hhi : sig<2^(F.fracBits+g+1))
    (hcut : SameCut (2^(k+g-1)) q (sig*2^k)) :
    F.roundTo mode negative q=
      let n := (mode.signed negative).roundDiv sig (2^g)
      if 2^F.expBits-3<e ∨ e=2^F.expBits-3 ∧ n=2^(F.fracBits+1) then
        ⟨if (mode.signed negative).Stops then .finite negative F.maxFinite else .inf negative,true,false,true⟩
      else ⟨.finite negative (n*2^(e+1)/2^(F.bias+F.fracBits)),false,false,decide (sig%2^g≠0)⟩ := by
  have hbias := F.two_bias hF
  have h4 : 4 ≤ 2^F.expBits := by
    calc 4=2^2 := rfl
      _ ≤ 2^F.expBits := Nat.pow_le_pow_right (by decide) hF
  have hlog : Int.log 2 q=e+1-F.bias := by
    rw [log_of_cut (p := F.fracBits+g) hcut (by push_cast; omega) hlo hhi]
    push_cast
    omega
  have hQ : F.quantum q=2^(k+g) := by
    rw [quantum,hlog]
    congr 1
    omega
  have hW : F.wideQuantum q=2^(k+g) := by
    rw [wideQuantum,hlog]
    congr 1
    omega
  obtain ⟨hr,hx⟩ := (mode.signed negative).roundOn_sig hcut
  have hnlo := pow_le_roundDiv hlo (mode.signed negative)
  have hnhi := roundDiv_le_pow (p := F.fracBits+1) (by rwa [Nat.add_right_comm]) (mode.signed negative)
  set n := (mode.signed negative).roundDiv sig (2^g) with hn
  have hval : (n : ℚ)*2^(k+g)=n*2^(e+1)/2^(F.bias+F.fracBits) := by
    rw [show k+g=((e+1 : ℕ) : ℤ)-((F.bias+F.fracBits : ℕ) : ℤ) by push_cast; omega,
      zpow_sub₀ two_ne_zero,zpow_natCast,zpow_natCast,mul_div_assoc]
  have hover : (2 : ℚ)^(F.bias+1) ≤ n*2^(k+g) ↔
      2^F.expBits-3<e ∨ e=2^F.expBits-3 ∧ n=2^(F.fracBits+1) := by
    have hnat : (2 : ℚ)^(F.bias+1) ≤ n*2^(k+g) ↔ 2^(F.fracBits+(2^F.expBits-2)) ≤ n*2^e := by
      rw [hval,le_div_iff₀ (by positivity),← pow_add]
      norm_cast
      rw [show F.bias+1+(F.bias+F.fracBits)=F.fracBits+(2^F.expBits-2)+1 by omega,pow_succ,pow_succ,
        ← Nat.mul_assoc]
      exact Nat.mul_le_mul_right_iff Nat.two_pos
    rw [hnat]
    obtain h | h | h := lt_trichotomy e (2^F.expBits-3)
    · refine iff_of_false ?_ (by omega)
      rw [Nat.not_le]
      calc n*2^e ≤ 2^(F.fracBits+1)*2^e := Nat.mul_le_mul_right _ hnhi
        _=2^(F.fracBits+1+e) := (pow_add ..).symm
        _<2^(F.fracBits+(2^F.expBits-2)) := Nat.pow_lt_pow_right (by decide) (by omega)
    · rw [h,show F.fracBits+(2^F.expBits-2)=F.fracBits+1+(2^F.expBits-3) by omega,pow_add,
        Nat.mul_le_mul_right_iff (Nat.two_pow_pos _)]
      omega
    · refine iff_of_true ?_ (.inl h)
      calc 2^(F.fracBits+(2^F.expBits-2)) ≤ 2^(F.fracBits+e) := Nat.pow_le_pow_right (by decide) (by omega)
        _=2^F.fracBits*2^e := pow_add ..
        _ ≤ n*2^e := Nat.mul_le_mul_right _ hnlo
  have htiny : ¬(n : ℚ)*2^(k+g)<2^(1-F.bias : ℤ) := by
    rw [not_lt]
    calc (2 : ℚ)^(1-F.bias : ℤ) ≤ 2^(F.fracBits+(k+g)) := zpow_le_zpow_right₀ (by norm_num) (by omega)
      _=2^F.fracBits*2^(k+g) := by rw [zpow_add₀ two_ne_zero,zpow_natCast]
      _ ≤ n*2^(k+g) := mul_le_mul_of_nonneg_right (by exact_mod_cast hnlo) (by positivity)
  rw [roundTo,roundRat,roundWide,hQ,hW]
  simp only [hr,hover]
  rw [hr,hval] at hx
  rw [hval] at htiny
  split
  · rfl
  · simp only [ne_eq,hval,hx,htiny,and_false,decide_false]

/-- A significand below the normal numbers: its lowest bits are jammed before it is rounded. -/
theorem roundTo_subnormal {d : ℕ} {k : ℤ} (negative : Bool) (hF : 2 ≤ F.expBits) (hg : 2 ≤ g) (hd : 1 ≤ d)
    (hk : k+F.fracBits+g=1-d-F.bias) (hlo : 2^(F.fracBits+g) ≤ sig) (hhi : sig<2^(F.fracBits+g+1))
    (hcut : SameCut (2^(k+g-1)) q (sig*2^k)) :
    F.roundTo mode negative q=
      let sig' := jam sig (2^d)
      let tiny := 1<d ∨ (mode.signed negative).roundDiv sig (2^g)<2^(F.fracBits+1)
      ⟨.finite negative ((mode.signed negative).roundDiv sig' (2^g)*2^1/2^(F.bias+F.fracBits)),false,
        decide (tiny ∧ sig'%2^g≠0),decide (sig'%2^g≠0)⟩ := by
  have hbias := F.two_bias hF
  have hlog : Int.log 2 q=1-d-F.bias := by
    rw [log_of_cut (p := F.fracBits+g) hcut (by push_cast; omega) hlo hhi]
    push_cast
    omega
  have hQ : F.quantum q=2^(k+d+g) := by
    rw [quantum,hlog]
    congr 1
    omega
  have hW : F.wideQuantum q=2^(k+g) := by
    rw [wideQuantum,hlog]
    congr 1
    omega
  have hjam : SameCut (2^(k+d+g-1)) q ((jam sig (2^d) : ℕ)*2^(k+d)) := by
    have hj : SameCut (2^(k+d)*2) (2^(k+d)*((sig : ℚ)/((2^d : ℕ) : ℚ))) (2^(k+d)*(jam sig (2^d) : ℕ)) :=
      (sameCut_jam sig (Nat.two_pow_pos d)).scale (by positivity)
    have hs : (2 : ℚ)^(k+d)*((sig : ℚ)/((2^d : ℕ) : ℚ))=sig*2^k := by
      rw [zpow_add₀ two_ne_zero,zpow_natCast]
      push_cast
      field_simp
    rw [hs,← zpow_add_one₀ two_ne_zero,mul_comm _ ((jam sig (2^d) : ℕ) : ℚ)] at hj
    exact (hcut.widen_pow (by omega)).trans (hj.widen_pow (by omega))
  obtain ⟨hr,hx⟩ := (mode.signed negative).roundOn_sig hjam
  obtain ⟨hw,-⟩ := (mode.signed negative).roundOn_sig hcut
  set n := (mode.signed negative).roundDiv (jam sig (2^d)) (2^g)
  set n' := (mode.signed negative).roundDiv sig (2^g)
  have hn : n ≤ 2^F.fracBits := roundDiv_le_pow
    (jam_lt (by omega) (hhi.trans_le (Nat.pow_le_pow_right (by decide) (by omega)))) _
  have hn' : n' ≤ 2^(F.fracBits+1) := roundDiv_le_pow (by rwa [Nat.add_right_comm]) _
  have hval : (n : ℚ)*2^(k+d+g)=n*2^1/2^(F.bias+F.fracBits) := by
    rw [show k+d+g=((1 : ℕ) : ℤ)-((F.bias+F.fracBits : ℕ) : ℤ) by push_cast; omega,
      zpow_sub₀ two_ne_zero,zpow_natCast,zpow_natCast,mul_div_assoc]
  have hover : ¬(2 : ℚ)^(F.bias+1) ≤ n*2^(k+d+g) := by
    rw [not_le]
    calc (n : ℚ)*2^(k+d+g) ≤ 2^F.fracBits*2^(k+d+g) :=
          mul_le_mul_of_nonneg_right (by exact_mod_cast hn) (by positivity)
      _=2^(F.fracBits+(k+d+g)) := by rw [zpow_add₀ two_ne_zero (F.fracBits : ℤ),zpow_natCast]
      _<2^((F.bias+1 : ℕ) : ℤ) := zpow_lt_zpow_right₀ (by norm_num) (by push_cast; omega)
      _=2^(F.bias+1) := zpow_natCast _ _
  have htiny : (n' : ℚ)*2^(k+g)<2^(1-F.bias : ℤ) ↔ 1<d ∨ n'<2^(F.fracBits+1) := by
    have hd' : (2 : ℚ)^(1-F.bias : ℤ)=2^(F.fracBits+d)*2^(k+g) := by
      rw [← zpow_natCast,← zpow_add₀ two_ne_zero]
      congr 1
      push_cast
      omega
    rw [hd',mul_lt_mul_iff_left₀ (by positivity)]
    norm_cast
    obtain rfl | h : d=1 ∨ 1<d := by omega
    · simp
    · refine iff_of_true (hn'.trans_lt ?_) (.inl h)
      exact Nat.pow_lt_pow_right (by decide) (by omega)
  rw [roundTo,roundRat,roundWide,hQ,hW]
  simp only [hr,hw,if_neg hover,htiny]
  rw [hr,hval] at hx
  simp only [ne_eq,hval,hx,and_comm]
  rfl

end Guarded

section Tiny

variable {F} {mode} {q q' : ℚ}

theorem sameCut_between {u : ℚ} (hu : 0<u) (hq : 0<q ∧ q<u) (hq' : 0<q' ∧ q'<u) : SameCut u q q' := by
  intro n
  obtain hn | hn : n ≤ 0 ∨ 1 ≤ n := by omega
  · have hle : (n : ℚ)*u ≤ 0 := mul_nonpos_of_nonpos_of_nonneg (by exact_mod_cast hn) hu.le
    exact ⟨iff_of_false (by linarith) (by linarith),iff_of_false (by linarith) (by linarith)⟩
  · have hge : u ≤ (n : ℚ)*u := le_mul_of_one_le_left hu.le (by exact_mod_cast hn)
    exact ⟨iff_of_true (by linarith) (by linarith),iff_of_false (by linarith) (by linarith)⟩

theorem log_lt_of_tiny (hq : 0<q ∧ q<2^(-F.bias-F.fracBits : ℤ)) : Int.log 2 q < -F.bias-F.fracBits :=
  (Int.lt_zpow_iff_log_lt (by decide) hq.1).mp (by exact_mod_cast hq.2)

theorem quantum_tiny (hq : 0<q ∧ q<2^(-F.bias-F.fracBits : ℤ)) :
    F.quantum q=2*2^(-F.bias-F.fracBits : ℤ) := by
  have hlog := log_lt_of_tiny hq
  rw [quantum,max_eq_right (by omega),← zpow_one_add₀ two_ne_zero]
  congr 1
  ring

/-- Rounding does not leave the binade. -/
theorem roundWide_le (q : ℚ) (mode : RoundingMode) : F.roundWide mode q ≤ 2^(Int.log 2 q+1) := by
  have hW : (0 : ℚ)<F.wideQuantum q := by
    unfold wideQuantum
    positivity
  have hlt : q<2^(Int.log 2 q+1) := by exact_mod_cast Int.lt_zpow_succ_log_self (by decide) q
  have hpow : (2 : ℚ)^(Int.log 2 q+1)=((2^(F.fracBits+1) : ℕ) : ℤ)*F.wideQuantum q := by
    rw [wideQuantum]
    push_cast
    rw [← zpow_natCast,← zpow_add₀ two_ne_zero]
    congr 1
    push_cast
    ring
  rw [roundWide,RoundingMode.roundOn,hpow]
  apply mul_le_mul_of_nonneg_right _ hW.le
  have hceil : mode.round (q/F.wideQuantum q) ≤ ((2^(F.fracBits+1) : ℕ) : ℤ) := by
    apply (mode.round_le_ceil _).trans
    rw [Int.ceil_le,div_le_iff₀ hW,← hpow]
    exact hlt.le
  exact_mod_cast hceil

/-- Below half of the least number nothing is exact. -/
theorem roundTo_tiny (hF : 2 ≤ F.expBits) (negative : Bool) (hq : 0<q ∧ q<2^(-F.bias-F.fracBits : ℤ)) :
    F.roundTo mode negative q=⟨.finite negative (F.roundRat (mode.signed negative) q),false,true,true⟩ := by
  have hbias := F.two_bias hF
  have hh : (0 : ℚ)<2^(-F.bias-F.fracBits : ℤ) := by positivity
  have hQ := quantum_tiny hq
  have hdiv : 0<q/F.quantum q ∧ q/F.quantum q<1 := by
    rw [hQ,div_lt_one (by positivity)]
    exact ⟨div_pos hq.1 (by positivity),by linarith⟩
  have hne : F.roundRat (mode.signed negative) q≠q := by
    rw [Ne,roundRat,RoundingMode.roundOn_eq_iff _ (F.quantum_pos q),Int.floor_eq_zero_iff.mpr ⟨hdiv.1.le,hdiv.2⟩]
    exact_mod_cast hdiv.1.ne'
  have hover : ¬(2 : ℚ)^(F.bias+1) ≤ F.roundRat (mode.signed negative) q := by
    have hceil : (mode.signed negative).round (q/F.quantum q) ≤ 1 :=
      (RoundingMode.round_le_ceil _ _).trans (Int.ceil_le.mpr (by exact_mod_cast hdiv.2.le))
    rw [not_le,roundRat,RoundingMode.roundOn]
    calc ((mode.signed negative).round (q/F.quantum q) : ℚ)*F.quantum q ≤ 1*F.quantum q :=
          mul_le_mul_of_nonneg_right (by exact_mod_cast hceil) (F.quantum_pos q).le
      _=2^(1+(-F.bias-F.fracBits) : ℤ) := by rw [one_mul,hQ,zpow_one_add₀ two_ne_zero]
      _<2^((F.bias+1 : ℕ) : ℤ) := zpow_lt_zpow_right₀ (by norm_num) (by push_cast; omega)
      _=2^(F.bias+1) := zpow_natCast _ _
  have hwide : F.roundWide (mode.signed negative) q<2^(1-F.bias : ℤ) := by
    have hlog := log_lt_of_tiny hq
    exact (roundWide_le q _).trans_lt (zpow_lt_zpow_right₀ (by norm_num) (by omega))
  rw [roundTo]
  simp only [if_neg hover,hwide,hne,ne_eq,not_false_eq_true,and_self,decide_true]

theorem roundTo_between (hF : 2 ≤ F.expBits) (negative : Bool) (hq : 0<q ∧ q<2^(-F.bias-F.fracBits : ℤ))
    (hq' : 0<q' ∧ q'<2^(-F.bias-F.fracBits : ℤ)) : F.roundTo mode negative q=F.roundTo mode negative q' := by
  have hh : (0 : ℚ)<2^(-F.bias-F.fracBits : ℤ) := by positivity
  rw [roundTo_tiny hF negative hq,roundTo_tiny hF negative hq',roundRat,roundRat,RoundingMode.roundOn,
    RoundingMode.roundOn,quantum_tiny hq,quantum_tiny hq',(sameCut_between hh hq hq').round hh]

end Tiny

section Exact

variable {F} {mode} {q : ℚ} {c : ℕ} {e : ℤ}

theorem roundRat_zero (mode : RoundingMode) : F.roundRat mode 0=0 := by
  have h := mode.roundOn_mul (F.quantum_pos 0) 0
  rwa [Int.cast_zero,zero_mul] at h

/-- A number of the format is rounded to itself. -/
theorem roundRat_of_mul (hc : c<2^(F.fracBits+1)) (he : 1-F.bias-F.fracBits ≤ e) (mode : RoundingMode) :
    F.roundRat mode (c*2^e)=c*2^e := by
  obtain rfl | h0 := Nat.eq_zero_or_pos c
  · rw [Nat.cast_zero,zero_mul,roundRat_zero]
  have hlog : Int.log 2 ((c : ℚ)*2^e)<e+F.fracBits+1 := by
    apply (Int.lt_zpow_iff_log_lt (by decide) (by positivity)).mp
    rw [mul_comm]
    push_cast
    rw [add_assoc,zpow_add₀ two_ne_zero]
    apply mul_lt_mul_of_pos_left _ (by positivity)
    exact_mod_cast hc
  obtain ⟨j,hj⟩ := Int.le.dest (show max (Int.log 2 ((c : ℚ)*2^e)) (1-F.bias)-F.fracBits ≤ e by omega)
  have hq : (c : ℚ)*2^e=((c*2^j : ℕ) : ℤ)*F.quantum (c*2^e) := by
    conv_lhs => rw [← hj]
    rw [quantum,zpow_add₀ two_ne_zero,zpow_natCast]
    push_cast
    ring
  rw [roundRat]
  nth_rewrite 2 [hq]
  rw [RoundingMode.roundOn_mul mode (F.quantum_pos _),← hq]

theorem roundTo_exact (negative : Bool) (hq : F.roundRat (mode.signed negative) q=q)
    (hlt : q<2^(F.bias+1)) : F.roundTo mode negative q=⟨.finite negative q,false,false,false⟩ := by
  rw [roundTo]
  simp only [hq,not_le.mpr hlt,if_false,ne_eq,not_true_eq_false,false_and,decide_false]

/-- A significand with an exponent in the range is exact. -/
theorem roundTo_add {n e : ℕ} (hF : 2 ≤ F.expBits) (mode : RoundingMode) (negative : Bool)
    (hn : n<2^(F.fracBits+1)) (he : e+1<2^F.expBits-1) :
    F.roundTo mode negative (n*2^(e+1)/2^(F.bias+F.fracBits))=
      ⟨.finite negative (n*2^(e+1)/2^(F.bias+F.fracBits)),false,false,false⟩ := by
  have hbias := F.two_bias hF
  have hq : (n : ℚ)*2^(e+1)/2^(F.bias+F.fracBits)=n*2^((e+1 : ℕ)-(F.bias+F.fracBits : ℕ) : ℤ) := by
    rw [zpow_sub₀ two_ne_zero,zpow_natCast,zpow_natCast,mul_div_assoc]
  apply roundTo_exact
  · rw [hq]
    exact F.roundRat_of_mul hn (by push_cast; omega) _
  · rw [div_lt_iff₀ (by positivity),← pow_add]
    calc (n : ℚ)*2^(e+1)<2^(F.fracBits+1)*2^(e+1) := by
          apply mul_lt_mul_of_pos_right _ (by positivity)
          exact_mod_cast hn
      _=2^(F.fracBits+1+(e+1)) := (pow_add ..).symm
      _ ≤ 2^(F.bias+1+(F.bias+F.fracBits)) := pow_le_pow_right₀ (by norm_num) (by omega)

end Exact

section Integers

variable {F} {mode : RoundingMode} {n : ℕ}

theorem log_natCast (n : ℕ) : Int.log 2 (n : ℚ)=Nat.log2 n := by
  rw [Int.log_natCast,Nat.log2_eq_log_two]

theorem quantum_natCast (hF : 2 ≤ F.expBits) (n : ℕ) :
    F.quantum n=2^((Nat.log2 n : ℤ)-F.fracBits) ∧ F.wideQuantum n=F.quantum n := by
  have hbias := F.two_bias hF
  have hlog := log_natCast n
  rw [quantum,wideQuantum,hlog,max_eq_left (by omega)]
  exact ⟨rfl,rfl⟩

/-- On integers the rounding is the one of integers. -/
theorem roundRat_natCast (hF : 2 ≤ F.expBits) (mode : RoundingMode) (n : ℕ) :
    F.roundRat mode n=(F.roundNat mode n : ℕ) := by
  obtain rfl | h0 := Nat.eq_zero_or_pos n
  · rw [Nat.cast_zero,roundRat_zero,(roundNat_eq_iff 0).mpr (Nat.dvd_zero _),Nat.cast_zero]
  rw [roundRat,(quantum_natCast hF n).1]
  by_cases h : F.fracBits ≤ Nat.log2 n
  · obtain ⟨j,hj⟩ := Nat.exists_eq_add_of_le h
    have hu : F.ulp n=2^j := by rw [ulp,hj,Nat.add_sub_cancel_left]
    have hround : mode.round ((n : ℚ)/((2^j : ℕ) : ℚ))=mode.roundDiv n (2^j) :=
      RoundingMode.round_div (Nat.two_pow_pos j)
    rw [show (Nat.log2 n : ℤ)-F.fracBits=(j : ℕ) by omega,zpow_natCast,RoundingMode.roundOn,roundNat,hu]
    push_cast at hround ⊢
    rw [hround]
    rfl
  · obtain ⟨j,hj⟩ := Nat.exists_eq_add_of_lt (not_le.mp h)
    have hu : F.ulp n=1 := by rw [ulp,Nat.sub_eq_zero_of_le (by omega),pow_zero]
    have hval : (n : ℚ)=((n*2^(j+1) : ℕ) : ℤ)*2^(-((j+1 : ℕ) : ℤ)) := by
      rw [zpow_neg,zpow_natCast]
      push_cast
      field_simp
    rw [show (Nat.log2 n : ℤ)-F.fracBits=-((j+1 : ℕ) : ℤ) by omega,(roundNat_eq_iff n).mpr (hu ▸ one_dvd n)]
    nth_rewrite 1 [hval]
    rw [RoundingMode.roundOn_mul _ (by positivity),← hval]

/-- An integer within the range neither overflows nor underflows. -/
theorem roundTo_natCast (hF : 2 ≤ F.expBits) (mode : RoundingMode) (negative : Bool) (hn : n<2^F.bias) :
    F.roundTo mode negative n=⟨.finite negative (F.roundNat (mode.signed negative) n : ℕ),false,false,
      decide (F.roundNat (mode.signed negative) n≠n)⟩ := by
  have hle : F.roundNat (mode.signed negative) n ≤ 2^F.bias := roundNat_le_pow hn
  have hover : ¬(2 : ℚ)^(F.bias+1) ≤ (F.roundNat (mode.signed negative) n : ℕ) := by
    rw [not_le]
    exact_mod_cast hle.trans_lt (Nat.pow_lt_pow_right (by decide) (Nat.lt_succ_self _))
  have hrat := roundRat_natCast hF (mode.signed negative) n
  have htiny : ¬(((F.roundNat (mode.signed negative) n : ℕ) : ℚ)≠n ∧
      F.roundWide (mode.signed negative) n<2^(1-F.bias : ℤ)) := by
    rintro ⟨hne,hlt⟩
    have h0 : n≠0 := by
      rintro rfl
      exact hne (by rw [(roundNat_eq_iff 0).mpr (Nat.dvd_zero _)])
    have hbias := F.two_bias hF
    have hwide : F.roundWide (mode.signed negative) n=F.roundRat (mode.signed negative) n := by
      rw [roundWide,roundRat,(quantum_natCast hF n).2]
    have hge : (1 : ℚ) ≤ (F.roundNat (mode.signed negative) n : ℕ) := by
      have : 1 ≤ F.roundNat (mode.signed negative) n := by
        by_cases h : F.fracBits ≤ Nat.log2 n
        · exact (Nat.one_le_two_pow).trans (le_roundNat h0 h)
        · have hu : F.ulp n=1 := by rw [ulp,Nat.sub_eq_zero_of_le (by omega),pow_zero]
          rw [(roundNat_eq_iff n).mpr (hu ▸ one_dvd n)]
          omega
      exact_mod_cast this
    have hone : (2 : ℚ)^(1-F.bias : ℤ) ≤ 2^(0 : ℤ) := zpow_le_zpow_right₀ (by norm_num) (by omega)
    rw [hwide,hrat] at hlt
    rw [zpow_zero] at hone
    linarith
  rw [roundTo]
  rw [hrat,if_neg hover,decide_eq_false htiny]
  simp only [Nat.cast_inj,ne_eq]

end Integers

section Pack

variable {F} {e s : ℕ}

theorem fields_add (h : s<2^F.fracBits) :
    F.expField (e*2^F.fracBits+s)=e ∧ F.fracField (e*2^F.fracBits+s)=s := by
  have hfb := Nat.two_pow_pos F.fracBits
  constructor
  · rw [expField,Nat.add_comm,Nat.add_mul_div_right _ _ hfb,Nat.div_eq_of_lt h,Nat.zero_add]
  · rw [fracField,Nat.add_comm,Nat.add_mul_mod_self_right,Nat.mod_eq_of_lt h]

/-- A significand added to an exponent that is one less than its own. -/
theorem magnitude_add (he : e=0 ∨ 2^F.fracBits ≤ s) (hs : s ≤ 2^(F.fracBits+1)) :
    F.magnitude (e*2^F.fracBits+s)=s*2^(e+1)/2^(F.bias+F.fracBits) := by
  have hfb := Nat.two_pow_pos F.fracBits
  have hp : 2^(F.fracBits+1)=2*2^F.fracBits := pow_succ' ..
  obtain h | h | h : s<2^F.fracBits ∨ 2^F.fracBits ≤ s ∧ s<2^(F.fracBits+1) ∨ s=2^(F.fracBits+1) := by omega
  · obtain rfl : e=0 := by omega
    obtain ⟨hE,hf⟩ := fields_add (e := 0) h
    rw [magnitude,significand,hE,hf,if_pos rfl,Nat.add_zero]
    simp
  · have hm : e*2^F.fracBits+s=(e+1)*2^F.fracBits+(s-2^F.fracBits) := by
      rw [Nat.add_mul]
      omega
    obtain ⟨hE,hf⟩ := fields_add (e := e+1) (show s-2^F.fracBits<2^F.fracBits by omega)
    rw [magnitude,significand,hm,hE,hf,if_neg (by omega),Nat.sub_add_cancel h.1,Nat.max_eq_left (by omega)]
  · have hm : e*2^F.fracBits+s=(e+2)*2^F.fracBits+0 := by
      rw [Nat.add_mul]
      omega
    obtain ⟨hE,hf⟩ := fields_add (F := F) (e := e+2) hfb
    rw [magnitude,significand,hm,hE,hf,if_neg (by omega),Nat.max_eq_left (by omega),h]
    push_cast
    ring

theorem value_add (negative : Bool) (he : e=0 ∨ 2^F.fracBits ≤ s)
    (hs : s ≤ 2^(F.fracBits+1)) (hlt : e+2<2^F.expBits-1 ∨ e+2=2^F.expBits-1 ∧ s<2^(F.fracBits+1)) :
    F.value negative (e*2^F.fracBits+s)=.finite negative (s*2^(e+1)/2^(F.bias+F.fracBits)) := by
  have hfb := Nat.two_pow_pos F.fracBits
  have hne : F.expField (e*2^F.fracBits+s)≠2^F.expBits-1 := by
    apply Nat.ne_of_lt
    rw [expField,Nat.div_lt_iff_lt_mul hfb]
    obtain h | ⟨h,hs'⟩ := hlt
    · calc e*2^F.fracBits+s<(e+2)*2^F.fracBits+1 := by rw [Nat.add_mul]; omega
        _ ≤ (e+3)*2^F.fracBits := by rw [Nat.add_mul,Nat.add_mul]; omega
        _ ≤ (2^F.expBits-1)*2^F.fracBits := Nat.mul_le_mul_right _ (by omega)
    · rw [← h,Nat.add_mul]
      omega
  rw [value,if_neg hne,magnitude_add he hs]

theorem value_inf (negative : Bool) : F.value negative ((2^F.expBits-1)*2^F.fracBits)=.inf negative := by
  obtain ⟨hE,hf⟩ := fields_add (F := F) (e := 2^F.expBits-1) (Nat.two_pow_pos F.fracBits)
  rw [Nat.add_zero] at hE hf
  rw [value,hE,hf,if_pos rfl,if_pos rfl]

/-- The greatest number is one below the infinity. -/
theorem value_maxFinite (negative : Bool) (hF : 2 ≤ F.expBits) :
    F.value negative ((2^F.expBits-1)*2^F.fracBits-1)=.finite negative F.maxFinite := by
  have hbias := F.two_bias hF
  have hfb := Nat.two_pow_pos F.fracBits
  have hp : 2^(F.fracBits+1)=2*2^F.fracBits := pow_succ' ..
  have hm : (2^F.expBits-1)*2^F.fracBits-1=(2^F.expBits-3)*2^F.fracBits+(2^(F.fracBits+1)-1) := by
    rw [show 2^F.expBits-1=2^F.expBits-3+2 by omega,Nat.add_mul]
    omega
  rw [hm,value_add negative (.inr (by omega)) (by omega) (.inr (by omega)),maxFinite]
  congr 1
  rw [show 2^F.expBits-3+1=F.bias+F.bias by omega,pow_add,pow_add,Nat.cast_sub (by omega)]
  push_cast
  field_simp
  ring

end Pack
end BinaryFormat
end OpenSBI.Math
