import OpenSBI.Quad.Estimate

namespace OpenSBI

open Math

section Borrow

variable {t : ULong} {z : ℤ}

/-- A word that stands for a number of two digits and a sign: the low digit, and the digit above it. -/
theorem halves_of_modEq (h : (t.toNat : ℤ)=z%2^32) :
    ((digit (LHALF t)).toNat : ℤ)=z%2^16 ∧ ((HHALF t).toNat : ℤ)=z/2^16%2^16 := by
  rw [toNat_digit,toNat_LHALF,toNat_HHALF]
  omega

theorem mulSubDigit_spec {vs : Digits} {v i : ℕ} {qhat : ULong} {d : Digit} (hq : qhat.toNat<2^16)
    (ht : t.toNat<2^16) : (mulSubDigit vs v qhat i d t).2.toNat<2^16 ∧
      ((mulSubDigit vs v qhat i d t).1.toNat : ℤ)+2^16*(-((mulSubDigit vs v qhat i d t).2.toNat : ℤ))=
        d.toNat+(-(qhat.toNat : ℤ))*(vs (v+1+i)).toNat+(-(t.toNat : ℤ)) := by
  have hd := d.isLt
  have hvi := (vs (v+1+i)).isLt
  have hmul : (vs (v+1+i)).toNat*qhat.toNat ≤ (2^16-1)*(2^16-1) := Nat.mul_le_mul (by omega) (by omega)
  have hprod : ((vs (v+1+i)).up*qhat).toNat=(vs (v+1+i)).toNat*qhat.toNat := by
    rw [BitVec.toNat_mul,toNat_up,Nat.mod_eq_of_lt (by omega)]
  have hz : ((d.up-(vs (v+1+i)).up*qhat-t).toNat : ℤ)=
      ((d.toNat : ℤ)-(vs (v+1+i)).toNat*qhat.toNat-t.toNat)%2^32 := by
    rw [BitVec.toNat_sub,BitVec.toNat_sub,hprod,toNat_up]
    push_cast
    omega
  obtain ⟨hlow,hhigh⟩ := halves_of_modEq hz
  rw [mulSubDigit]
  dsimp only
  generalize d.up-(vs (v+1+i)).up*qhat-t=w at hlow hhigh ⊢
  have hborrow : ((quadB-HHALF w) &&& (quadB-1)).toNat=(2^16-(HHALF w).toNat)%2^16 := by
    have hw : (HHALF w).toNat<2^16 := by
      rw [toNat_HHALF]
      omega
    rw [BitVec.toNat_and,show (quadB-1).toNat=2^16-1 by decide,Nat.and_two_pow_sub_one_eq_mod,
      BitVec.toNat_sub_of_le (by rw [BitVec.le_def,toNat_quadB]; omega),toNat_quadB]
  rw [hborrow]
  refine ⟨Nat.mod_lt _ (by decide),?_⟩
  rw [hlow,show (-(qhat.toNat : ℤ))*(vs (v+1+i)).toNat=-((vs (v+1+i)).toNat*qhat.toNat : ℤ) by ring]
  generalize hm : ((vs (v+1+i)).toNat : ℤ)*qhat.toNat=M at hhigh ⊢
  have hM : 0 ≤ M ∧ M ≤ (2^16-1)*(2^16-1) := by
    rw [← hm]
    exact ⟨by positivity,by rw [← Nat.cast_mul]; omega⟩
  push_cast
  omega

theorem addBackDigit_spec {vs : Digits} {v i : ℕ} {d : Digit} (ht : t.toNat<2) :
    (addBackDigit vs v i d t).2.toNat<2 ∧
      ((addBackDigit vs v i d t).1.toNat : ℤ)+2^16*((addBackDigit vs v i d t).2.toNat : ℤ)=
        d.toNat+1*((vs (v+1+i)).toNat : ℤ)+t.toNat := by
  have hd := d.isLt
  have hvi := (vs (v+1+i)).isLt
  have hsum : (t+(d.up+(vs (v+1+i)).up)).toNat=t.toNat+(d.toNat+(vs (v+1+i)).toNat) := by
    rw [BitVec.toNat_add,BitVec.toNat_add,toNat_up,toNat_up]
    omega
  rw [addBackDigit,toNat_digit,toNat_LHALF,toNat_HHALF,hsum]
  omega

end Borrow

section Digit

variable {vs us : Digits} {v n u j : ℕ}

/-- The digits below `u[j]` take the multiple of the divisor, and lend what they lack. -/
theorem mulSub_ripple {qhat : ULong} (hq : qhat.toNat<2^16) {a : ℕ} :
    (ripple (mulSubDigit vs v qhat) a n us 0).2.toNat<2^16 ∧
      (number (ripple (mulSubDigit vs v qhat) a n us 0).1 a n : ℤ)-
        (2^16)^n*(ripple (mulSubDigit vs v qhat) a n us 0).2.toNat=
          number us a n-qhat.toNat*number vs (v+1) n := by
  obtain ⟨hlt,h⟩ := ripple_place (B := 2^16) (k := -(qhat.toNat : ℤ)) (g := mulSubDigit vs v qhat) (a := a)
    (n := n) (u := us) (t := (0 : ULong)) (b := v+1) (w := fun i => ((vs i).toNat : ℤ))
    (p := fun d : Digit => (d.toNat : ℤ)) (q := fun t : ULong => -(t.toNat : ℤ))
    (P := fun t => t.toNat<2^16) (by decide) fun i d c _ hc => mulSubDigit_spec hq hc
  rw [cast_number,cast_number,cast_number]
  refine ⟨hlt,?_⟩
  rw [show ((0 : ULong).toNat : ℤ)=0 from rfl] at h
  linear_combination h

theorem addBack_ripple {a : ℕ} : (ripple (addBackDigit vs v) a n us 0).2.toNat<2 ∧
    (number (ripple (addBackDigit vs v) a n us 0).1 a n : ℤ)+
      (2^16)^n*(ripple (addBackDigit vs v) a n us 0).2.toNat=number us a n+number vs (v+1) n := by
  obtain ⟨hlt,h⟩ := ripple_place (B := 2^16) (k := 1) (g := addBackDigit vs v) (a := a) (n := n)
    (u := us) (t := (0 : ULong)) (b := v+1) (w := fun i => ((vs i).toNat : ℤ))
    (p := fun d : Digit => (d.toNat : ℤ)) (q := fun t : ULong => (t.toNat : ℤ))
    (P := fun t => t.toNat<2) (by decide) fun i d c _ hc => addBackDigit_spec hc
  rw [cast_number,cast_number,cast_number]
  refine ⟨hlt,?_⟩
  rw [show ((0 : ULong).toNat : ℤ)=0 from rfl] at h
  linear_combination h

/-- The number whose top digit is written. -/
theorem number_update (d : Digit) {a : ℕ} :
    number (Function.update us a d) a (n+1)=d.toNat*(2^16)^n+number us (a+1) n := by
  rw [number_head,Function.update_self]
  congr 1
  exact number_congr fun i _ => Function.update_of_ne (by omega) _ _

/-- D4: the multiple of the divisor is subtracted, and a number below zero shows in the top half of `t`. -/
theorem mulSub_spec {qhat : ULong} (hq : qhat.toNat<2^16) :
    (HHALF (mulSub vs v n u us j qhat).2=0 ↔ qhat.toNat*number vs (v+1) n ≤ number us (u+j) (n+1)) ∧
      (number (mulSub vs v n u us j qhat).1 (u+j) (n+1) : ℤ)=number us (u+j) (n+1)-qhat.toNat*number vs (v+1) n+
        if qhat.toNat*number vs (v+1) n ≤ number us (u+j) (n+1) then 0 else (2^16)^(n+1) := by
  obtain ⟨hlt,h⟩ := @mulSub_ripple vs us v n _ hq (u+j+1)
  have htop : (ripple (mulSubDigit vs v qhat) (u+j+1) n us 0).1 (u+j)=us (u+j) := ripple_frame (by omega)
  have huj := (us (u+j)).isLt
  rw [mulSub]
  dsimp only
  rw [htop,number_update]
  have hhead := number_head (u := us) (a := u+j) n
  generalize ripple (mulSubDigit vs v qhat) (u+j+1) n us 0=r at *
  have hlow := number_lt (u := r.1) (a := u+j+1) (n := n)
  have hz : (((us (u+j)).up-r.2).toNat : ℤ)=((us (u+j)).toNat-r.2.toNat : ℤ)%2^32 := by
    rw [BitVec.toNat_sub,toNat_up]
    omega
  obtain ⟨hd,ht⟩ := halves_of_modEq hz
  have hW : (0 : ℤ)<(2^16)^n := by positivity
  have hzero : HHALF ((us (u+j)).up-r.2)=0 ↔ (r.2.toNat : ℤ) ≤ (us (u+j)).toNat := by
    rw [← BitVec.toNat_inj,show (0 : ULong).toNat=0 from rfl]
    omega
  have hdiff : ((number us (u+j) (n+1) : ℕ) : ℤ)-qhat.toNat*number vs (v+1) n=
      ((us (u+j)).toNat-r.2.toNat)*(2^16)^n+number r.1 (u+j+1) n := by
    rw [hhead]
    push_cast
    linear_combination -h
  have hneg : qhat.toNat*number vs (v+1) n ≤ number us (u+j) (n+1) ↔ (r.2.toNat : ℤ) ≤ (us (u+j)).toNat := by
    have hlow' : ((number r.1 (u+j+1) n : ℕ) : ℤ)<(2^16)^n := by exact_mod_cast hlow
    zify
    rw [← sub_nonneg,hdiff]
    constructor
    · intro h0
      by_contra hc
      nlinarith
    · intro h0
      have := mul_nonneg (sub_nonneg.mpr h0) hW.le
      omega
  refine ⟨hzero.trans hneg.symm,?_⟩
  rw [hdiff]
  push_cast
  rw [hd]
  by_cases hc : (r.2.toNat : ℤ) ≤ (us (u+j)).toNat
  · rw [if_pos (hneg.mpr hc),Int.emod_eq_of_lt (by omega) (by omega),add_zero]
  · rw [if_neg (mt hneg.mp hc),show ((us (u+j)).toNat-r.2.toNat : ℤ)%2^16=(us (u+j)).toNat-r.2.toNat+2^16 by omega]
    ring

/-- D6: the divisor is added back, and the carry out of the top digit is lost. -/
theorem addBack_spec : ∃ c : ℤ,(number (addBack vs v n u us j) (u+j) (n+1) : ℤ)+c*(2^16)^(n+1)=
    number us (u+j) (n+1)+number vs (v+1) n := by
  obtain ⟨hlt,h⟩ := @addBack_ripple vs us v n (u+j+1)
  have htop : (ripple (addBackDigit vs v) (u+j+1) n us 0).1 (u+j)=us (u+j) := ripple_frame (by omega)
  have huj := (us (u+j)).isLt
  rw [addBack]
  dsimp only
  rw [htop,number_update,number_head]
  generalize ripple (addBackDigit vs v) (u+j+1) n us 0=r at *
  obtain ⟨c,hd⟩ : ∃ c : ℤ,((digit (LHALF ((us (u+j)).up+r.2))).toNat : ℤ)+c*2^16=
      (us (u+j)).toNat+r.2.toNat := by
    refine ⟨((us (u+j)).toNat+r.2.toNat : ℤ)/2^16,?_⟩
    rw [toNat_digit,toNat_LHALF,BitVec.toNat_add,toNat_up]
    omega
  refine ⟨c,?_⟩
  push_cast
  linear_combination (2^16)^n*hd+h

/-- What D4 and D6 write. -/
theorem mulSub_frame {qhat : ULong} {i : ℕ} (h : i<u+j ∨ u+j+n < i) : (mulSub vs v n u us j qhat).1 i=us i := by
  rw [mulSub]
  exact (Function.update_of_ne (by omega) _ _).trans (ripple_frame (by omega))

theorem addBack_frame {i : ℕ} (h : i<u+j ∨ u+j+n < i) : addBack vs v n u us j i=us i := by
  rw [addBack]
  exact (Function.update_of_ne (by omega) _ _).trans (ripple_frame (by omega))

/-- The estimate from the leading digits is the digit of the quotient or one more. -/
theorem threeByTwo_bounds (hn : 2 ≤ n) (hv : 2^15 ≤ (vs (v+1)).toNat)
    (hU : number us (u+j) (n+1)<number vs (v+1) n*2^16) :
    (us (u+j)).toNat ≤ (vs (v+1)).toNat ∧
    number us (u+j) (n+1)/number vs (v+1) n ≤ threeByTwo (vs (v+1)).toNat (vs (v+2)).toNat
      (us (u+j)).toNat (us (u+j+1)).toNat (us (u+j+2)).toNat ∧
    threeByTwo (vs (v+1)).toNat (vs (v+2)).toNat (us (u+j)).toNat (us (u+j+1)).toNat (us (u+j+2)).toNat ≤
      number us (u+j) (n+1)/number vs (v+1) n+1 := by
  obtain ⟨n,rfl⟩ := Nat.exists_eq_add_of_le' hn
  have hV : number vs (v+1) (n+2)=((vs (v+1)).toNat*2^16+(vs (v+2)).toNat)*(2^16)^n+number vs (v+3) n := by
    rw [number_head,number_head]
    ring
  have hU' : number us (u+j) (n+2+1)=
      (((us (u+j)).toNat*2^16+(us (u+j+1)).toNat)*2^16+(us (u+j+2)).toNat)*(2^16)^n+number us (u+j+3) n := by
    rw [number_head,number_head,number_head]
    ring
  have hvlow := number_lt (u := vs) (a := v+3) (n := n)
  have hulow := number_lt (u := us) (a := u+j+3) (n := n)
  have hv2 := (vs (v+2)).isLt
  have hu1 := (us (u+j+1)).isLt
  have hW : 0<(2^16)^n := by positivity
  generalize hVe : number vs (v+1) (n+2)=V at *
  generalize hUe : number us (u+j) (n+2+1)=U at *
  generalize (2^16)^n=W at *
  have hVpos : 0<V := by
    rw [hV]
    have : 0<((vs (v+1)).toNat*2^16+(vs (v+2)).toNat)*W := Nat.mul_pos (by omega) hW
    omega
  have hq : U/V<2^16 := by
    rw [Nat.div_lt_iff_lt_mul hVpos,Nat.mul_comm]
    exact hU
  have hq1 : U/V*V ≤ U := Nat.div_mul_le_self _ _
  have hq2 : U<(U/V+1)*V := by
    rw [Nat.mul_comm]
    exact Nat.lt_mul_div_succ U hVpos
  have hlead := quotient_leading (W := W) (V := V) (U := U) (q := U/V)
    (x := ((us (u+j)).toNat*2^16+(us (u+j+1)).toNat)*2^16+(us (u+j+2)).toNat)
    (y := (vs (v+1)).toNat*2^16+(vs (v+2)).toNat) (by rw [hU']; linarith) (by omega) hq1
  have hself := (le_threeByTwo (show 0<(vs (v+1)).toNat by omega)).mp
    (le_refl (threeByTwo (vs (v+1)).toNat (vs (v+2)).toNat (us (u+j)).toNat (us (u+j+1)).toNat (us (u+j+2)).toNat))
  refine ⟨?_,(le_threeByTwo (by omega)).mpr ⟨hq,hlead⟩,?_⟩
  · by_contra h
    have hVlt : V<((vs (v+1)).toNat+1)*2^16*W := by
      calc V<((vs (v+1)).toNat*2^16+(vs (v+2)).toNat)*W+W := by omega
        _=((vs (v+1)).toNat*2^16+(vs (v+2)).toNat+1)*W := (Nat.succ_mul _ _).symm
        _ ≤ ((vs (v+1)).toNat+1)*2^16*W := Nat.mul_le_mul_right W (by omega)
    have hUle : (us (u+j)).toNat*2^16*W*2^16 ≤ U := by
      calc (us (u+j)).toNat*2^16*W*2^16=(us (u+j)).toNat*2^16*2^16*W := by ring
        _ ≤ (((us (u+j)).toNat*2^16+(us (u+j+1)).toNat)*2^16+(us (u+j+2)).toNat)*W :=
          Nat.mul_le_mul_right W (by omega)
        _ ≤ U := (Nat.le_add_right _ _).trans hU'.ge
    have hle : ((vs (v+1)).toNat+1)*2^16*W ≤ (us (u+j)).toNat*2^16*W :=
      Nat.mul_le_mul_right W (Nat.mul_le_mul_right _ (not_le.mp h))
    omega
  · have hlead' : 2^16*W ≤ ((vs (v+1)).toNat*2^16+(vs (v+2)).toNat)*W := Nat.mul_le_mul_right W (by omega)
    refine estimate_le (B := 2^16) (W := W) (U := U) (V := V) ?_ ?_ hq2 hself.2 hself.1.le ?_
    · omega
    · rw [hV]
      linarith
    · exact (hlead'.trans (Nat.le_add_right _ _)).trans hV.ge

/-- D3 to D6: one digit of the quotient, and the remainder in the place of the digits it comes from. -/
theorem divideDigit_spec (hn : 2 ≤ n) (hv : 2^15 ≤ (vs (v+1)).toNat)
    (hU : number us (u+j) (n+1)<number vs (v+1) n*2^16) :
    ∃ us' q,divideDigit vs v n u us j=some (us',q) ∧ q.toNat=number us (u+j) (n+1)/number vs (v+1) n ∧
      number us' (u+j) (n+1)=number us (u+j) (n+1)%number vs (v+1) n ∧
      ∀ i,i<u+j ∨ u+j+n < i → us' i=us i := by
  obtain ⟨htop,hle,hge⟩ := threeByTwo_bounds hn hv hU
  obtain ⟨qhat,hchoose,hqhat⟩ := @chooseQhat_spec (vs (v+1)).up (vs (v+2)).up (us (u+j)).up (us (u+j+1)).up
    (us (u+j+2)).up (by rw [toNat_up]; exact ⟨hv,(vs (v+1)).isLt⟩) (by rw [toNat_up]; exact (vs (v+2)).isLt)
    (by rw [toNat_up,toNat_up]; exact htop) (by rw [toNat_up]; exact (us (u+j+1)).isLt)
    (by rw [toNat_up]; exact (us (u+j+2)).isLt)
  simp only [toNat_up] at hqhat
  rw [← hqhat] at hle hge
  have hq : qhat.toNat<2^16 := by
    have := Nat.min_le_left (2^16-1) ((((us (u+j)).toNat*2^16+(us (u+j+1)).toNat)*2^16+(us (u+j+2)).toNat)/
      ((vs (v+1)).toNat*2^16+(vs (v+2)).toNat))
    rw [threeByTwo] at hqhat
    omega
  obtain ⟨hzero,hsub⟩ := @mulSub_spec vs us v n u j _ hq
  have hVpos : 0<number vs (v+1) n := Nat.pos_of_ne_zero fun h => by simp [h] at hU
  have hdiv := Nat.div_add_mod (number us (u+j) (n+1)) (number vs (v+1) n)
  have hmod := Nat.mod_lt (number us (u+j) (n+1)) hVpos
  have hlt := number_lt (u := us) (a := u+j) (n := n+1)
  rw [divideDigit,hchoose]
  dsimp only [Option.bind_eq_bind,Option.bind_some]
  by_cases hfit : qhat.toNat*number vs (v+1) n ≤ number us (u+j) (n+1)
  · have he : qhat.toNat=number us (u+j) (n+1)/number vs (v+1) n :=
      le_antisymm ((Nat.le_div_iff_mul_le hVpos).mpr hfit) hle
    rw [if_neg (not_not.mpr (hzero.mpr hfit))]
    rw [if_pos hfit,add_zero] at hsub
    refine ⟨_,_,rfl,?_,?_,fun i hi => mulSub_frame hi⟩
    · rw [toNat_digit,Nat.mod_eq_of_lt hq,he]
    · rw [← he,Nat.mul_comm] at hdiv
      omega
  · have he : qhat.toNat=number us (u+j) (n+1)/number vs (v+1) n+1 := by
      have hne : qhat.toNat≠number us (u+j) (n+1)/number vs (v+1) n := by
        intro h
        exact hfit (h ▸ Nat.div_mul_le_self _ _)
      omega
    rw [if_pos (mt hzero.mp hfit)]
    rw [if_neg hfit] at hsub
    obtain ⟨c,hback⟩ := @addBack_spec vs (mulSub vs v n u us j qhat).1 v n u j
    refine ⟨_,_,rfl,?_,?_,fun i hi => (addBack_frame hi).trans (mulSub_frame hi)⟩
    · rw [toNat_digit,BitVec.toNat_sub_of_le (by rw [BitVec.le_def]; exact he ▸ Nat.le_add_left 1 _),
        show (1 : ULong).toNat=1 from rfl,Nat.mod_eq_of_lt (by omega),he,Nat.add_sub_cancel]
    · -- Both are below the next power of the base, and they differ by a multiple of it.
      have hend := number_lt (u := addBack vs v n u (mulSub vs v n u us j qhat).1 j) (a := u+j) (n := n+1)
      have hcong : (number (addBack vs v n u (mulSub vs v n u us j qhat).1 j) (u+j) (n+1) : ℤ)=
          (number us (u+j) (n+1)%number vs (v+1) n : ℕ)+(1-c)*((2^16)^(n+1) : ℕ) := by
        have hdiv' : ((number us (u+j) (n+1) : ℕ) : ℤ)=
            number vs (v+1) n*(qhat.toNat-1)+(number us (u+j) (n+1)%number vs (v+1) n : ℕ) := by
          rw [he]
          push_cast
          rw [add_sub_cancel_right]
          exact_mod_cast hdiv.symm
        push_cast at hdiv' ⊢
        linear_combination hback+hsub+hdiv'
      have hsmall : number us (u+j) (n+1)%number vs (v+1) n<(2^16)^(n+1) :=
        (Nat.mod_le _ _).trans_lt hlt
      generalize number (addBack vs v n u (mulSub vs v n u us j qhat).1 j) (u+j) (n+1)=x at *
      generalize number us (u+j) (n+1)%number vs (v+1) n=y at *
      generalize (2^16)^(n+1)=W at *
      have hc : 1-c=0 := by
        have h1 : (1-c)*(W : ℤ)<1*W := by linarith
        have h2 : (-1)*(W : ℤ)<(1-c)*W := by linarith
        have hW : (0 : ℤ)<W := by omega
        have := lt_of_mul_lt_mul_right h1 hW.le
        have := lt_of_mul_lt_mul_right h2 hW.le
        omega
      rw [hc,zero_mul,add_zero] at hcong
      exact_mod_cast hcong

end Digit

section Loop

variable {vs us qs : Digits} {v n u q j k : ℕ}

/-- D7: the rounds leave the quotient's digits, and the remainder in place of the dividend. -/
theorem divideLoop_spec (hn : 2 ≤ n) (hv : 2^15 ≤ (vs (v+1)).toNat)
    (hU : number us (u+j) n<number vs (v+1) n) :
    ∃ us' qs',divideLoop vs v n u q k j us qs=some (us',qs') ∧
      number qs' (q+j) k=number us (u+j) (n+k)/number vs (v+1) n ∧
      number us' (u+j) (n+k)=number us (u+j) (n+k)%number vs (v+1) n ∧
      (∀ i,i<q+j → qs' i=qs i) ∧ ∀ i,i<u+j → us' i=us i := by
  induction k generalizing j us qs with
  | zero => exact ⟨us,qs,rfl,by rw [Nat.add_zero,Nat.div_eq_of_lt hU]; rfl,(Nat.mod_eq_of_lt hU).symm,
      fun _ _ => rfl,fun _ _ => rfl⟩
  | succ k ih =>
    have hVpos : 0<number vs (v+1) n := by omega
    have hVlt := number_lt (u := vs) (a := v+1) (n := n)
    have hU1 : number us (u+j) (n+1)<number vs (v+1) n*2^16 := by
      have hd := (us (u+j+n)).isLt
      rw [number_append,number_one]
      omega
    obtain ⟨us1,d,hrun,hd,hr,hframe⟩ := divideDigit_spec hn hv hU1
    have hmod := Nat.mod_lt (number us (u+j) (n+1)) hVpos
    -- The remainder has no more digits than the divisor.
    have hzero : us1 (u+j)=0 := by
      have h := digit_high (u := us1) (a := u+j) (k := 1) (n := n) (i := 0)
        (by rw [Nat.add_comm 1 n,hr]; omega) Nat.one_pos
      exact h
    have hlow : number us1 (u+j) (n+1)=number us1 (u+(j+1)) n := by
      rw [number_head,hzero]
      simp [Nat.add_assoc]
    obtain ⟨us',qs',hrun',hq',hr',hqs,hus⟩ := @ih us1 (Function.update qs (q+j) d) (j+1)
      (by rw [← hlow,hr]; exact hmod)
    have hsplit : number us (u+j) (n+(k+1))=number us (u+j) (n+1)*(2^16)^k+number us (u+j+(n+1)) k := by
      rw [Nat.add_comm k 1,← Nat.add_assoc,number_append]
    have hrest : number us1 (u+(j+1)) (n+k)=
        number us (u+j) (n+1)%number vs (v+1) n*(2^16)^k+number us (u+j+(n+1)) k := by
      rw [number_append,← hlow,hr]
      congr 1
      rw [show u+(j+1)+n=u+j+(n+1) by omega]
      exact number_congr fun i _ => hframe _ (by omega)
    have hqj : qs' (q+j)=d := by
      rw [hqs _ (by omega)]
      exact Function.update_self _ _ _
    refine ⟨us',qs',?_,?_,?_,?_,?_⟩
    · rw [divideLoop,hrun]
      exact hrun'
    · rw [number_head,hqj,hd,Nat.add_assoc,hq',hrest,hsplit]
      exact (div_split (number us (u+j) (n+1)) _ _ _ hVpos).symm
    · rw [hsplit,show n+(k+1)=n+k+1 by omega,number_head,hus _ (by omega),hzero,Nat.add_assoc,hr',hrest,
        show (0 : Digit).toNat=0 from rfl,Nat.zero_mul,Nat.zero_add]
      exact (mod_split (number us (u+j) (n+1)) _ _ _).symm
    · intro i hi
      rw [hqs i (by omega)]
      exact Function.update_of_ne (by omega) _ _
    · intro i hi
      rw [hus i (by omega),hframe i (by omega)]

end Loop
end OpenSBI
