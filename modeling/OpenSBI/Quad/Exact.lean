import OpenSBI.Quad.Shift

namespace OpenSBI

open Math

section Digits

variable {vs us : Digits} {n v m u k d : ℕ} {q : BitVec 64} {t : ULong}

theorem toNat_quadOf (h l : ULong) : (quadOf h l).toNat=h.toNat*2^32+l.toNat := by
  rw [quadOf,BitVec.toNat_append,← Nat.shiftLeft_add_eq_or_of_lt l.isLt,Nat.shiftLeft_eq]

theorem number_four (w : Digits) :
    number w 1 4=(((w 1).toNat*2^16+(w 2).toNat)*2^16+(w 3).toNat)*2^16+(w 4).toNat := by
  simp [number,place]

/-- The result read from four digits. -/
theorem toNat_quadOf_digits (w : Digits) :
    (quadOf (COMBINE (w 1).up (w 2).up) (COMBINE (w 3).up (w 4).up)).toNat=number w 1 4 := by
  have h : ∀ i,(w i).up.toNat<2^16 := fun i => by rw [toNat_up]; exact (w i).isLt
  rw [toNat_quadOf,toNat_COMBINE (h 1) (h 2),toNat_COMBINE (h 3) (h 4),number_four]
  simp only [toNat_up]
  omega

theorem number_quadDigits (q : BitVec 64) : number (quadDigits q) 1 4=q.toNat := by
  have hq := q.isLt
  rw [number_four]
  simp only [quadDigits]
  simp only [toNat_digit,toNat_HHALF,toNat_LHALF,BitVec.extractLsb'_toNat,Nat.shiftRight_eq_div_pow,
    Nat.reduceEqDiff,if_true,if_false]
  omega

/-- Leading digits that are zero take nothing away. -/
theorem number_skip {w : Digits} (h : ∀ i,1 ≤ i → i ≤ k → w i=0) (hk : k+n=4) :
    number w 1 4=number w (k+1) n := by
  rw [← hk,number_append,number_eq_zero fun i hi => h _ (by omega) (by omega),Nat.zero_mul,Nat.zero_add,
    Nat.add_comm 1 k]

theorem divisorLoop_some {n' v' : ℕ} (hn : 2 ≤ n) (h : divisorLoop vs n v=some (n',v')) :
    n'+v'=n+v ∧ 2 ≤ n' ∧ vs (v'+1)≠0 ∧ v ≤ v' ∧ ∀ i,v < i → i ≤ v' → vs i=0 := by
  induction n generalizing v with
  | zero => omega
  | succ n ih =>
    rw [divisorLoop] at h
    split at h
    · rename_i h0
      split at h
      · cases h
      · obtain ⟨hsum,hn',hne,hle,hz⟩ := ih (by omega) h
        refine ⟨by omega,hn',hne,by omega,fun i hi hi' => ?_⟩
        obtain rfl | hlt := Nat.eq_or_lt_of_le (Nat.succ_le_of_lt hi)
        · exact h0
        · exact hz i hlt hi'
    · rename_i h0
      injection h with h
      injection h with h1 h2
      subst h1 h2
      exact ⟨rfl,hn,h0,le_rfl,fun i hi hi' => by omega⟩

theorem divisorLoop_none (hn : 2 ≤ n) (h : divisorLoop vs n v=none) : ∀ i,v < i → i<v+n → vs i=0 := by
  induction n generalizing v with
  | zero => omega
  | succ n ih =>
    rw [divisorLoop] at h
    split at h
    · rename_i h0
      intro i hi hi'
      obtain rfl | hlt := Nat.eq_or_lt_of_le (Nat.succ_le_of_lt hi)
      · exact h0
      split at h
      · omega
      · exact ih (by omega) h i hlt (by omega)
    · cases h

/-- The loop over the dividend stops at its first digit that is not zero. -/
theorem dividendLoop_spec (h : ∃ i,u < i ∧ i ≤ u+m+1 ∧ us i≠0) :
    ∃ m' u',dividendLoop us m u=some (m',u') ∧ m'+u'=m+u ∧ us (u'+1)≠0 ∧
      u ≤ u' ∧ ∀ i,u < i → i ≤ u' → us i=0 := by
  induction m generalizing u with
  | zero =>
    obtain ⟨i,hi,hi',hne⟩ := h
    obtain rfl : i=u+1 := by omega
    exact ⟨0,u,by rw [dividendLoop,if_neg hne],rfl,hne,le_rfl,fun i h1 h2 => by omega⟩
  | succ m ih =>
    by_cases h0 : us (u+1)=0
    · obtain ⟨i,hi,hi',hne⟩ := h
      have hi1 : i≠u+1 := fun h => hne (h ▸ h0)
      obtain ⟨m',u',hrun,hsum,hne',hle,hz⟩ := ih (u := u+1) ⟨i,by omega,by omega,hne⟩
      refine ⟨m',u',by rw [dividendLoop,if_pos h0]; exact hrun,by omega,hne',by omega,fun i hi hi' => ?_⟩
      obtain rfl | hlt := Nat.eq_or_lt_of_le (Nat.succ_le_of_lt hi)
      · exact h0
      · exact hz i hlt hi'
    · exact ⟨m+1,u,by rw [dividendLoop,if_neg h0],rfl,h0,le_rfl,fun i h1 h2 => by omega⟩

theorem normLoop_spec (hk : 2^15 ≤ t.toNat*2^k) (ht : t.toNat<2^16) :
    ∃ e,normLoop (k+1) t d=some (d+e) ∧ 2^15 ≤ t.toNat*2^e ∧ t.toNat*2^e<2^16 := by
  have hhalf : (quadB/2).toNat=2^15 := by decide
  induction k generalizing t d with
  | zero =>
    refine ⟨0,?_,by omega,by omega⟩
    rw [normLoop,if_neg (by rw [BitVec.lt_def,hhalf]; omega)]
    rfl
  | succ k ih =>
    rw [normLoop]
    by_cases hlt : t<quadB/2
    · rw [if_pos hlt]
      rw [BitVec.lt_def,hhalf] at hlt
      have hshift : (t <<< 1).toNat=t.toNat*2 := by
        rw [BitVec.toNat_shiftLeft,Nat.shiftLeft_eq]
        omega
      obtain ⟨e,hrun,h1,h2⟩ := ih (t := t <<< 1) (d := d+1) (by rwa [hshift,Nat.mul_assoc,← pow_succ'])
        (by omega)
      rw [hshift,Nat.mul_assoc,← pow_succ'] at h1 h2
      exact ⟨e+1,by rw [hrun,Nat.add_right_comm,Nat.add_assoc],h1,h2⟩
    · rw [if_neg hlt]
      rw [BitVec.lt_def,hhalf] at hlt
      exact ⟨0,rfl,by omega,by omega⟩

/-- Division by one digit, without the general program. -/
theorem shortDivide_spec (us : Digits) (ht : 0<t.toNat) (ht' : t.toNat<2^16) :
    (shortDivide us t).1.toNat=number us 1 4/t.toNat ∧ (shortDivide us t).2.toNat=number us 1 4%t.toNat := by
  -- A digit of the quotient and the remainder it leaves, from the remainder before.
  have step : ∀ (r : ULong) (d : Digit),r.toNat<t.toNat →
      (digit (COMBINE r d.up/t)).toNat*t.toNat+(COMBINE r d.up%t).toNat=r.toNat*2^16+d.toNat ∧
        (COMBINE r d.up%t).toNat<t.toNat := by
    intro r d hr
    have hd := d.isLt
    have hc := toNat_COMBINE (a := r) (b := d.up) (by omega) (by rw [toNat_up]; exact hd)
    rw [toNat_up] at hc
    have hq : (r.toNat*2^16+d.toNat)/t.toNat<2^16 := by
      rw [Nat.div_lt_iff_lt_mul ht]
      nlinarith
    rw [toNat_digit,BitVec.toNat_udiv,BitVec.toNat_umod,hc,Nat.mod_eq_of_lt hq,Nat.mul_comm]
    exact ⟨Nat.div_add_mod _ _,Nat.mod_lt _ ht⟩
  have h1 : (digit ((us 1).up/t)).toNat*t.toNat+((us 1).up%t).toNat=(us 1).toNat ∧ ((us 1).up%t).toNat<t.toNat := by
    have := (us 1).isLt
    have hq : (us 1).toNat/t.toNat<2^16 := (Nat.div_le_self _ _).trans_lt this
    rw [toNat_digit,BitVec.toNat_udiv,BitVec.toNat_umod,toNat_up,Nat.mod_eq_of_lt hq,Nat.mul_comm]
    exact ⟨Nat.div_add_mod _ _,Nat.mod_lt _ ht⟩
  obtain ⟨e1,l1⟩ := h1
  rw [shortDivide]
  dsimp only
  generalize (us 1).up%t=r1 at *
  generalize digit ((us 1).up/t)=q1 at *
  obtain ⟨e2,l2⟩ := step r1 (us 2) l1
  generalize COMBINE r1 (us 2).up%t=r2 at *
  generalize digit (COMBINE r1 (us 2).up/t)=q2 at *
  obtain ⟨e3,l3⟩ := step r2 (us 3) l2
  generalize COMBINE r2 (us 3).up%t=r3 at *
  generalize digit (COMBINE r2 (us 3).up/t)=q3 at *
  obtain ⟨e4,l4⟩ := step r3 (us 4) l3
  generalize COMBINE r3 (us 4).up%t=r4 at *
  generalize digit (COMBINE r3 (us 4).up/t)=q4 at *
  have hq : (quadOf (COMBINE q1.up q2.up) (COMBINE q3.up q4.up)).toNat=
      ((q1.toNat*2^16+q2.toNat)*2^16+q3.toNat)*2^16+q4.toNat := by
    have h := toNat_quadOf_digits fun i => if i=1 then q1 else if i=2 then q2 else if i=3 then q3 else q4
    simpa [number_four] using h
  have hr : (r4.setWidth 64).toNat=r4.toNat := BitVec.toNat_setWidth_of_le (by decide)
  have hsum : r4.toNat+t.toNat*(((q1.toNat*2^16+q2.toNat)*2^16+q3.toNat)*2^16+q4.toNat)=number us 1 4 := by
    rw [number_four]
    linarith
  obtain ⟨h1,h2⟩ := (Nat.div_mod_unique ht).mpr ⟨hsum,l4⟩
  rw [hq,hr]
  exact ⟨h1.symm,h2.symm⟩

/-- The shift of D1, left out where it is by nothing. -/
theorem number_shlIf {a : Digits} {p len sh : ℕ} (hs : sh ≤ 16) (h : (a p).toNat*2^sh<2^16) :
    number (if 0<sh then shl a p len sh else a) p (len+1)=number a p (len+1)*2^sh := by
  split
  · exact number_shl hs h
  · rename_i h0
    rw [Nat.eq_zero_of_not_pos h0,pow_zero,Nat.mul_one]

theorem toNat_shlIf_head {a : Digits} {p len sh : ℕ} (hs : sh ≤ 16) (h : (a p).toNat*2^sh<2^16) :
    (a p).toNat*2^sh ≤ ((if 0<sh then shl a p len sh else a) p).toNat := by
  split
  · have := toNat_shl (a := a) (p := p) (k := len) hs (Nat.zero_le _)
    rw [Nat.add_zero,Nat.mod_eq_of_lt h] at this
    omega
  · rename_i h0
    rw [Nat.eq_zero_of_not_pos h0,pow_zero,Nat.mul_one]

/-- Program D divides: the dividend has no digit of its own before `u[1]`, the divisor none before `v[1]`. -/
theorem programD_spec (hn : 2 ≤ n) (hv : v+n=4) (hu : u+(m+n)=4) (hus : ∀ i,i ≤ u → us i=0)
    (hvs : ∀ i,1 ≤ i → i ≤ v → vs i=0) (hd : 2^15 ≤ (vs (v+1)).toNat*2^d ∧ (vs (v+1)).toNat*2^d<2^16) :
    ∃ q r,programD us vs n v m u d=some (q,r) ∧ q.toNat=number us 1 4/number vs 1 4 ∧
      r.toNat=number us 1 4%number vs 1 4 := by
  obtain ⟨n,rfl⟩ := Nat.exists_eq_add_of_le' hn
  have hd15 : d<16 := by
    have hpos : 1 ≤ (vs (v+1)).toNat := by
      by_contra h
      rw [show (vs (v+1)).toNat=0 by omega] at hd
      omega
    have := (Nat.le_mul_of_pos_left (2^d) hpos).trans_lt hd.2
    exact (Nat.pow_lt_pow_iff_right (by decide)).mp this
  have hu0 : us u=0 := hus u le_rfl
  have hU : number us 1 4=number us u (m+(n+2)+1) := by
    rw [number_skip (fun i _ hi => hus i hi) hu,number_head,hu0]
    simp
  have hV : number vs 1 4=number vs (v+1) (n+1+1) := number_skip hvs hv
  have hUlt : number us 1 4<(2^16)^(m+(n+2)) := by
    rw [number_skip (fun i _ hi => hus i hi) hu]
    exact number_lt
  have husn := @number_shlIf us u (m+(n+2)) d (by omega) (by rw [hu0]; simp)
  have hvsn := @number_shlIf vs (v+1) (n+1) d (by omega) hd.2
  have hvsh := @toNat_shlIf_head vs (v+1) (n+1) d (by omega) hd.2
  rw [← hU] at husn
  rw [← hV] at hvsn
  rw [programD,show n+2-1=n+1 from rfl]
  dsimp only [Option.bind_eq_bind]
  have hframe : ∀ i,i<u → (if 0<d then shl us u (m+(n+2)) d else us) i=0 := by
    intro i hi
    split
    · rw [shl_frame (Or.inl hi)]
      exact hus i hi.le
    · exact hus i hi.le
  generalize (if 0<d then shl us u (m+(n+2)) d else us)=us1 at *
  generalize (if 0<d then shl vs (v+1) (n+1) d else vs)=vs1 at *
  have hlow : number us1 u (n+2)<number vs1 (v+1) (n+2) := by
    have hsplit := number_append (u := us1) (a := u) (n+2) (m+1)
    rw [show n+2+(m+1)=m+(n+2)+1 by omega,husn] at hsplit
    have hhead := number_head (u := vs1) (a := v+1) (n+1)
    have hdp : 2^d ≤ 2^15 := Nat.pow_le_pow_right (by decide) (by omega)
    have htop : 2^15*(2^16)^(n+1) ≤ number vs1 (v+1) (n+2) := by
      rw [show n+2=n+1+1 from rfl,hhead]
      exact (Nat.mul_le_mul_right _ (hd.1.trans hvsh)).trans (Nat.le_add_right _ _)
    by_contra h
    have h1 : 2^15*(2^16)^(n+1)*(2^16)^(m+1) ≤ number us 1 4*2^d := by
      rw [hsplit]
      exact (Nat.mul_le_mul_right _ (htop.trans (not_lt.mp h))).trans (Nat.le_add_right _ _)
    have h2 : number us 1 4*2^d<(2^16)^(m+(n+2))*2^15 :=
      Nat.mul_lt_mul_of_lt_of_le hUlt hdp (Nat.two_pow_pos _)
    rw [Nat.mul_assoc,← pow_add,show n+1+(m+1)=m+(n+2) by omega,Nat.mul_comm] at h1
    omega
  have hpos : 0<number vs1 (v+1) (n+2) := by omega
  obtain ⟨us2,qs,hrun,hq,hr,hqs,hus2⟩ := @divideLoop_spec vs1 us1 (fun _ => 0) v (n+2) u (4-m) 0 (m+1)
    (by omega) (hd.1.trans hvsh) hlow
  simp only [Nat.add_zero] at hq hr hqs hus2
  rw [show n+2+(m+1)=m+(n+2)+1 by omega,husn] at hq hr
  rw [show n+2=n+1+1 from rfl,hvsn] at hq
  rw [show number vs1 (v+1) (n+2)=number vs 1 4*2^d from hvsn] at hr hpos
  rw [hrun]
  refine ⟨_,_,rfl,?_,?_⟩
  · rw [toNat_quadOf_digits,number_skip (k := 3-m) (n := m+1) (fun i _ hi => hqs i (by omega)) (by omega),
      show 3-m+1=4-m by omega]
    exact hq.trans (Nat.mul_div_mul_right _ _ (Nat.two_pow_pos d))
  · rw [Nat.mul_mod_mul_right] at hr
    -- The remainder has no more digits than the divisor.
    have hlt : number us2 u (m+1+(n+2))<(2^16)^(n+2) := by
      rw [show m+1+(n+2)=m+(n+2)+1 by omega,hr]
      have hVlt : number vs1 (v+1) (n+2)<(2^16)^(n+2) := number_lt
      rw [show number vs1 (v+1) (n+2)=number vs 1 4*2^d from hvsn] at hVlt
      exact (Nat.mul_lt_mul_of_pos_right (Nat.mod_lt _ (Nat.pos_of_mul_pos_right hpos))
        (Nat.two_pow_pos d)).trans hVlt
    have hzero : ∀ i,i ≤ u+m → us2 i=0 := by
      intro i hi
      by_cases hiu : i<u
      · rw [hus2 i (by omega)]
        exact hframe i hiu
      · have h := digit_high hlt (show i-u < m+1 by omega)
        rwa [Nat.add_sub_of_le (not_lt.mp hiu)] at h
    have hrest : number us2 (u+m+1) (n+2)=number us 1 4%number vs 1 4*2^d := by
      have h0 : number us2 u (m+1)=0 := number_eq_zero fun i hi => hzero _ (by omega)
      have h := number_append (u := us2) (a := u) (m+1) (n+2)
      rw [h0,Nat.zero_mul,Nat.zero_add] at h
      rw [show u+m+1=u+(m+1) by omega,← h,show m+1+(n+2)=m+(n+2)+1 by omega,hr]
    rw [toNat_quadOf_digits]
    by_cases hd0 : 0<d
    · rw [if_pos hd0,number_skip (k := u+m) (n := n+2) ?_ (by omega),number_congr (w := shrLoop u m d (n+2) us2) ?_,
        number_shr (by omega) (hzero _ le_rfl),hrest,Nat.mul_div_cancel _ (Nat.two_pow_pos d)]
      · exact fun i _ => Function.update_of_ne (by omega) _ _
      · intro i _ hi
        by_cases him : i=u+m
        · rw [him]
          exact Function.update_self _ _ _
        · rw [Function.update_of_ne him,shrLoop_digit,if_neg (by omega)]
          exact hzero i hi
    · rw [if_neg hd0,number_skip (k := u+m) (n := n+2) (fun i _ hi => hzero i hi) (by omega),hrest,
        Nat.eq_zero_of_not_pos hd0,pow_zero,Nat.mul_one]

end Digits

section Quad

variable (a b uq vq : BitVec 64)

/-- `__qdivrem()` divides, and gives all ones and the dividend for a division by zero. -/
theorem qdivrem_eq : qdivrem uq vq=some (if vq=0 then BitVec.allOnes 64 else uq/vq,uq%vq) := by
  rw [qdivrem]
  by_cases h0 : vq=0
  · rw [if_pos h0,if_pos h0,h0,show uq%0=uq from BitVec.umod_zero]
    rfl
  rw [if_neg h0,if_neg h0]
  by_cases hlt : uq<vq
  · rw [if_pos hlt,BitVec.udiv_eq_zero_iff_eq_zero_or_lt.mpr (.inr hlt),BitVec.umod_eq_of_lt hlt]
    rfl
  rw [if_neg hlt]
  rw [BitVec.lt_def,not_lt] at hlt
  have hpos : 0<vq.toNat := Nat.pos_of_ne_zero fun h => h0 (BitVec.eq_of_toNat_eq h)
  suffices h : ∀ q r : BitVec 64,q.toNat=number (quadDigits uq) 1 4/number (quadDigits vq) 1 4 →
      r.toNat=number (quadDigits uq) 1 4%number (quadDigits vq) 1 4 → (q,r)=(uq/vq,uq%vq) by
    dsimp only
    cases hloop : divisorLoop (quadDigits vq) 4 0 with
    | none =>
      have hz := divisorLoop_none (by decide) hloop
      have hv4 : number (quadDigits vq) 1 4=(quadDigits vq 4).up.toNat := by
        rw [number_skip (k := 3) (n := 1) (fun i hi hi' => hz i (by omega) (by omega)) rfl,number_one,toNat_up]
      rw [number_quadDigits] at hv4
      obtain ⟨hq,hr⟩ := shortDivide_spec (t := (quadDigits vq 4).up) (quadDigits uq) (by omega)
        (by rw [toNat_up]; exact (quadDigits vq 4).isLt)
      rw [← hv4,← number_quadDigits vq] at hq hr
      exact congrArg some (h _ _ hq hr)
    | some nv =>
      obtain ⟨n,v⟩ := nv
      obtain ⟨hnv,hn,hne,-,hvs⟩ := divisorLoop_some (by decide) hloop
      dsimp only
      have hv1 : 1 ≤ (quadDigits vq (v+1)).toNat :=
        Nat.one_le_iff_ne_zero.mpr fun h => hne (BitVec.eq_of_toNat_eq h)
      -- The dividend is not less than the divisor: it has as many digits.
      obtain ⟨m,u,hm,hmu,hune,-,hus⟩ := @dividendLoop_spec (quadDigits uq) (4-n) 0 (by
        by_contra hc
        push Not at hc
        have hU := number_skip (w := quadDigits uq) (k := 4-n+1) (n := n-1) (fun i hi hi' => hc i hi (by omega))
          (by omega)
        have hV := number_skip (fun i hi hi' => hvs i hi hi') (show v+n=4 by omega)
        have hUlt := number_lt (u := quadDigits uq) (a := 4-n+1+1) (n := n-1)
        rw [number_quadDigits] at hU hV
        rw [show n=n-1+1 by omega,number_head] at hV
        have := Nat.le_mul_of_pos_left ((2^16)^(n-1)) hv1
        omega)
      obtain ⟨d,hd,hd1,hd2⟩ := normLoop_spec (k := 15) (d := 0) (t := (quadDigits vq (v+1)).up)
        (by rw [toNat_up]; omega) (by rw [toNat_up]; exact (quadDigits vq (v+1)).isLt)
      rw [toNat_up] at hd1 hd2
      obtain ⟨q,r,hrun,hq,hr⟩ := @programD_spec (quadDigits vq) (quadDigits uq) n v m u d hn (by omega) (by omega)
        (fun i hi => by
          obtain rfl | hi0 := Nat.eq_zero_or_pos i
          · rfl
          · exact hus i hi0 hi) (fun i hi hi' => hvs i hi hi') ⟨hd1,hd2⟩
      rw [hm,Option.bind_eq_bind,Option.bind_some]
      dsimp only
      rw [hd,Nat.zero_add,Option.bind_eq_bind,Option.bind_some,hrun]
      exact congrArg some (h _ _ hq hr)
  intro q r hq hr
  rw [number_quadDigits,number_quadDigits] at hq hr
  exact Prod.ext (BitVec.eq_of_toNat_eq (hq.trans BitVec.toNat_udiv.symm))
    (BitVec.eq_of_toNat_eq (hr.trans BitVec.toNat_umod.symm))

theorem ofInt_tdiv : BitVec.ofInt 64 (a.toInt.tdiv b.toInt)=a.sdiv b :=
  BitVec.eq_of_toInt_eq (by rw [BitVec.toInt_ofInt,BitVec.toInt_sdiv])

theorem ofInt_tmod : BitVec.ofInt 64 (a.toInt.tmod b.toInt)=a.srem b := by
  rw [← BitVec.toInt_srem,BitVec.ofInt_toInt]

theorem qdivrem_of_ne {vq : BitVec 64} (h : vq≠0) : qdivrem uq vq=some (uq/vq,uq%vq) := by
  rw [qdivrem_eq,if_neg h]

/-- The sign of a quotient of all ones is changed, too. -/
theorem divdi3_zero : divdi3 a 0=some (if a.msb then 1 else BitVec.allOnes 64) := by
  have h : ∀ u : BitVec 64,qdivrem u 0=some (BitVec.allOnes 64,u%0) := fun u => by rw [qdivrem_eq,if_pos rfl]
  rw [divdi3,show (0 : BitVec 64).msb=false from rfl]
  cases a.msb
  · simp only [Bool.false_eq_true,if_false,h,Option.bind_eq_bind,Option.bind_some]
    rfl
  · simp only [Bool.false_eq_true,if_false,if_true,h,Option.bind_eq_bind,Option.bind_some]
    rfl

theorem divdi3_of_ne (h : b≠0) : divdi3 a b=some (a.sdiv b) := by
  have hneg : -b≠0 := mt BitVec.neg_eq_zero_iff.mp h
  rw [BitVec.sdiv_eq,divdi3]
  cases ha : a.msb <;> cases hb : b.msb <;> simp [qdivrem_of_ne _ h,qdivrem_of_ne _ hneg]

theorem divdi3_eq : divdi3 a b=some (if b=0 then (if a.msb then 1 else BitVec.allOnes 64)
    else BitVec.ofInt 64 (a.toInt.tdiv b.toInt)) := by
  split
  · rename_i h
    rw [h,divdi3_zero]
  · rename_i h
    rw [divdi3_of_ne a b h,ofInt_tdiv]

theorem moddi3_eq : moddi3 a b=some (BitVec.ofInt 64 (a.toInt.tmod b.toInt)) := by
  rw [ofInt_tmod,BitVec.srem_eq,moddi3]
  cases ha : a.msb <;> cases hb : b.msb <;> simp [qdivrem_eq]

/-- The four routines that the compiler calls for 64-bit division on RV32: they truncate towards zero, as
the division of the language does, and always return. -/
theorem quadDivision_exact : udivdi3 a b=some (if b=0 then BitVec.allOnes 64 else a/b) ∧ umoddi3 a b=some (a%b) ∧
    divdi3 a b=some (if b=0 then (if a.msb then 1 else BitVec.allOnes 64)
      else BitVec.ofInt 64 (a.toInt.tdiv b.toInt)) ∧
    moddi3 a b=some (BitVec.ofInt 64 (a.toInt.tmod b.toInt)) := by
  refine ⟨?_,?_,divdi3_eq a b,moddi3_eq a b⟩
  · rw [udivdi3,qdivrem_eq]
    rfl
  · rw [umoddi3,qdivrem_eq]
    rfl

end Quad
end OpenSBI
