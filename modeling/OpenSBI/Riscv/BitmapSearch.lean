import OpenSBI.Riscv.Bitmap

namespace OpenSBI

variable {x : Xlen} {bitmap : Nat → Word x} {result size tmp : Word x} {p : Nat}

/-! ## The searches for a set bit -/

theorem bitmapBit_at (bitmap : Nat → Word x) (p : Nat) {j : Nat} (hj : j<x.bits) :
    bitmapBit bitmap (p*x.bits+j)=(bitmap p).getLsbD j := by
  have hpos := x.bits_pos
  rw [bitmapBit,Nat.add_comm,Nat.add_mul_div_right _ _ hpos,Nat.div_eq_of_lt hj,Nat.zero_add,
    Nat.add_mul_mod_self_right,Nat.mod_eq_of_lt hj]

theorem toNat_add_ofNat {n : Nat} (h : result.toNat+n<2^x.bits) :
    (result+BitVec.ofNat x.bits n).toNat=result.toNat+n := by
  rw [BitVec.toNat_add,BitVec.toNat_ofNat,Nat.mod_eq_of_lt (by omega : n<2^x.bits),Nat.mod_eq_of_lt h]

/-- The lowest bit of word `p` is the least index from the start of that word on. -/
theorem isLeast_ffs {N : Nat} (hz : bitmap p≠0) (hr : result.toNat=p*x.bits) (hN : N<2^x.bits)
    (hin : p*x.bits+ffs (bitmap p)<N) :
    IsLeast (matchIndices (bitmapBit bitmap) (p*x.bits) N)
      (result+BitVec.ofNat x.bits (ffs (bitmap p))).toNat := by
  obtain ⟨hbit,hlow⟩ := ffs_spec hz
  rw [toNat_add_ofNat (by omega),hr]
  constructor
  · refine ⟨Nat.le_add_right _ _,hin,?_⟩
    rwa [bitmapBit_at bitmap p (BitVec.lt_of_getLsbD hbit)]
  · rintro i ⟨hpi,-,hi⟩
    by_contra hlt
    obtain ⟨j,rfl⟩ := Nat.exists_eq_add_of_le hpi
    have hjlt : j<ffs (bitmap p) := by omega
    rw [bitmapBit_at bitmap p (hjlt.trans (BitVec.lt_of_getLsbD hbit)),hlow j hjlt] at hi
    cases hi

/-- A word without bits is passed over. -/
theorem matchIndices_pass {N : Nat} (hz : bitmap p=0) :
    matchIndices (bitmapBit bitmap) (p*x.bits) N=matchIndices (bitmapBit bitmap) ((p+1)*x.bits) N := by
  ext i
  constructor
  · rintro ⟨hpi,hi,hbit⟩
    refine ⟨?_,hi,hbit⟩
    by_contra hlt
    obtain ⟨j,rfl⟩ := Nat.exists_eq_add_of_le hpi
    rw [Nat.succ_mul] at hlt
    rw [bitmapBit_at bitmap p (by omega),hz] at hbit
    simp at hbit
  · rintro ⟨hpi,hi,hbit⟩
    rw [Nat.succ_mul] at hpi
    exact ⟨by omega,hi,hbit⟩

theorem findBitLast_least (bitmap : Nat → Word x) (hr : result.toNat=p*x.bits) (h0 : 0<size.toNat)
    (hsize : size.toNat<x.bits) (hN : result.toNat+size.toNat<2^x.bits) :
    LeastOrEnd (matchIndices (bitmapBit bitmap) (p*x.bits) (result.toNat+size.toNat))
      (result.toNat+size.toNat) (findBitLast result size (bitmap p)).toNat := by
  have hmask : ∀ i,(bitmap p &&& Word.shr Word.max (BITS_PER_LONG-size).toNat).getLsbD i=
      ((bitmap p).getLsbD i && decide (i<size.toNat)) := by
    intro i
    rw [BitVec.getLsbD_and,toNat_bitsPerLong_sub hsize.le,getLsbD_shr_max h0 hsize]
  simp only [findBitLast]
  by_cases hz : bitmap p &&& Word.shr Word.max (BITS_PER_LONG-size).toNat=0
  · right
    rw [if_pos hz,BitVec.toNat_add,Nat.mod_eq_of_lt hN]
    refine ⟨Set.eq_empty_of_forall_notMem ?_,rfl⟩
    rintro i ⟨hpi,hi,hbit⟩
    obtain ⟨j,rfl⟩ := Nat.exists_eq_add_of_le hpi
    have hj : j<size.toNat := by omega
    have hmj := hmask j
    rw [bitmapBit_at bitmap p (hj.trans hsize)] at hbit
    rw [hz,hbit,decide_eq_true hj] at hmj
    simp at hmj
  · left
    obtain ⟨hbit,hlow⟩ := ffs_spec hz
    rw [hmask,Bool.and_eq_true,decide_eq_true_iff] at hbit
    rw [if_neg hz,toNat_add_ofNat (by omega),hr]
    constructor
    · refine ⟨Nat.le_add_right _ _,by omega,?_⟩
      rw [bitmapBit_at bitmap p (hbit.2.trans hsize)]
      exact hbit.1
    · rintro i ⟨hpi,-,hi⟩
      by_contra hlt
      obtain ⟨j,rfl⟩ := Nat.exists_eq_add_of_le hpi
      have hjlow := hlow j (by omega)
      rw [bitmapBit_at bitmap p (by omega)] at hi
      rw [hmask,hi,Bool.true_and,decide_eq_false_iff_not] at hjlow
      omega

/-- The next word of the loop. -/
theorem nextWord {N : Nat} (hr : result.toNat=p*x.bits) (hN : result.toNat+size.toNat=N) (hlt : N<2^x.bits)
    (hge : x.bits ≤ size.toNat) :
    (result+BITS_PER_LONG).toNat=(p+1)*x.bits ∧
      (result+BITS_PER_LONG).toNat+(size-BITS_PER_LONG).toNat=N ∧
      size.toNat/x.bits=(size-BITS_PER_LONG).toNat/x.bits+1 := by
  have hsub : (size-BITS_PER_LONG).toNat=size.toNat-x.bits := by
    rw [BitVec.toNat_sub_of_le (BitVec.le_def.mpr (by rwa [toNat_bitsPerLong])),toNat_bitsPerLong]
  have hadd : (result+BITS_PER_LONG).toNat=result.toNat+x.bits := toNat_add_ofNat (by omega)
  rw [hsub,hadd,Nat.succ_mul]
  exact ⟨by omega,by omega,Nat.div_eq_sub_div x.bits_pos hge⟩

/-- From word `p` on the loop finds the least index in front of the end. -/
theorem findBitLoop_least (bitmap : Nat → Word x) {fuel N : Nat} {addr : Nat → Option (Word x)}
    (hr : result.toNat=p*x.bits) (hN : result.toNat+size.toNat=N) (hlt : N<2^x.bits) (hfuel : size.toNat/x.bits<fuel)
    (haddr : ∀ k,p ≤ k → k*x.bits<N → addr k=some (bitmap k)) :
    ∃ r,findBitLoop addr fuel p result size=some r ∧
      LeastOrEnd (matchIndices (bitmapBit bitmap) (p*x.bits) N) N r.toNat := by
  have hpos := x.bits_pos
  induction fuel generalizing p result size with
  | zero => exact absurd hfuel (Nat.not_lt_zero _)
  | succ fuel ih =>
    rw [findBitLoop]
    by_cases hge : x.bits ≤ size.toNat
    · rw [if_pos (clear_bitsPerLong_ne_zero.mpr hge),haddr p le_rfl (by omega),Option.bind_some]
      by_cases hz : bitmap p=0
      · obtain ⟨hr',hN',hquot⟩ := nextWord hr hN hlt hge
        rw [if_neg (not_not.mpr hz),matchIndices_pass hz]
        exact ih hr' hN' (by omega) fun k hk => haddr k (by omega)
      · have hffs := BitVec.lt_of_getLsbD (ffs_spec hz).1
        rw [if_pos hz]
        exact ⟨_,rfl,.inl (isLeast_ffs hz hr hlt (by omega))⟩
    · rw [if_neg (fun h => hge (clear_bitsPerLong_ne_zero.mp h))]
      by_cases h0 : size=0
      · have hs0 : size.toNat=0 := by simpa using congrArg BitVec.toNat h0
        rw [if_pos h0]
        refine ⟨_,rfl,.inr ⟨Set.eq_empty_of_forall_notMem ?_,by omega⟩⟩
        rintro i ⟨hpi,hi,-⟩
        omega
      · have hs0 : size.toNat≠0 := Word.ne_zero_iff.mp h0
        rw [if_neg h0,haddr p le_rfl (by omega),Option.map_some]
        refine ⟨_,rfl,?_⟩
        rw [← hN]
        exact findBitLast_least bitmap hr (by omega) (by omega) (by omega)

/-- A bitmap is read as far as its size needs. -/
theorem covering_of_lt {size k : Nat} (h : k*x.bits<size) : covering bitmap size k=some (bitmap k) := if_pos h

theorem findFirstBit_least (bitmap : Nat → Word x) (size : Word x) :
    ∃ r,findFirstBit (covering bitmap size.toNat) size=some r ∧
      LeastOrEnd (matchIndices (bitmapBit bitmap) 0 size.toNat) size.toNat r.toNat := by
  have h0 : (0 : Word x).toNat=0 := by cases x <;> rfl
  have hr : (0 : Word x).toNat=0*x.bits := by rw [h0,Nat.zero_mul]
  have hN : (0 : Word x).toNat+size.toNat=size.toNat := by rw [h0,Nat.zero_add]
  have h := findBitLoop_least bitmap hr hN size.isLt (Nat.lt_succ_self _) fun k _ hk => covering_of_lt hk
  rw [Nat.zero_mul] at h
  exact h

/-- Word `p` without the bits in front of `offset`. -/
def maskedFrom (bitmap : Nat → Word x) (p : Nat) (offset : Nat) : Nat → Word x :=
  Function.update bitmap p (bitmap p &&& Word.shl Word.max offset)

theorem maskedFrom_self (bitmap : Nat → Word x) (p o : Nat) :
    maskedFrom bitmap p o p=bitmap p &&& Word.shl Word.max o := Function.update_self ..

theorem maskedFrom_of_ne {p k : Nat} (o : Nat) (h : k≠p) : maskedFrom bitmap p o k=bitmap k :=
  Function.update_of_ne h ..

/-- The mask takes the window down to its offset. -/
theorem matchIndices_masked (bitmap : Nat → Word x) (o N : Nat) :
    matchIndices (bitmapBit (maskedFrom bitmap (o/x.bits) (o%x.bits))) (o/x.bits*x.bits) N=
      matchIndices (bitmapBit bitmap) o N := by
  have hdiv := Nat.div_add_mod' o x.bits
  have hmod : o%x.bits<x.bits := Nat.mod_lt _ x.bits_pos
  have hword : ∀ j<x.bits,bitmapBit (maskedFrom bitmap (o/x.bits) (o%x.bits)) (o/x.bits*x.bits+j)=
      (bitmapBit bitmap (o/x.bits*x.bits+j) && decide (o%x.bits ≤ j)) := by
    intro j hj
    rw [bitmapBit_at _ _ hj,bitmapBit_at _ _ hj,maskedFrom_self,BitVec.getLsbD_and,getLsbD_shl_max hmod hj]
  have hrest : ∀ j,x.bits ≤ j → bitmapBit (maskedFrom bitmap (o/x.bits) (o%x.bits)) (o/x.bits*x.bits+j)=
      bitmapBit bitmap (o/x.bits*x.bits+j) := by
    intro j hj
    have hne : (o/x.bits*x.bits+j)/x.bits≠o/x.bits := by
      rw [Nat.mul_comm,Nat.mul_add_div x.bits_pos]
      have := Nat.div_pos hj x.bits_pos
      omega
    rw [bitmapBit,maskedFrom_of_ne _ hne,bitmapBit]
  ext i
  constructor
  · rintro ⟨hpi,hi,hbit⟩
    obtain ⟨j,rfl⟩ := Nat.exists_eq_add_of_le hpi
    rcases Nat.lt_or_ge j x.bits with hj | hj
    · rw [hword j hj,Bool.and_eq_true,decide_eq_true_iff] at hbit
      exact ⟨by omega,hi,hbit.1⟩
    · rw [hrest j hj] at hbit
      exact ⟨by omega,hi,hbit⟩
  · rintro ⟨hoi,hi,hbit⟩
    obtain ⟨j,rfl⟩ := Nat.exists_eq_add_of_le (show o/x.bits*x.bits ≤ i by omega)
    refine ⟨Nat.le_add_right _ _,hi,?_⟩
    rcases Nat.lt_or_ge j x.bits with hj | hj
    · rw [hword j hj,hbit,decide_eq_true (by omega),Bool.and_self]
    · rwa [hrest j hj]

theorem findNextBit_least (bitmap : Nat → Word x) (size offset : Word x) :
    ∃ r,findNextBit (covering bitmap size.toNat) size offset=some r ∧
      LeastOrEnd (matchIndices (bitmapBit bitmap) offset.toNat size.toNat) size.toNat r.toNat := by
  have hpos := x.bits_pos
  have hmod : (offset%BITS_PER_LONG).toNat=offset.toNat%x.bits := by
    rw [BitVec.toNat_umod,toNat_bitsPerLong]
  have hres := toNat_clear_bitsPerLong offset
  have hdiv := Nat.div_add_mod' offset.toNat x.bits
  have hoff := Nat.mod_lt offset.toNat hpos
  simp only [findNextBit]
  by_cases hle : size ≤ offset
  · rw [if_pos hle]
    have hle' := BitVec.le_def.mp hle
    refine ⟨_,rfl,.inr ⟨Set.eq_empty_of_forall_notMem ?_,rfl⟩⟩
    rintro i ⟨hoi,hi,-⟩
    omega
  · have hlt : offset.toNat<size.toNat := by
      by_contra h
      exact hle (BitVec.le_def.mpr (by omega))
    rw [if_neg hle]
    generalize hr : offset &&& ~~~(BITS_PER_LONG-1)=result at hres ⊢
    have hsub : (size-result).toNat=size.toNat-result.toNat :=
      BitVec.toNat_sub_of_le (BitVec.le_def.mpr (by omega))
    have hN : result.toNat+(size-result).toNat=size.toNat := by omega
    have hsize := size.isLt
    by_cases ho : offset%BITS_PER_LONG=0
    · have hz : offset.toNat%x.bits=0 := by
        rw [← hmod,ho]
        simp
      rw [if_neg (not_not.mpr ho)]
      have h := findBitLoop_least bitmap hres hN hsize
        (Nat.lt_succ_self _) fun k _ hk => covering_of_lt hk
      rwa [show offset.toNat/x.bits*x.bits=offset.toNat by omega] at h
    · rw [if_pos ho,covering_of_lt (by omega),Option.bind_some,← matchIndices_masked bitmap offset.toNat,hmod,
        ← maskedFrom_self bitmap]
      generalize hm : maskedFrom bitmap (offset.toNat/x.bits) (offset.toNat%x.bits)=masked
      by_cases hsmall : size-result<BITS_PER_LONG
      · have hs := BitVec.lt_def.mp hsmall
        rw [toNat_bitsPerLong] at hs
        rw [if_pos hsmall]
        have hlast := findBitLast_least masked hres (by omega) hs (by omega)
        rw [hN] at hlast
        exact ⟨_,rfl,hlast⟩
      · have hs : x.bits ≤ (size-result).toNat := by
          by_contra h
          exact hsmall (BitVec.lt_def.mpr (by rw [toNat_bitsPerLong]; omega))
        rw [if_neg hsmall]
        by_cases hz : masked (offset.toNat/x.bits)=0
        · obtain ⟨hr',hN',hquot⟩ := nextWord hres hN hsize hs
          rw [if_neg (not_not.mpr hz),matchIndices_pass hz]
          refine findBitLoop_least masked hr' hN' hsize (by omega) fun k hk hkN => ?_
          rw [covering_of_lt hkN,← hm,maskedFrom_of_ne _ (by omega)]
        · have hffs := BitVec.lt_of_getLsbD (ffs_spec hz).1
          rw [if_pos hz]
          exact ⟨_,rfl,.inl (isLeast_ffs hz hres hsize (by omega))⟩

/-! ## The searches for a clear bit -/

theorem bitmapBit_not (bitmap : Nat → Word x) (i : Nat) :
    bitmapBit (fun k => ~~~bitmap k) i=!bitmapBit bitmap i := by
  rw [bitmapBit,BitVec.getLsbD_not,decide_eq_true (Nat.mod_lt i x.bits_pos),Bool.true_and,bitmapBit]

theorem covering_not (bitmap : Nat → Word x) (N k : Nat) :
    covering (fun k => ~~~bitmap k) N k=(covering bitmap N k).map (~~~·) := by
  rw [covering,covering]
  split_ifs <;> rfl

theorem eq_max_iff {a : Word x} : a=Word.max ↔ ~~~a=0 := by
  rw [Word.max]
  constructor
  · rintro rfl
    exact BitVec.not_allOnes
  · intro h
    rw [← BitVec.not_not (b := a),h]
    exact BitVec.not_zero

theorem findZeroBitLast_eq (h0 : 0<size.toNat) (hsize : size.toNat<x.bits) :
    findZeroBitLast result size tmp=findBitLast result size (~~~tmp) := by
  have hmask : ~~~(tmp ||| Word.shl Word.max size.toNat)=
      ~~~tmp &&& Word.shr Word.max (BITS_PER_LONG-size).toNat := by
    apply BitVec.eq_of_getLsbD_eq
    intro i hi
    rw [BitVec.getLsbD_not,BitVec.getLsbD_or,getLsbD_shl_max hsize hi,BitVec.getLsbD_and,BitVec.getLsbD_not,
      toNat_bitsPerLong_sub hsize.le,getLsbD_shr_max h0 hsize]
    by_cases hlt : i<size.toNat
    · simp [hi,hlt,Nat.not_le.mpr hlt]
    · simp [hi,hlt,Nat.not_lt.mp hlt]
  dsimp only [findZeroBitLast,findBitLast]
  rw [← hmask]
  by_cases hz : tmp ||| Word.shl Word.max size.toNat=Word.max
  · rw [if_pos hz,if_pos (eq_max_iff.mp hz)]
  · rw [if_neg hz,if_neg (fun h => hz (eq_max_iff.mpr h)),ffz]

theorem findZeroBitLoop_eq (addr : Nat → Option (Word x)) (fuel p : Nat) (result size : Word x) :
    findZeroBitLoop addr fuel p result size=
      findBitLoop (fun k => (addr k).map (~~~·)) fuel p result size := by
  induction fuel generalizing p result size with
  | zero => rfl
  | succ fuel ih =>
    rw [findZeroBitLoop,findBitLoop]
    by_cases hge : size &&& ~~~(BITS_PER_LONG-1)≠0
    · rw [if_pos hge,if_pos hge,Option.bind_map]
      congr 1
      funext tmp
      rw [ih]
      rfl
    · rw [if_neg hge,if_neg hge]
      by_cases h0 : size=0
      · rw [if_pos h0,if_pos h0]
      · have hlt : size.toNat<x.bits := by
          by_contra h
          exact hge (clear_bitsPerLong_ne_zero.mpr (by omega))
        have hs0 := Word.ne_zero_iff.mp h0
        rw [if_neg h0,if_neg h0,Option.map_map]
        congr 1
        funext tmp
        exact findZeroBitLast_eq (by omega) hlt

theorem findFirstZeroBit_eq (addr : Nat → Option (Word x)) (size : Word x) :
    findFirstZeroBit addr size=findFirstBit (fun k => (addr k).map (~~~·)) size := findZeroBitLoop_eq ..

theorem not_or_shr_max {n : Nat} (h0 : 0 < n) (hn : n<x.bits) (a : Word x) :
    ~~~(a ||| Word.shr Word.max (x.bits-n))= ~~~a &&& Word.shl Word.max n := by
  apply BitVec.eq_of_getLsbD_eq
  intro i hi
  rw [BitVec.getLsbD_not,BitVec.getLsbD_or,getLsbD_shr_max h0 hn,BitVec.getLsbD_and,BitVec.getLsbD_not,
    getLsbD_shl_max hn hi]
  by_cases hlt : i < n
  · simp [hi,hlt,Nat.not_le.mpr hlt]
  · simp [hi,hlt,Nat.not_lt.mp hlt]

/-- A search for a clear bit is one for a set bit of the complement. -/
theorem findNextZeroBit_eq (addr : Nat → Option (Word x)) (size offset : Word x) :
    findNextZeroBit addr size offset=findNextBit (fun k => (addr k).map (~~~·)) size offset := by
  have hmod : (offset%BITS_PER_LONG).toNat=offset.toNat%x.bits := by
    rw [BitVec.toNat_umod,toNat_bitsPerLong]
  have hoff := Nat.mod_lt offset.toNat x.bits_pos
  have hres := toNat_clear_bitsPerLong offset
  have hdiv := Nat.div_add_mod' offset.toNat x.bits
  simp only [findNextZeroBit,findNextBit,findZeroBitLoop_eq]
  by_cases hle : size ≤ offset
  · rw [if_pos hle,if_pos hle]
  · rw [if_neg hle,if_neg hle]
    by_cases ho : offset%BITS_PER_LONG=0
    · rw [if_neg (not_not.mpr ho),if_neg (not_not.mpr ho)]
    · have h0 := Word.ne_zero_iff.mp ho
      rw [if_pos ho,if_pos ho,Option.bind_map]
      congr 1
      funext tmp
      have hnot := not_or_shr_max (n := (offset%BITS_PER_LONG).toNat) (by omega) (by omega) tmp
      rw [← toNat_bitsPerLong_sub (by omega : (offset%BITS_PER_LONG).toNat ≤ x.bits)] at hnot
      simp only [Function.comp_apply,ffz,hnot]
      by_cases hsmall : size-(offset &&& ~~~(BITS_PER_LONG-1))<BITS_PER_LONG
      · have hlt : offset.toNat<size.toNat := by
          by_contra h
          exact hle (BitVec.le_def.mpr (by omega))
        have hsub : (size-(offset &&& ~~~(BITS_PER_LONG-1))).toNat=
            size.toNat-(offset &&& ~~~(BITS_PER_LONG-1)).toNat :=
          BitVec.toNat_sub_of_le (BitVec.le_def.mpr (by omega))
        have hs := BitVec.lt_def.mp hsmall
        rw [toNat_bitsPerLong] at hs
        rw [if_pos hsmall,if_pos hsmall,findZeroBitLast_eq (by omega) hs,hnot]
      · rw [if_neg hsmall,if_neg hsmall]

theorem findFirstZeroBit_least (bitmap : Nat → Word x) (size : Word x) :
    ∃ r,findFirstZeroBit (covering bitmap size.toNat) size=some r ∧
      LeastOrEnd (matchIndices (fun i => !bitmapBit bitmap i) 0 size.toNat) size.toNat r.toNat := by
  have h := findFirstBit_least (fun k => ~~~bitmap k) size
  rwa [funext (bitmapBit_not bitmap),funext (covering_not bitmap size.toNat),← findFirstZeroBit_eq] at h

theorem findNextZeroBit_least (bitmap : Nat → Word x) (size offset : Word x) :
    ∃ r,findNextZeroBit (covering bitmap size.toNat) size offset=some r ∧
      LeastOrEnd (matchIndices (fun i => !bitmapBit bitmap i) offset.toNat size.toNat) size.toNat r.toNat := by
  have h := findNextBit_least (fun k => ~~~bitmap k) size offset
  rwa [funext (bitmapBit_not bitmap),funext (covering_not bitmap size.toNat),← findNextZeroBit_eq] at h

/-! ## The last bit -/

theorem toNat_ofNat_mul_add {words g : Nat} (h : words*x.bits+g<2^x.bits) :
    (BitVec.ofNat x.bits words*BITS_PER_LONG+BitVec.ofNat x.bits g : Word x).toNat=words*x.bits+g := by
  have hmul : (BitVec.ofNat x.bits words*BITS_PER_LONG : Word x).toNat=words*x.bits := by
    have hle : words ≤ words*x.bits := Nat.le_mul_of_pos_right _ x.bits_pos
    rw [BitVec.toNat_mul,toNat_bitsPerLong,BitVec.toNat_ofNat,Nat.mod_eq_of_lt (by omega : words<2^x.bits),
      Nat.mod_eq_of_lt (by omega)]
  rw [toNat_add_ofNat (by omega),hmul]

/-- The highest bit of the last word that has one. -/
theorem isGreatest_fls {N words : Nat} {tmp : Word x} (hz : tmp≠0)
    (hin : ∀ j,tmp.getLsbD j=true → (bitmap words).getLsbD j=true ∧ words*x.bits+j<N)
    (hout : ∀ i,words*x.bits ≤ i → i<N → bitmapBit bitmap i=true → tmp.getLsbD (i-words*x.bits)=true)
    (hN : N<2^x.bits) :
    IsGreatest (matchIndices (bitmapBit bitmap) 0 N)
      (BitVec.ofNat x.bits words*BITS_PER_LONG+BitVec.ofNat x.bits (flsHalving tmp) : Word x).toNat := by
  obtain ⟨hbit,hhigh⟩ := flsHalving_spec hz
  obtain ⟨hword,hlt⟩ := hin _ hbit
  rw [toNat_ofNat_mul_add (by omega)]
  constructor
  · refine ⟨Nat.zero_le _,hlt,?_⟩
    rwa [bitmapBit_at bitmap words (BitVec.lt_of_getLsbD hbit)]
  · rintro i ⟨-,hi,hibit⟩
    by_contra hgt
    have h1 := hout i (by omega) hi hibit
    rw [hhigh _ (by omega)] at h1
    cases h1

theorem lastBitLoop_greatest {N words : Nat} {addr : Nat → Option (Word x)} (hw : words*x.bits ≤ N)
    (hN : N<2^x.bits) (haddr : ∀ k<words,addr k=some (bitmap k))
    (hrest : ∀ i,words*x.bits ≤ i → i<N → bitmapBit bitmap i=false) (hsize : size.toNat=N) :
    ∃ r,lastBitLoop addr size words=some r ∧
      GreatestOrEnd (matchIndices (bitmapBit bitmap) 0 N) N r.toNat := by
  induction words with
  | zero =>
    refine ⟨size,rfl,.inr ⟨Set.eq_empty_of_forall_notMem ?_,hsize⟩⟩
    rintro i ⟨-,hi,hbit⟩
    rw [hrest i (by omega) hi] at hbit
    cases hbit
  | succ words ih =>
    have hnext : (words+1)*x.bits=words*x.bits+x.bits := Nat.succ_mul words x.bits
    have hwords : ∀ i,words*x.bits ≤ i → i<words*x.bits+x.bits →
        bitmapBit bitmap i=(bitmap words).getLsbD (i-words*x.bits) := by
      intro i hle hlt
      obtain ⟨j,rfl⟩ := Nat.exists_eq_add_of_le hle
      rw [bitmapBit_at bitmap words (by omega),Nat.add_sub_cancel_left]
    rw [lastBitLoop,haddr words (Nat.lt_succ_self _),Option.bind_some]
    by_cases hz : bitmap words=0
    · rw [if_neg (not_not.mpr hz)]
      refine ih (by omega) (fun k hk => haddr k (by omega)) fun i hle hi => ?_
      rcases Nat.lt_or_ge i ((words+1)*x.bits) with hlt | hge
      · rw [hwords i hle (by omega),hz]
        simp
      · exact hrest i hge hi
    · rw [if_pos hz]
      refine ⟨_,rfl,.inl (isGreatest_fls hz (fun j hj => ⟨hj,?_⟩) (fun i hle hi hbit => ?_) hN)⟩
      · have := BitVec.lt_of_getLsbD hj
        omega
      · rcases Nat.lt_or_ge i ((words+1)*x.bits) with hlt | hge
        · rwa [hwords i hle (by omega)] at hbit
        · rw [hrest i hge hi] at hbit
          cases hbit

theorem findLastBit_greatest (bitmap : Nat → Word x) (size : Word x) :
    ∃ r,findLastBit (covering bitmap size.toNat) size=some r ∧
      GreatestOrEnd (matchIndices (bitmapBit bitmap) 0 size.toNat) size.toNat r.toNat := by
  have hpos := x.bits_pos
  have hmod := toNat_and_bitsPerLong size
  have hdiv := Nat.div_add_mod' size.toNat x.bits
  have hlt := Nat.mod_lt size.toNat hpos
  have haddr : ∀ k<size.toNat/x.bits,covering bitmap size.toNat k=some (bitmap k) := by
    intro k hk
    have hmul := Nat.mul_le_mul_right x.bits (Nat.succ_le_of_lt hk)
    rw [Nat.succ_mul] at hmul
    exact covering_of_lt (by omega)
  simp only [findLastBit]
  by_cases hpart : size &&& (BITS_PER_LONG-1)=0
  · have hz : size.toNat%x.bits=0 := by
      rw [← hmod,hpart]
      simp
    rw [if_neg (not_not.mpr hpart)]
    exact lastBitLoop_greatest (by omega) size.isLt haddr (fun i hle hi => absurd hi (by omega)) rfl
  · have h0 := Word.ne_zero_iff.mp hpart
    rw [if_pos hpart,covering_of_lt (by omega),Option.bind_some,toNat_bitsPerLong_sub (by omega),hmod]
    have hmask : ∀ j,(bitmap (size.toNat/x.bits) &&& Word.shr Word.max (x.bits-size.toNat%x.bits)).getLsbD j=
        ((bitmap (size.toNat/x.bits)).getLsbD j && decide (j<size.toNat%x.bits)) := by
      intro j
      rw [BitVec.getLsbD_and,getLsbD_shr_max (by omega) hlt]
    have hbits : ∀ i,size.toNat/x.bits*x.bits ≤ i → i<size.toNat → bitmapBit bitmap i=
        (bitmap (size.toNat/x.bits) &&& Word.shr Word.max (x.bits-size.toNat%x.bits)).getLsbD
          (i-size.toNat/x.bits*x.bits) := by
      intro i hle hi
      obtain ⟨j,rfl⟩ := Nat.exists_eq_add_of_le hle
      rw [Nat.add_sub_cancel_left,hmask,bitmapBit_at _ _ (by omega),decide_eq_true (by omega),Bool.and_true]
    by_cases hz : bitmap (size.toNat/x.bits) &&& Word.shr Word.max (x.bits-size.toNat%x.bits)=0
    · rw [if_neg (not_not.mpr hz)]
      refine lastBitLoop_greatest (by omega) size.isLt haddr (fun i hle hi => ?_) rfl
      rw [hbits i hle hi,hz]
      simp
    · rw [if_pos hz]
      refine ⟨_,rfl,.inl (isGreatest_fls hz (fun j hj => ?_) (fun i hle hi hbit => ?_) size.isLt)⟩
      · rw [hmask,Bool.and_eq_true,decide_eq_true_iff] at hj
        exact ⟨hj.1,by omega⟩
      · rwa [hbits i hle hi] at hbit

/-! ## The walk over the set bits -/

/-- The indices from `first` on begin with the least of them. -/
theorem setBitsFrom_least {bit : Nat → Bool} {first size r : Nat} (h : IsLeast (matchIndices bit first size) r) :
    setBitsFrom bit first size=r::setBitsFrom bit (r+1) size := by
  obtain ⟨⟨hfirst,hlt,hbit⟩,hleast⟩ := h
  have hsplit : List.range size=List.range r++r::(List.range (size-(r+1))).map (r+1+·) := by
    have hrange := List.range_add (n := r+1) (m := size-(r+1))
    rwa [Nat.add_sub_cancel' hlt,List.range_succ,List.append_assoc,List.singleton_append] at hrange
  have hbefore : (List.range r).filter (fun i => decide (first ≤ i) && bit i)=[] := by
    rw [List.filter_eq_nil_iff]
    intro i hi hmatch
    rw [Bool.and_eq_true,decide_eq_true_iff] at hmatch
    have hir := List.mem_range.mp hi
    have := hleast ⟨hmatch.1,by omega,hmatch.2⟩
    omega
  have hbefore' : (List.range r).filter (fun i => decide (r+1 ≤ i) && bit i)=[] := by
    rw [List.filter_eq_nil_iff]
    intro i hi hmatch
    rw [Bool.and_eq_true,decide_eq_true_iff] at hmatch
    have hir := List.mem_range.mp hi
    omega
  rw [setBitsFrom,setBitsFrom,hsplit,List.filter_append,List.filter_append,hbefore,hbefore',
    List.filter_cons_of_pos (by simp [hfirst,hbit]),List.filter_cons_of_neg (by simp)]
  simp only [List.nil_append]
  congr 1
  apply List.filter_congr
  intro i hi
  obtain ⟨j,-,rfl⟩ := List.mem_map.mp hi
  rw [decide_eq_true (by omega : first ≤ r+1+j),decide_eq_true (by omega : r+1 ≤ r+1+j)]

theorem setBitsFrom_empty {bit : Nat → Bool} {first size : Nat} (h : matchIndices bit first size=∅) :
    setBitsFrom bit first size=[] := by
  rw [List.eq_nil_iff_forall_not_mem]
  intro i hi
  obtain ⟨hlt,hle,hbit⟩ := mem_setBitsFrom.mp hi
  exact (Set.eq_empty_iff_forall_notMem.mp h) i ⟨hle,hlt,hbit⟩

theorem forEachSetBitLoop_eq {fuel first : Nat} {bit : Word x} (hfuel : size.toNat-first<fuel)
    (hbit : LeastOrEnd (matchIndices (bitmapBit bitmap) first size.toNat) size.toNat bit.toNat) :
    (forEachSetBitLoop (covering bitmap size.toNat) size fuel bit).map (List.map BitVec.toNat)=
      some (setBitsFrom (bitmapBit bitmap) first size.toNat) := by
  induction fuel generalizing first bit with
  | zero => exact absurd hfuel (Nat.not_lt_zero _)
  | succ fuel ih =>
    have hsize := size.isLt
    rw [forEachSetBitLoop]
    rcases hbit with hleast | ⟨hempty,hend⟩
    · obtain ⟨hfirst,hlt,-⟩ := hleast.1
      have h1 : (bit+1).toNat=bit.toNat+1 := by
        have hone : (bit+BitVec.ofNat x.bits 1).toNat=bit.toNat+1 := toNat_add_ofNat (by omega)
        exact hone
      obtain ⟨next,hnext,hn⟩ := findNextBit_least bitmap size (bit+1)
      rw [h1] at hn
      have hrest := ih (by omega) hn
      rw [if_pos (BitVec.lt_def.mpr hlt),hnext,Option.bind_some,Option.map_map,setBitsFrom_least hleast,
        ← Option.map_some,← hrest,Option.map_map]
      rfl
    · rw [if_neg (fun h => absurd (BitVec.lt_def.mp h) (by omega)),setBitsFrom_empty hempty]
      rfl

theorem forEachSetBit_eq (bitmap : Nat → Word x) (size : Word x) :
    (forEachSetBit (covering bitmap size.toNat) size).map (List.map BitVec.toNat)=
      some (setBitsFrom (bitmapBit bitmap) 0 size.toNat) := by
  obtain ⟨bit,hbit,hleast⟩ := findFirstBit_least bitmap size
  rw [forEachSetBit,hbit,Option.bind_some]
  exact forEachSetBitLoop_eq (Nat.lt_succ_self _) hleast

/-- The searches find the least and the greatest matching index, or the end, and the walk passes the set
bits in ascending order; none of them reads a word that does not cover the bits. -/
theorem bitmap_searches (bitmap : Nat → Word x) (size offset : Word x) :
    (∃ r,findFirstBit (covering bitmap size.toNat) size=some r ∧
      LeastOrEnd (matchIndices (bitmapBit bitmap) 0 size.toNat) size.toNat r.toNat) ∧
    (∃ r,findFirstZeroBit (covering bitmap size.toNat) size=some r ∧
      LeastOrEnd (matchIndices (fun i => !bitmapBit bitmap i) 0 size.toNat) size.toNat r.toNat) ∧
    (∃ r,findLastBit (covering bitmap size.toNat) size=some r ∧
      GreatestOrEnd (matchIndices (bitmapBit bitmap) 0 size.toNat) size.toNat r.toNat) ∧
    (∃ r,findNextBit (covering bitmap size.toNat) size offset=some r ∧
      LeastOrEnd (matchIndices (bitmapBit bitmap) offset.toNat size.toNat) size.toNat r.toNat) ∧
    (∃ r,findNextZeroBit (covering bitmap size.toNat) size offset=some r ∧
      LeastOrEnd (matchIndices (fun i => !bitmapBit bitmap i) offset.toNat size.toNat) size.toNat r.toNat) ∧
    (forEachSetBit (covering bitmap size.toNat) size).map (List.map BitVec.toNat)=
      some (setBitsFrom (bitmapBit bitmap) 0 size.toNat) := by
  refine ⟨?_,?_,?_,?_,?_,?_⟩
  · exact findFirstBit_least bitmap size
  · exact findFirstZeroBit_least bitmap size
  · exact findLastBit_greatest bitmap size
  · exact findNextBit_least bitmap size offset
  · exact findNextZeroBit_least bitmap size offset
  · exact forEachSetBit_eq bitmap size

/-- A walk over two words of a bitmap whose size ends within the second. -/
example : forEachSetBit (x := .rv64) (covering (fun k => if k=0 then 0x8000000000000001 else 6) 66) 66=
    some [0,63,65] := by decide

end OpenSBI
