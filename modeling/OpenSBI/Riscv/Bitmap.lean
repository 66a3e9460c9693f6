import OpenSBI.Riscv.Bitops
import Mathlib.Order.Bounds.Basic

namespace OpenSBI

variable {x : Xlen}

/-- `BITS_PER_LONG` as an operand. -/
def BITS_PER_LONG : Word x := BitVec.ofNat x.bits x.bits

/-- The halvings of `__fls()`: each passes over `k` clear bits at the top. -/
def flsSteps : List Nat → Word x → Nat → Nat
  | [],_,num => num
  | k::rest,word,num =>
    if word &&& Word.shl Word.max (x.bits-k)=0 then flsSteps rest (Word.shl word k) (num-k)
    else flsSteps rest word num

/-- `__fls()` step by step. -/
def flsHalving (word : Word x) : Nat :=
  flsSteps (match x with | .rv32 => [16,8,4,2,1] | .rv64 => [32,16,8,4,2,1]) word (x.bits-1)

/-- `ffz()`. -/
def ffz (word : Word x) : Nat := ffs (~~~word)

/-! ## The searches

`addr` reads a word of the bitmap; `none` is a word that is not there, or a loop that goes on. -/

/-- From the label `found_first` of `find_next_bit()` on, and the end of `find_first_bit()`. -/
def findBitLast (result size tmp : Word x) : Word x :=
  let tmp := tmp &&& Word.shr Word.max (BITS_PER_LONG-size).toNat
  if tmp=0 then result+size else result+BitVec.ofNat x.bits (ffs tmp)

/-- The loop of `find_first_bit()` and `find_next_bit()` and what is behind it. -/
def findBitLoop (addr : Nat → Option (Word x)) : Nat → Nat → Word x → Word x → Option (Word x)
  | 0,_,_,_ => none
  | fuel+1,p,result,size =>
    if size &&& ~~~(BITS_PER_LONG-1)≠0 then
      (addr p).bind fun tmp =>
        if tmp≠0 then some (result+BitVec.ofNat x.bits (ffs tmp))
        else findBitLoop addr fuel (p+1) (result+BITS_PER_LONG) (size-BITS_PER_LONG)
    else if size=0 then some result
    else (addr p).map (findBitLast result size)

/-- `find_first_bit()`. -/
def findFirstBit (addr : Nat → Option (Word x)) (size : Word x) : Option (Word x) :=
  findBitLoop addr (size.toNat/x.bits+1) 0 0 size

/-- `find_next_bit()`. -/
def findNextBit (addr : Nat → Option (Word x)) (size offset : Word x) : Option (Word x) :=
  let p := offset.toNat/x.bits
  let result := offset &&& ~~~(BITS_PER_LONG-1)
  if size ≤ offset then some size
  else
    let size := size-result
    let offset := offset%BITS_PER_LONG
    if offset≠0 then
      (addr p).bind fun tmp =>
        let tmp := tmp &&& Word.shl Word.max offset.toNat
        if size<BITS_PER_LONG then some (findBitLast result size tmp)
        else if tmp≠0 then some (result+BitVec.ofNat x.bits (ffs tmp))
        else findBitLoop addr (size.toNat/x.bits) (p+1) (result+BITS_PER_LONG) (size-BITS_PER_LONG)
    else findBitLoop addr (size.toNat/x.bits+1) p result size

/-- From the label `found_first` of `find_next_zero_bit()` on, and the end of `find_first_zero_bit()`. -/
def findZeroBitLast (result size tmp : Word x) : Word x :=
  let tmp := tmp ||| Word.shl Word.max size.toNat
  if tmp=Word.max then result+size else result+BitVec.ofNat x.bits (ffz tmp)

/-- The loop of `find_first_zero_bit()` and `find_next_zero_bit()` and what is behind it. -/
def findZeroBitLoop (addr : Nat → Option (Word x)) : Nat → Nat → Word x → Word x → Option (Word x)
  | 0,_,_,_ => none
  | fuel+1,p,result,size =>
    if size &&& ~~~(BITS_PER_LONG-1)≠0 then
      (addr p).bind fun tmp =>
        if ~~~tmp≠0 then some (result+BitVec.ofNat x.bits (ffz tmp))
        else findZeroBitLoop addr fuel (p+1) (result+BITS_PER_LONG) (size-BITS_PER_LONG)
    else if size=0 then some result
    else (addr p).map (findZeroBitLast result size)

/-- `find_first_zero_bit()`. -/
def findFirstZeroBit (addr : Nat → Option (Word x)) (size : Word x) : Option (Word x) :=
  findZeroBitLoop addr (size.toNat/x.bits+1) 0 0 size

/-- `find_next_zero_bit()`. -/
def findNextZeroBit (addr : Nat → Option (Word x)) (size offset : Word x) : Option (Word x) :=
  let p := offset.toNat/x.bits
  let result := offset &&& ~~~(BITS_PER_LONG-1)
  if size ≤ offset then some size
  else
    let size := size-result
    let offset := offset%BITS_PER_LONG
    if offset≠0 then
      (addr p).bind fun tmp =>
        let tmp := tmp ||| Word.shr Word.max (BITS_PER_LONG-offset).toNat
        if size<BITS_PER_LONG then some (findZeroBitLast result size tmp)
        else if ~~~tmp≠0 then some (result+BitVec.ofNat x.bits (ffz tmp))
        else findZeroBitLoop addr (size.toNat/x.bits) (p+1) (result+BITS_PER_LONG) (size-BITS_PER_LONG)
    else findZeroBitLoop addr (size.toNat/x.bits+1) p result size

/-- The loop of `find_last_bit()` from word `words` down. -/
def lastBitLoop (addr : Nat → Option (Word x)) (size : Word x) : Nat → Option (Word x)
  | 0 => some size
  | words+1 =>
    (addr words).bind fun tmp =>
      if tmp≠0 then some (BitVec.ofNat x.bits words*BITS_PER_LONG+BitVec.ofNat x.bits (flsHalving tmp))
      else lastBitLoop addr size words

/-- `find_last_bit()`. -/
def findLastBit (addr : Nat → Option (Word x)) (size : Word x) : Option (Word x) :=
  let words := size.toNat/x.bits
  if size &&& (BITS_PER_LONG-1)≠0 then
    (addr words).bind fun tmp =>
      let tmp := tmp &&& Word.shr Word.max (BITS_PER_LONG-(size &&& (BITS_PER_LONG-1))).toNat
      if tmp≠0 then some (BitVec.ofNat x.bits words*BITS_PER_LONG+BitVec.ofNat x.bits (flsHalving tmp))
      else lastBitLoop addr size words
  else lastBitLoop addr size words

/-- `for_each_set_bit()` from `bit` on: the bits it visits. -/
def forEachSetBitLoop (addr : Nat → Option (Word x)) (size : Word x) : Nat → Word x → Option (List (Word x))
  | 0,_ => none
  | fuel+1,bit =>
    if bit<size then
      (findNextBit addr size (bit+1)).bind fun next => (forEachSetBitLoop addr size fuel next).map (bit::·)
    else some []

/-- `for_each_set_bit()`. -/
def forEachSetBit (addr : Nat → Option (Word x)) (size : Word x) : Option (List (Word x)) :=
  (findFirstBit addr size).bind (forEachSetBitLoop addr size (size.toNat+1))

/-! ## Bitmaps -/

/-- The bits of a bitmap. -/
def bitmapBit (bitmap : Nat → Word x) (i : Nat) : Bool := (bitmap (i/x.bits)).getLsbD (i%x.bits)

/-- The words that cover the first `size` bits. -/
def covering (bitmap : Nat → Word x) (size : Nat) (k : Nat) : Option (Word x) :=
  if k*x.bits<size then some (bitmap k) else none

/-- The matching indices of a window. -/
def matchIndices (bit : Nat → Bool) (offset size : Nat) : Set Nat := {i | offset ≤ i ∧ i < size ∧ bit i=true}

/-- The least element, or the end where there is none. -/
def LeastOrEnd (S : Set Nat) (size r : Nat) : Prop := IsLeast S r ∨ S=∅ ∧ r=size

/-- The greatest element, or the end where there is none. -/
def GreatestOrEnd (S : Set Nat) (size r : Nat) : Prop := IsGreatest S r ∨ S=∅ ∧ r=size

/-! ## Words -/

theorem toNat_bitsPerLong : (BITS_PER_LONG : Word x).toNat=x.bits := by cases x <;> rfl

theorem toNat_bitsPerLong_sub {size : Word x} (h : size.toNat ≤ x.bits) :
    (BITS_PER_LONG-size).toNat=x.bits-size.toNat := by
  rw [BitVec.toNat_sub_of_le (BitVec.le_def.mpr (by rwa [toNat_bitsPerLong])),toNat_bitsPerLong]

theorem bitsPerLong_sub_one : ∃ k,2^k=x.bits ∧ k<x.bits ∧ (BITS_PER_LONG-1 : Word x)=Word.bit k-1 := by
  cases x with
  | rv32 => exact ⟨5,rfl,by decide,rfl⟩
  | rv64 => exact ⟨6,rfl,by decide,rfl⟩

/-- The mask of the bit offset within a word. -/
theorem toNat_and_bitsPerLong (a : Word x) : (a &&& (BITS_PER_LONG-1)).toNat=a.toNat%x.bits := by
  obtain ⟨k,hk,hlt,hmask⟩ := bitsPerLong_sub_one (x := x)
  rw [hmask,BitVec.toNat_and,Word.toNat_bit_sub_one hlt,Nat.and_two_pow_sub_one_eq_mod,hk]

theorem toNat_clear_bitsPerLong (a : Word x) :
    (a &&& ~~~(BITS_PER_LONG-1)).toNat=a.toNat/x.bits*x.bits := by
  obtain ⟨k,hk,hlt,hmask⟩ := bitsPerLong_sub_one (x := x)
  rw [hmask,Word.toNat_clearLow a hlt,hk]

theorem Word.ne_zero_iff {a : Word x} : a≠0 ↔ a.toNat≠0 := by
  have h0 : (0 : Word x).toNat=0 := by cases x <;> rfl
  rw [ne_eq,← BitVec.toNat_inj,h0]

theorem clear_bitsPerLong_ne_zero {a : Word x} : a &&& ~~~(BITS_PER_LONG-1)≠0 ↔ x.bits ≤ a.toNat := by
  have hpos := x.bits_pos
  rw [Word.ne_zero_iff,toNat_clear_bitsPerLong]
  constructor
  · intro h
    by_contra hlt
    rw [Nat.div_eq_of_lt (by omega),Nat.zero_mul] at h
    exact h rfl
  · intro h
    exact (Nat.mul_pos (Nat.div_pos h hpos) hpos).ne'

/-- `~0UL << n`. -/
theorem getLsbD_shl_max {n i : Nat} (hn : n<x.bits) (hi : i<x.bits) :
    (Word.shl Word.max n : Word x).getLsbD i=decide (n ≤ i) := by
  rw [Word.shl,Nat.mod_eq_of_lt hn,BitVec.getLsbD_shiftLeft,Word.max,BitVec.getLsbD_allOnes]
  by_cases h : n ≤ i
  · have hsub : i-n<x.bits := by omega
    simp [h,hi,hsub]
  · simp [h]

/-- `~0UL >> (BITS_PER_LONG - n)`. -/
theorem getLsbD_shr_max {n i : Nat} (h0 : 0 < n) (hn : n<x.bits) :
    (Word.shr Word.max (x.bits-n) : Word x).getLsbD i=decide (i < n) := by
  rw [Word.shr,Nat.mod_eq_of_lt (by omega),BitVec.getLsbD_ushiftRight,Word.max,BitVec.getLsbD_allOnes]
  congr 1
  rw [eq_iff_iff]
  omega

/-- The halvings below `2^n` find a bit among the top `2^n`. -/
theorem flsSteps_eq {v : Word x} {n g num : Nat} (hn : 2^n ≤ x.bits) (hg : x.bits ≤ g+2^n)
    (hnum : x.bits ≤ g+num+1) (hhigh : ∀ i,g < i → v.getLsbD i=false) (hbit : v.getLsbD g=true) :
    flsSteps ((List.range n).reverse.map (2^·)) v num=num-(x.bits-1-g) := by
  have hgx : g<x.bits := BitVec.lt_of_getLsbD hbit
  induction n generalizing v g num with
  | zero =>
    have hz : x.bits-1-g=0 := by omega
    rw [hz]
    rfl
  | succ n ih =>
    have hp : 2^(n+1)=2*2^n := by rw [pow_succ,Nat.mul_comm]
    have hpos := Nat.two_pow_pos n
    rw [List.range_succ,List.reverse_append,List.map_append]
    show flsSteps (2^n::(List.range n).reverse.map (2^·)) v num=_
    have htop : v &&& Word.shl Word.max (x.bits-2^n)=0 ↔ g<x.bits-2^n := by
      constructor
      · intro hz
        by_contra hge
        have hb := congrArg (fun u : Word x => u.getLsbD g) hz
        rw [BitVec.getLsbD_and,getLsbD_shl_max (by omega) hgx,hbit,decide_eq_true (by omega)] at hb
        simp at hb
      · intro hlt
        apply BitVec.eq_of_getLsbD_eq
        intro i hi
        rw [BitVec.getLsbD_and,getLsbD_shl_max (by omega) hi]
        by_cases hgi : g < i
        · simp [hhigh i hgi]
        · have hlow : ¬x.bits-2^n ≤ i := by omega
          simp [hlow]
    rw [flsSteps]
    by_cases hlt : g<x.bits-2^n
    · rw [if_pos (htop.mpr hlt),ih (g := g+2^n) (by omega) (by omega) (by omega) ?_ ?_ (by omega)]
      · omega
      · intro i hi
        rcases Nat.lt_or_ge i x.bits with hix | hix
        · rw [Word.getLsbD_shl v (by omega) hix]
          exact hhigh _ (by omega)
        · exact BitVec.getLsbD_of_ge _ _ hix
      · rw [Word.getLsbD_shl v (by omega) (by omega),Nat.add_sub_cancel]
        exact hbit
    · rw [if_neg (fun h => hlt (htop.mp h)),ih (by omega) (by omega) hnum hhigh hbit hgx]

/-- The highest bit of a word. -/
theorem flsHalving_spec {a : Word x} (h : a≠0) :
    a.getLsbD (flsHalving a)=true ∧ ∀ i,flsHalving a < i → a.getLsbD i=false := by
  have hex := Word.exists_bit h
  have hbound : ∀ i,a.getLsbD i=true → i ≤ x.bits := fun i hi => (BitVec.lt_of_getLsbD hi).le
  obtain ⟨g0,hg0⟩ := hex
  let g := Nat.findGreatest (fun i => a.getLsbD i=true) x.bits
  have hbit : a.getLsbD g=true := Nat.findGreatest_spec (P := fun i => a.getLsbD i=true) (hbound g0 hg0) hg0
  have hhigh : ∀ i,g < i → a.getLsbD i=false := by
    intro i hi
    rcases Nat.lt_or_ge x.bits i with hix | hix
    · exact BitVec.getLsbD_of_ge _ _ hix.le
    · simpa using Nat.findGreatest_is_greatest hi hix
  have hg : g<x.bits := BitVec.lt_of_getLsbD hbit
  have heq : flsHalving a=g := by
    have hnum : x.bits-1-(x.bits-1-g)=g := by omega
    cases x with
    | rv32 =>
      have hg' : 32 ≤ g+32 := Nat.le_add_left 32 g
      exact (flsSteps_eq (n := 5) (by decide) hg' hg' hhigh hbit).trans hnum
    | rv64 =>
      have hg' : 64 ≤ g+64 := Nat.le_add_left 64 g
      exact (flsSteps_eq (n := 6) (by decide) hg' hg' hhigh hbit).trans hnum
  rw [heq]
  exact ⟨hbit,hhigh⟩

/-- The logarithm is the position that `__fls()` halves down to. -/
theorem flsHalving_eq_fls {a : Word x} (h : a≠0) : flsHalving a=fls a := by
  obtain ⟨hbit,hhigh⟩ := flsHalving_spec h
  have hne : a.toNat≠0 := Word.ne_zero_iff.mp h
  symm
  rw [fls,Nat.log2_eq_iff hne]
  constructor
  · exact Nat.ge_two_pow_of_testBit hbit
  · apply Nat.lt_pow_two_of_testBit
    intro i hi
    exact hhigh i (by omega)

end OpenSBI
