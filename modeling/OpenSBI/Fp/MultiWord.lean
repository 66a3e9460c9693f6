import OpenSBI.Math.StickyRounding
import Mathlib.Data.BitVec

namespace OpenSBI

open Math

/-- `softfloat_mul64To128M()`, the words of the product from the lowest. -/
def softfloatMul64To128M (a b : BitVec 64) : List (BitVec 32) :=
  let a32 : BitVec 32 := (a >>> 32).setWidth 32
  let a0 : BitVec 32 := a.setWidth 32
  let b32 : BitVec 32 := (b >>> 32).setWidth 32
  let b0 : BitVec 32 := b.setWidth 32
  let z0 : BitVec 64 := a0.setWidth 64*b0.setWidth 64
  let mid1 : BitVec 64 := a32.setWidth 64*b0.setWidth 64
  let mid : BitVec 64 := mid1+a0.setWidth 64*b32.setWidth 64
  let z64 : BitVec 64 := a32.setWidth 64*b32.setWidth 64
  let z64 := z64+((if mid < mid1 then (1 : BitVec 64) <<< 32 else 0) ||| mid >>> 32)
  let mid := mid <<< 32
  let z0 := z0+mid
  let z64 := z64+(if z0 < mid then 1 else 0)
  [z0.setWidth 32,(z0 >>> 32).setWidth 32,z64.setWidth 32,(z64 >>> 32).setWidth 32]

/-- The loop of `softfloat_shortShiftRightJamM()`, with the part of a word that the next one completes. -/
def shortShiftRightJamLoop (dist : Nat) : BitVec 32 → List (BitVec 32) → List (BitVec 32)
  | partWordZ,[] => [partWordZ]
  | partWordZ,wordA :: rest =>
    (wordA <<< ((2^8-dist)%32) ||| partWordZ) :: shortShiftRightJamLoop dist (wordA >>> dist) rest

/-- The words from the lowest. -/
def softfloatShortShiftRightJamM (a : List (BitVec 32)) (dist : Nat) : List (BitVec 32) :=
  match a with
  | [] => []
  | wordA :: rest =>
    let partWordZ := wordA >>> dist
    let partWordZ := if partWordZ <<< dist≠wordA then partWordZ ||| 1 else partWordZ
    shortShiftRightJamLoop dist partWordZ rest

/-- `softfloat_shiftRightJamM()`; its words are shifted in place. -/
def softfloatShiftRightJamM (a : List (BitVec 32)) (dist : Nat) : List (BitVec 32) :=
  let wordDist := min (dist >>> 5) a.length
  let innerDist := dist%32
  let wordJam := (a.take wordDist).any (·≠0)
  let z := (if innerDist≠0 then softfloatShortShiftRightJamM (a.drop wordDist) innerDist else a.drop wordDist) ++
    List.replicate wordDist 0
  if wordJam then z.modifyHead (· ||| 1) else z

def softfloatShiftRightJam96M : List (BitVec 32) → Nat → List (BitVec 32) := softfloatShiftRightJamM

/-- The number of the words, from the lowest. -/
def ofWords : List (BitVec 32) → Nat
  | [] => 0
  | w :: ws => w.toNat+2^32*ofWords ws

theorem ofWords_halves (lo hi : BitVec 64) :
    ofWords [lo.setWidth 32,(lo >>> 32).setWidth 32,hi.setWidth 32,(hi >>> 32).setWidth 32]=
      lo.toNat+2^64*hi.toNat := by
  simp only [ofWords,BitVec.toNat_setWidth,BitVec.toNat_ushiftRight,Nat.shiftRight_eq_div_pow]
  omega

/-- The carry out of a sum of words. -/
theorem carry_add (x y : BitVec 64) : (x+y).toNat+(if x+y<x then 2^64 else 0)=x.toNat+y.toNat := by
  have hx := x.isLt
  have hy := y.isLt
  simp only [BitVec.lt_def,BitVec.toNat_add]
  split <;> omega

/-- The partial products of the columns, summed into two words. -/
def sumColumns (z64 mid1 mid2 z0 : BitVec 64) : BitVec 64×BitVec 64 :=
  let mid := mid1+mid2
  let z64 := z64+((if mid < mid1 then (1 : BitVec 64) <<< 32 else 0) ||| mid >>> 32)
  let mid := mid <<< 32
  let z0 := z0+mid
  (z64+(if z0 < mid then 1 else 0),z0)

theorem sumColumns_eq (z64 mid1 mid2 z0 : BitVec 64)
    (h : z64.toNat*2^64+(mid1.toNat+mid2.toNat)*2^32+z0.toNat<2^128) :
    (sumColumns z64 mid1 mid2 z0).2.toNat+2^64*(sumColumns z64 mid1 mid2 z0).1.toNat=
      z64.toNat*2^64+(mid1.toNat+mid2.toNat)*2^32+z0.toNat := by
  have hmid := carry_add mid1 mid2
  have hz0 := carry_add ((mid1+mid2) <<< 32) z0
  have hlt := (mid1+mid2).isLt
  rw [BitVec.add_comm _ z0] at hz0
  have hup : ((if mid1+mid2 < mid1 then (1 : BitVec 64) <<< 32 else 0) ||| (mid1+mid2) >>> 32).toNat=
      (mid1.toNat+mid2.toNat)/2^32 := by
    have hor : ∀ x<2^32,(2^32 : ℕ) ||| x=2^32+x := fun x hx => (Nat.two_pow_add_eq_or_of_lt hx 1).symm
    rw [BitVec.toNat_or,BitVec.toNat_ushiftRight,Nat.shiftRight_eq_div_pow]
    split at hmid <;> rename_i hc
    · rw [if_pos hc,show ((1 : BitVec 64) <<< 32).toNat=2^32 from rfl,hor _ (by omega)]
      omega
    · rw [if_neg hc,show (0 : BitVec 64).toNat=0 from rfl,Nat.zero_or]
      omega
  have hlow : ((mid1+mid2) <<< 32).toNat=(mid1.toNat+mid2.toNat)%2^32*2^32 := by
    rw [BitVec.toNat_shiftLeft,BitVec.toNat_add,Nat.shiftLeft_eq]
    omega
  simp only [sumColumns,BitVec.toNat_add _ (ite _ _ _),BitVec.toNat_add z64,hup]
  rw [hlow] at hz0
  split at hz0 <;> rename_i hc
  · rw [if_pos hc,show (1 : BitVec 64).toNat=1 from rfl]
    omega
  · rw [if_neg hc,show (0 : BitVec 64).toNat=0 from rfl]
    omega

/-- The product of two half words fits a word. -/
theorem mul_halves (x y : BitVec 32) : (x.setWidth 64*y.setWidth 64).toNat=x.toNat*y.toNat := by
  have h : x.toNat*y.toNat ≤ (2^32-1)*(2^32-1) := Nat.mul_le_mul (by have := x.isLt; omega) (by have := y.isLt; omega)
  rw [BitVec.toNat_mul,BitVec.toNat_setWidth,BitVec.toNat_setWidth,Nat.mod_eq_of_lt (a := x.toNat) (by omega),
    Nat.mod_eq_of_lt (a := y.toNat) (by omega),Nat.mod_eq_of_lt (by omega)]

/-- The words are those of the product, the two carries included. -/
theorem mul64To128_words (a b : BitVec 64) : ofWords (softfloatMul64To128M a b)=a.toNat*b.toNat := by
  have hsplit : ∀ x : BitVec 64,x.toNat=((x >>> 32).setWidth 32).toNat*2^32+(x.setWidth 32).toNat := fun x => by
    rw [BitVec.toNat_setWidth,BitVec.toNat_setWidth,BitVec.toNat_ushiftRight,Nat.shiftRight_eq_div_pow]
    omega
  have hprod : a.toNat*b.toNat=
      ((a >>> 32).setWidth 32).toNat*((b >>> 32).setWidth 32).toNat*2^64+
        (((a >>> 32).setWidth 32).toNat*(b.setWidth 32).toNat+
          (a.setWidth 32).toNat*((b >>> 32).setWidth 32).toNat)*2^32+
        (a.setWidth 32).toNat*(b.setWidth 32).toNat := by
    conv_lhs => rw [hsplit a,hsplit b]
    ring
  have hlt : a.toNat*b.toNat<2^64*2^64 := Nat.mul_lt_mul'' a.isLt b.isLt
  have hsum := sumColumns_eq ((((a >>> 32).setWidth 32)).setWidth 64*((b >>> 32).setWidth 32).setWidth 64)
    (((a >>> 32).setWidth 32).setWidth 64*(b.setWidth 32).setWidth 64)
    ((a.setWidth 32).setWidth 64*((b >>> 32).setWidth 32).setWidth 64)
    ((a.setWidth 32).setWidth 64*(b.setWidth 32).setWidth 64)
  simp only [mul_halves,← hprod] at hsum
  rw [← hsum hlt,← ofWords_halves]
  rfl

section Shift

variable {dist : ℕ} {ws : List (BitVec 32)}

theorem word_shiftRight_lt (w : BitVec 32) (h : dist<32) : (w >>> dist).toNat<2^(32-dist) := by
  have hw := w.isLt
  rw [BitVec.toNat_ushiftRight,Nat.shiftRight_eq_div_pow,Nat.div_lt_iff_lt_mul (Nat.two_pow_pos _),← pow_add,
    Nat.sub_add_cancel h.le]
  exact hw

/-- The low bits of a word over the rest of the one before. -/
theorem word_or_eq (w p : BitVec 32) (h0 : 0<dist) (h : dist<32) (hp : p.toNat<2^(32-dist)) :
    (w <<< ((2^8-dist)%32) ||| p).toNat=2^(32-dist)*(w.toNat%2^dist)+p.toNat := by
  have hs : (2^8-dist)%32=32-dist := by omega
  have hw : w.toNat*2^(32-dist)%2^32=2^(32-dist)*(w.toNat%2^dist) := by
    rw [show 2^32=2^dist*2^(32-dist) by rw [← pow_add]; congr 1; omega,Nat.mul_mod_mul_right,Nat.mul_comm]
  rw [BitVec.toNat_or,BitVec.toNat_shiftLeft,hs,Nat.shiftLeft_eq,hw]
  exact (Nat.two_pow_add_eq_or_of_lt hp _).symm

theorem shortShiftRightJamLoop_eq (h0 : 0<dist) (h : dist<32) {p : BitVec 32} (hp : p.toNat<2^(32-dist)) :
    ofWords (shortShiftRightJamLoop dist p ws)=p.toNat+2^(32-dist)*ofWords ws := by
  induction ws generalizing p with
  | nil => rfl
  | cons w ws ih =>
    have hdm := Nat.div_add_mod w.toNat (2^dist)
    have h32 : 2^32=2^(32-dist)*2^dist := by rw [← pow_add,Nat.sub_add_cancel h.le]
    rw [shortShiftRightJamLoop,ofWords,word_or_eq w p h0 h hp,ih (word_shiftRight_lt w h),ofWords,
      BitVec.toNat_ushiftRight,Nat.shiftRight_eq_div_pow]
    calc 2^(32-dist)*(w.toNat%2^dist)+p.toNat+2^32*(w.toNat/2^dist+2^(32-dist)*ofWords ws)
        =p.toNat+2^(32-dist)*(2^dist*(w.toNat/2^dist)+w.toNat%2^dist+2^32*ofWords ws) := by
          rw [h32]
          ring
      _=p.toNat+2^(32-dist)*(w.toNat+2^32*ofWords ws) := by rw [hdm]

/-- The lowest word jams what it loses. -/
theorem jam_word (w : BitVec 32) (dist : ℕ) :
    (if (w >>> dist) <<< dist≠w then w >>> dist ||| 1 else w >>> dist).toNat=jam w.toNat (2^dist) := by
  have hdm := Nat.div_add_mod w.toNat (2^dist)
  have hw := w.isLt
  have hle : w.toNat/2^dist*2^dist ≤ w.toNat := Nat.div_mul_le_self _ _
  have heq : (w >>> dist) <<< dist=w ↔ w.toNat%2^dist=0 := by
    rw [← BitVec.toNat_inj,BitVec.toNat_shiftLeft,BitVec.toNat_ushiftRight,Nat.shiftRight_eq_div_pow,
      Nat.shiftLeft_eq,Nat.mod_eq_of_lt (by omega)]
    rw [Nat.mul_comm] at hdm hle
    omega
  rw [jam]
  by_cases hz : w.toNat%2^dist=0
  · rw [if_neg (not_not.mpr (heq.mpr hz)),if_pos hz,Nat.or_zero,BitVec.toNat_ushiftRight,Nat.shiftRight_eq_div_pow]
  · rw [if_pos (mt heq.mp hz),if_neg hz,BitVec.toNat_or,BitVec.toNat_ushiftRight,Nat.shiftRight_eq_div_pow]
    rfl

theorem shortShiftRightJamM_eq (h0 : 0<dist) (h : dist<32) :
    ofWords (softfloatShortShiftRightJamM ws dist)=jam (ofWords ws) (2^dist) := by
  cases ws with
  | nil => simp [softfloatShortShiftRightJamM,ofWords,jam]
  | cons w ws =>
    have hlt : jam w.toNat (2^dist)<2^(32-dist) := jam_lt (by omega) (by rw [Nat.sub_add_cancel h.le]; exact w.isLt)
    have heven : 2^(32-dist)*ofWords ws%2=0 := by
      rw [show 32-dist=(31-dist)+1 by omega,pow_succ',Nat.mul_assoc]
      exact Nat.mul_mod_right 2 _
    have h32 : 2^32*ofWords ws=2^(32-dist)*ofWords ws*2^dist := by
      rw [Nat.mul_right_comm,← pow_add,Nat.sub_add_cancel h.le]
    rw [softfloatShortShiftRightJamM,shortShiftRightJamLoop_eq h0 h (by rwa [jam_word w dist]),jam_word w dist,
      ofWords,Nat.add_comm w.toNat,h32,jam_add_mul _ _ (Nat.two_pow_pos dist) heven,Nat.add_comm]

theorem ofWords_append (us vs : List (BitVec 32)) :
    ofWords (us ++ vs)=ofWords us+2^(32*us.length)*ofWords vs := by
  induction us with
  | nil => simp [ofWords]
  | cons u us ih =>
    rw [List.cons_append,ofWords,ofWords,ih,List.length_cons,Nat.mul_succ,pow_add]
    ring

theorem ofWords_lt (ws : List (BitVec 32)) : ofWords ws<2^(32*ws.length) := by
  induction ws with
  | nil => decide
  | cons w ws ih =>
    have hw := w.isLt
    rw [ofWords,List.length_cons,Nat.mul_succ,pow_add]
    omega

theorem ofWords_zeros (n : ℕ) : ofWords (List.replicate n 0)=0 := by
  induction n with
  | zero => rfl
  | succ n ih => rw [List.replicate_succ,ofWords,ih]; rfl

theorem any_ne_zero (ws : List (BitVec 32)) : ws.any (·≠0)=decide (ofWords ws≠0) := by
  induction ws with
  | nil => rfl
  | cons w ws ih =>
    have hw : w=0 ↔ w.toNat=0 := BitVec.toNat_eq
    rw [List.any_cons,ih,ofWords,← Bool.decide_or]
    apply decide_eq_decide.mpr
    rw [Ne,hw]
    omega

theorem ofWords_or_one (hne : ws≠[]) : ofWords (ws.modifyHead (· ||| 1))=ofWords ws ||| 1 := by
  obtain ⟨w,ws,rfl⟩ := List.exists_cons_of_ne_nil hne
  have h1 := or_one_odd w.toNat
  have h2 := or_one_odd (w.toNat+2^32*ofWords ws)
  rw [List.modifyHead_cons,ofWords,ofWords,BitVec.toNat_or,show (1 : BitVec 32).toNat=1 from rfl]
  omega

/-- The shift over whole words and the one over bits jam what they lose between them. -/
theorem shiftRightJamM_eq : ofWords (softfloatShiftRightJamM ws dist)=jam (ofWords ws) (2^dist) := by
  have hdist : dist >>> 5=dist/32 := Nat.shiftRight_eq_div_pow dist 5
  obtain ⟨n,hn⟩ : ∃ n,min (dist/32) ws.length=n := ⟨_,rfl⟩
  have hmoved : ofWords (if dist%32≠0 then softfloatShortShiftRightJamM (ws.drop n) (dist%32) else ws.drop n)=
      jam (ofWords (ws.drop n)) (2^(dist%32)) := by
    split
    · exact shortShiftRightJamM_eq (by omega) (by omega)
    · rename_i h
      rw [not_not.mp h,pow_zero,jam,Nat.div_one,Nat.mod_one,if_pos rfl,Nat.or_zero]
  have hlow := ofWords_lt (ws.take n)
  have hsplit := ofWords_append (ws.take n) (ws.drop n)
  have hlen : (ws.take n).length=n := by
    rw [List.length_take]
    omega
  rw [List.take_append_drop,hlen] at hsplit
  rw [hlen] at hlow
  have hjam : jam (ofWords ws) (2^dist)=if ofWords (ws.take n)=0 then jam (ofWords (ws.drop n)) (2^(dist%32))
      else jam (ofWords (ws.drop n)) (2^(dist%32)) ||| 1 := by
    obtain hw | hw : n=dist/32 ∨ n=ws.length ∧ n<dist/32 := by omega
    · rw [← jam_mul hlow,← hsplit,← pow_add,show 32*n+dist%32=dist by omega]
    · have hlt : ofWords ws<2^dist := (ofWords_lt ws).trans_le (Nat.pow_le_pow_right (by decide) (by omega))
      rw [hw.1,List.drop_length,List.take_length,jam,Nat.div_eq_of_lt hlt,Nat.mod_eq_of_lt hlt]
      split <;> simp [ofWords,jam]
  rw [hjam,softfloatShiftRightJamM,hdist,hn,any_ne_zero]
  simp only [decide_eq_true_eq,ne_eq,ite_not]
  split
  · rw [ofWords_append,ofWords_zeros,Nat.mul_zero,Nat.add_zero]
    simpa only [ne_eq,ite_not] using hmoved
  · rename_i h
    have hne : n≠0 := by
      rintro rfl
      exact h rfl
    rw [ofWords_or_one,ofWords_append,ofWords_zeros,Nat.mul_zero,Nat.add_zero]
    · congr 1
      simpa only [ne_eq,ite_not] using hmoved
    · intro hz
      have := (List.append_eq_nil_iff.mp hz).2
      rw [List.replicate_eq_nil_iff] at this
      exact hne this

theorem shortShiftRightJamLoop_length (dist : ℕ) (p : BitVec 32) (ws : List (BitVec 32)) :
    (shortShiftRightJamLoop dist p ws).length=ws.length+1 := by
  induction ws generalizing p with
  | nil => rfl
  | cons w ws ih => rw [shortShiftRightJamLoop,List.length_cons,ih,List.length_cons]

theorem shortShiftRightJamM_length (ws : List (BitVec 32)) (dist : ℕ) :
    (softfloatShortShiftRightJamM ws dist).length=ws.length := by
  cases ws with
  | nil => rfl
  | cons w ws => exact shortShiftRightJamLoop_length _ _ _

theorem shiftRightJamM_length (ws : List (BitVec 32)) (dist : ℕ) :
    (softfloatShiftRightJamM ws dist).length=ws.length := by
  have hmoved : ∀ n,(if dist%32≠0 then softfloatShortShiftRightJamM (ws.drop n) (dist%32) else ws.drop n).length=
      ws.length-n := by
    intro n
    split
    · rw [shortShiftRightJamM_length,List.length_drop]
    · exact List.length_drop
  unfold softfloatShiftRightJamM
  dsimp only
  split
  · rw [List.length_modifyHead,List.length_append,hmoved,List.length_replicate]
    omega
  · rw [List.length_append,hmoved,List.length_replicate]
    omega

end Shift
end OpenSBI
