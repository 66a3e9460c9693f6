import OpenSBI.Riscv.Xlen
import Mathlib.Logic.Function.Basic

namespace OpenSBI

/-- A character constant. -/
def chr (c : Char) : BitVec 8 := BitVec.ofNat 8 c.toNat

/-- The characters of a C string in front of its end. -/
def cstr (s : String) : List (BitVec 8) := s.toList.map fun c => BitVec.ofNat 8 c.toNat

/-- Memory, byte by byte; addresses wrap at the width. -/
abbrev Mem (x : Xlen) := Word x → BitVec 8

/-- `__SIZEOF_POINTER__`. -/
def sizeofPointer (x : Xlen) : Nat := x.bits/8

variable {x : Xlen}

/-- The address `n` bytes on. -/
def offsetPtr (p : Word x) (n : Nat) : Word x := p+BitVec.ofNat x.bits n

/-- `sbi_memset()`. -/
def sbiMemset (mem : Mem x) (s : Word x) (c : BitVec 8) : Nat → Mem x
  | 0 => mem
  | count+1 => sbiMemset (Function.update mem s c) (s+1) c count

/-- `sbi_memcpy()`: each byte is read from what the ones before it left. -/
def sbiMemcpy (mem : Mem x) (dest src : Word x) : Nat → Mem x
  | 0 => mem
  | count+1 => sbiMemcpy (Function.update mem dest (mem src)) (dest+1) (src+1) count

@[simp] theorem offsetPtr_zero (p : Word x) : offsetPtr p 0=p := by simp [offsetPtr]

theorem offsetPtr_succ (p : Word x) (n : Nat) : offsetPtr p (n+1)=offsetPtr (p+1) n := by
  rw [offsetPtr,Nat.add_comm n 1,BitVec.ofNat_add,← BitVec.add_assoc]
  rfl

theorem offsetPtr_add (p : Word x) (m n : Nat) : offsetPtr (offsetPtr p m) n=offsetPtr p (m+n) := by
  rw [offsetPtr,offsetPtr,offsetPtr,BitVec.add_assoc,BitVec.ofNat_add]

/-- What the loop leaves outside its range stays. -/
theorem sbiMemset_of_ne (mem : Mem x) (s : Word x) (c : BitVec 8) (count : Nat) {a : Word x}
    (h : ∀ j<count,a≠offsetPtr s j) : sbiMemset mem s c count a=mem a := by
  induction count generalizing mem s with
  | zero => rfl
  | succ n ih =>
    rw [sbiMemset,ih _ _ fun j hj => by rw [← offsetPtr_succ]; exact h (j+1) (by omega)]
    have h0 := h 0 n.succ_pos
    rw [offsetPtr_zero] at h0
    rw [Function.update_of_ne h0]

/-- A byte that holds the value keeps it. -/
theorem sbiMemset_keeps (mem : Mem x) (s : Word x) (c : BitVec 8) (count : Nat) {a : Word x}
    (h : mem a=c) : sbiMemset mem s c count a=c := by
  induction count generalizing mem s with
  | zero => exact h
  | succ n ih =>
    rw [sbiMemset]
    apply ih
    by_cases ha : a=s
    · rw [ha,Function.update_self]
    · rw [Function.update_of_ne ha,h]

theorem sbiMemset_at (mem : Mem x) (s : Word x) (c : BitVec 8) {count j : Nat} (h : j<count) :
    sbiMemset mem s c count (offsetPtr s j)=c := by
  induction count generalizing mem s j with
  | zero => exact absurd h (Nat.not_lt_zero j)
  | succ n ih =>
    rw [sbiMemset]
    cases j with
    | zero =>
      rw [offsetPtr_zero]
      exact sbiMemset_keeps _ _ _ _ (Function.update_self s c mem)
    | succ k =>
      rw [offsetPtr_succ]
      exact ih _ _ (by omega)

/-! ## Ranges of memory -/

theorem offsetPtr_inj (p : Word x) {m n : Nat} (hm : m<2^x.bits) (hn : n<2^x.bits)
    (h : offsetPtr p m=offsetPtr p n) : m=n := by
  have hadd := BitVec.add_right_inj p |>.mp h
  have hnat := congrArg BitVec.toNat hadd
  rwa [BitVec.toNat_ofNat,BitVec.toNat_ofNat,Nat.mod_eq_of_lt hm,Nat.mod_eq_of_lt hn] at hnat

theorem offsetPtr_sub (p a : Word x) : offsetPtr p (a-p).toNat=a := by
  rw [offsetPtr,BitVec.ofNat_toNat,BitVec.setWidth_eq]
  exact add_sub_cancel p a

theorem sub_offsetPtr (p : Word x) {n : Nat} (h : n<2^x.bits) : (offsetPtr p n-p).toNat=n := by
  rw [offsetPtr,add_sub_cancel_left,BitVec.toNat_ofNat,Nat.mod_eq_of_lt h]

/-- The addresses of `n` bytes from `p` on. -/
def InRange (p : Word x) (n : Nat) (a : Word x) : Prop := ∃ j<n,a=offsetPtr p j

/-- `n` bytes from `p` on and `m` bytes from `q` on have no byte in common. -/
def RangesApart (p : Word x) (n : Nat) (q : Word x) (m : Nat) : Prop :=
  ∀ i<n,∀ j < m,offsetPtr p i≠offsetPtr q j

instance (p : Word x) (n : Nat) (a : Word x) : Decidable (InRange p n a) :=
  inferInstanceAs (Decidable (∃ j<n,a=offsetPtr p j))

instance (p : Word x) (n : Nat) (q : Word x) (m : Nat) : Decidable (RangesApart p n q m) :=
  inferInstanceAs (Decidable (∀ i<n,∀ j < m,offsetPtr p i≠offsetPtr q j))

theorem RangesApart.symm {p q : Word x} {n m : Nat} (h : RangesApart p n q m) : RangesApart q m p n :=
  fun j hj i hi heq => h i hi j hj heq.symm

/-- The bytes of a range. -/
def loadBytes (mem : Mem x) (p : Word x) (n : Nat) : List (BitVec 8) :=
  (List.range n).map fun j => mem (offsetPtr p j)

/-- Memory with the given bytes from `p` on. -/
def storeBytes (mem : Mem x) (p : Word x) (bytes : List (BitVec 8)) : Mem x :=
  fun a => (bytes[(a-p).toNat]?).getD (mem a)

@[simp] theorem length_loadBytes (mem : Mem x) (p : Word x) (n : Nat) : (loadBytes mem p n).length=n := by
  simp [loadBytes]

theorem loadBytes_congr {mem mem' : Mem x} {p : Word x} {n : Nat}
    (h : ∀ a,InRange p n a → mem' a=mem a) : loadBytes mem' p n=loadBytes mem p n :=
  List.map_congr_left fun j hj => h _ ⟨j,List.mem_range.mp hj,rfl⟩

theorem eq_of_loadBytes_eq {mem mem' : Mem x} {p a : Word x} {n : Nat}
    (h : loadBytes mem' p n=loadBytes mem p n) (ha : InRange p n a) : mem' a=mem a := by
  obtain ⟨j,hj,rfl⟩ := ha
  exact List.map_inj_left.mp h j (List.mem_range.mpr hj)

theorem storeBytes_congr {mem mem' : Mem x} {p a : Word x} (bytes : List (BitVec 8)) (h : mem' a=mem a) :
    storeBytes mem' p bytes a=storeBytes mem p bytes a := by
  rw [storeBytes,storeBytes,h]

theorem storeBytes_of_not (mem : Mem x) {p a : Word x} {bytes : List (BitVec 8)}
    (h : ¬InRange p bytes.length a) : storeBytes mem p bytes a=mem a := by
  rw [storeBytes,List.getElem?_eq_none]
  · rfl
  · by_contra hlt
    exact h ⟨_,not_le.mp hlt,(offsetPtr_sub p a).symm⟩

theorem loadBytes_storeBytes (mem : Mem x) (p : Word x) {bytes : List (BitVec 8)}
    (h : bytes.length ≤ 2^x.bits) : loadBytes (storeBytes mem p bytes) p bytes.length=bytes := by
  apply List.ext_getElem?
  intro j
  rcases Nat.lt_or_ge j bytes.length with hj | hj
  · rw [loadBytes,List.getElem?_map,List.getElem?_range hj,Option.map_some,storeBytes,
      sub_offsetPtr p (hj.trans_le h),List.getElem?_eq_getElem hj,Option.getD_some]
  · rw [List.getElem?_eq_none (by simpa using hj),List.getElem?_eq_none hj]

theorem sbiMemset_not (mem : Mem x) (s : Word x) (c : BitVec 8) (count : Nat) {a : Word x}
    (h : ¬InRange s count a) : sbiMemset mem s c count a=mem a :=
  sbiMemset_of_ne mem s c count fun j hj heq => h ⟨j,hj,heq⟩

/-- What the copy leaves outside its range stays. -/
theorem sbiMemcpy_of_ne (mem : Mem x) (dest src : Word x) (count : Nat) {a : Word x}
    (h : ∀ j<count,a≠offsetPtr dest j) : sbiMemcpy mem dest src count a=mem a := by
  induction count generalizing mem dest src with
  | zero => rfl
  | succ n ih =>
    rw [sbiMemcpy,ih _ _ _ fun j hj => by rw [← offsetPtr_succ]; exact h (j+1) (by omega)]
    have h0 := h 0 n.succ_pos
    rw [offsetPtr_zero] at h0
    rw [Function.update_of_ne h0]

/-- What is read later is not written before. -/
theorem sbiMemcpy_forward (mem : Mem x) {dest src : Word x} {count j : Nat} (hcount : count ≤ 2^x.bits)
    (hlater : ∀ k<count,∀ i<k,offsetPtr dest i≠offsetPtr src k) (h : j<count) :
    sbiMemcpy mem dest src count (offsetPtr dest j)=mem (offsetPtr src j) := by
  induction count generalizing mem dest src j with
  | zero => exact absurd h (Nat.not_lt_zero j)
  | succ n ih =>
    rw [sbiMemcpy]
    cases j with
    | zero =>
      rw [sbiMemcpy_of_ne,offsetPtr_zero,offsetPtr_zero,Function.update_self]
      intro k hk heq
      rw [← offsetPtr_succ] at heq
      exact absurd (offsetPtr_inj dest (by omega) (by omega) heq) (by omega)
    | succ k =>
      rw [offsetPtr_succ,offsetPtr_succ,ih _ (by omega) _ (by omega),Function.update_of_ne]
      · rw [← offsetPtr_succ]
        have hne := hlater (k+1) h 0 k.succ_pos
        rw [offsetPtr_zero] at hne
        exact hne.symm
      · intro m hm i hi
        rw [← offsetPtr_succ,← offsetPtr_succ]
        exact hlater (m+1) (by omega) (i+1) (by omega)

theorem sbiMemcpy_at (mem : Mem x) {dest src : Word x} {count j : Nat} (hcount : count ≤ 2^x.bits)
    (hapart : RangesApart dest count src count) (h : j<count) :
    sbiMemcpy mem dest src count (offsetPtr dest j)=mem (offsetPtr src j) :=
  sbiMemcpy_forward mem hcount (fun k hk i hi => hapart i (hi.trans hk) k hk) h

theorem storeBytes_nil (mem : Mem x) (p : Word x) : storeBytes mem p []=mem := rfl

theorem storeBytes_at (mem : Mem x) {p : Word x} {bytes : List (BitVec 8)} {j : Nat} (hj : j<2^x.bits) :
    storeBytes mem p bytes (offsetPtr p j)=(bytes[j]?).getD (mem (offsetPtr p j)) := by
  rw [storeBytes,sub_offsetPtr p hj]

/-- Memory whose only change is the copy of a range. -/
theorem eq_storeBytes_loadBytes {mem mem' : Mem x} {dest src : Word x} {n : Nat} (hn : n ≤ 2^x.bits)
    (hat : ∀ j<n,mem' (offsetPtr dest j)=mem (offsetPtr src j))
    (hnot : ∀ a,¬InRange dest n a → mem' a=mem a) : mem'=storeBytes mem dest (loadBytes mem src n) := by
  funext a
  by_cases ha : InRange dest n a
  · obtain ⟨j,hj,rfl⟩ := ha
    rw [hat j hj,storeBytes_at mem (by omega),loadBytes,List.getElem?_map,List.getElem?_range hj]
    rfl
  · rw [hnot a ha,storeBytes_of_not mem (by rwa [length_loadBytes])]

/-- A copy between ranges that are apart. -/
theorem sbiMemcpy_eq (mem : Mem x) {dest src : Word x} {count : Nat} (hcount : count ≤ 2^x.bits)
    (hapart : RangesApart dest count src count) :
    sbiMemcpy mem dest src count=storeBytes mem dest (loadBytes mem src count) := by
  apply eq_storeBytes_loadBytes hcount
  · intro j hj
    exact sbiMemcpy_at mem hcount hapart hj
  · intro a ha
    exact sbiMemcpy_of_ne mem dest src count fun j hj heq => ha ⟨j,hj,heq⟩

end OpenSBI
