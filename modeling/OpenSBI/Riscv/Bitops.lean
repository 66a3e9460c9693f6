import OpenSBI.Riscv.Xlen

namespace OpenSBI

variable {x : Xlen}

/-- `__fls()`; its shifts make it 0 on the word 0. -/
def fls (word : Word x) : Nat := Nat.log2 word.toNat

/-- The halvings of `__ffs()`: each passes over `k` clear bits. -/
def ffsSteps : List Nat → Word x → Nat → Nat
  | [],_,num => num
  | k::rest,word,num =>
    if word &&& (Word.bit k-1)=0 then ffsSteps rest (Word.shr word k) (num+k) else ffsSteps rest word num

/-- `__ffs()`. -/
def ffs (word : Word x) : Nat :=
  ffsSteps (match x with | .rv32 => [16,8,4,2,1] | .rv64 => [32,16,8,4,2,1]) word 0

/-- The bits that `for_each_set_bit_from()` visits: those of the first `size` from `first` on. -/
def setBitsFrom (bit : Nat → Bool) (first size : Nat) : List Nat :=
  (List.range size).filter fun i => decide (first ≤ i) && bit i

/-- Bit `i` of the memory at a local word; from the width on it belongs to the word `behind`. -/
def bitAt (word behind : Word x) (i : Nat) : Bool :=
  if i<x.bits then word.getLsbD i else behind.getLsbD (i-x.bits)

/-- A flag of a `flags` argument. -/
def hasFlag (flags flag : Word x) : Bool := decide (flags &&& flag≠0)

theorem mem_setBitsFrom {bit : Nat → Bool} {first size i : Nat} :
    i∈setBitsFrom bit first size ↔ i < size ∧ first ≤ i ∧ bit i=true := by
  simp [setBitsFrom]

theorem Word.getLsbD_shl {n i : Nat} (a : Word x) (hn : n ≤ i) (hi : i<x.bits) :
    (Word.shl a n).getLsbD i=a.getLsbD (i-n) := by
  rw [Word.shl,Nat.mod_eq_of_lt (hn.trans_lt hi),BitVec.getLsbD_shiftLeft]
  simp [hi,Nat.not_lt.mpr hn]

theorem Word.and_low_eq_zero_iff {k : Nat} (hk : k<x.bits) (a : Word x) :
    a &&& (Word.bit k-1)=0 ↔ ∀ i<k,a.getLsbD i=false := by
  constructor
  · intro h i hi
    have hb := congrArg (fun u : Word x => u.getLsbD i) h
    rw [BitVec.getLsbD_and,Word.getLsbD_bit_sub_one hk,decide_eq_true hi,Bool.and_true] at hb
    rw [hb]
    exact BitVec.getLsbD_zero
  · intro h
    apply BitVec.eq_of_getLsbD_eq
    intro i _
    rw [BitVec.getLsbD_and,Word.getLsbD_bit_sub_one hk]
    by_cases hi : i<k
    · simp [h i hi]
    · simp [hi]

/-- A bit found, `ffsSteps` of the powers of two below `2^n` in falling order. -/
theorem ffsSteps_eq {v : Word x} {n g num : Nat} (hn : 2^n≤x.bits) (hg : g<2^n)
    (hlow : ∀ i<g,v.getLsbD i=false) (hbit : v.getLsbD g=true) :
    ffsSteps ((List.range n).reverse.map (2^·)) v num=num+g := by
  induction n generalizing v g num with
  | zero =>
    have hz : g=0 := by simpa using hg
    rw [hz]
    rfl
  | succ n ih =>
    have hp : 2^(n+1)=2*2^n := by rw [pow_succ,Nat.mul_comm]
    have hpos := Nat.two_pow_pos n
    rw [List.range_succ,List.reverse_append,List.map_append]
    show ffsSteps (2^n::(List.range n).reverse.map (2^·)) v num=num+g
    have hk : 2^n<x.bits := by omega
    have htest := Word.and_low_eq_zero_iff hk v
    rw [ffsSteps]
    by_cases hle : 2^n≤g
    · have hshr : ∀ i,(Word.shr v (2^n)).getLsbD i=v.getLsbD (2^n+i) := by
        intro i
        rw [Word.shr,Nat.mod_eq_of_lt hk,BitVec.getLsbD_ushiftRight]
      rw [if_pos (htest.mpr fun i hi => hlow i (hi.trans_le hle)),ih (g := g-2^n) (by omega) (by omega)]
      · omega
      · intro i hi
        rw [hshr]
        exact hlow _ (by omega)
      · rw [hshr,Nat.add_sub_cancel' hle]
        exact hbit
    · have hlt := not_le.mp hle
      rw [if_neg (fun h => Bool.false_ne_true ((htest.mp h g hlt).symm.trans hbit)),ih (by omega) hlt hlow hbit]

/-- `__ffs()` is the position of the lowest set bit. -/
theorem ffs_eq {v : Word x} {g : Nat} (hlow : ∀ i<g,v.getLsbD i=false) (hbit : v.getLsbD g=true) :
    ffs v=g := by
  have hg : g<x.bits := BitVec.lt_of_getLsbD hbit
  cases x with
  | rv32 => exact (ffsSteps_eq (n := 5) (by decide) hg hlow hbit).trans (Nat.zero_add g)
  | rv64 => exact (ffsSteps_eq (n := 6) (by decide) hg hlow hbit).trans (Nat.zero_add g)

theorem Word.exists_bit {a : Word x} (h : a≠0) : ∃ i,a.getLsbD i=true := by
  by_contra hn
  push Not at hn
  refine h (BitVec.eq_of_getLsbD_eq fun i _ => ?_)
  simpa using hn i

/-- The lowest bit of a word. -/
theorem ffs_spec {a : Word x} (h : a≠0) : a.getLsbD (ffs a)=true ∧ ∀ i<ffs a,a.getLsbD i=false := by
  have hex := Word.exists_bit h
  have hlow : ∀ i<Nat.find hex,a.getLsbD i=false := fun i hi => by simpa using Nat.find_min hex hi
  rw [ffs_eq hlow (Nat.find_spec hex)]
  exact ⟨Nat.find_spec hex,hlow⟩

end OpenSBI
