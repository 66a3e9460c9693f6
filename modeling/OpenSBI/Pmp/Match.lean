import OpenSBI.Pmp.Set

namespace OpenSBI

open Math

variable {x : Xlen}

private theorem toNat_shr_two (a : Word x) : (a >>> 2).toNat=a.toNat/4 := by
  rw [BitVec.toNat_ushiftRight,Nat.shiftRight_eq_div_pow]

/-- The NAPOT form of a block: its page number, a zero and `k` ones below it. -/
theorem toNat_pmpEncode_napot {addr : Word x} {k q : Nat} (hk : k+3<x.bits)
    (ha : addr.toNat=2^(k+3)*q) : (pmpEncode addr (k+3)).toNat=2^(k+1)*q+(2^k-1) := by
  have hsplit : 2^(k+3)=4*2^(k+1) := by ring
  have hdouble : 2^(k+1)=2^k*2 := by ring
  have hpos : 0<2^k := Nat.two_pow_pos k
  have hmask : (Word.bit (k+1)-1 : Word x).toNat=2^(k+1)-1 := Word.toNat_bit_sub_one (by omega)
  have hpage : (Word.shr addr 2).toNat=2^(k+1)*q := by
    rw [Word.toNat_shr addr (by omega),ha,hsplit,Nat.mul_assoc]
    exact Nat.mul_div_cancel_left _ (by decide)
  have htail : (Word.shr (Word.bit (k+1)-1 : Word x) 1).toNat=2^k-1 := by
    rw [Word.toNat_shr _ (by omega),hmask]
    omega
  -- clearing the size bits changes nothing: the page number is a multiple of the block
  have hclear : Word.shr addr 2 &&& ~~~(Word.bit (k+1)-1 : Word x)=Word.shr addr 2 := by
    apply BitVec.eq_of_getLsbD_eq
    intro j hj
    rw [BitVec.getLsbD_and,BitVec.getLsbD_not,BitVec.getLsbD,BitVec.getLsbD,hmask,hpage,
      Nat.testBit_two_pow_sub_one]
    by_cases hjk : j<k+1
    · have := Nat.testBit_two_pow_mul_add q (Nat.two_pow_pos (k+1)) j
      simp only [Nat.add_zero,hjk,if_true,Nat.zero_testBit] at this
      simp [this]
    · simp [hjk,hj]
  have hfull : ¬k+3=x.bits := by omega
  rw [pmpEncode,if_neg (show ¬k+3=PMP_SHIFT by simp [PMP_SHIFT]),if_neg hfull]
  show ((Word.shr addr 2 &&& ~~~(Word.bit (k+1)-1 : Word x)) |||
    Word.shr (Word.bit (k+1)-1) 1).toNat=_
  rw [hclear,BitVec.toNat_or,hpage,htail]
  exact (Nat.two_pow_add_eq_or_of_lt (by omega) q).symm

/-- The size bits of a NAPOT address register. -/
theorem napotTail_of_toNat {p : Word x} {k q : Nat} (hp : p.toNat=2^(k+1)*q+(2^k-1))
    (hx : 2^(k+1)*q+2^k<2^x.bits) : (napotTail p).toNat=2^(k+1)-1 := by
  have hpos : 0<2^k := Nat.two_pow_pos k
  have h1 : (1 : Word x).toNat=1 := by cases x <;> rfl
  have hs : (p+1).toNat=2^(k+1)*q+2^k := by
    rw [BitVec.toNat_add,hp,h1,Nat.mod_eq_of_lt (by omega)]
    omega
  rw [napotTail,BitVec.toNat_xor,hs,hp,xor_succ_tail]

/-- Two words agree outside `k` low mask bits exactly when their quotients agree. -/
theorem and_not_mask_eq_iff {a b m : Word x} {k : Nat} (hm : m.toNat=2^k-1) :
    a &&& ~~~m=b &&& ~~~m ↔ a.toNat/2^k=b.toNat/2^k := by
  rw [← testBit_above_iff_div]
  have hbit : ∀ j,m.getLsbD j=decide (j<k) := by
    intro j
    rw [BitVec.getLsbD,hm,Nat.testBit_two_pow_sub_one]
  constructor
  · intro h j hj
    by_cases hjx : j<x.bits
    · have hb := congrArg (fun w => w.getLsbD j) h
      simp only [BitVec.getLsbD_and,BitVec.getLsbD_not,hbit,hjx,Nat.not_lt.mpr hj,decide_true,
        decide_false,Bool.not_false,Bool.and_true] at hb
      exact hb
    · have hge := Nat.le_of_not_lt hjx
      rw [Nat.testBit_lt_two_pow (Nat.lt_of_lt_of_le a.isLt (Nat.pow_le_pow_right (by decide) hge)),
        Nat.testBit_lt_two_pow (Nat.lt_of_lt_of_le b.isLt (Nat.pow_le_pow_right (by decide) hge))]
  · intro h
    apply BitVec.eq_of_getLsbD_eq
    intro j hjx
    simp only [BitVec.getLsbD_and,BitVec.getLsbD_not,hbit,hjx,decide_true,Bool.true_and]
    by_cases hj : j<k
    · simp [hj]
    · simp only [hj,decide_false,Bool.not_false,Bool.and_true]
      exact h j (Nat.le_of_not_lt hj)

namespace PmpEntry

variable {csrs : Csrs x} {n log2len : Nat} {prot addr : Word x}

/-- A programmed entry matches the addresses of its block and no others. -/
theorem match_iff (h : PmpEntry csrs n prot addr log2len) (h2 : PMP_SHIFT≤log2len)
    (hx : log2len<x.bits) (hd : 2^log2len∣addr.toNat) (a : Word x) :
    pmpMatch csrs a n=true ↔ InBlock addr.toNat log2len a.toNat := by
  rw [inBlock_iff_div hd,pmpMatch,h.cfg,h.addr,pmpProt_mode]
  by_cases he : log2len=PMP_SHIFT
  · subst he
    have h2x : (2 : Nat)<x.bits := hx
    simp only [if_true,decide_eq_true_iff]
    rw [pmpEncode,if_pos rfl,BitVec.toNat_eq,toNat_shr_two,PMP_SHIFT,Word.toNat_shr addr h2x]
    exact Iff.rfl
  · obtain ⟨k,rfl⟩ : ∃ k,log2len=k+3 := ⟨log2len-3,by unfold PMP_SHIFT at *; omega⟩
    obtain ⟨q,hq⟩ := hd
    have henc := toNat_pmpEncode_napot hx hq
    have hsplit : 2^(k+3)=4*2^(k+1) := by ring
    have hpos : 0<2^(k+3) := Nat.two_pow_pos _
    have hroom : 2^(k+1)*q+2^k<2^x.bits := by
      have hlt := addr.isLt
      have hk : 2^k<2^(x.bits-1) := Nat.pow_lt_pow_right (by decide) (by omega)
      have hb : 2^x.bits=2*2^(x.bits-1) := by
        rw [← Nat.pow_succ']; congr 1; have := x.bits_pos; omega
      rw [hq,hsplit,Nat.mul_assoc] at hlt
      omega
    simp only [he,if_false,decide_eq_true_iff]
    rw [and_not_mask_eq_iff (napotTail_of_toNat henc hroom),henc,toNat_shr_two,hq,
      Nat.mul_div_cancel_left q hpos,Nat.div_div_eq_div_mul,← hsplit,
      Nat.mul_add_div (Nat.two_pow_pos _),Nat.div_eq_of_lt (by omega : 2^k-1<2^(k+1))]
    exact Iff.rfl

/-- The entry of a region as large as the address space matches every address. -/
theorem match_full (h : PmpEntry csrs n prot addr x.bits) (a : Word x) :
    pmpMatch csrs a n=true := by
  have hne : ¬x.bits=PMP_SHIFT := by have := x.bits_ge; unfold PMP_SHIFT; omega
  have hmax : (Word.max : Word x)+1=0 := by cases x <;> rfl
  rw [pmpMatch,h.cfg,h.addr,pmpProt_mode]
  simp only [pmpEncode,hne,if_false,if_true,napotTail,hmax]
  simp [Word.max]

/-- The permissions of a programmed entry. -/
theorem permits (h : PmpEntry csrs n prot addr log2len) (acc : Access) :
    pmpPermits (pmpcfg csrs n) acc=prot.getLsbD acc.bit := by
  rw [h.cfg,pmpProt_permits]

end PmpEntry
end OpenSBI
