import OpenSBI.Pmp.Match

namespace OpenSBI

variable {x : Xlen}

/-- The loop of `ctz()`. -/
def ctzLoop (v : Word x) (ret : Nat) : Nat → Nat
  | 0 => ret
  | fuel+1 => if v &&& 1=0 then ctzLoop (v >>> 1) (ret+1) fuel else ret

/-- `ctz()`; on a word that is not zero the loop makes fewer than `__riscv_xlen` rounds. -/
def ctz (v : Word x) : Nat := if v=0 then x.bits else ctzLoop v 0 x.bits

/-- The variables behind the pointer arguments of `pmp_get()`. -/
structure PmpOut (x : Xlen) where
  prot : Word x
  addr : Word x
  log2len : Nat
  deriving DecidableEq

/-- The address part of `pmp_get()`, from the two registers of an entry. -/
def pmpDecode (prot pmpaddr : Word x) : Word x×Nat :=
  if prot &&& PMP_A=PMP_A_NAPOT then
    if pmpaddr=Word.max then (0,x.bits)
    else
      let t1 := ctz (~~~pmpaddr)
      (Word.shl (pmpaddr &&& ~~~(Word.bit t1-1)) PMP_SHIFT,t1+PMP_SHIFT+1)
  else (Word.shl pmpaddr PMP_SHIFT,PMP_SHIFT)

/-- `pmp_get()`; `out` holds what the pointers point to before, `none` is the panic of an unknown
CSR number. -/
def pmpGet (csrs : Csrs x) (n : Nat) (out : PmpOut x) : Option (Int×PmpOut x) :=
  if PMP_COUNT≤n then some (SBI_EINVAL,out)
  else do
    let cfg ← csrReadNum csrs (pmpcfgCsr x n)
    let pmpcfg := cfg &&& Word.shl 0xff (pmpcfgShift x n)
    let prot := Word.shr pmpcfg (pmpcfgShift x n)
    let pmpaddr ← csrReadNum csrs (CSR_PMPADDR0+n)
    let d := pmpDecode prot pmpaddr
    some (SBI_OK,⟨prot,d.1,d.2⟩)

theorem ctzLoop_eq {v : Word x} {k ret fuel : Nat} (hk : k<fuel)
    (hlow : ∀ i<k,v.getLsbD i=false) (hbit : v.getLsbD k=true) : ctzLoop v ret fuel=ret+k := by
  have hone : (Word.bit 0 : Word x)=1 := by cases x <;> rfl
  induction fuel generalizing v ret k with
  | zero => omega
  | succ fuel ih =>
    have htest : v &&& 1=0 ↔ v.getLsbD 0=false := by
      have := Word.and_bit_ne_zero x.bits_pos v
      rw [hone] at this
      rw [← Bool.not_eq_true,← this,not_not]
    rw [ctzLoop]
    cases k with
    | zero => rw [if_neg (by rw [htest,hbit]; decide),Nat.add_zero]
    | succ k =>
      have hlow' : ∀ i<k,(v >>> 1).getLsbD i=false := by
        intro i hi
        rw [BitVec.getLsbD_ushiftRight]
        exact hlow (1+i) (by omega)
      have hbit' : (v >>> 1).getLsbD k=true := by
        rwa [BitVec.getLsbD_ushiftRight,Nat.add_comm]
      rw [if_pos (htest.mpr (hlow 0 (Nat.succ_pos k))),ih (by omega) hlow' hbit']
      omega

/-- `ctz()` is the position of the lowest set bit. -/
theorem ctz_eq {v : Word x} {k : Nat} (hlow : ∀ i<k,v.getLsbD i=false)
    (hbit : v.getLsbD k=true) : ctz v=k := by
  have hv : v≠0 := by
    rintro rfl
    simp at hbit
  rw [ctz,if_neg hv,ctzLoop_eq (BitVec.lt_of_getLsbD hbit) hlow hbit,Nat.zero_add]

/-- Cutting the byte of an entry out of its register. -/
theorem pmpcfg_shr (csrs : Csrs x) (n : Nat) :
    Word.shr (csrs (pmpcfgReg x n) &&& Word.shl 0xff (8*pmpcfgByte x n)) (8*pmpcfgByte x n)=
      (pmpcfg csrs n).setWidth x.bits := by
  have hk := pmpcfgByte_le (x := x) n
  have hs : 8*pmpcfgByte x n%x.bits=8*pmpcfgByte x n := Nat.mod_eq_of_lt (by omega)
  apply BitVec.eq_of_getLsbD_eq
  intro i hi
  simp only [pmpcfg,Word.shr,Word.shl,hs,BitVec.getLsbD_ushiftRight,BitVec.getLsbD_and,
    BitVec.getLsbD_shiftLeft,getLsbD_ff,BitVec.getLsbD_setWidth,BitVec.getLsbD_extractLsb']
  by_cases h8 : i<8
  · have hlt : 8*pmpcfgByte x n+i<x.bits := by omega
    simp [h8,hi,hlt]
  · simp [h8]

/-- What `pmp_get()` returns depends on the two registers of its entry only. -/
theorem pmpGet_eq (csrs : Csrs x) {n : Nat} (hn : n<PMP_COUNT) (out : PmpOut x) :
    pmpGet csrs n out=some (SBI_OK,⟨(pmpcfg csrs n).setWidth x.bits,
      (pmpDecode ((pmpcfg csrs n).setWidth x.bits) (pmpaddr csrs n)).1,
      (pmpDecode ((pmpcfg csrs n).setWidth x.bits) (pmpaddr csrs n)).2⟩) := by
  have hr := pmpcfgReg_range (x := x) hn
  have hc := csrKnown_pmpcfg (x := x) hr.1 hr.2
  have ha : csrKnown x (CSR_PMPADDR0+n)=true :=
    csrKnown_pmpaddr (Nat.le_add_right _ _) (Nat.add_lt_add_left hn _)
  rw [pmpGet,if_neg (by omega)]
  simp only [csrReadNum,pmpcfgCsr_eq,pmpcfgShift_eq,hc,ha,if_true]
  show some _=_
  rw [pmpcfg_shr]
  rfl

/-- The A field `pmp_set()` stores. -/
theorem pmpProt_a (prot : Word x) (log2len : Nat) :
    pmpProt prot log2len &&& PMP_A=if log2len=PMP_SHIFT then PMP_A_NA4 else PMP_A_NAPOT := by
  have h4 : (PMP_A_NA4 &&& PMP_A : Word x)=PMP_A_NA4 := by cases x <;> rfl
  have hn : (PMP_A_NAPOT &&& PMP_A : Word x)=PMP_A_NAPOT := by cases x <;> rfl
  have hclear : prot &&& ~~~PMP_A &&& PMP_A=0 := by
    rw [BitVec.and_assoc,BitVec.and_comm (~~~PMP_A),BitVec.and_not_self]
    exact BitVec.and_zero
  unfold pmpProt
  rw [BitVec.and_comm,BitVec.and_or_distrib_left,BitVec.and_comm,hclear,BitVec.and_comm]
  split_ifs
  · rw [h4]
    exact BitVec.zero_or
  · rw [hn]
    exact BitVec.zero_or

theorem pmpProt_lt {prot : Word x} (h : prot.toNat<2^8) (log2len : Nat) :
    (pmpProt prot log2len).toNat<2^8 := by
  have h4 : (PMP_A_NA4 : Word x).toNat<2^8 := by cases x <;> decide
  have hn : (PMP_A_NAPOT : Word x).toNat<2^8 := by cases x <;> decide
  rw [pmpProt,BitVec.toNat_or,BitVec.toNat_and]
  refine Nat.or_lt_two_pow (Nat.lt_of_le_of_lt Nat.and_le_left h) ?_
  split_ifs <;> assumption

/-- The size is read off the trailing ones of a NAPOT address. -/
theorem ctz_napot {p : Word x} {k q : Nat} (hk : k<x.bits) (hp : p.toNat=2^(k+1)*q+(2^k-1)) :
    ctz (~~~p)=k := by
  have hpos : 0<2^k := Nat.two_pow_pos k
  have hlt : 2^k-1<2^(k+1) := by rw [Nat.pow_succ]; omega
  have hbit : ∀ i≤k,p.getLsbD i=decide (i<k) := by
    intro i hi
    rw [BitVec.getLsbD,hp,Nat.testBit_two_pow_mul_add q hlt,if_pos (by omega),
      Nat.testBit_two_pow_sub_one]
  refine ctz_eq (fun i hi => ?_) ?_
  · rw [BitVec.getLsbD_not,hbit i hi.le]
    simp [hi]
  · rw [BitVec.getLsbD_not,hbit k (le_refl k)]
    simp [hk]

/-- The address register of a block is decoded to the block. -/
theorem pmpDecode_encode {addr prot : Word x} {log2len : Nat} (h2 : PMP_SHIFT≤log2len)
    (hx : log2len≤x.bits) (hd : 2^log2len∣addr.toNat) :
    pmpDecode (pmpProt prot log2len) (pmpEncode addr log2len)=(addr,log2len) := by
  have hb := x.bits_ge
  have hmode : (PMP_A_NA4 : Word x)≠PMP_A_NAPOT := by cases x <;> decide
  have hshl : ∀ a : Word x,a.toNat*4<2^x.bits → (Word.shl a PMP_SHIFT).toNat=a.toNat*4 := by
    intro a ha
    rw [Word.shl,Nat.mod_eq_of_lt (by unfold PMP_SHIFT; omega),BitVec.toNat_shiftLeft,
      Nat.shiftLeft_eq]
    exact Nat.mod_eq_of_lt ha
  have hfour : addr.toNat/4*4=addr.toNat :=
    Nat.div_mul_cancel ((Nat.pow_dvd_pow 2 h2).trans hd)
  have hlt := addr.isLt
  unfold pmpDecode
  rw [pmpProt_a]
  by_cases he : log2len=PMP_SHIFT
  · have hpage : (Word.shr addr PMP_SHIFT).toNat=addr.toNat/4 :=
      Word.toNat_shr addr (by unfold PMP_SHIFT; omega)
    rw [if_pos he,if_neg hmode,pmpEncode,if_pos he,he]
    congr 1
    apply BitVec.eq_of_toNat_eq
    rw [hshl _ (by rw [hpage]; omega),hpage,hfour]
  rw [if_neg he,if_pos rfl]
  rcases Nat.lt_or_eq_of_le hx with hlx | rfl
  · obtain ⟨k,rfl⟩ : ∃ k,log2len=k+3 := ⟨log2len-3,by unfold PMP_SHIFT at *; omega⟩
    obtain ⟨q,hq⟩ := hd
    have henc := toNat_pmpEncode_napot hlx hq
    have hk : k<x.bits := by omega
    have hctz := ctz_napot hk henc
    have hpos : 0<2^k := Nat.two_pow_pos k
    have hnot : pmpEncode addr (k+3)≠Word.max := by
      intro hm
      have hones : (~~~(Word.max : Word x))=0 := by cases x <;> rfl
      rw [hm,hones,ctz,if_pos rfl] at hctz
      omega
    rw [if_neg hnot,hctz]
    have hround : (pmpEncode addr (k+3) &&& ~~~(Word.bit k-1)).toNat=2^(k+1)*q := by
      have hsplit : 2^(k+1)*q+(2^k-1)=2^k*(2*q)+(2^k-1) := by ring_nf
      rw [Word.toNat_clearLow _ hk,henc,hsplit,Nat.mul_add_div hpos,
        Nat.div_eq_of_lt (by omega : 2^k-1<2^k)]
      ring
    have hfull : 2^(k+1)*q*4=addr.toNat := by rw [hq]; ring
    refine Prod.ext (BitVec.eq_of_toNat_eq ?_) rfl
    rw [hshl _ (by rw [hround,hfull]; exact hlt),hround,hfull]
  · have hne : ¬x.bits=PMP_SHIFT := he
    have hmax : pmpEncode addr x.bits=Word.max := by rw [pmpEncode,if_neg hne,if_pos rfl]
    have hzero : addr.toNat=0 := Nat.eq_zero_of_dvd_of_lt hd hlt
    rw [if_pos hmax]
    refine Prod.ext (BitVec.eq_of_toNat_eq ?_) rfl
    rw [hzero]
    cases x <;> rfl

/-- After `pmp_set()` an entry reads back as the block it was set to, with the A field of its size,
and every other entry reads as before. -/
theorem pmpGet_pmpSet (csrs : Csrs x) {n log2len : Nat} (prot addr : Word x) (hn : n<PMP_COUNT)
    (hprot : prot.toNat<2^8) (h2 : PMP_SHIFT≤log2len) (hx : log2len≤x.bits)
    (hd : 2^log2len∣addr.toNat) :
    ∃ csrs',pmpSet csrs n prot addr log2len=some (SBI_OK,csrs') ∧
      (∀ out,pmpGet csrs' n out=some (SBI_OK,⟨(prot &&& ~~~PMP_A) |||
        (if log2len=PMP_SHIFT then PMP_A_NA4 else PMP_A_NAPOT),addr,log2len⟩)) ∧
      ∀ j,j≠n → ∀ out,pmpGet csrs' j out=pmpGet csrs j out := by
  obtain ⟨csrs',hset,hentry,hother⟩ := pmpSet_spec csrs prot addr hn h2 hx
  have hwide : ((pmpProt prot log2len).setWidth 8).setWidth x.bits=pmpProt prot log2len := by
    apply BitVec.eq_of_toNat_eq
    have hlt := pmpProt_lt hprot log2len
    rw [BitVec.toNat_setWidth,BitVec.toNat_setWidth,Nat.mod_eq_of_lt hlt,
      Nat.mod_eq_of_lt (pmpProt prot log2len).isLt]
  refine ⟨csrs',hset,fun out => ?_,fun j hj out => ?_⟩
  · rw [pmpGet_eq csrs' hn,hentry.cfg,hentry.addr,hwide,pmpDecode_encode h2 hx hd]
    rfl
  · rcases Nat.lt_or_ge j PMP_COUNT with hlt | hge
    · obtain ⟨hc,ha⟩ := hother j hlt hj
      rw [pmpGet_eq csrs' hlt,pmpGet_eq csrs hlt,hc,ha]
    · rw [pmpGet,pmpGet,if_pos hge,if_pos hge]

/-- The firmware region of a small board in entry 5. -/
theorem pmpGet_pmpSet_firmware :
    ∃ csrs',pmpSet (fun _ => 0 : Csrs .rv64) 5 (PMP_R ||| PMP_X) 0x80000000 17=some (SBI_OK,csrs') ∧
      ∀ out,pmpGet csrs' 5 out=some (SBI_OK,⟨0x1d,0x80000000,17⟩) := by
  obtain ⟨csrs',hset,hget,-⟩ := pmpGet_pmpSet (fun _ => 0 : Csrs .rv64) (PMP_R ||| PMP_X) 0x80000000
    (show 5<PMP_COUNT by decide) (by decide) (show PMP_SHIFT≤17 by decide) (by decide) (by decide)
  exact ⟨csrs',hset,hget⟩

end OpenSBI
