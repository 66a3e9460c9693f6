import OpenSBI.Pmp.Configure

namespace OpenSBI

open Math

variable {x : Xlen}

/-- The flag of `sbi_domain_check_addr()` that asks for an access. -/
def Access.flag : Access → Word x
  | .read => SBI_DOMAIN_READ
  | .write => SBI_DOMAIN_WRITE
  | .execute => SBI_DOMAIN_EXECUTE

/-- The access flags of one access, with or without the MMIO flag. -/
def accessFlags (acc : Access) (mmio : Bool) : Word x :=
  acc.flag ||| (if mmio then SBI_DOMAIN_MMIO else 0)

theorem accessFlags_rwx (acc : Access) (mmio : Bool) :
    accessRwx (accessFlags acc mmio : Word x)=Word.bit acc.bit := by
  cases x <;> cases acc <;> cases mmio <;> decide

theorem accessFlags_mmio (acc : Access) (mmio : Bool) :
    decide ((accessFlags acc mmio : Word x) &&& SBI_DOMAIN_MMIO≠0)=mmio := by
  cases x <;> cases acc <;> cases mmio <;> decide

/-- The software view of one S- or U-mode access: the first region that contains the address
decides. -/
theorem sbiDomainCheckAddr_eq (dom : SbiDomain x) (a : Word x) {mode : Nat} (hm : mode≠PRV_M)
    (acc : Access) (mmio : Bool) :
    sbiDomainCheckAddr dom a mode (accessFlags acc mmio)=
      firstMatch dom.memregions (fun r => r.contains a)
        (fun r => decide (mmio=r.isMmio) && r.flags.getLsbD acc.bit) := by
  have hbit : acc.bit<x.bits := by
    have := x.bits_ge
    cases acc <;> simp only [Access.bit] <;> omega
  rw [sbiDomainCheckAddr,accessFlags_mmio,accessFlags_rwx,checkAddrLoop_eq hm]
  refine firstMatch_congr fun r _ => ⟨rfl,?_⟩
  have hdec : decide (r.flags &&& Word.bit acc.bit=Word.bit acc.bit)=r.flags.getLsbD acc.bit := by
    rw [Bool.eq_iff_iff,decide_eq_true_iff,Word.and_bit_eq_bit hbit]
  rw [hdec]

/-- The MMIO flag of the first region that contains the address. -/
def SbiDomain.mmioAt (dom : SbiDomain x) (a : Word x) : Bool :=
  firstMatch dom.memregions (fun r => r.contains a) Memregion.isMmio

/-- Asked with the MMIO flag of the deciding region, only the permission is left to check. -/
theorem sbiDomainCheckAddr_mmioAt (dom : SbiDomain x) (a : Word x) {mode : Nat}
    (hm : mode≠PRV_M) (acc : Access) :
    sbiDomainCheckAddr dom a mode (accessFlags acc (dom.mmioAt a))=
      firstMatch dom.memregions (fun r => r.contains a) (fun r => r.flags.getLsbD acc.bit) := by
  rw [sbiDomainCheckAddr_eq dom a hm]
  unfold SbiDomain.mmioAt firstMatch
  cases dom.memregions.find? (fun r => r.contains a) with
  | none => rfl
  | some r => simp

/-- A domain the PMP unit of a hart can represent: natural alignment, no order below the
granularity, bases within the implemented address bits, and an entry for each region. -/
structure PmpFit (f : HartFeatures x) (dom : SbiDomain x) : Prop where
  count : 1≤f.pmpCount ∧ f.pmpCount≤PMP_COUNT
  length : dom.memregions.length≤f.pmpCount
  gran : ∃ g,PMP_SHIFT≤g ∧ f.pmpGran.toNat=2^g
  addrBits : 1≤f.pmpAddrBits.toNat ∧ f.pmpAddrBits.toNat≤x.bits
  order : ∀ r∈dom.memregions,f.pmpGran.toNat≤2^r.order.toNat ∧ r.order.toNat≤x.bits
  aligned : ∀ r∈dom.memregions,2^r.order.toNat∣r.base.toNat
  base : ∀ r∈dom.memregions,r.base.toNat/4<2^f.pmpAddrBits.toNat
  readable : ∀ r∈dom.memregions,r.flags.getLsbD 1=true → r.flags.getLsbD 0=true

theorem toNat_pmpAddrMax {f : HartFeatures x} (h1 : 1≤f.pmpAddrBits.toNat)
    (hx : f.pmpAddrBits.toNat≤x.bits) : f.pmpAddrMax.toNat=2^f.pmpAddrBits.toNat-1 := by
  have hone : (1 : BitVec 32).toNat=1 := rfl
  have hle : (1 : BitVec 32)≤f.pmpAddrBits := by rw [BitVec.le_def,hone]; exact h1
  have hsub : (f.pmpAddrBits-1).toNat=f.pmpAddrBits.toNat-1 := by
    rw [BitVec.toNat_sub_of_le hle,hone]
  obtain ⟨n,hn⟩ : ∃ n,f.pmpAddrBits.toNat=n+1 := ⟨f.pmpAddrBits.toNat-1,by omega⟩
  have hor := Nat.two_pow_add_eq_or_of_lt (Nat.sub_lt (Nat.two_pow_pos n) Nat.one_pos) 1
  have hpos := Nat.two_pow_pos n
  rw [HartFeatures.pmpAddrMax,hsub,hn,Nat.add_sub_cancel]
  rw [BitVec.toNat_or,Word.toNat_bit (by omega),Word.toNat_bit_sub_one (by omega)]
  rw [Nat.mul_one] at hor
  rw [← hor,Nat.pow_succ]
  omega

namespace PmpFit

variable {f : HartFeatures x} {dom : SbiDomain x}

theorem size (h : PmpFit f dom) {r : Memregion x} (hr : r∈dom.memregions) :
    PMP_SHIFT≤r.order.toNat ∧ r.order.toNat≤x.bits := by
  obtain ⟨g,hg2,hg⟩ := h.gran
  obtain ⟨ho,hx⟩ := h.order r hr
  rw [hg] at ho
  have hgo := (Nat.pow_le_pow_iff_right (by decide)).mp ho
  exact ⟨hg2.trans hgo,hx⟩

/-- A region of the full width starts at zero. -/
theorem base_full (h : PmpFit f dom) {r : Memregion x} (hr : r∈dom.memregions)
    (hfull : r.order.toNat=x.bits) : r.base=0 := by
  have hd := h.aligned r hr
  rw [hfull] at hd
  have hz := Nat.eq_zero_of_dvd_of_lt hd r.base.isLt
  exact BitVec.eq_of_toNat_eq (by simpa using hz)

/-- Every region passes the range test, except a four-byte one at the last address. -/
theorem inRange (h : PmpFit f dom) {r : Memregion x} (hr : r∈dom.memregions)
    (hlast : r.order.toNat=PMP_SHIFT → r.base.toNat/4≠2^f.pmpAddrBits.toNat-1) :
    pmpInRange f r=true := by
  obtain ⟨g,hg2,hg⟩ := h.gran
  obtain ⟨ho,hx⟩ := h.order r hr
  obtain ⟨h1,hxb⟩ := h.addrBits
  have hshift : PMP_SHIFT<x.bits := by have := x.bits_ge; unfold PMP_SHIFT; omega
  rw [hg] at ho
  have hgo := (Nat.pow_le_pow_iff_right (by decide)).mp ho
  have hb := h.base r hr
  have hne : r.base.toNat/4≠2^f.pmpAddrBits.toNat-1 := by
    by_cases h2 : r.order.toNat=PMP_SHIFT
    · exact hlast h2
    · -- the page number of a larger region is even, the last one is odd
      obtain ⟨k,hk⟩ : ∃ k,r.order.toNat=k+3 :=
        ⟨r.order.toNat-3,by unfold PMP_SHIFT at *; omega⟩
      obtain ⟨n,hn⟩ : ∃ n,f.pmpAddrBits.toNat=n+1 := ⟨f.pmpAddrBits.toNat-1,by omega⟩
      obtain ⟨q,hq⟩ := h.aligned r hr
      have h8 : r.base.toNat=8*(2^k*q) := by rw [hq,hk]; ring
      have hpos := Nat.two_pow_pos n
      rw [h8,hn,Nat.pow_succ]
      omega
  rw [pmpInRange,HartFeatures.pmpGranLog2,log2roundup_two_pow hg,decide_eq_true hgo,Bool.true_and,
    decide_eq_true_iff,BitVec.lt_def,toNat_pmpAddrMax h1 hxb,Word.toNat_shr _ hshift]
  show r.base.toNat/4<_
  omega

end PmpFit

/-- On PMP entries that were all OFF, `sbi_hart_pmp_configure()` makes the PMP decide as
`sbi_domain_check_addr()` does, unless a four-byte region lies at the last implemented address. -/
theorem sbiHartPmpConfigure_agrees (f : HartFeatures x) (dom : SbiDomain x) (csrs : Csrs x)
    (hfit : PmpFit f dom)
    (hlast : ∀ r∈dom.memregions,r.order.toNat=PMP_SHIFT →
      r.base.toNat/4≠2^f.pmpAddrBits.toNat-1)
    (hoff : ∀ i,i<PMP_COUNT → pmpMode (pmpcfg csrs i)=.off) :
    ∃ csrs',sbiHartPmpConfigure f dom csrs=some (0,csrs') ∧
      ∀ acc a mode,mode=PRV_S ∨ mode=PRV_U →
        pmpAllows csrs' acc a=sbiDomainCheckAddr dom a mode (accessFlags acc (dom.mmioAt a)) := by
  obtain ⟨csrs',hconf,hprog⟩ := sbiHartPmpConfigure_spec f dom (fun r hr => hfit.size hr) csrs
  refine ⟨csrs',hconf,?_⟩
  have hall : pmpRegions f (min f.pmpCount PMP_COUNT) dom.memregions=dom.memregions := by
    have hfilter : dom.memregions.filter (pmpInRange f)=dom.memregions :=
      List.filter_eq_self.mpr fun r hr => hfit.inRange hr (hlast r hr)
    have hlen := hfit.length
    have hcount := hfit.count
    rw [pmpRegions,hfilter,List.take_of_length_le (by omega)]
  rw [hall] at hprog
  intro acc a mode hmode
  have hm : mode≠PRV_M := by rcases hmode with rfl | rfl <;> decide
  have hlen := hfit.length.trans hfit.count.2
  rw [hprog.pmpAllows_eq hlen (fun i _ => hoff i) (fun r hr => hfit.size hr)
    (fun r hr ho => ⟨ho,hfit.aligned r hr⟩),sbiDomainCheckAddr_mmioAt dom a hm]
  refine firstMatch_congr fun r hr => ⟨?_,rfl⟩
  by_cases hfull : r.order.toNat=x.bits
  · have hin : r.contains a=true := by
      rw [Memregion.contains_full hfull.ge,hfit.base_full hr hfull]
      simp [BitVec.le_def]
    rw [Memregion.pmpBlock,decide_eq_true hfull,hin,Bool.true_or]
  · rw [Memregion.pmpBlock,decide_eq_false hfull,Bool.false_or]

theorem pmpMode_zero (i : Nat) : pmpMode (pmpcfg (fun _ => 0 : Csrs x) i)=.off := by
  simp [pmpcfg,pmpMode]

theorem rootTable_agrees :
    ∃ csrs',sbiHartPmpConfigure ⟨16,54,4⟩ (tableDomain rootTable) (fun _ => 0)=some (0,csrs') ∧
      ∀ acc a mode,mode=PRV_S ∨ mode=PRV_U →
        pmpAllows csrs' acc a=sbiDomainCheckAddr (tableDomain rootTable) a mode
          (accessFlags acc ((tableDomain rootTable).mmioAt a)) := by
  refine sbiHartPmpConfigure_agrees ⟨16,54,4⟩ (tableDomain rootTable) (fun _ => 0)
    ⟨by decide,by decide,⟨2,by decide,by decide⟩,by decide,by decide,by decide,by decide,
      by decide⟩ (by decide) (fun i _ => pmpMode_zero i)

/-- The last page a hart with 54 address bits implements, as a region of its own. -/
def lastPage : Memregion .rv64 := ⟨2,0xfffffffffffffc,7⟩

/-- A four-byte region at the last implemented address gets no entry. -/
theorem lastPage_disagrees :
    ¬∀ (x : Xlen) (f : HartFeatures x) (dom : SbiDomain x) (csrs : Csrs x),PmpFit f dom →
      (∀ i,i<PMP_COUNT → pmpMode (pmpcfg csrs i)=.off) →
      ∃ csrs',sbiHartPmpConfigure f dom csrs=some (0,csrs') ∧
        ∀ acc a mode,mode=PRV_S ∨ mode=PRV_U →
          pmpAllows csrs' acc a=
            sbiDomainCheckAddr dom a mode (accessFlags acc (dom.mmioAt a)) := by
  intro h
  have hfit : PmpFit ⟨1,54,4⟩ (tableDomain [lastPage]) :=
    ⟨by decide,by decide,⟨2,by decide,by decide⟩,by decide,by decide,by decide,by decide,
      by decide⟩
  obtain ⟨csrs',hconf,hagree⟩ := h .rv64 _ _ (fun _ => 0) hfit (fun i _ => pmpMode_zero i)
  have hsame : sbiHartPmpConfigure ⟨1,54,4⟩ (tableDomain [lastPage]) (fun _ => 0)=
      some (0,fun _ => 0) := rfl
  obtain rfl := (Prod.mk.inj (Option.some.inj (hsame.symm.trans hconf))).2
  have hread := hagree .read lastPage.base PRV_S (.inl rfl)
  revert hread
  decide

end OpenSBI
