import OpenSBI.Math.Stride
import OpenSBI.Tlb.Merge

namespace OpenSBI

open Math

variable {x : Xlen}

/-- The counter of the page loop after `k` rounds. -/
def pageCounter (x : Xlen) (k : Nat) : Word x := (·+BitVec.ofNat x.bits PAGE_SIZE)^[k] 0

namespace TlbInfo

/-- The page loop of a local function is entered and ends, or is not entered. -/
def Ends (t : TlbInfo x) : Prop :=
  t.start=0 ∧ t.size=0 ∨ t.size=SBI_TLB_FLUSH_ALL ∨ ∃ k,t.size≤pageCounter x k

/-- A translation of a page that a request asks to fence, in its address space where it names one. -/
def Concerns (t : TlbInfo x) (page : Word x) (tr : Translation x) : Prop :=
  match t.localFn with
  | .fenceI => False
  | .sfenceVma => ∃ asid,tr=.stage1 asid page
  | .sfenceVmaAsid => tr=.stage1 t.asid page
  | .hfenceGvma => ∃ vmid,tr=.gstage vmid page
  | .hfenceGvmaVmid => tr=.gstage t.vmid page
  | .hfenceVvma => ∃ asid,tr=.vstage t.vmid asid page
  | .hfenceVvmaAsid => tr=.vstage t.vmid t.asid page

/-- The loop ends, and every page that meets the range is fenced. -/
def FencesRange (t : TlbInfo x) (start size : Word x) : Prop :=
  t.Ends ∧ ∀ a : Word x,start≤a → a.toNat<start.toNat+size.toNat →
    ∀ tr,t.Concerns (a >>> 12) tr → t.Covers tr

/-- The VMID survives the way through `hgatp`, where the fence takes it from there. -/
def VmidFits (t : TlbInfo x) : Prop :=
  t.localFn=.hfenceVvma ∨ t.localFn=.hfenceVvmaAsid → hgatpVmid t.vmid=t.vmid

instance (t : TlbInfo x) : Decidable t.VmidFits := inferInstanceAs (Decidable (_ → _))

/-- The range is the encoding of a full flush, or its size is at most that of all pages but the
last one and a stride of whole pages from its start meets all its pages. -/
def StrideMeets (t : TlbInfo x) : Prop :=
  t.size=SBI_TLB_FLUSH_ALL ∨ t.size.toNat+PAGE_SIZE≤2^x.bits ∧
    t.start.toNat%PAGE_SIZE+(t.size.toNat-1)%PAGE_SIZE<PAGE_SIZE

end TlbInfo

theorem pageCounter_eq (k : Nat) : pageCounter x k=BitVec.ofNat x.bits (k*PAGE_SIZE) := by
  induction k with
  | zero => simp [pageCounter]
  | succ k ih =>
    rw [pageCounter,Function.iterate_succ_apply',← pageCounter,ih,← BitVec.ofNat_add,Nat.add_mul,
      Nat.one_mul]

theorem pages_pow (x : Xlen) : 2^(x.bits-12)*PAGE_SIZE=2^x.bits := by cases x <;> decide

/-- The counter takes the values of the page boundaries, of which the last is the largest. -/
theorem exists_le_pageCounter_iff (size : Word x) :
    (∃ k,size≤pageCounter x k) ↔ size.toNat+PAGE_SIZE≤2^x.bits := by
  have hpages := pages_pow x
  have hpos : 0<2^(x.bits-12) := Nat.two_pow_pos _
  constructor
  · rintro ⟨k,hk⟩
    rw [pageCounter_eq,BitVec.le_def,BitVec.toNat_ofNat,← hpages,Nat.mul_mod_mul_right] at hk
    have hlt := Nat.mod_lt k hpos
    have hle : (k%2^(x.bits-12)+1)*PAGE_SIZE≤2^(x.bits-12)*PAGE_SIZE := Nat.mul_le_mul_right _ hlt
    rw [Nat.add_mul,Nat.one_mul,hpages] at hle
    omega
  · intro h
    refine ⟨2^(x.bits-12)-1,?_⟩
    have hlast : (2^(x.bits-12)-1)*PAGE_SIZE=2^x.bits-PAGE_SIZE := by
      rw [Nat.sub_mul,hpages,Nat.one_mul]
    rw [pageCounter_eq,BitVec.le_def,BitVec.toNat_ofNat,hlast,Nat.mod_eq_of_lt]
    · omega
    · have := size.isLt
      have : 0<PAGE_SIZE := by decide
      omega

/-- All the local functions but that of `fence.i` are range flushes whose fences have the right
address space. -/
theorem fences_shape (t : TlbInfo x) (h : t.localFn≠.fenceI) :
    ∃ everything whole page,t.fences=rangeFlush t.start t.size everything whole page ∧
      ∀ p tr,t.Concerns p tr → (whole.covers tr=true ↔ t.VmidFits) ∧
        ∀ i,(page i).covers tr=true ↔ (t.start+i) >>> 12=p ∧ t.VmidFits := by
  have htwo : ∀ a : Word x,(a >>> 2) >>> 10=a >>> 12 := fun a => (BitVec.shiftRight_add a 2 10).symm
  unfold TlbInfo.fences TlbInfo.Concerns TlbInfo.VmidFits
  cases hfn : t.localFn with
  | fenceI => exact absurd hfn h
  | sfenceVma =>
    refine ⟨_,_,_,rfl,?_⟩
    rintro p tr ⟨asid,rfl⟩
    simp [Fence.covers]
  | sfenceVmaAsid =>
    refine ⟨_,_,_,rfl,?_⟩
    rintro p tr rfl
    simp [Fence.covers]
  | hfenceGvma =>
    refine ⟨_,_,_,rfl,?_⟩
    rintro p tr ⟨vmid,rfl⟩
    simp [Fence.covers,htwo]
  | hfenceGvmaVmid =>
    refine ⟨_,_,_,rfl,?_⟩
    rintro p tr rfl
    simp [Fence.covers,htwo]
  | hfenceVvma =>
    refine ⟨_,_,_,rfl,?_⟩
    rintro p tr ⟨asid,rfl⟩
    simp [Fence.covers,and_comm]
  | hfenceVvmaAsid =>
    refine ⟨_,_,_,rfl,?_⟩
    rintro p tr rfl
    simp [Fence.covers,and_comm]

theorem exists_concerns (t : TlbInfo x) (h : t.localFn≠.fenceI) (page : Word x) :
    ∃ tr,t.Concerns page tr := by
  unfold TlbInfo.Concerns
  cases hfn : t.localFn with
  | fenceI => exact absurd hfn h
  | sfenceVma => exact ⟨_,0,rfl⟩
  | sfenceVmaAsid => exact ⟨_,rfl⟩
  | hfenceGvma => exact ⟨_,0,rfl⟩
  | hfenceGvmaVmid => exact ⟨_,rfl⟩
  | hfenceVvma => exact ⟨_,0,rfl⟩
  | hfenceVvmaAsid => exact ⟨_,rfl⟩

/-- A page of the range is fenced when the stride meets it and the VMID is the one asked for. -/
theorem covers_iff {t : TlbInfo x} (h : t.localFn≠.fenceI) (h1 : 1≤t.size.toNat)
    (hall : t.size≠SBI_TLB_FLUSH_ALL) (hfit : t.start.toNat+t.size.toNat≤2^x.bits) {a : Word x}
    {tr : Translation x} (htr : t.Concerns (a >>> 12) tr) :
    t.Covers tr ↔ t.VmidFits ∧
      ∃ k,k*PAGE_SIZE<t.size.toNat ∧ (t.start.toNat+k*PAGE_SIZE)/PAGE_SIZE=a.toNat/PAGE_SIZE := by
  obtain ⟨everything,whole,page,hf,hcover⟩ := fences_shape t h
  have hsize : ¬(t.start=0 ∧ t.size=0) := by
    rintro ⟨-,hz⟩
    rw [hz] at h1
    simp at h1
  have hfuel : (0 : Word x).toNat+2^(x.bits-12)*PAGE_SIZE≤2^x.bits := by
    rw [pages_pow]
    simp
  have hz : (0 : Word x).toNat=0 := by cases x <;> rfl
  have hzero : ∀ i : Word x,0+i=i := fun i => BitVec.zero_add i
  have hpage : ∀ k,k*PAGE_SIZE<t.size.toNat →
      ((t.start+BitVec.ofNat x.bits (k*PAGE_SIZE)) >>> 12=a >>> 12 ↔
        (t.start.toNat+k*PAGE_SIZE)/PAGE_SIZE=a.toNat/PAGE_SIZE) := by
    intro k hk
    have hlt := t.size.isLt
    rw [BitVec.toNat_eq,BitVec.toNat_ushiftRight,BitVec.toNat_ushiftRight,BitVec.toNat_add,
      BitVec.toNat_ofNat,Nat.mod_eq_of_lt (show k*PAGE_SIZE<2^x.bits by omega),
      Nat.mod_eq_of_lt (by omega),Nat.shiftRight_eq_div_pow,Nat.shiftRight_eq_div_pow]
    exact Iff.rfl
  unfold TlbInfo.Covers
  rw [hf,rangeFlush,if_neg hsize,if_neg hall]
  constructor
  · rintro ⟨f,hmem,hc⟩
    obtain ⟨k,-,hk,rfl⟩ := (mem_pageLoop hfuel f).mp hmem
    rw [hz,Nat.zero_add] at hk
    rw [(hcover _ _ htr).2,hzero,hpage k hk] at hc
    exact ⟨hc.2,k,hk,hc.1⟩
  · rintro ⟨hv,k,hk,he⟩
    have hpow : k<2^(x.bits-12) := by
      refine Nat.lt_of_mul_lt_mul_right (a := PAGE_SIZE) ?_
      have := t.size.isLt
      rw [pages_pow]
      omega
    refine ⟨_,(mem_pageLoop hfuel _).mpr ⟨k,hpow,by rwa [hz,Nat.zero_add],rfl⟩,?_⟩
    rw [(hcover _ _ htr).2,hzero,hpage k hk]
    exact ⟨he,hv⟩

theorem ends_iff {t : TlbInfo x} (h1 : 1≤t.size.toNat) (hall : t.size≠SBI_TLB_FLUSH_ALL) :
    t.Ends ↔ t.size.toNat+PAGE_SIZE≤2^x.bits := by
  rw [← exists_le_pageCounter_iff]
  refine ⟨fun h => ?_,fun h => .inr (.inr h)⟩
  rcases h with ⟨-,hz⟩ | he | hk
  · rw [hz] at h1
    simp at h1
  · exact absurd he hall
  · exact hk

/-- A range request that passes the limit fences every page of its range, in loops that end, exactly
when its VMID fits `hgatp` where it goes through it and the stride of the loop meets all pages. -/
theorem tlbRange_fenced_iff (limit : Word x) (t : TlbInfo x) (h : t.localFn≠.fenceI)
    (h1 : 1≤t.size.toNat) (hlimit : t.size≤limit)
    (hfit : t.start.toNat+t.size.toNat≤2^x.bits) :
    (tlbLimitRange limit t).FencesRange t.start t.size ↔ t.VmidFits ∧ t.StrideMeets := by
  have hpos : 0<PAGE_SIZE := by decide
  have hkeep : tlbLimitRange limit t=t := by
    rw [tlbLimitRange,if_neg]
    rw [BitVec.lt_def]
    rw [BitVec.le_def] at hlimit
    omega
  rw [hkeep]
  unfold TlbInfo.FencesRange
  by_cases hall : t.size=SBI_TLB_FLUSH_ALL
  · obtain ⟨everything,whole,page,hf,hcover⟩ := fences_shape t h
    have hmax : (SBI_TLB_FLUSH_ALL : Word x)≠0 := by cases x <;> decide
    have hwhole : ∀ p tr,t.Concerns p tr → (t.Covers tr ↔ t.VmidFits) := by
      intro p tr htr
      rw [TlbInfo.Covers,hf,rangeFlush,if_neg (fun hc => hmax (hall ▸ hc.2)),if_pos hall,
        ← (hcover p tr htr).1]
      constructor
      · rintro ⟨f,hm,hc⟩
        exact List.mem_singleton.mp hm ▸ hc
      · exact fun hc => ⟨_,List.mem_singleton.mpr rfl,hc⟩
    obtain ⟨tr,htr⟩ := exists_concerns t h (t.start >>> 12)
    constructor
    · rintro ⟨-,hcov⟩
      have hfirst := hcov t.start (BitVec.le_refl _) (by omega) tr htr
      exact ⟨(hwhole _ _ htr).mp hfirst,.inl hall⟩
    · rintro ⟨hv,-⟩
      exact ⟨.inr (.inl hall),fun a _ _ tr htr => (hwhole _ _ htr).mpr hv⟩
  · have hstride : t.StrideMeets ↔ t.size.toNat+PAGE_SIZE≤2^x.bits ∧
        t.start.toNat%PAGE_SIZE+(t.size.toNat-1)%PAGE_SIZE<PAGE_SIZE := or_iff_right hall
    rw [ends_iff h1 hall,hstride,← stride_meets_iff hpos h1]
    constructor
    · rintro ⟨hend,hcov⟩
      have hmeet : ∀ a : Word x,t.start≤a → a.toNat<t.start.toNat+t.size.toNat → t.VmidFits ∧
          ∃ k,k*PAGE_SIZE<t.size.toNat ∧
            (t.start.toNat+k*PAGE_SIZE)/PAGE_SIZE=a.toNat/PAGE_SIZE := by
        intro a hlo hhi
        obtain ⟨tr,htr⟩ := exists_concerns t h (a >>> 12)
        exact (covers_iff h h1 hall hfit htr).mp (hcov a hlo hhi tr htr)
      refine ⟨(hmeet t.start (BitVec.le_refl _) (by omega)).1,hend,fun a hlo hhi => ?_⟩
      have ha : (BitVec.ofNat x.bits a).toNat=a := by
        rw [BitVec.toNat_ofNat,Nat.mod_eq_of_lt (by omega)]
      have hk := (hmeet (BitVec.ofNat x.bits a) (by rwa [BitVec.le_def,ha]) (by rwa [ha])).2
      rwa [ha] at hk
    · rintro ⟨hv,hend,hmeet⟩
      exact ⟨hend,fun a hlo hhi tr htr =>
        (covers_iff h h1 hall hfit htr).mpr ⟨hv,hmeet a.toNat hlo hhi⟩⟩

/-- A request for one whole page. -/
theorem pageFlush_fenced : (tlbLimitRange 4096 pageFlush).FencesRange 0 4096 :=
  (tlbRange_fenced_iff 4096 pageFlush (by decide) (by decide) (by decide) (by decide)).mpr
    ⟨by decide,.inr (by decide)⟩

/-- Two bytes around a page boundary. -/
def straddlingFlush : TlbInfo .rv64 := ⟨4095,2,0,0,.sfenceVma,sbiHartmaskInitExcept 1⟩

/-- The second of the two pages is left out. -/
theorem straddlingFlush_unfenced :
    ¬∀ (x : Xlen) (limit : Word x) (t : TlbInfo x),t.localFn≠.fenceI → 1≤t.size.toNat →
      t.size≤limit → t.start.toNat+t.size.toNat≤2^x.bits →
      (tlbLimitRange limit t).FencesRange t.start t.size := by
  intro h
  have hf := h .rv64 4096 straddlingFlush (by decide) (by decide) (by decide) (by decide)
  have hone : straddlingFlush.fences=[.sfenceVma (some 4095) none] := by decide
  obtain ⟨f,hm,hc⟩ := hf.2 4096 (by decide) (by decide) (.stage1 0 1) ⟨0,rfl⟩
  have hm : f∈straddlingFlush.fences := hm
  rw [hone,List.mem_singleton] at hm
  rw [hm] at hc
  exact absurd hc (by decide)

end OpenSBI
