import OpenSBI.Tlb.Fence
import OpenSBI.Tlb.Fifo

namespace OpenSBI

variable {x : Xlen}

/-- `tlb_range_check()`: the outcome and the queued entry after it. -/
def tlbRangeCheck (curr next : TlbInfo x) : FifoUpdate × TlbInfo x :=
  let nextEnd := next.start+next.size
  let currEnd := curr.start+curr.size
  if next.start≤curr.start ∧ currEnd<nextEnd then
    (.updated,{ curr with
      start := next.start
      size := next.size
      smask := sbiHartmaskOr curr.smask next.smask })
  else if curr.start≤next.start ∧ nextEnd≤currEnd then
    (.skip,{ curr with smask := sbiHartmaskOr curr.smask next.smask })
  else (.unchanged,curr)

/-- `tlb_update_cb()`. -/
def tlbUpdateCb (next curr : TlbInfo x) : FifoUpdate × TlbInfo x :=
  if next.localFn=.sfenceVmaAsid ∧ curr.localFn=.sfenceVmaAsid then
    if next.asid=curr.asid then tlbRangeCheck curr next else (.unchanged,curr)
  else if next.localFn=.sfenceVma ∧ curr.localFn=.sfenceVma then tlbRangeCheck curr next
  else (.unchanged,curr)

/-- The first step of `tlb_update()`: a range above the platform's limit becomes a full flush. -/
def tlbLimitRange (limit : Word x) (t : TlbInfo x) : TlbInfo x :=
  if limit<t.size then { t with start := 0,size := SBI_TLB_FLUSH_ALL } else t

/-- The requests `tlb_update_cb()` compares: `SFENCE.VMA` of one kind and one address space. -/
def Mergeable (next curr : TlbInfo x) : Prop :=
  next.localFn=.sfenceVmaAsid ∧ curr.localFn=.sfenceVmaAsid ∧ next.asid=curr.asid ∨
  next.localFn=.sfenceVma ∧ curr.localFn=.sfenceVma

/-- The comparison after which a queued entry takes over the range of a request. -/
def Widens (next curr : TlbInfo x) : Prop :=
  Mergeable next curr ∧ next.start≤curr.start ∧ curr.start+curr.size<next.start+next.size

/-- The comparison after which a request is left to a queued entry. -/
def Skips (next curr : TlbInfo x) : Prop :=
  Mergeable next curr ∧ ¬Widens next curr ∧ curr.start≤next.start ∧
    next.start+next.size≤curr.start+curr.size

def PassedOver (next curr : TlbInfo x) : Prop := ¬Widens next curr ∧ ¬Skips next curr

namespace TlbInfo

/-- A queued entry after a request was left to it. -/
def joined (curr next : TlbInfo x) : TlbInfo x :=
  { curr with smask := sbiHartmaskOr curr.smask next.smask }

/-- A queued entry after it took over the range of a request. -/
def widened (curr next : TlbInfo x) : TlbInfo x :=
  { curr with
    start := next.start
    size := next.size
    smask := sbiHartmaskOr curr.smask next.smask }

end TlbInfo

theorem tlbUpdateCb_mergeable {next curr : TlbInfo x} (h : Mergeable next curr) :
    tlbUpdateCb next curr=tlbRangeCheck curr next := by
  unfold tlbUpdateCb
  rcases h with ⟨h1,h2,h3⟩ | ⟨h1,h2⟩
  · rw [if_pos ⟨h1,h2⟩,if_pos h3]
  · rw [if_neg (by simp [h1]),if_pos ⟨h1,h2⟩]

theorem tlbUpdateCb_not_mergeable {next curr : TlbInfo x} (h : ¬Mergeable next curr) :
    tlbUpdateCb next curr=(.unchanged,curr) := by
  unfold tlbUpdateCb
  split_ifs with h1 h2 h3
  · exact absurd (.inl ⟨h1.1,h1.2,h2⟩) h
  · rfl
  · exact absurd (.inr h3) h
  · rfl

theorem tlbUpdateCb_widens {next curr : TlbInfo x} (h : Widens next curr) :
    tlbUpdateCb next curr=(.updated,curr.widened next) := by
  rw [tlbUpdateCb_mergeable h.1]
  exact if_pos h.2

theorem tlbUpdateCb_skips {next curr : TlbInfo x} (h : Skips next curr) :
    tlbUpdateCb next curr=(.skip,curr.joined next) := by
  obtain ⟨hm,hw,hs⟩ := h
  rw [tlbUpdateCb_mergeable hm]
  exact (if_neg fun hc => hw ⟨hm,hc⟩).trans (if_pos hs)

theorem tlbUpdateCb_passedOver {next curr : TlbInfo x} (h : PassedOver next curr) :
    tlbUpdateCb next curr=(.unchanged,curr) := by
  obtain ⟨hw,hs⟩ := h
  by_cases hm : Mergeable next curr
  · rw [tlbUpdateCb_mergeable hm]
    exact (if_neg fun hc => hw ⟨hm,hc⟩).trans (if_neg fun hc => hs ⟨hm,hw,hc⟩)
  · exact tlbUpdateCb_not_mergeable hm

/-- The three outcomes of merging a request into a queue. -/
theorem merge_cases (next : TlbInfo x) (q : List (TlbInfo x)) :
    (∀ e∈q,PassedOver next e) ∨
    ∃ pre e post,q=pre++e::post ∧ (∀ o∈pre,PassedOver next o) ∧
      (Widens next e ∨ Skips next e) := by
  induction q with
  | nil => exact .inl (by simp)
  | cons e q ih =>
    by_cases he : Widens next e ∨ Skips next e
    · exact .inr ⟨[],e,q,rfl,by simp,he⟩
    · have hpass : PassedOver next e := not_or.mp he
      rcases ih with hall | ⟨pre,e',post,rfl,hpre,he'⟩
      · exact .inl (List.forall_mem_cons.mpr ⟨hpass,hall⟩)
      · exact .inr ⟨e::pre,e',post,rfl,List.forall_mem_cons.mpr ⟨hpass,hpre⟩,he'⟩

/-- A joined entry fences what it fenced before. -/
theorem covers_joined (curr next : TlbInfo x) (tr : Translation x) :
    (curr.joined next).Covers tr ↔ curr.Covers tr := Iff.rfl

/-- A widened entry fences what the request fences. -/
theorem covers_widened {curr next : TlbInfo x} (h : Mergeable next curr) (tr : Translation x) :
    (curr.widened next).Covers tr ↔ next.Covers tr := by
  have hf : (curr.widened next).fences=next.fences := by
    rcases h with ⟨h1,h2,h3⟩ | ⟨h1,h2⟩
    · simp [TlbInfo.fences,TlbInfo.widened,h1,h2,sbiTlbLocalSfenceVmaAsid,h3]
    · simp [TlbInfo.fences,TlbInfo.widened,h1,h2,sbiTlbLocalSfenceVma]
  rw [TlbInfo.Covers,TlbInfo.Covers,hf]

private theorem rangeFlush_whole {start size : Word x} {everything whole : Fence x}
    {page page' : Word x → Fence x} {tr : Translation x} (hsize : size≠0)
    (hpage : ∀ i,(page i).covers tr=true → whole.covers tr=true)
    (h : ∃ f∈rangeFlush start size everything whole page,f.covers tr=true) :
    ∃ f∈rangeFlush 0 SBI_TLB_FLUSH_ALL everything whole page',f.covers tr=true := by
  have hmax : (SBI_TLB_FLUSH_ALL : Word x)≠0 := by cases x <;> decide
  have hwhole : whole.covers tr=true := by
    obtain ⟨f,hf,hc⟩ := h
    unfold rangeFlush at hf
    split_ifs at hf with h1 h2
    · exact absurd h1.2 hsize
    · rwa [List.mem_singleton.mp hf] at hc
    · obtain ⟨k,-,-,rfl⟩ := (mem_pageLoop (by cases x <;> decide) f).mp hf
      exact hpage _ hc
  refine ⟨whole,?_,hwhole⟩
  unfold rangeFlush
  rw [if_neg (fun hc => hmax hc.2),if_pos rfl]
  exact List.mem_singleton.mpr rfl

/-- Turning a large range into a full flush fences all that the range does. -/
theorem covers_limitRange (limit : Word x) {t : TlbInfo x} {tr : Translation x}
    (h : t.Covers tr) : (tlbLimitRange limit t).Covers tr := by
  unfold tlbLimitRange
  split_ifs with hl
  · have hsize : t.size≠0 := by
      intro hz
      rw [hz,BitVec.lt_def] at hl
      simp at hl
    unfold TlbInfo.Covers TlbInfo.fences at h ⊢
    cases hfn : t.localFn <;> simp only [hfn] at h ⊢
    case fenceI => exact h
    all_goals
      refine rangeFlush_whole hsize (fun i => ?_) h
      cases tr <;> simp [Fence.covers]
      try tauto
  · exact h

/-- Nothing of a queue and of a request is lost on the way to a new queue. -/
structure Preserves (q q' : List (TlbInfo x)) (req : TlbInfo x) : Prop where
  old : ∀ tr,CoveredBy q tr → CoveredBy q' tr
  new : ∀ tr,req.Covers tr → CoveredBy q' tr
  acked : ∀ h,sbiHartmaskTestHart h req.smask=true →
    ∃ e∈q',sbiHartmaskTestHart h e.smask=true ∧ ∀ tr,req.Covers tr → e.Covers tr

/-- `tlb_update()` and the enqueue after it lose nothing: an in-place update keeps everything, and
so does the enqueue of an unmerged request, whatever the FIFO has come to hold by then. -/
def NoLostFlush (limit : Word x) (f : SbiFifo (TlbInfo x)) (req : TlbInfo x) : Prop :=
  let next := tlbLimitRange limit req
  let u := sbiFifoInplaceUpdate f next tlbUpdateCb
  if u.1=.unchanged then
    ∀ f1 f2,sbiFifoEnqueue f1 next=.ok f2 → Preserves f1.toList f2.toList req
  else Preserves f.toList u.2.toList req

/-- The merges of a request that lose nothing. The comparisons of `tlb_range_check()` are made on
wrapped sums and take the encoding `(0,0)` of a full flush for an empty range, so that an entry can
be widened to a range that does not hold its own, and a request left to an entry that does not
hold it. -/
structure MergeSafe (limit : Word x) (q : List (TlbInfo x)) (req : TlbInfo x) : Prop where
  widened : ∀ pre e post,q=pre++e::post → (∀ o∈pre,PassedOver (tlbLimitRange limit req) o) →
    Widens (tlbLimitRange limit req) e →
    ∀ tr,e.Covers tr → (tlbLimitRange limit req).Covers tr ∨ CoveredBy (pre++post) tr
  skipped : ∀ pre e post,q=pre++e::post → (∀ o∈pre,PassedOver (tlbLimitRange limit req) o) →
    Skips (tlbLimitRange limit req) e →
    (∀ tr,req.Covers tr → e.Covers tr) ∨
    (∀ tr,req.Covers tr → CoveredBy q tr) ∧
      ∀ h,sbiHartmaskTestHart h req.smask=true →
        ∃ o∈pre++post,sbiHartmaskTestHart h o.smask=true ∧ ∀ tr,req.Covers tr → o.Covers tr

theorem coveredBy_append {q r : List (TlbInfo x)} {tr : Translation x} :
    CoveredBy (q++r) tr ↔ CoveredBy q tr ∨ CoveredBy r tr := by
  simp only [CoveredBy,List.mem_append]
  constructor
  · rintro ⟨e,he | he,hc⟩
    · exact .inl ⟨e,he,hc⟩
    · exact .inr ⟨e,he,hc⟩
  · rintro (⟨e,he,hc⟩ | ⟨e,he,hc⟩)
    · exact ⟨e,.inl he,hc⟩
    · exact ⟨e,.inr he,hc⟩

theorem coveredBy_cons {e : TlbInfo x} {q : List (TlbInfo x)} {tr : Translation x} :
    CoveredBy (e::q) tr ↔ e.Covers tr ∨ CoveredBy q tr := by
  simp [CoveredBy]

@[simp] theorem limitRange_smask (limit : Word x) (t : TlbInfo x) :
    (tlbLimitRange limit t).smask=t.smask := by
  unfold tlbLimitRange
  split_ifs <;> rfl

theorem preserves_enqueue (limit : Word x) (q : List (TlbInfo x)) (req : TlbInfo x) :
    Preserves q (q++[tlbLimitRange limit req]) req where
  old tr h := coveredBy_append.mpr (.inl h)
  new tr h := coveredBy_append.mpr (.inr (coveredBy_cons.mpr (.inl (covers_limitRange limit h))))
  acked h hs := ⟨tlbLimitRange limit req,by simp,by simpa using hs,
    fun _ => covers_limitRange limit⟩

theorem preserves_widened_iff (limit : Word x) {pre post : List (TlbInfo x)} {e req : TlbInfo x}
    (hm : Mergeable (tlbLimitRange limit req) e) :
    Preserves (pre++e::post) (pre++e.widened (tlbLimitRange limit req)::post) req ↔
      ∀ tr,e.Covers tr → (tlbLimitRange limit req).Covers tr ∨ CoveredBy (pre++post) tr := by
  constructor
  · intro h tr he
    have hold := h.old tr (coveredBy_append.mpr (.inr (coveredBy_cons.mpr (.inl he))))
    rw [coveredBy_append,coveredBy_cons,covers_widened hm] at hold
    rw [coveredBy_append]
    tauto
  · intro h
    refine ⟨?_,?_,?_⟩
    · intro tr hq
      rw [coveredBy_append,coveredBy_cons] at hq
      rw [coveredBy_append,coveredBy_cons,covers_widened hm]
      rcases hq with hq | hq | hq
      · exact .inl hq
      · rcases h tr hq with hr | hr
        · exact .inr (.inl hr)
        · rw [coveredBy_append] at hr
          tauto
      · exact .inr (.inr hq)
    · intro tr hr
      rw [coveredBy_append,coveredBy_cons,covers_widened hm]
      exact .inr (.inl (covers_limitRange limit hr))
    · intro i hi
      refine ⟨e.widened (tlbLimitRange limit req),by simp,?_,?_⟩
      · rw [TlbInfo.widened,testHart_or,limitRange_smask,hi,Bool.or_true]
      · intro tr hr
        exact (covers_widened hm tr).mpr (covers_limitRange limit hr)

theorem preserves_joined_iff (limit : Word x) {pre post : List (TlbInfo x)} {e req : TlbInfo x} :
    Preserves (pre++e::post) (pre++e.joined (tlbLimitRange limit req)::post) req ↔
      (∀ tr,req.Covers tr → e.Covers tr) ∨
      (∀ tr,req.Covers tr → CoveredBy (pre++e::post) tr) ∧
        ∀ h,sbiHartmaskTestHart h req.smask=true →
          ∃ o∈pre++post,sbiHartmaskTestHart h o.smask=true ∧ ∀ tr,req.Covers tr → o.Covers tr := by
  have hsame : ∀ tr,CoveredBy (pre++e.joined (tlbLimitRange limit req)::post) tr ↔
      CoveredBy (pre++e::post) tr := by
    intro tr
    rw [coveredBy_append,coveredBy_cons,covers_joined,← coveredBy_cons,← coveredBy_append]
  constructor
  · intro h
    by_cases hin : ∀ tr,req.Covers tr → e.Covers tr
    · exact .inl hin
    · refine .inr ⟨fun tr hr => (hsame tr).mp (h.new tr hr),?_⟩
      intro i hi
      obtain ⟨o,ho,hs,hc⟩ := h.acked i hi
      simp only [List.mem_append,List.mem_cons] at ho ⊢
      rcases ho with ho | rfl | ho
      · exact ⟨o,.inl ho,hs,hc⟩
      · exact absurd hc hin
      · exact ⟨o,.inr ho,hs,hc⟩
  · intro h
    refine ⟨fun tr hq => (hsame tr).mpr hq,?_,?_⟩
    · intro tr hr
      rw [hsame]
      rcases h with h | h
      · exact coveredBy_append.mpr (.inr (coveredBy_cons.mpr (.inl (h tr hr))))
      · exact h.1 tr hr
    · intro i hi
      rcases h with h | h
      · refine ⟨e.joined (tlbLimitRange limit req),by simp,?_,h⟩
        rw [TlbInfo.joined,testHart_or,limitRange_smask,hi,Bool.or_true]
      · obtain ⟨o,ho,hs,hc⟩ := h.2 i hi
        refine ⟨o,?_,hs,hc⟩
        simp only [List.mem_append,List.mem_cons] at ho ⊢
        tauto

/-- A request loses nothing exactly when its merge is safe. -/
theorem noLostFlush_iff (limit : Word x) (f : SbiFifo (TlbInfo x)) (req : TlbInfo x) :
    NoLostFlush limit f req ↔ MergeSafe limit f.toList req := by
  obtain ⟨hret,hlist⟩ := sbiFifoInplaceUpdate_spec f (tlbLimitRange limit req) tlbUpdateCb
  unfold NoLostFlush
  simp only
  rw [hret,hlist]
  generalize f.toList=q
  constructor
  · intro h
    refine ⟨?_,?_⟩
    · rintro pre e post rfl hpre hw
      rw [updateFirst_at (fun o ho => tlbUpdateCb_passedOver (hpre o ho)) (tlbUpdateCb_widens hw)
        (by decide),if_neg (by simp)] at h
      exact (preserves_widened_iff limit hw.1).mp h
    · rintro pre e post rfl hpre hs
      rw [updateFirst_at (fun o ho => tlbUpdateCb_passedOver (hpre o ho)) (tlbUpdateCb_skips hs)
        (by decide),if_neg (by simp)] at h
      exact (preserves_joined_iff limit).mp h
  · intro h
    rcases merge_cases (tlbLimitRange limit req) q with hall | ⟨pre,e,post,rfl,hpre,hw | hs⟩
    · rw [updateFirst_of_unchanged fun e he => tlbUpdateCb_passedOver (hall e he),if_pos rfl]
      intro f1 f2 henq
      rw [(sbiFifoEnqueue_spec henq).1]
      exact preserves_enqueue limit f1.toList req
    · rw [updateFirst_at (fun o ho => tlbUpdateCb_passedOver (hpre o ho)) (tlbUpdateCb_widens hw)
        (by decide),if_neg (by simp)]
      exact (preserves_widened_iff limit hw.1).mpr (h.widened pre e post rfl hpre hw)
    · rw [updateFirst_at (fun o ho => tlbUpdateCb_passedOver (hpre o ho)) (tlbUpdateCb_skips hs)
        (by decide),if_neg (by simp)]
      exact (preserves_joined_iff limit).mpr (h.skipped pre e post rfl hpre hs)

/-- A range that starts on a page, is not empty and does not reach past the top. -/
structure PlainRange (t : TlbInfo x) : Prop where
  page : PAGE_SIZE∣t.start.toNat
  size : t.size≠0
  top : t.start.toNat+t.size.toNat<2^x.bits

theorem PlainRange.toNat_end {t : TlbInfo x} (h : PlainRange t) :
    (t.start+t.size).toNat=t.start.toNat+t.size.toNat := by
  rw [BitVec.toNat_add,Nat.mod_eq_of_lt h.top]

/-- A range flush of a plain range fences all the pages of a plain range inside it. -/
private theorem rangeFlush_subset {start size start' size' : Word x} {everything whole : Fence x}
    (page : Word x → Fence x) (hin : start.toNat ≤ start'.toNat)
    (hend : start'.toNat+size'.toNat ≤ start.toNat+size.toNat)
    (hp : PAGE_SIZE∣start.toNat) (hp' : PAGE_SIZE∣start'.toNat) (hs : size≠0) (hs' : size'≠0)
    (htop : start.toNat+size.toNat<2^x.bits) {tr : Translation x}
    (hwhole : ∀ i,(page i).covers tr=true → whole.covers tr=true)
    (h : ∃ f∈rangeFlush start' size' everything whole (fun i => page (start'+i)),
      f.covers tr=true) :
    ∃ f∈rangeFlush start size everything whole (fun i => page (start+i)),f.covers tr=true := by
  have hfuel : (0 : Word x).toNat+2^(x.bits-12)*PAGE_SIZE≤2^x.bits := by cases x <;> decide
  have hz : (0 : Word x).toNat=0 := by cases x <;> rfl
  have hall : (SBI_TLB_FLUSH_ALL : Word x).toNat=2^x.bits-1 := Word.toNat_max
  have hpow : 2^x.bits=2^(x.bits-12)*PAGE_SIZE := by cases x <;> decide
  obtain ⟨f,hf,hc⟩ := h
  rw [rangeFlush,if_neg (fun hh => hs' hh.2)] at hf
  rw [rangeFlush,if_neg (fun hh => hs hh.2)]
  by_cases hbig : size=SBI_TLB_FLUSH_ALL
  · refine ⟨whole,by rw [if_pos hbig]; exact List.mem_singleton.mpr rfl,?_⟩
    split_ifs at hf with h1
    · rwa [List.mem_singleton.mp hf] at hc
    · obtain ⟨k,-,-,rfl⟩ := (mem_pageLoop hfuel f).mp hf
      exact hwhole _ hc
  · rw [if_neg hbig]
    have hsmall : size'≠SBI_TLB_FLUSH_ALL := by
      rintro rfl
      refine hbig (BitVec.eq_of_toNat_eq ?_)
      have := size.isLt
      omega
    rw [if_neg hsmall,mem_pageLoop hfuel] at hf
    obtain ⟨k,hk,hks,rfl⟩ := hf
    refine ⟨_,?_,hc⟩
    rw [mem_pageLoop hfuel]
    obtain ⟨m,hm⟩ := hp
    obtain ⟨m',hm'⟩ := hp'
    have hmm : m ≤ m' := Nat.le_of_mul_le_mul_left (hm ▸ hm' ▸ hin) (by decide : 0<PAGE_SIZE)
    have hoff : (m'-m+k)*PAGE_SIZE=start'.toNat-start.toNat+k*PAGE_SIZE := by
      rw [hm,hm',Nat.add_mul,Nat.sub_mul,Nat.mul_comm m',Nat.mul_comm m]
    refine ⟨m'-m+k,?_,?_,?_⟩
    · refine Nat.lt_of_mul_lt_mul_right (a := PAGE_SIZE) ?_
      rw [hoff,← hpow]
      omega
    · rw [hoff]
      omega
    · congr 1
      apply BitVec.eq_of_toNat_eq
      simp only [BitVec.toNat_add,BitVec.toNat_ofNat,hoff,hz,Nat.zero_add,Nat.mod_mod,
        Nat.add_mod_mod]
      congr 1
      omega

theorem covers_of_inside {inner outer : TlbInfo x}
    (hm : Mergeable inner outer ∨ Mergeable outer inner) (hi : PlainRange inner)
    (ho : PlainRange outer) (hstart : outer.start ≤ inner.start)
    (hend : inner.start+inner.size≤outer.start+outer.size) {tr : Translation x}
    (h : inner.Covers tr) : outer.Covers tr := by
  rw [BitVec.le_def] at hstart
  rw [BitVec.le_def,hi.toNat_end,ho.toNat_end] at hend
  have kind : inner.localFn=.sfenceVmaAsid ∧ outer.localFn=.sfenceVmaAsid ∧
      inner.asid=outer.asid ∨ inner.localFn=.sfenceVma ∧ outer.localFn=.sfenceVma := by
    rcases hm with (⟨h1,h2,h3⟩ | ⟨h1,h2⟩) | (⟨h1,h2,h3⟩ | ⟨h1,h2⟩)
    · exact .inl ⟨h1,h2,h3⟩
    · exact .inr ⟨h1,h2⟩
    · exact .inl ⟨h2,h1,h3.symm⟩
    · exact .inr ⟨h2,h1⟩
  unfold TlbInfo.Covers TlbInfo.fences at h ⊢
  rcases kind with ⟨h1,h2,h3⟩ | ⟨h1,h2⟩
  · simp only [h1,h2,sbiTlbLocalSfenceVmaAsid,h3] at h ⊢
    refine rangeFlush_subset (fun i => .sfenceVma (some i) (some outer.asid)) hstart hend
      ho.page hi.page ho.size hi.size ho.top (fun i => ?_) h
    cases tr <;> simp [Fence.covers]
  · simp only [h1,h2,sbiTlbLocalSfenceVma] at h ⊢
    refine rangeFlush_subset (fun i => .sfenceVma (some i) none) hstart hend
      ho.page hi.page ho.size hi.size ho.top (fun i => ?_) h
    cases tr <;> simp [Fence.covers]

/-- On plain ranges every merge is safe. -/
theorem mergeSafe_of_plain {limit : Word x} {q : List (TlbInfo x)} {req : TlbInfo x}
    (hq : ∀ e∈q,PlainRange e) (hreq : PlainRange (tlbLimitRange limit req)) :
    MergeSafe limit q req where
  widened := by
    rintro pre e post rfl - ⟨hm,hstart,hend⟩ tr he
    exact .inl (covers_of_inside (.inr hm) (hq e (by simp)) hreq hstart (BitVec.le_of_lt hend) he)
  skipped := by
    rintro pre e post rfl - ⟨hm,-,hstart,hend⟩
    exact .inl fun tr hr => covers_of_inside (.inl hm) hreq (hq e (by simp)) hstart hend
      (covers_limitRange limit hr)

/-- A queued flush of the first page. -/
def pageFlush : TlbInfo .rv64 := ⟨0,4096,0,0,.sfenceVma,sbiHartmaskInitExcept 1⟩

/-- A request for a full flush, in its encoding as the empty range at zero. -/
def fullFlush : TlbInfo .rv64 := ⟨0,0,0,0,.sfenceVma,sbiHartmaskInitExcept 2⟩

/-- The full flush is left to the queued flush of one page. -/
theorem fullFlush_lost :
    ¬∀ (x : Xlen) (limit : Word x) (f : SbiFifo (TlbInfo x)) (req : TlbInfo x),
      NoLostFlush limit f req := by
  intro h
  have hf := h .rv64 4096 ⟨fun _ => pageFlush,8,0,1,by decide,by decide⟩ fullFlush
  unfold NoLostFlush at hf
  simp only at hf
  rw [if_neg (by decide)] at hf
  have hfull : fullFlush.Covers (.stage1 0 1) := ⟨.sfenceVma none none,by decide,by decide⟩
  have hpage : pageFlush.fences=[.sfenceVma (some 0) none] := by decide
  obtain ⟨e,he,f,hfe,hc⟩ := hf.new _ hfull
  obtain rfl : e=pageFlush.joined fullFlush := List.mem_singleton.mp he
  rw [List.mem_singleton.mp (hpage ▸ hfe : f∈[.sfenceVma (some 0) none])] at hc
  exact absurd hc (by decide)

end OpenSBI
