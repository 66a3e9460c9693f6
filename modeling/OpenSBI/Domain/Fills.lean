import OpenSBI.Domain.Constraints
import OpenSBI.Domain.RootMemregs

namespace OpenSBI

open Math

variable {x : Xlen} {plat : Platform} {fw : Memregion x} {d root : SbiDomain x}
  {l : List (Memregion x)} {a b r : Memregion x} {addr : Word x} {P : Word x → Prop}
  {n count : Nat}

/-- Two flag words give the same answers below M-mode. -/
def Alike (f g : Word x) : Prop :=
  ∀ accessFlags,(Memregion.mk 0 0 f).permits accessFlags=(Memregion.mk 0 0 g).permits accessFlags

/-- The block of order `k` at `b` is a region with flags `f`, or both of its halves are filled so. -/
inductive Fills (l : List (Memregion x)) (f : Word x) : Nat → Nat → Prop where
  | region (r : Memregion x) (hr : r∈l) (hf : r.flags=f) : Fills l f r.base.toNat r.order.toNat
  | halves (b k : Nat) (hb : 2^(k+1)∣b) (h1 : Fills l f b k) (h2 : Fills l f (b+2^k) k) :
      Fills l f b (k+1)

/-- No region that holds an address of `P` is filled exactly by regions that answer otherwise. -/
def Coherent (P : Word x → Prop) (l : List (Memregion x)) : Prop :=
  ∀ r∈l,(∃ addr,P addr ∧ r.Holds addr) →
    ∀ f,Fills l f r.base.toNat r.order.toNat → Alike f r.flags

/-- The condition on a table and a region for the rest of the table to keep its answers: the region
is not a terminator, the table is as the last sort left it, and no block that reaches out of the
region is filled in two ways. -/
structure Undisturbed (l : List (Memregion x)) (reg : Memregion x) : Prop where
  order : reg.order≠0
  sorted : l.Pairwise (fun a b => isRegionBefore b a=false)
  coherent : Coherent (fun addr => ¬reg.Holds addr) (reg::l)

theorem Fills.mono {l l' : List (Memregion x)} (hl : ∀ r∈l,r∈l') {f : Word x} {b k : Nat}
    (h : Fills l f b k) : Fills l' f b k := by
  induction h with
  | region r hr hf => exact .region r (hl r hr) hf
  | halves b k hb _ _ h1 h2 => exact .halves b k hb h1 h2

theorem Coherent.perm {l l' : List (Memregion x)} (hp : l.Perm l') (h : Coherent P l) :
    Coherent P l' := fun r hr ht f hf =>
  h r (hp.mem_iff.mpr hr) ht f (hf.mono fun _ hq => hp.mem_iff.mpr hq)

/-- Regions of one block answer alike. -/
theorem Coherent.alike (h : Coherent P l) (ha : a∈l) (hb : b∈l) (hp : P addr)
    (hold : b.Holds addr) (ho : a.order=b.order) (hbase : a.base=b.base) :
    Alike a.flags b.flags := by
  refine h b hb ⟨addr,hp,hold⟩ a.flags ?_
  rw [← ho,← hbase]
  exact .region a ha rfl

theorem Alike.symm {f g : Word x} (h : Alike f g) : Alike g f := fun fl => (h fl).symm

theorem Alike.trans {f g k : Word x} (h1 : Alike f g) (h2 : Alike g k) : Alike f k :=
  fun fl => (h1 fl).trans (h2 fl)

/-- Every region of `l'` is a block that the regions of `l` with its flags fill. -/
def FilledBy (l l' : List (Memregion x)) : Prop := ∀ r∈l',Fills l r.flags r.base.toNat r.order.toNat

theorem FilledBy.refl (l : List (Memregion x)) : FilledBy l l := fun r hr => .region r hr rfl

theorem FilledBy.fills (h : FilledBy l l') {f : Word x} {b k : Nat} (hf : Fills l' f b k) : Fills l f b k := by
  induction hf with
  | region r hr hrf => exact hrf ▸ h r hr
  | halves b k hb _ _ h1 h2 => exact .halves b k hb h1 h2

theorem FilledBy.perm {l1 : List (Memregion x)} (h : FilledBy l l') (hp : l'.Perm l1) : FilledBy l l1 :=
  fun r hr => h r (hp.mem_iff.mpr hr)

/-- Two fillings of one block answer alike in a coherent table. -/
theorem Coherent.fills_alike (h : Coherent P l) {f g : Word x} {b k : Nat} (hf : Fills l f b k)
    (hg : Fills l g b k) {addr : Word x} (hp : P addr) (ha : InBlock b k addr.toNat) : Alike f g := by
  induction hf with
  | region r hr hrf =>
    subst hrf
    exact (h r hr ⟨addr,hp,ha⟩ g hg).symm
  | halves b k hb h1 h2 ih1 ih2 =>
    generalize hk : k+1=j at hg ha
    cases hg with
    | region s hs hsf =>
      subst hsf
      refine h s hs ⟨addr,hp,ha⟩ f ?_
      rw [← hk]
      exact .halves _ k hb h1 h2
    | halves _ k' _ g1 g2 =>
      obtain rfl := Nat.succ.inj hk
      have hpow : 2^(k+1)=2^k+2^k := by rw [pow_succ,Nat.mul_two]
      by_cases hlt : addr.toNat<b+2^k
      · exact ih1 g1 ⟨ha.1,hlt⟩
      · exact ih2 g2 ⟨not_lt.mp hlt,by have := ha.2; omega⟩

theorem Coherent.of_filledBy (h : Coherent P l) (hl : FilledBy l l') : Coherent P l' := by
  intro r hr ht f hf
  obtain ⟨addr,hp,ha⟩ := ht
  exact h.fills_alike (hl.fills hf) (hl r hr) hp ha

/-! ## What merging two buddies means -/

/-- `m` is the union of the buddies `a` and `b`. -/
structure MergedFrom (m a b : Memregion x) : Prop where
  order : m.order.toNat=a.order.toNat+1
  sameOrder : b.order=a.order
  base : m.base=a.base
  next : b.base.toNat=a.base.toNat+2^a.order.toNat
  aligned : 2^(a.order.toNat+1)∣a.base.toNat
  flags : m.flags=a.flags
  sameFlags : b.flags=a.flags

theorem mergedFrom_of_mergeable (ha : isRegionValid a=true)
    (hm : isRegionValid { a with order := a.order+1 }=true) (hsort : isRegionBefore b a=false)
    (h : mergeable a b=true) : MergedFrom { a with order := a.order+1 } a b := by
  simp only [mergeable,Bool.and_eq_true,decide_eq_true_iff] at h
  obtain ⟨⟨⟨-,hnext⟩,horder⟩,hflags⟩ := h
  have hsucc := order_succ ha
  have hle : (a.order+1).toNat≤x.bits := ((isRegionValid_iff _).mp hm).2.1
  have hlt : a.order.toNat<x.bits := by omega
  have hal := isRegionValid_aligned ha hlt
  have hpow : 2^(a.order.toNat+1)=2*2^a.order.toNat := Nat.pow_succ'
  have hend := hal.end_le
  have hbn : b.base.toNat=(a.base.toNat+2^a.order.toNat)%2^x.bits := by
    rw [← hnext,BitVec.toNat_add,Word.toNat_bit hlt]
  have hne : a.base.toNat+2^a.order.toNat≠2^x.bits := by
    intro he
    rw [he,Nat.mod_self] at hbn
    have hpos : 0<a.base.toNat := by
      have := Nat.pow_lt_pow_right (show 1<2 by decide) hlt
      omega
    have hbefore := (isRegionBefore_iff b a).mpr
      (.inr ⟨horder.symm,BitVec.lt_def.mpr (by omega)⟩)
    rw [hsort] at hbefore
    cases hbefore
  have hlt' : a.base.toNat+2^a.order.toNat<2^x.bits := by omega
  rw [Nat.mod_eq_of_lt hlt'] at hbn
  refine ⟨hsucc,horder.symm,rfl,hbn,?_,rfl,hflags.symm⟩
  rcases Nat.lt_or_ge (a.order.toNat+1) x.bits with hlt2 | hge
  · have hma := (isRegionValid_aligned hm (lt_of_eq_of_lt hsucc hlt2)).base
    rwa [hsucc] at hma
  · -- The union is the whole address space, so the lower buddy starts at zero.
    have hbits : x.bits=a.order.toNat+1 := by omega
    obtain ⟨q,hq⟩ := hal.base
    have hq0 : q=0 := by
      by_contra hne0
      have : 2^a.order.toNat≤a.base.toNat := by
        rw [hq]
        exact Nat.le_mul_of_pos_right _ (Nat.pos_of_ne_zero hne0)
      have hfull : 2^x.bits=2^(a.order.toNat+1) := congrArg (fun k => 2^k) hbits
      omega
    rw [hq,hq0,Nat.mul_zero]
    exact Nat.dvd_zero _

theorem MergedFrom.holds {m : Memregion x} (h : MergedFrom m a b) :
    m.Holds addr ↔ a.Holds addr ∨ b.Holds addr := by
  simp only [Memregion.Holds,InBlock,h.base,h.order,h.sameOrder,h.next,Nat.pow_succ]
  omega

theorem MergedFrom.fills {m : Memregion x} (h : MergedFrom m a b) (ha : a∈l) (hb : b∈l) :
    Fills l a.flags m.base.toNat m.order.toNat := by
  rw [h.order,h.base]
  refine .halves _ _ h.aligned (.region a ha rfl) ?_
  rw [← h.next,← h.sameOrder]
  exact .region b hb h.sameFlags

/-- A pass of the merging loop keeps each region or puts it into a union of two. -/
theorem mergeRegions_mem (hv : ∀ r∈l,isRegionValid r=true)
    (hv' : ∀ r∈(mergeRegions l).2,isRegionValid r=true)
    (hs : l.Pairwise (fun a b => isRegionBefore b a=false)) :
    (∀ r∈(mergeRegions l).2,r∈l ∨ ∃ a∈l,∃ b∈l,MergedFrom r a b) ∧
      ∀ r∈l,r∈(mergeRegions l).2 ∨
        ∃ m∈(mergeRegions l).2,∃ a∈l,∃ b∈l,MergedFrom m a b ∧ (r=a ∨ r=b) := by
  induction l using mergeRegions.induct with
  | case1 a b rest hm ih =>
    have heq : (mergeRegions (a::b::rest)).2={ a with order := a.order+1 }::(mergeRegions rest).2 := by
      rw [mergeRegions,if_pos hm]
    rw [heq] at hv' ⊢
    obtain ⟨ha,hrest⟩ := List.pairwise_cons.mp hs
    obtain ⟨ih1,ih2⟩ := ih (fun q hq => hv q (by simp [hq]))
      (fun q hq => hv' q (List.mem_cons_of_mem _ hq)) (List.pairwise_cons.mp hrest).2
    have hfrom := mergedFrom_of_mergeable (hv a (by simp)) (hv' _ List.mem_cons_self)
      (ha b (by simp)) hm
    constructor
    · intro r hr
      rcases List.mem_cons.mp hr with rfl | hr
      · exact .inr ⟨a,by simp,b,by simp,hfrom⟩
      · rcases ih1 r hr with h | ⟨c,hc,e,he,h⟩
        · exact .inl (by simp [h])
        · exact .inr ⟨c,by simp [hc],e,by simp [he],h⟩
    · intro r hr
      have hnew : ∀ q,q=a ∨ q=b → ∃ m∈{ a with order := a.order+1 }::(mergeRegions rest).2,
          ∃ c∈a::b::rest,∃ e∈a::b::rest,MergedFrom m c e ∧ (q=c ∨ q=e) := fun q hq =>
        ⟨_,List.mem_cons_self,a,by simp,b,by simp,hfrom,hq⟩
      rcases List.mem_cons.mp hr with rfl | hr
      · exact .inr (hnew r (.inl rfl))
      rcases List.mem_cons.mp hr with rfl | hr
      · exact .inr (hnew r (.inr rfl))
      rcases ih2 r hr with h | ⟨m,hm',c,hc,e,he,h⟩
      · exact .inl (List.mem_cons_of_mem _ h)
      · exact .inr ⟨m,List.mem_cons_of_mem _ hm',c,by simp [hc],e,by simp [he],h⟩
  | case2 a b rest hm ih =>
    have heq : (mergeRegions (a::b::rest)).2=a::(mergeRegions (b::rest)).2 := by
      rw [mergeRegions,if_neg hm]
    rw [heq] at hv' ⊢
    obtain ⟨ih1,ih2⟩ := ih (fun q hq => hv q (List.mem_cons_of_mem _ hq))
      (fun q hq => hv' q (List.mem_cons_of_mem _ hq)) (List.pairwise_cons.mp hs).2
    constructor
    · intro r hr
      rcases List.mem_cons.mp hr with rfl | hr
      · exact .inl List.mem_cons_self
      · rcases ih1 r hr with h | ⟨c,hc,e,he,h⟩
        · exact .inl (List.mem_cons_of_mem _ h)
        · exact .inr ⟨c,List.mem_cons_of_mem _ hc,e,List.mem_cons_of_mem _ he,h⟩
    · intro r hr
      rcases List.mem_cons.mp hr with rfl | hr
      · exact .inl List.mem_cons_self
      · rcases ih2 r hr with h | ⟨m,hm',c,hc,e,he,h⟩
        · exact .inl (List.mem_cons_of_mem _ h)
        · exact .inr ⟨m,List.mem_cons_of_mem _ hm',c,List.mem_cons_of_mem _ hc,e,
            List.mem_cons_of_mem _ he,h⟩
  | case3 l hne =>
    rcases l with _ | ⟨a,_ | ⟨b,rest⟩⟩
    · simp [mergeRegions]
    · exact ⟨fun r hr => .inl hr,fun r hr => .inl hr⟩
    · exact absurd rfl (hne a b rest)

/-! ## The answers of a table that is sorted and merged -/

theorem order_lt_of_notBefore (h : isRegionBefore a b=false) :
    b.order.toNat≤a.order.toNat ∧ (a.order=b.order → b.base.toNat≤a.base.toNat) := by
  have hn := mt (isRegionBefore_iff a b).mpr (by rw [h]; decide)
  simp only [not_or,not_and,BitVec.not_lt,BitVec.le_def] at hn
  exact hn

theorem exists_foremost (hr : r∈l) (hc : r.contains addr=true) : ∃ q,Foremost l addr q := by
  have hw := isRegionBefore_strictWeak (x := x)
  have hacc : (exchangeSort (fun _ _ => false) isRegionBefore l).1=false :=
    exchangeSort_accepts (fun _ _ => rfl) l (List.pairwise_of_forall fun _ _ => rfl)
  have hp := exchangeSort_perm (fun _ _ => false) isRegionBefore l
  rcases @firstMatch_sorted _ _ (fun q => q.contains addr) (fun _ => true) _
    (exchangeSort_sorted hw l hacc) hw.irrefl with ⟨q,hq,hqc,hleast,-⟩ | ⟨hnone,-⟩
  · exact ⟨q,Foremost.perm hp ⟨hq,hqc,hleast⟩⟩
  · have := hnone r (hp.mem_iff.mpr hr)
    rw [hc] at this
    cases this

/-- The second table is coherent and answers on `P` as the first one does. -/
structure Keeps (P : Word x → Prop) (l l' : List (Memregion x)) : Prop where
  coherent : Coherent P l'
  foremost : ∀ addr,P addr → ∀ r,Foremost l addr r →
    ∃ r',Foremost l' addr r' ∧ Alike r'.flags r.flags
  none : ∀ addr,(∀ r∈l,r.contains addr=false) → ∀ r∈l',r.contains addr=false

theorem Keeps.trans {l l1 l2 : List (Memregion x)} (h1 : Keeps P l l1) (h2 : Keeps P l1 l2) :
    Keeps P l l2 where
  coherent := h2.coherent
  foremost addr hp r hr := by
    obtain ⟨r1,hr1,ha1⟩ := h1.foremost addr hp r hr
    obtain ⟨r2,hr2,ha2⟩ := h2.foremost addr hp r1 hr1
    exact ⟨r2,hr2,ha2.trans ha1⟩
  none addr h := h2.none addr (h1.none addr h)

theorem Keeps.of_perm {l l' : List (Memregion x)} (hp : l.Perm l') (h : Coherent P l) :
    Keeps P l l' where
  coherent := h.perm hp
  foremost _ _ r hr := ⟨r,hr.perm hp,fun _ => rfl⟩
  none _ hn r hr := hn r (hp.mem_iff.mpr hr)

/-- Two valid regions of one size over an address have the same base, below the full width. -/
theorem base_eq_of_holds (ha : isRegionValid a=true) (hb : isRegionValid b=true)
    (ho : a.order=b.order) (hlt : a.order.toNat<x.bits) (h1 : a.Holds addr) (h2 : b.Holds addr) :
    a.base=b.base :=
  (overlap_nested (isRegionValid_aligned ha hlt).base
    (isRegionValid_aligned hb (ho ▸ hlt)).base ⟨addr,h1,h2⟩).2 ho

theorem MergedFrom.order_lt {m : Memregion x} (h : MergedFrom m a b)
    (hm : isRegionValid m=true) : a.order.toNat<x.bits := by
  have hle := ((isRegionValid_iff m).mp hm).2.1
  rw [h.order] at hle
  exact hle

/-- A region as large as a union of two, over a common address and not behind it, is its block. -/
theorem MergedFrom.base_eq {m q : Memregion x} (h : MergedFrom m a b) (hm : isRegionValid m=true)
    (hq : isRegionValid q=true) (ho : q.order=m.order) (hle : q.base.toNat ≤ m.base.toNat)
    (h1 : m.Holds addr) (h2 : q.Holds addr) : q.base=m.base := by
  rcases Nat.lt_or_ge q.order.toNat x.bits with hlt | hge
  · exact base_eq_of_holds hq hm ho hlt h2 h1
  · have hfull : a.order.toNat+1=x.bits := by
      rw [← h.order,← ho]
      exact Nat.le_antisymm ((isRegionValid_iff q).mp hq).2.1 hge
    have hdvd := h.aligned
    rw [hfull] at hdvd
    have hzero := Nat.eq_zero_of_dvd_of_lt hdvd a.base.isLt
    rw [h.base,hzero] at hle
    refine BitVec.eq_of_toNat_eq ?_
    rw [h.base,hzero]
    exact Nat.le_zero.mp hle

variable (hv : ∀ r∈l,isRegionValid r=true) (hv' : ∀ r∈(mergeRegions l).2,isRegionValid r=true)
  (hs : l.Pairwise (fun a b => isRegionBefore b a=false)) (hco : Coherent P l)
include hv hv' hs

theorem mergeRegions_filledBy : FilledBy l (mergeRegions l).2 := by
  intro r hr
  rcases (mergeRegions_mem hv hv' hs).1 r hr with h | ⟨c,hc,e,he,h⟩
  · exact .region r h rfl
  · rw [h.flags]
    exact h.fills hc he

include hco

theorem mergeRegions_coherent : Coherent P (mergeRegions l).2 :=
  hco.of_filledBy (mergeRegions_filledBy hv hv' hs)

/-- A region that decides before the merging pass and one that decides after it answer alike. -/
theorem mergeRegions_alike (hp : P addr) {r0 r' : Memregion x} (h0 : Foremost l addr r0)
    (h' : Foremost (mergeRegions l).2 addr r') : Alike r'.flags r0.flags := by
  obtain ⟨hfrom,hinto⟩ := mergeRegions_mem hv hv' hs
  have hv0 := hv r0 h0.mem
  have hhold0 := (contains_iff_holds hv0 addr).mp h0.contains
  have hhold' := (contains_iff_holds (hv' r' h'.mem) addr).mp h'.contains
  -- What the union that took in `r0` says about the first region of the new table.
  have hunion : ∀ m∈(mergeRegions l).2,∀ a b,MergedFrom m a b → r0=a ∨ r0=b →
      m.Holds addr ∧ r'.order.toNat≤r0.order.toNat+1 ∧ r0.flags=a.flags ∧
        r0.order.toNat<x.bits ∧ m.order.toNat=r0.order.toNat+1 ∧
        (r'.order=m.order → r'.base.toNat ≤ m.base.toNat) := by
    intro m hm a b hmf hab
    have hmh : m.Holds addr := by
      rw [hmf.holds]
      rcases hab with rfl | rfl
      · exact .inl hhold0
      · exact .inr hhold0
    have hle := order_lt_of_notBefore
      (h'.least m hm ((contains_iff_holds (hv' m hm) addr).mpr hmh))
    have hord : r0.order=a.order ∧ r0.flags=a.flags := by
      rcases hab with rfl | rfl
      · exact ⟨rfl,rfl⟩
      · exact ⟨hmf.sameOrder,hmf.sameFlags⟩
    refine ⟨hmh,?_,hord.2,?_,?_,fun h => hle.2 h.symm⟩
    · rw [hord.1,← hmf.order]
      exact hle.1
    · rw [hord.1]
      exact hmf.order_lt (hv' m hm)
    · rw [hord.1]
      exact hmf.order
  rcases hfrom r' h'.mem with hr'l | ⟨a,ha,b,hb,hmf⟩
  · have hge := (order_lt_of_notBefore (h0.least r' hr'l h'.contains)).1
    rcases hinto r0 h0.mem with hkept | ⟨m,hm,a,ha,b,hb,hmf,hab⟩
    · have hties := mt noTies_iff.mpr (a := ¬(r'.order=r0.order ∧ r'.base=r0.base)) (by
        rw [h0.least r' hr'l h'.contains,h'.least r0 hkept h0.contains]
        decide)
      rw [not_not] at hties
      exact hco.alike hr'l h0.mem hp hhold0 hties.1 hties.2
    · obtain ⟨hmh,hle,hflags,hlt,hmo,hbase⟩ := hunion m hm a b hmf hab
      rcases Nat.lt_or_ge r'.order.toNat (r0.order.toNat+1) with hsmall | hlarge
      · have ho : r'.order=r0.order := BitVec.eq_of_toNat_eq (by omega)
        exact hco.alike hr'l h0.mem hp hhold0 ho
          (base_eq_of_holds (hv r' hr'l) hv0 ho (by rw [ho]; exact hlt) hhold' hhold0)
      · have ho : r'.order=m.order := BitVec.eq_of_toNat_eq (by omega)
        have hb' := hmf.base_eq (hv' m hm) (hv r' hr'l) ho (hbase ho) hmh hhold'
        have hfill := hmf.fills ha hb
        rw [← ho,← hb'] at hfill
        rw [hflags]
        exact (hco r' hr'l ⟨addr,hp,hhold'⟩ _ hfill).symm
  · obtain ⟨c,hc,hch,hco',hcf⟩ : ∃ c∈l,c.Holds addr ∧ c.order=a.order ∧ c.flags=a.flags := by
      rcases hmf.holds.mp hhold' with h | h
      · exact ⟨a,ha,h,rfl,rfl⟩
      · exact ⟨b,hb,h,hmf.sameOrder,hmf.sameFlags⟩
    have hge := (order_lt_of_notBefore
      (h0.least c hc ((contains_iff_holds (hv c hc) addr).mpr hch))).1
    have hr'o := hmf.order
    rw [hco'] at hge
    rcases hinto r0 h0.mem with hkept | ⟨m,hm,a1,-,b1,-,hmf1,hab⟩
    · have := (order_lt_of_notBefore (h'.least r0 hkept h0.contains)).1
      omega
    · obtain ⟨-,hle,-,hlt,-⟩ := hunion m hm a1 b1 hmf1 hab
      have ho : c.order=r0.order := by
        rw [hco']
        exact BitVec.eq_of_toNat_eq (by omega)
      rw [hmf.flags,← hcf]
      exact hco.alike hc h0.mem hp hhold0 ho
        (base_eq_of_holds (hv c hc) hv0 ho (by rw [ho]; exact hlt) hch hhold0)

theorem mergeRegions_keeps : Keeps P l (mergeRegions l).2 where
  coherent := mergeRegions_coherent hv hv' hs hco
  foremost addr hp r hr := by
    have hhold := (contains_iff_holds (hv r hr.mem) addr).mp hr.contains
    obtain ⟨q,hq,hqc⟩ : ∃ q∈(mergeRegions l).2,q.contains addr=true := by
      rcases (mergeRegions_mem hv hv' hs).2 r hr.mem with h | ⟨m,hm,a,-,b,-,hmf,hab⟩
      · exact ⟨r,h,hr.contains⟩
      · refine ⟨m,hm,(contains_iff_holds (hv' m hm) addr).mpr (hmf.holds.mpr ?_)⟩
        rcases hab with rfl | rfl
        · exact .inl hhold
        · exact .inr hhold
    obtain ⟨r',hr'⟩ := exists_foremost hq hqc
    exact ⟨r',hr',mergeRegions_alike hv hv' hs hco hp hr hr'⟩
  none addr hn r hr := by
    rcases (mergeRegions_mem hv hv' hs).1 r hr with h | ⟨a,ha,b,hb,hmf⟩
    · exact hn r h
    · by_contra hc
      have hh := (contains_iff_holds (hv' r hr) addr).mp (by simpa using hc)
      rcases hmf.holds.mp hh with h | h
      · have := (contains_iff_holds (hv a ha) addr).mpr h
        rw [hn a ha] at this
        cases this
      · have := (contains_iff_holds (hv b hb) addr).mpr h
        rw [hn b hb] at this
        cases this

omit hv hv' hs hco

/-- The rule of the loop that sorts and merges: what a sort and a merging pass keep holds of the table it
leaves. -/
theorem settleRegions_rule {I : List (Memregion x) → Prop} (hperm : ∀ l l',l.Perm l' → I l → I l')
    (hmerge : ∀ l,(∀ r∈l,isRegionValid r=true) → (∀ r∈(mergeRegions l).2,isRegionValid r=true) →
      l.Pairwise (fun a b => isRegionBefore b a=false) → I l → I (mergeRegions l).2)
    (hok : (settleRegions plat fw n root count).1=SBI_OK) (h : I root.memregions) :
    I (settleRegions plat fw n root count).2.1.memregions := by
  induction n generalizing root count with
  | zero =>
    have hne : SBI_EFAIL≠SBI_OK := by decide
    exact absurd hok hne
  | succ n ih =>
    have hrc := settleRegions_first hok
    have hsane := sanitizeDomain_sane hrc
    rw [sanitizeDomain_sorted hrc] at hsane
    have hsort := hperm _ _ (sorted_perm root).symm h
    by_cases hm : (mergeRegions root.sorted.memregions).1=0
    · rw [settleRegions_settled hrc hm]
      exact hsort
    · rw [settleRegions_merged hrc hm] at hok ⊢
      have hvalid' := ((sanitizeDomain_ok_iff _ _ _).mp (settleRegions_first hok)).1.valid
      have hmem := merged_memregions hsane.valid
      rw [hmem] at hvalid'
      refine ih hok ?_
      rw [hmem]
      exact hmerge _ hsane.valid hvalid' hsane.sorted hsort

/-- In a sorted table a foremost region answers. -/
theorem checkAddr_foremost (hs : d.memregions.Pairwise (fun a b => isRegionBefore b a=false))
    {mode : Nat} (hm : mode≠PRV_M) (addr accessFlags : Word x) :
    (∃ r,Foremost d.memregions addr r ∧
        sbiDomainCheckAddr d addr mode accessFlags=r.permits accessFlags) ∨
      (∀ r∈d.memregions,r.contains addr=false) ∧
        sbiDomainCheckAddr d addr mode accessFlags=false := by
  rw [sbiDomainCheckAddr_firstMatch d addr hm]
  rcases @firstMatch_sorted _ _ (fun r => r.contains addr) _ _ hs
    isRegionBefore_strictWeak.irrefl with ⟨r,hr,hc,hl,hv⟩ | hnone
  · exact .inl ⟨r,⟨hr,hc,hl⟩,hv⟩
  · exact .inr hnone

theorem Coherent.foremost_alike {r s : Memregion x} (h : Coherent P l) (hp : P addr)
    (hv : ∀ r∈l,isRegionValid r=true) (hr : Foremost l addr r)
    (hs : Foremost l addr s) : Alike r.flags s.flags := by
  have hties := mt noTies_iff.mpr (a := ¬(r.order=s.order ∧ r.base=s.base)) (by
    rw [hs.least r hr.mem hr.contains,hr.least s hs.mem hs.contains]
    decide)
  rw [not_not] at hties
  exact h.alike hr.mem hs.mem hp ((contains_iff_holds (hv s hs.mem) addr).mp hs.contains)
    hties.1 hties.2

end OpenSBI
