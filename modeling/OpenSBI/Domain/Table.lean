import Mathlib.Logic.Function.Basic
import OpenSBI.Domain.RootMemregs
import OpenSBI.Framework.Transition
import OpenSBI.Riscv.SbiMath

namespace OpenSBI

open Framework

variable {x : Xlen}

def SBI_DOMAIN_MAX_INDEX : Nat := 32

/-- The global state of `sbi_domain.c`. Domains are named by their addresses; `domidx` is
`domidx_to_domain_table` up to `domain_count`. -/
structure DomainTable (x : Xlen) where
  store : Nat → SbiDomain x
  domidx : List Nat
  hartidToDomain : Nat → Option Nat
  finalized : Bool
  rootMemregsCount : Nat

/-- The address of `root`. -/
def ROOT : Nat := 0

/-- `sbi_domain_is_assigned_hart()`. -/
def sbiDomainIsAssignedHart (dom : Option (SbiDomain x)) (hartid : Nat) : Bool :=
  match dom with
  | some d => sbiHartmaskTestHart hartid d.assignedHarts
  | none => false

namespace DomainTable

/-- `sbi_hartid_to_domain()`. -/
def domainOf (t : DomainTable x) (hartid : Nat) : Option (SbiDomain x) :=
  (t.hartidToDomain hartid).map t.store

/-- The domain at `q` after hart `i` is taken from the domain it had. -/
def unassign (t : DomainTable x) (i q : Nat) : SbiDomain x :=
  if t.hartidToDomain i=some q then
    { t.store q with assignedHarts := sbiHartmaskClearHart i (t.store q).assignedHarts }
  else t.store q

/-- One round of the assignment loop of `sbi_domain_register()` for hart `i`. -/
def assignHart (coldHartid p : Nat) (t : DomainTable x) (i : Nat) : DomainTable x :=
  if !(t.store p).possibleHarts.any (sbiHartmaskTestHart i) then t
  else
    let store := t.unassign i
    { t with
      store := Function.update store p { store p with
        assignedHarts := sbiHartmaskSetHart i (store p).assignedHarts
        bootHartid := if i=coldHartid then coldHartid else (store p).bootHartid }
      hartidToDomain := Function.update t.hartidToDomain i (some p) }

end DomainTable

/-- `sbi_domain_register()` of the domain at `p`. -/
def sbiDomainRegister (plat : Platform) (fw : Memregion x) (coldHartid : Nat) (t : DomainTable x)
    (p : Nat) (assignMask : Hartmask) : Int × DomainTable x :=
  if t.finalized then (SBI_EINVAL,t)
  else if p∈t.domidx then (SBI_EALREADY,t)
  else if SBI_DOMAIN_MAX_INDEX≤t.domidx.length then (SBI_ENOSPC,t)
  else
    let r := sanitizeDomain plat fw (t.store p)
    if r.1≠SBI_OK then (r.1,{ t with store := Function.update t.store p r.2 })
    else
      let t' := { t with
        store := Function.update t.store p { r.2 with
          index := t.domidx.length,assignedHarts := sbiHartmaskClearAll }
        domidx := t.domidx++[p] }
      (SBI_OK,(hartsOf assignMask).foldl (DomainTable.assignHart coldHartid p) t')

theorem mem_hartsOf {m : Hartmask} {h : Nat} : h∈hartsOf m ↔ sbiHartmaskTestHart h m=true := by
  simp only [hartsOf,List.mem_filter,List.mem_range]
  exact ⟨fun hm => hm.2,fun hm => ⟨testHart_lt hm,hm⟩⟩

namespace DomainTable

/-- The two sides of the assignment agree, and the cold boot hart boots the domain it is assigned
to. -/
structure Consistent (t : DomainTable x) (coldHartid : Nat) : Prop where
  owner : ∀ h p,t.hartidToDomain h=some p →
    p∈t.domidx ∧ sbiHartmaskTestHart h (t.store p).assignedHarts=true ∧
      (t.store p).possibleHarts.any (sbiHartmaskTestHart h)=true
  assigned : ∀ p∈t.domidx,∀ h,sbiHartmaskTestHart h (t.store p).assignedHarts=true →
    t.hartidToDomain h=some p
  boot : ∀ p,t.hartidToDomain coldHartid=some p → (t.store p).bootHartid=coldHartid

/-- The registered domains are as `sanitize_domain()` left them. -/
def Sane (t : DomainTable x) : Prop := ∀ p∈t.domidx,SaneDomain (t.store p)

variable {t : DomainTable x} {coldHartid p i : Nat}

/-- The fields an assignment leaves alone. -/
structure SameBody (d d' : SbiDomain x) : Prop where
  possibleHarts : d'.possibleHarts=d.possibleHarts
  regions : d'.regions=d.regions
  nextAddr : d'.nextAddr=d.nextAddr
  nextMode : d'.nextMode=d.nextMode

theorem SameBody.sane {d d' : SbiDomain x} (h : SameBody d d') (hd : SaneDomain d) :
    SaneDomain d' := by
  have hm : d'.memregions=d.memregions := by rw [SbiDomain.memregions,h.regions]; rfl
  refine ⟨by rw [hm]; exact hd.valid,by rw [hm]; exact hd.sorted,?_,?_⟩
  · rw [h.nextMode]; exact hd.nextMode
  · rw [h.nextMode,h.nextAddr,sbiDomainCheckAddr,hm]
    exact hd.nextAddr

theorem unassign_body (t : DomainTable x) (i q : Nat) : SameBody (t.store q) (t.unassign i q) := by
  unfold unassign
  split_ifs <;> exact ⟨rfl,rfl,rfl,rfl⟩

theorem assignHart_skip (h : (t.store p).possibleHarts.any (sbiHartmaskTestHart i)=false) :
    assignHart coldHartid p t i=t := by
  rw [assignHart,h]
  rfl

theorem assignHart_take (h : (t.store p).possibleHarts.any (sbiHartmaskTestHart i)=true) :
    assignHart coldHartid p t i={ t with
      store := Function.update (t.unassign i) p { t.unassign i p with
        assignedHarts := sbiHartmaskSetHart i (t.unassign i p).assignedHarts
        bootHartid := if i=coldHartid then coldHartid else (t.unassign i p).bootHartid }
      hartidToDomain := Function.update t.hartidToDomain i (some p) } := by
  rw [assignHart,h]
  rfl

theorem assignHart_body (coldHartid p : Nat) (t : DomainTable x) (i q : Nat) :
    SameBody (t.store q) ((assignHart coldHartid p t i).store q) := by
  have hb := unassign_body t i q
  cases h : (t.store p).possibleHarts.any (sbiHartmaskTestHart i) with
  | false => rw [assignHart_skip h]; exact ⟨rfl,rfl,rfl,rfl⟩
  | true =>
    rw [assignHart_take h]
    by_cases hq : q=p
    · subst hq
      simp only [Function.update_self]
      exact ⟨hb.possibleHarts,hb.regions,hb.nextAddr,hb.nextMode⟩
    · simpa only [Function.update_of_ne hq] using hb

theorem assignHart_domidx (coldHartid p : Nat) (t : DomainTable x) (i : Nat) :
    (assignHart coldHartid p t i).domidx=t.domidx := by
  cases h : (t.store p).possibleHarts.any (sbiHartmaskTestHart i) with
  | false => rw [assignHart_skip h]
  | true => rw [assignHart_take h]

private theorem unassign_test (t : DomainTable x) (i h q : Nat) :
    sbiHartmaskTestHart h (t.unassign i q).assignedHarts=true ↔
      sbiHartmaskTestHart h (t.store q).assignedHarts=true ∧
        ¬(h=i ∧ t.hartidToDomain i=some q) := by
  unfold unassign
  split_ifs with hq
  · simp [hq]
  · simp [hq]

/-- One round of the assignment keeps both sides of it in step. -/
theorem Consistent.assignHart (ht : t.Consistent coldHartid) (hp : p∈t.domidx) :
    (assignHart coldHartid p t i).Consistent coldHartid := by
  cases hposs : (t.store p).possibleHarts.any (sbiHartmaskTestHart i) with
  | false => rwa [assignHart_skip hposs]
  | true =>
    have hbody := assignHart_body coldHartid p t i
    have hi : i<SBI_HARTMASK_MAX_BITS := by
      cases hm : (t.store p).possibleHarts with
      | none => rw [hm] at hposs; cases hposs
      | some m => rw [hm] at hposs; exact testHart_lt hposs
    have htest : ∀ h q,sbiHartmaskTestHart h
        ((DomainTable.assignHart coldHartid p t i).store q).assignedHarts=true ↔
          h=i ∧ q=p ∨ sbiHartmaskTestHart h (t.store q).assignedHarts=true ∧
            ¬(h=i ∧ t.hartidToDomain i=some q) := by
      intro h q
      rw [assignHart_take hposs,← unassign_test]
      by_cases hq : q=p
      · subst hq
        simp only [Function.update_self,testHart_set,Bool.or_eq_true,Bool.and_eq_true,
          decide_eq_true_iff,and_true]
        constructor
        · intro hm
          exact hm.elim .inr fun hm => .inl hm.2
        · intro hm
          exact hm.elim (fun hm => .inr ⟨hm ▸ hi,hm⟩) .inl
      · simp [hq]
    have htable : ∀ h,(DomainTable.assignHart coldHartid p t i).hartidToDomain h=
        if h=i then some p else t.hartidToDomain h := by
      intro h
      rw [assignHart_take hposs]
      exact Function.update_apply _ _ _ _
    refine ⟨fun h q hq => ?_,fun q hq h hm => ?_,fun q hq => ?_⟩
    · rw [assignHart_domidx,htest,(hbody q).possibleHarts]
      rw [htable] at hq
      split_ifs at hq with hhi
      · obtain rfl := Option.some.inj hq
        subst hhi
        exact ⟨hp,.inl ⟨rfl,rfl⟩,hposs⟩
      · obtain ⟨h1,h2,h3⟩ := ht.owner h q hq
        exact ⟨h1,.inr ⟨h2,fun hc => hhi hc.1⟩,h3⟩
    · rw [assignHart_domidx] at hq
      rw [htable]
      rcases (htest h q).mp hm with ⟨rfl,rfl⟩ | ⟨hold,hne⟩
      · exact if_pos rfl
      · have hown := ht.assigned q hq h hold
        rw [if_neg]
        · exact hown
        · rintro rfl; exact hne ⟨rfl,hown⟩
    · rw [htable] at hq
      rw [assignHart_take hposs]
      by_cases hqp : q=p
      · subst hqp
        simp only [Function.update_self]
        split_ifs with hc
        · rfl
        · rw [if_neg (Ne.symm hc)] at hq
          have hb := ht.boot q hq
          unfold unassign
          split_ifs <;> exact hb
      · simp only [Function.update_of_ne hqp]
        split_ifs at hq with hc
        · exact absurd (Option.some.inj hq).symm hqp
        · have hb := ht.boot q hq
          unfold unassign
          split_ifs <;> exact hb

private theorem foldl_assignHart (l : List Nat) (ht : t.Consistent coldHartid) (hp : p∈t.domidx) :
    (l.foldl (DomainTable.assignHart coldHartid p) t).Consistent coldHartid := by
  induction l generalizing t with
  | nil => exact ht
  | cons i l ih =>
    rw [List.foldl_cons]
    refine ih (ht.assignHart hp) ?_
    rwa [assignHart_domidx]

/-- The table with a so far unassigned domain appended. -/
private theorem append_consistent {d : SbiDomain x} {l : List Nat} (ht : t.Consistent coldHartid)
    (hp : p∉t.domidx) (hl : l=t.domidx++[p])
    (hclear : d.assignedHarts=sbiHartmaskClearAll) :
    Consistent { t with store := Function.update t.store p d,domidx := l } coldHartid := by
  have hmem : ∀ q,q∈l → q≠p → q∈t.domidx := by
    intro q hq hne
    rw [hl,List.mem_append,List.mem_singleton] at hq
    exact hq.resolve_right hne
  have hown : ∀ h q,t.hartidToDomain h=some q → q≠p :=
    fun h q hq he => hp (he ▸ (ht.owner h q hq).1)
  refine ⟨fun h q hq => ?_,fun q hq h hm => ?_,fun q hq => ?_⟩
  · have hqp := hown h q hq
    obtain ⟨h1,h2,h3⟩ := ht.owner h q hq
    simp only [Function.update_of_ne hqp]
    refine ⟨?_,h2,h3⟩
    rw [hl]
    exact List.mem_append_left [p] h1
  · by_cases hqp : q=p
    · subst hqp
      simp only [Function.update_self,hclear,testHart_clearAll] at hm
      cases hm
    · simp only [Function.update_of_ne hqp] at hm
      exact ht.assigned q (hmem q hq hqp) h hm
  · simp only [Function.update_of_ne (hown coldHartid q hq)]
    exact ht.boot q hq

/-- A change of a domain that is not registered is not seen. -/
theorem Consistent.unregistered {d : SbiDomain x} (ht : t.Consistent coldHartid)
    (hp : p∉t.domidx) :
    Consistent { t with store := Function.update t.store p d } coldHartid := by
  have hne : ∀ q,q∈t.domidx → Function.update t.store p d q=t.store q :=
    fun q hq => Function.update_of_ne (by rintro rfl; exact hp hq) _ _
  refine ⟨fun h q hq => ?_,fun q hq h hm => ?_,fun q hq => ?_⟩
  · have hown := ht.owner h q hq
    simp only [hne q hown.1]
    exact hown
  · simp only [hne q hq] at hm
    exact ht.assigned q hq h hm
  · simp only [hne q (ht.owner coldHartid q hq).1]
    exact ht.boot q hq

/-- Registration keeps the table consistent, whether it succeeds or not. -/
theorem Consistent.register (ht : t.Consistent coldHartid) (plat : Platform) (fw : Memregion x)
    (p : Nat) (assignMask : Hartmask) :
    (sbiDomainRegister plat fw coldHartid t p assignMask).2.Consistent coldHartid := by
  unfold sbiDomainRegister
  split_ifs with hfin hp hroom
  · exact ht
  · exact ht
  · exact ht
  · by_cases hrc : (sanitizeDomain plat fw (t.store p)).1=SBI_OK
    · simp only [hrc,ne_eq,not_true_eq_false,if_false]
      exact foldl_assignHart _ (append_consistent ht hp rfl rfl) (by simp)
    · simp only [ne_eq,hrc,not_false_eq_true,if_true]
      exact ht.unregistered hp

end DomainTable

namespace DomainTable

variable {t : DomainTable x} {coldHartid p : Nat} {plat : Platform} {fw : Memregion x}

theorem foldl_body (coldHartid p : Nat) (l : List Nat) (t : DomainTable x) (q : Nat) :
    SameBody (t.store q) ((l.foldl (assignHart coldHartid p) t).store q) ∧
      (l.foldl (assignHart coldHartid p) t).domidx=t.domidx := by
  induction l generalizing t with
  | nil => exact ⟨⟨rfl,rfl,rfl,rfl⟩,rfl⟩
  | cons i l ih =>
    obtain ⟨h,hidx⟩ := ih (assignHart coldHartid p t i)
    have h1 := assignHart_body coldHartid p t i q
    refine ⟨⟨h.possibleHarts.trans h1.possibleHarts,h.regions.trans h1.regions,
      h.nextAddr.trans h1.nextAddr,h.nextMode.trans h1.nextMode⟩,?_⟩
    rw [List.foldl_cons,hidx,assignHart_domidx]

/-- The harts after the assignment loop: those of the list that are possible have moved. -/
theorem foldl_table (coldHartid p : Nat) (l : List Nat) (t : DomainTable x) (h : Nat) :
    (l.foldl (assignHart coldHartid p) t).hartidToDomain h=
      if h∈l ∧ (t.store p).possibleHarts.any (sbiHartmaskTestHart h)=true then some p
      else t.hartidToDomain h := by
  induction l generalizing t with
  | nil => simp
  | cons i l ih =>
    rw [List.foldl_cons,ih,(assignHart_body coldHartid p t i p).possibleHarts]
    cases hposs : (t.store p).possibleHarts.any (sbiHartmaskTestHart i) with
    | false =>
      rw [assignHart_skip hposs]
      apply if_congr _ rfl rfl
      apply and_congr_left
      intro hp
      have hne : h≠i := by
        rintro rfl
        rw [hposs] at hp
        cases hp
      rw [List.mem_cons,or_iff_right hne]
    | true =>
      rw [assignHart_take hposs]
      by_cases hi : h=i
      · subst hi
        simp [hposs]
      · simp only [Function.update_of_ne hi]
        exact if_congr (and_congr_left' (List.mem_cons.trans (or_iff_right hi)).symm) rfl rfl

theorem foldl_finalized (coldHartid p : Nat) (l : List Nat) (t : DomainTable x) :
    (l.foldl (assignHart coldHartid p) t).finalized=t.finalized := by
  induction l generalizing t with
  | nil => rfl
  | cons i l ih =>
    rw [List.foldl_cons,ih]
    cases h : (t.store p).possibleHarts.any (sbiHartmaskTestHart i) with
    | false => rw [assignHart_skip h]
    | true => rw [assignHart_take h]

/-- The fields of a domain that its registration leaves alone. -/
structure SameEntry (d d' : SbiDomain x) : Prop where
  possibleHarts : d'.possibleHarts=d.possibleHarts
  nextAddr : d'.nextAddr=d.nextAddr
  nextMode : d'.nextMode=d.nextMode

theorem SameEntry.body {d d1 d2 : SbiDomain x} (h : SameEntry d d1) (hb : SameBody d1 d2) :
    SameEntry d d2 :=
  ⟨hb.possibleHarts.trans h.possibleHarts,hb.nextAddr.trans h.nextAddr,hb.nextMode.trans h.nextMode⟩

/-- The table after domain `p` is registered: a hart of the mask has moved if it is possible. -/
structure Registered (t : DomainTable x) (p : Nat) (assignMask : Hartmask) (t' : DomainTable x) : Prop where
  domidx : t'.domidx=t.domidx++[p]
  finalized : t'.finalized=t.finalized
  domain : SameEntry (t.store p) (t'.store p)
  others : ∀ q,q≠p → SameBody (t.store q) (t'.store q)
  hart : ∀ h,t'.hartidToDomain h=
    if sbiHartmaskTestHart h assignMask=true ∧
        (t.store p).possibleHarts.any (sbiHartmaskTestHart h)=true then some p
    else t.hartidToDomain h

/-- A registration with room for a new domain that can be sanitized. -/
theorem register_ok (plat : Platform) (fw : Memregion x) (coldHartid : Nat) (assignMask : Hartmask)
    (hfin : t.finalized=false) (hp : p∉t.domidx) (hroom : t.domidx.length<SBI_DOMAIN_MAX_INDEX)
    (hrc : (sanitizeDomain plat fw (t.store p)).1=SBI_OK) :
    ∃ t',sbiDomainRegister plat fw coldHartid t p assignMask=(SBI_OK,t') ∧
      t.Registered p assignMask t' := by
  have hs := sanitizeDomain_sameOwner plat fw (t.store p)
  rw [sbiDomainRegister,hfin,if_neg (by simp),if_neg hp,if_neg (not_le.mpr hroom)]
  simp only [hrc,ne_eq,not_true_eq_false,if_false]
  refine ⟨_,rfl,(foldl_body _ _ _ _ p).2,(foldl_finalized _ _ _ _).trans hfin.symm,?_,fun q hq => ?_,
    fun h => ?_⟩
  · apply SameEntry.body _ (foldl_body _ _ _ _ p).1
    simp only [Function.update_self]
    exact ⟨hs.possibleHarts,hs.next.2.1,hs.next.2.2⟩
  · have hb := (foldl_body coldHartid p (hartsOf assignMask) { t with
      store := Function.update t.store p { (sanitizeDomain plat fw (t.store p)).2 with
        index := t.domidx.length,assignedHarts := sbiHartmaskClearAll }
      domidx := t.domidx++[p] } q).1
    simpa only [Function.update_of_ne hq,hfin] using hb
  · rw [foldl_table]
    simp only [Function.update_self,mem_hartsOf,hs.possibleHarts]

/-- The outcomes of a registration: nothing changes, only the refused domain itself does, or the
domain is appended as sanitized, without harts, and harts are assigned to it. -/
theorem register_cases (plat : Platform) (fw : Memregion x) (coldHartid : Nat)
    (t : DomainTable x) (p : Nat) (assignMask : Hartmask) :
    ((sbiDomainRegister plat fw coldHartid t p assignMask).1≠SBI_OK ∧
        (sbiDomainRegister plat fw coldHartid t p assignMask).2=t) ∨
    (p∉t.domidx ∧ (sbiDomainRegister plat fw coldHartid t p assignMask).1≠SBI_OK ∧
        (sbiDomainRegister plat fw coldHartid t p assignMask).2={ t with
          store := Function.update t.store p (sanitizeDomain plat fw (t.store p)).2 }) ∨
    (p∉t.domidx ∧ (sbiDomainRegister plat fw coldHartid t p assignMask).1=SBI_OK ∧
      (sanitizeDomain plat fw (t.store p)).1=SBI_OK ∧
      (sbiDomainRegister plat fw coldHartid t p assignMask).2=
        (hartsOf assignMask).foldl (assignHart coldHartid p) { t with
          store := Function.update t.store p { (sanitizeDomain plat fw (t.store p)).2 with
            index := t.domidx.length,assignedHarts := sbiHartmaskClearAll }
          domidx := t.domidx++[p] }) := by
  have h1 : SBI_EINVAL≠SBI_OK := by decide
  have h2 : SBI_EALREADY≠SBI_OK := by decide
  have h3 : SBI_ENOSPC≠SBI_OK := by decide
  unfold sbiDomainRegister
  split_ifs with hfin hp hroom
  · exact .inl ⟨h1,rfl⟩
  · exact .inl ⟨h2,rfl⟩
  · exact .inl ⟨h3,rfl⟩
  · by_cases hrc : (sanitizeDomain plat fw (t.store p)).1=SBI_OK
    · simp only [hrc,ne_eq,not_true_eq_false,if_false]
      exact .inr (.inr ⟨hp,trivial,trivial,trivial⟩)
    · simp only [ne_eq,hrc,not_false_eq_true,if_true]
      exact .inr (.inl ⟨hp,trivial,trivial⟩)

/-- Registration keeps the registered domains sane. -/
theorem Sane.register (ht : t.Sane) (plat : Platform) (fw : Memregion x) (coldHartid p : Nat)
    (assignMask : Hartmask) : (sbiDomainRegister plat fw coldHartid t p assignMask).2.Sane := by
  rcases register_cases plat fw coldHartid t p assignMask with
    ⟨-,h⟩ | ⟨hp,-,h⟩ | ⟨hp,-,hrc,h⟩ <;> rw [h]
  · exact ht
  · intro q hq
    have hne : q≠p := by rintro rfl; exact hp hq
    simp only [Function.update_of_ne hne]
    exact ht q hq
  · intro q hq
    obtain ⟨hbody,hidx⟩ := foldl_body coldHartid p (hartsOf assignMask) { t with
      store := Function.update t.store p { (sanitizeDomain plat fw (t.store p)).2 with
        index := t.domidx.length,assignedHarts := sbiHartmaskClearAll }
      domidx := t.domidx++[p] } q
    rw [hidx,List.mem_append,List.mem_singleton] at hq
    refine hbody.sane ?_
    by_cases hqp : q=p
    · subst hqp
      simp only [Function.update_self]
      exact SameBody.sane (d := (sanitizeDomain plat fw (t.store q)).2) ⟨rfl,rfl,rfl,rfl⟩
        (sanitizeDomain_sane hrc)
    · simp only [Function.update_of_ne hqp]
      exact ht q (hq.resolve_right hqp)

end DomainTable

/-! ## The mask of a window of harts -/

/-- Word `k` of the bitmap of a hartmask. -/
def sbiHartmaskBits (m : Hartmask) (k : Nat) : Word x := m.extractLsb' (k*x.bits) x.bits

/-- `sbi_domain_get_assigned_hartmask()`. -/
def sbiDomainGetAssignedHartmask (dom : Option (SbiDomain x)) (hbase : Nat) : Word x :=
  match dom with
  | none => 0
  | some d =>
      let bword := hbase/x.bits
      let boff := hbase%x.bits
      let ret := Word.shr (sbiHartmaskBits d.assignedHarts bword) boff
      if boff≠0 ∧ bword+1 < SBI_HARTMASK_MAX_BITS/x.bits then
        ret ||| Word.shl (sbiHartmaskBits d.assignedHarts (bword+1) &&& (Word.bit boff-1))
          (x.bits-boff)
      else ret

theorem getLsbD_hartmaskBits (m : Hartmask) (k i : Nat) :
    (sbiHartmaskBits m k : Word x).getLsbD i=
      (decide (i<x.bits) && sbiHartmaskTestHart (k*x.bits+i) m) := by
  rw [sbiHartmaskBits,BitVec.getLsbD_extractLsb',sbiHartmaskTestHart]

/-- The mask of a window has the bits of the harts the domain owns there. -/
theorem getLsbD_assignedHartmask (dom : Option (SbiDomain x)) (hbase : Nat) {i : Nat}
    (hi : i<x.bits) : (sbiDomainGetAssignedHartmask dom hbase).getLsbD i=
      sbiDomainIsAssignedHart dom (hbase+i) := by
  cases dom with
  | none => simp [sbiDomainGetAssignedHartmask,sbiDomainIsAssignedHart]
  | some d =>
    have hoff : hbase%x.bits<x.bits := Nat.mod_lt _ x.bits_pos
    have hdiv := Nat.div_add_mod' hbase x.bits
    have hlow : (Word.shr (sbiHartmaskBits d.assignedHarts (hbase/x.bits)) (hbase%x.bits) :
        Word x).getLsbD i=(decide (hbase%x.bits+i<x.bits) &&
          sbiHartmaskTestHart (hbase+i) d.assignedHarts) := by
      rw [Word.shr,Nat.mod_eq_of_lt hoff,BitVec.getLsbD_ushiftRight,getLsbD_hartmaskBits,
        ← Nat.add_assoc,hdiv]
    have hhigh : ∀ hb : hbase%x.bits≠0,
        (Word.shl (sbiHartmaskBits d.assignedHarts (hbase/x.bits+1) &&&
          (Word.bit (hbase%x.bits)-1)) (x.bits-hbase%x.bits) : Word x).getLsbD i=
          (decide (x.bits≤hbase%x.bits+i) && sbiHartmaskTestHart (hbase+i) d.assignedHarts) := by
      intro hb
      have hamount : (x.bits-hbase%x.bits)%x.bits=x.bits-hbase%x.bits :=
        Nat.mod_eq_of_lt (by omega)
      rw [Word.shl,hamount,BitVec.getLsbD_shiftLeft,BitVec.getLsbD_and,
        Word.getLsbD_bit_sub_one hoff,getLsbD_hartmaskBits]
      by_cases hge : x.bits≤hbase%x.bits+i
      · have hidx : (hbase/x.bits+1)*x.bits+(i-(x.bits-hbase%x.bits))=hbase+i := by
          rw [Nat.add_mul,Nat.one_mul]
          omega
        have h1 : ¬i<x.bits-hbase%x.bits := by omega
        have h2 : i-(x.bits-hbase%x.bits)<hbase%x.bits := by omega
        have h3 : i-(x.bits-hbase%x.bits)<x.bits := by omega
        rw [hidx]
        simp [hi,h1,h2,h3,hge]
      · have h1 : i<x.bits-hbase%x.bits := by omega
        simp [h1,hge]
    simp only [sbiDomainGetAssignedHartmask,sbiDomainIsAssignedHart]
    split_ifs with hb
    · rw [BitVec.getLsbD_or,hlow,hhigh hb.1]
      rcases Nat.lt_or_ge (hbase%x.bits+i) x.bits with hlt | hge
      · simp [hlt,Nat.not_le_of_lt hlt]
      · simp [hge,Nat.not_lt_of_le hge]
    · rw [hlow]
      rcases Nat.lt_or_ge (hbase%x.bits+i) x.bits with hlt | hge
      · simp [hlt]
      · -- The window ends with the last word of the mask.
        have hlast : SBI_HARTMASK_MAX_BITS ≤ (hbase/x.bits+1)*x.bits := by
          have hw : SBI_HARTMASK_MAX_BITS/x.bits≤hbase/x.bits+1 := by
            by_contra hc
            exact hb ⟨by omega,by omega⟩
          have hdvd : SBI_HARTMASK_MAX_BITS/x.bits*x.bits=SBI_HARTMASK_MAX_BITS := by
            cases x <;> rfl
          rw [← hdvd]
          exact Nat.mul_le_mul_right _ hw
        have hout : sbiHartmaskTestHart (hbase+i) d.assignedHarts=false := by
          rw [← Bool.not_eq_true]
          intro ht
          have := testHart_lt ht
          rw [Nat.add_mul,Nat.one_mul] at hlast
          omega
        simp [hout]
end OpenSBI
