import OpenSBI.Domain.Finalize

namespace OpenSBI

open Framework

variable {x : Xlen} {σ ρ : Type}

/-- What a read of element `i` of `domidx_to_domain_table` gives: behind the registered domains it is null,
and past the array whatever the memory there holds. -/
def DomainTable.entry (t : DomainTable x) (behind : Nat → Option Nat) (i : Nat) : Option Nat :=
  if i<SBI_DOMAIN_MAX_INDEX then t.domidx[i]? else behind i

/-- `sbi_domain_for_each()` from index `i` on, with the elements it reads. The loop body changes what it
works on or leaves the loop with a result; `none` is a loop that goes on. -/
def sbiDomainForEach (entry : Nat → Option Nat) (body : σ → Nat → Nat → Except ρ σ) :
    Nat → Nat → σ → Option (Except ρ σ×List Nat)
  | 0,_,_ => none
  | fuel+1,i,s =>
    match entry i with
    | none => some (.ok s,[i])
    | some d =>
      match body s i d with
      | .error r => some (.error r,[i])
      | .ok s' => (sbiDomainForEach entry body fuel (i+1) s').map fun r => (r.1,i::r.2)

/-- The loop body on each registered domain once, in the order of the indices, up to one that leaves. -/
def DomainTable.pass (t : DomainTable x) (body : σ → Nat → Nat → Except ρ σ) (s : σ) : Except ρ σ :=
  t.domidx.zipIdx.foldlM (fun s e => body s e.2 e.1) s

/-- Every loop over the domains is a pass over those registered and reads elements of the array only. -/
def DomainTable.IteratesInside (t : DomainTable x) : Prop :=
  ∀ (σ ρ : Type) (body : σ → Nat → Nat → Except ρ σ) (s : σ) (behind : Nat → Option Nat),
    ∃ fuel reads,sbiDomainForEach (t.entry behind) body fuel 0 s=some (t.pass body s,reads) ∧
      ∀ i∈reads,i<SBI_DOMAIN_MAX_INDEX

/-- Registered domains are listed once each and know their index. -/
structure DomainTable.Indexed (t : DomainTable x) : Prop where
  nodup : t.domidx.Nodup
  index : ∀ i p,t.domidx[i]?=some p → (t.store p).index=i

namespace DomainTable

variable {t : DomainTable x} {coldHartid p : Nat}

/-! ## The loop -/

theorem entry_of_lt (behind : Nat → Option Nat) {i : Nat} (h : i<SBI_DOMAIN_MAX_INDEX) :
    t.entry behind i=t.domidx[i]? := if_pos h

section Rounds

variable {entry : Nat → Option Nat} {body : σ → Nat → Nat → Except ρ σ} {i d fuel : Nat} {s s' : σ}
  {r : ρ}

theorem forEach_end (h : entry i=none) : sbiDomainForEach entry body (fuel+1) i s=some (.ok s,[i]) := by
  rw [sbiDomainForEach,h]

theorem forEach_leave (h : entry i=some d) (hb : body s i d=.error r) :
    sbiDomainForEach entry body (fuel+1) i s=some (.error r,[i]) := by
  simp only [sbiDomainForEach,h,hb]

theorem forEach_next (h : entry i=some d) (hb : body s i d=.ok s') :
    sbiDomainForEach entry body (fuel+1) i s=
      (sbiDomainForEach entry body fuel (i+1) s').map fun r => (r.1,i::r.2) := by
  simp only [sbiDomainForEach,h,hb]

end Rounds

/-- With a free element at the end the loop ends there. -/
theorem forEach_pass (hlen : t.domidx.length<SBI_DOMAIN_MAX_INDEX) (behind : Nat → Option Nat)
    (body : σ → Nat → Nat → Except ρ σ) {l : List Nat} {i fuel : Nat} (hl : t.domidx.drop i=l)
    (hi : i+l.length=t.domidx.length) (hfuel : l.length<fuel) (s : σ) :
    ∃ reads,sbiDomainForEach (t.entry behind) body fuel i s=
        some ((l.zipIdx i).foldlM (fun s e => body s e.2 e.1) s,reads) ∧
      ∀ j∈reads,j ≤ t.domidx.length := by
  induction l generalizing i fuel s with
  | nil =>
    obtain ⟨fuel,rfl⟩ := Nat.exists_eq_succ_of_ne_zero (Nat.ne_zero_of_lt hfuel)
    rw [List.length_nil] at hi
    have hnull : t.entry behind i=none := by rw [entry_of_lt behind (by omega),List.getElem?_eq_none (by omega)]
    exact ⟨[i],forEach_end hnull,List.forall_mem_singleton.mpr (by omega)⟩
  | cons d l ih =>
    obtain ⟨fuel,rfl⟩ := Nat.exists_eq_succ_of_ne_zero (Nat.ne_zero_of_lt hfuel)
    rw [List.length_cons] at hi hfuel
    have hd : t.entry behind i=some d := by
      have h := congrArg List.head? hl
      rwa [List.head?_drop,← entry_of_lt behind (by omega)] at h
    have htail : t.domidx.drop (i+1)=l := by
      rw [← List.tail_drop,hl]
      rfl
    rw [List.zipIdx_cons,List.foldlM_cons]
    dsimp only
    cases hb : body s i d with
    | error r => exact ⟨[i],forEach_leave hd hb,List.forall_mem_singleton.mpr (by omega)⟩
    | ok s' =>
      obtain ⟨reads,hr,hle⟩ := ih htail (by omega) (Nat.lt_of_succ_lt_succ hfuel) s'
      refine ⟨i::reads,?_,List.forall_mem_cons.mpr ⟨by omega,hle⟩⟩
      rw [forEach_next hd hb,hr]
      rfl

/-- A loop that is not left reads on as long as it does not find a null pointer. -/
theorem mem_reads_of_some {entry : Nat → Option Nat} {fuel i j : Nat} {r : Except Unit Unit} {reads : List Nat}
    (h : sbiDomainForEach entry (fun _ _ _ => .ok ()) fuel i ()=some (r,reads)) (hij : i ≤ j)
    (hsome : ∀ k,i ≤ k → k < j → (entry k).isSome=true) : j∈reads := by
  induction fuel generalizing i reads with
  | zero => cases h
  | succ fuel ih =>
    cases he : entry i with
    | none =>
      rw [forEach_end he] at h
      obtain ⟨rfl,rfl⟩ := Prod.mk.inj (Option.some.inj h)
      rcases Nat.eq_or_lt_of_le hij with rfl | hlt
      · exact List.mem_singleton_self i
      · have hi := hsome i le_rfl hlt
        rw [he] at hi
        cases hi
    | some d =>
      rw [forEach_next he rfl] at h
      obtain ⟨⟨r',reads'⟩,hr,heq⟩ := Option.map_eq_some_iff.mp h
      obtain ⟨rfl,rfl⟩ := Prod.mk.inj heq
      rcases Nat.eq_or_lt_of_le hij with rfl | hlt
      · exact List.mem_cons_self
      · exact List.mem_cons_of_mem i (ih hr hlt fun k hk => hsome k (by omega))

theorem iteratesInside_iff (hmax : t.domidx.length ≤ SBI_DOMAIN_MAX_INDEX) :
    t.IteratesInside ↔ t.domidx.length<SBI_DOMAIN_MAX_INDEX := by
  constructor
  · intro h
    obtain ⟨fuel,reads,hloop,hin⟩ := h Unit Unit (fun _ _ _ => .ok ()) () fun _ => none
    by_contra hfull
    have hlast : SBI_DOMAIN_MAX_INDEX∈reads := mem_reads_of_some hloop (Nat.zero_le _) fun k _ hk => by
      rw [entry_of_lt _ hk,List.getElem?_eq_getElem (by omega)]
      rfl
    exact absurd (hin _ hlast) (lt_irrefl _)
  · intro hlen σ ρ body s behind
    obtain ⟨reads,hloop,hle⟩ := forEach_pass hlen behind body (i := 0) rfl (Nat.zero_add _)
      (Nat.lt_succ_self _) s
    exact ⟨_,reads,hloop,fun j hj => (hle j hj).trans_lt hlen⟩

/-! ## The uses of the loop -/

/-- The search of `sbi_domain_register()` for the domain. -/
theorem pass_register (t : DomainTable x) (p : Nat) :
    t.pass (fun (_ : Unit) _ d => if d=p then .error SBI_EALREADY else .ok ()) ()=
      if p∈t.domidx then .error SBI_EALREADY else .ok () := by
  rw [pass]
  generalize 0=i
  induction t.domidx generalizing i with
  | nil => rfl
  | cons d l ih =>
    rw [List.zipIdx_cons,List.foldlM_cons]
    dsimp only
    by_cases h : d=p
    · rw [if_pos h,if_pos (h ▸ List.mem_cons_self)]
      rfl
    · rw [if_neg h]
      refine (ih (i+1)).trans (if_congr ?_ rfl rfl)
      rw [List.mem_cons,or_iff_right (Ne.symm h)]

/-- The loop of `sbi_domain_finalize()`. -/
theorem pass_finalize (t : DomainTable x) (env : FinalizeEnv x) (s : StartedHarts x) :
    t.pass (fun s _ p => let r := finalizeRound env t s p
      if r.1≠SBI_OK then .error r else .ok r.2) s=
      if (finalizeLoop env t t.domidx s).1≠SBI_OK then .error (finalizeLoop env t t.domidx s)
      else .ok (finalizeLoop env t t.domidx s).2 := by
  rw [pass]
  generalize 0=i
  generalize t.domidx=l
  induction l generalizing i s with
  | nil => rfl
  | cons p l ih =>
    rw [List.zipIdx_cons,List.foldlM_cons,finalizeLoop]
    dsimp only
    by_cases h : (finalizeRound env t s p).1≠SBI_OK
    · rw [if_pos h,if_pos h,if_pos h]
      rfl
    · rw [if_neg h,if_neg h]
      exact ih _ (i+1)

/-! ## What registrations leave -/

theorem assignHart_index (coldHartid p : Nat) (t : DomainTable x) (i q : Nat) :
    ((assignHart coldHartid p t i).store q).index=(t.store q).index := by
  have hu : ∀ q,(t.unassign i q).index=(t.store q).index := by
    intro q
    unfold unassign
    split_ifs <;> rfl
  cases h : (t.store p).possibleHarts.any (sbiHartmaskTestHart i) with
  | false => rw [assignHart_skip h]
  | true =>
    rw [assignHart_take h]
    by_cases hq : q=p
    · subst hq
      simpa only [Function.update_self] using hu q
    · simpa only [Function.update_of_ne hq] using hu q

theorem foldl_index (coldHartid p : Nat) (l : List Nat) (t : DomainTable x) (q : Nat) :
    ((l.foldl (assignHart coldHartid p) t).store q).index=(t.store q).index := by
  induction l generalizing t with
  | nil => rfl
  | cons i l ih => rw [List.foldl_cons,ih,assignHart_index]

/-- A change of the store that keeps the index of every registered domain. -/
theorem Indexed.of_index {t' : DomainTable x} (ht : t.Indexed) (hidx : t'.domidx=t.domidx)
    (h : ∀ q∈t.domidx,(t'.store q).index=(t.store q).index) : t'.Indexed := by
  constructor
  · rw [hidx]
    exact ht.nodup
  · intro i q hq
    rw [hidx] at hq
    rw [h q (List.mem_of_getElem? hq)]
    exact ht.index i q hq

/-- The registered domains are indexed, and there are no more than the array has elements. -/
structure Bounded (t : DomainTable x) : Prop extends t.Indexed where
  length : t.domidx.length ≤ SBI_DOMAIN_MAX_INDEX

theorem Bounded.of_index {t' : DomainTable x} (ht : t.Bounded) (hidx : t'.domidx=t.domidx)
    (h : ∀ q∈t.domidx,(t'.store q).index=(t.store q).index) : t'.Bounded :=
  ⟨ht.toIndexed.of_index hidx h,hidx ▸ ht.length⟩

theorem update_index {d : SbiDomain x} (hp : p∉t.domidx) : ∀ q∈t.domidx,
    (Function.update t.store p d q).index=(t.store q).index := by
  intro q hq
  rw [Function.update_of_ne (by rintro rfl; exact hp hq)]

theorem Bounded.register (ht : t.Bounded) (plat : Platform) (fw : Memregion x) (coldHartid p : Nat)
    (assignMask : Hartmask) : (sbiDomainRegister plat fw coldHartid t p assignMask).2.Bounded := by
  by_cases hroom : SBI_DOMAIN_MAX_INDEX ≤ t.domidx.length
  · have hsame : (sbiDomainRegister plat fw coldHartid t p assignMask).2=t := by
      unfold sbiDomainRegister
      split_ifs <;> rfl
    rwa [hsame]
  · rcases register_cases plat fw coldHartid t p assignMask with ⟨-,h⟩ | ⟨hp,-,h⟩ | ⟨hp,-,-,h⟩ <;> rw [h]
    · exact ht
    · exact ht.of_index rfl (update_index hp)
    · have hidx := (foldl_body coldHartid p (hartsOf assignMask) { t with
        store := Function.update t.store p { (sanitizeDomain plat fw (t.store p)).2 with
          index := t.domidx.length,assignedHarts := sbiHartmaskClearAll }
        domidx := t.domidx++[p] } p).2
      refine ⟨⟨?_,fun i q hq => ?_⟩,?_⟩
      · rw [hidx]
        exact ht.nodup.append (List.nodup_singleton p) (List.disjoint_singleton.mpr hp)
      · rw [hidx] at hq
        rw [foldl_index]
        rcases Nat.lt_or_ge i t.domidx.length with hi | hi
        · rw [List.getElem?_append_left hi] at hq
          exact (update_index hp q (List.mem_of_getElem? hq)).trans (ht.index i q hq)
        · rw [List.getElem?_append_right hi] at hq
          obtain ⟨hlt,rfl⟩ := List.getElem?_eq_some_iff.mp hq
          rw [List.length_singleton] at hlt
          have hil : i=t.domidx.length := by omega
          simp only [List.getElem_singleton,Function.update_self]
          exact hil.symm
      · rw [hidx,List.length_append,List.length_singleton]
        omega

theorem Bounded.call (ht : t.Bounded) (plat : Platform) (fw : Memregion x) (coldHartid : Nat)
    (a : BootAction x) : (bootCall plat fw coldHartid t a).2.Bounded := by
  cases a with
  | register p dom assignMask =>
    have hf : (t.filled p dom).Bounded := by
      unfold filled
      split_ifs with hp
      · exact ht
      · exact ht.of_index rfl (update_index hp)
    exact hf.register plat fw coldHartid p assignMask
  | rootAdd reg =>
    have hs := sbiDomainRootAddMemregion_sameOwner plat fw t.finalized (t.store ROOT) t.rootMemregsCount reg
    refine ht.of_index rfl fun q _ => ?_
    by_cases hq : q=ROOT
    · subst hq
      simpa [bootCall,rootAdd] using hs.index
    · simp [bootCall,rootAdd,Function.update_of_ne hq]

end DomainTable

/-- After any calls on the domains the registered ones are listed once each under their index, and the
loops over them stay inside the array if and only if fewer are registered than it has elements. -/
theorem sbiDomainForEach_inside_iff (plat : Platform) (scratch : FwScratch x) (coldHartid : Nat)
    (store : Nat → SbiDomain x) (tr : List Int) (t : DomainTable x)
    (hrun : Machine.Run (bootMachine plat (rootFwRegion scratch) coldHartid) Machine.anyStep
      (sbiDomainInit plat scratch coldHartid store).2 tr t) :
    t.Indexed ∧ (t.IteratesInside ↔ t.domidx.length<SBI_DOMAIN_MAX_INDEX) := by
  have hbound : t.Bounded := by
    refine hrun.invariant (P := DomainTable.Bounded) (fun s a s' ev hs hstep _ => ?_) ?_
    · rw [DomainTable.bootMachine_step hstep]
      exact hs.call plat _ coldHartid a
    · refine DomainTable.Bounded.register ⟨⟨List.nodup_nil,fun i q hq => ?_⟩,Nat.zero_le _⟩ _ _ _ _ _
      cases hq
  exact ⟨hbound.toIndexed,DomainTable.iteratesInside_iff hbound.length⟩

/-- Two domains: the loops stay inside the array. -/
theorem twoDomains_inside : twoDomains.IteratesInside := by
  have hrun : Machine.Run (bootMachine bootHarts (rootFwRegion bootScratch) 0) Machine.anyStep
      (sbiDomainInit bootHarts bootScratch 0 fun _ => tableDomain []).2 _ twoDomains :=
    .single rfl trivial
  exact (sbiDomainForEach_inside_iff bootHarts bootScratch 0 (fun _ => tableDomain []) _ _ hrun).2.mpr (by decide)

/-- A domain that can be registered any number of times, each time at a new address. -/
def spareDomain : SbiDomain .rv64 :=
  { tableDomain [rootFwRegion bootScratch,⟨64,0,7⟩] with possibleHarts := some 2 }

/-- Domains can be registered until there is no room. -/
theorem exists_domains (n : Nat) (hn : n<SBI_DOMAIN_MAX_INDEX) : ∃ tr t,
    Machine.Run (bootMachine bootHarts (rootFwRegion bootScratch) 0) Machine.anyStep
      (sbiDomainInit bootHarts bootScratch 0 fun _ => tableDomain []).2 tr t ∧
      t.finalized=false ∧ t.domidx=List.range (n+1) := by
  induction n with
  | zero => exact ⟨_,_,.nil,by decide,by decide⟩
  | succ n ih =>
    obtain ⟨tr,t,hrun,hfin,hidx⟩ := ih (by omega)
    have hp : n+1∉t.domidx := by
      rw [hidx,List.mem_range]
      exact lt_irrefl _
    have hfilled : t.filled (n+1) spareDomain={ t with store := Function.update t.store (n+1) spareDomain } :=
      if_neg hp
    have hrc : (sanitizeDomain bootHarts (rootFwRegion bootScratch)
        ((t.filled (n+1) spareDomain).store (n+1))).1=SBI_OK := by
      rw [hfilled]
      dsimp only
      rw [Function.update_self]
      decide
    have hlen : t.domidx.length<SBI_DOMAIN_MAX_INDEX := by
      rw [hidx,List.length_range]
      exact hn
    obtain ⟨t',hcall,hreg⟩ := DomainTable.register_ok (t := t.filled (n+1) spareDomain) bootHarts
      (rootFwRegion bootScratch) 0 2 (by rw [hfilled]; exact hfin) (by rw [hfilled]; exact hp)
      (by rw [hfilled]; exact hlen) hrc
    have hstep : (bootMachine bootHarts (rootFwRegion bootScratch) 0).step t (.register (n+1) spareDomain 2)=
        some (t',[SBI_OK]) := by
      have hboot : bootCall bootHarts (rootFwRegion bootScratch) 0 t (.register (n+1) spareDomain 2)=(SBI_OK,t') :=
        hcall
      simp only [bootMachine,hboot]
    refine ⟨_,t',.snoc hrun hstep trivial,?_,?_⟩
    · rw [hreg.finalized,hfilled]
      exact hfin
    · rw [hreg.domidx,hfilled]
      dsimp only
      rw [hidx,← List.range_succ]

/-- The most domains that can be registered fill the array, and a loop over them reads past it. -/
theorem fullTable_outside : ∃ tr t,
    Machine.Run (bootMachine bootHarts (rootFwRegion bootScratch) 0) Machine.anyStep
      (sbiDomainInit bootHarts bootScratch 0 fun _ => tableDomain []).2 tr t ∧
      t.domidx=List.range SBI_DOMAIN_MAX_INDEX ∧ ¬t.IteratesInside := by
  obtain ⟨tr,t,hrun,-,hidx⟩ := exists_domains 31 (by decide)
  refine ⟨tr,t,hrun,hidx,?_⟩
  have hlen : t.domidx.length=SBI_DOMAIN_MAX_INDEX := by
    rw [hidx,List.length_range]
    rfl
  rw [DomainTable.iteratesInside_iff hlen.le]
  exact (lt_irrefl _).comp hlen.ge.trans_lt

end OpenSBI
