import OpenSBI.Pmu.Ledger

namespace OpenSBI

open Framework

variable {x : Xlen} {c : PmuConfig x} {s s' : PmuState x} {L L' : Ledger x}

/-- The accounts tell what the counters are configured for, and what `fw_event_map` holds for them. -/
structure Accounts (c : PmuConfig x) (s : PmuState x) (L : Ledger x) : Prop where
  event : ∀ i,(L i).event=s.fwEventOf c i
  entry : ∀ i k,s.fwEventOf c i=some k → s.fwEventMap k=(L i).entry

theorem Accounts.isSome (h : Accounts c s L) {i k : Nat} (hk : s.fwEventOf c i=some k) :
    (L i).event.isSome=true := by
  rw [h.event,hk]
  rfl

theorem namesCtr_visited {behind cbase cmask : Word x} {i : Nat}
    (h : namesCtr c cbase cmask i=true) : i∈visitedCtrs c behind cbase cmask := by
  simp only [namesCtr,Bool.and_eq_true,decide_eq_true_eq] at h
  obtain ⟨⟨hfls,hlo,hhi,hbits⟩,hbit⟩ := h
  simp only [visitedCtrs,if_neg (Nat.not_le.mpr hfls)]
  rw [mem_setBitsFrom]
  refine ⟨hhi,hlo,?_⟩
  rw [bitAt,if_pos hbits,Word.getLsbD_shl cmask hlo hbits]
  exact hbit

/-- A start or stop that changes nothing for the counters it does not name keeps the accounts. -/
theorem Accounts.effect {reset : Bool} {l : List Nat} {f : PmuFwEvent x → PmuFwEvent x}
    {named : Nat → Bool} {post : Account x → Account x} (h : Accounts c s L)
    (heff : Effect c s s' reset l f) (hnamed : ∀ i,named i=true → i∈l)
    (hun : Unshared c s l named f)
    (hreset : reset=true → ∀ i∈l,(s.fwEventOf c i).isSome=true → named i=true)
    (hevent : ∀ a,(post a).event=if reset=true then none else a.event)
    (hentry : ∀ a,a.event.isSome=true → (post a).entry=f a.entry) :
    Accounts c s' fun i => if named i=true then post (L i) else L i where
  event i := by
    rw [heff.fwEventOf_eq]
    by_cases hn : named i=true
    · simp only [hn,if_true,hevent,h.event,hnamed i hn,and_true]
    · rw [if_neg hn,h.event]
      split_ifs with hr
      · by_contra hs
        exact hn (hreset hr.1 i hr.2 (Option.isSome_iff_ne_none.mpr hs))
      · rfl
  entry i k hk := by
    rw [heff.fwEventOf_eq] at hk
    split_ifs at hk
    rw [heff.map,PmuState.onFwEvents]
    by_cases hn : named i=true
    · rw [if_pos ⟨i,hnamed i hn,hk⟩,if_pos hn,hentry _ (h.isSome hk),h.entry i k hk]
    · rw [if_neg hn,← h.entry i k hk]
      split_ifs with hj
      · obtain ⟨j,hj,hjk⟩ := hj
        exact hun j i k hj (by simpa using hn) hjk hk
      · rfl

theorem fwEventOf_congr (h : s'.activeEvents=s.activeEvents) (i : Nat) :
    s'.fwEventOf c i=s.fwEventOf c i := by
  rw [PmuState.fwEventOf,PmuState.event_congr h]
  rfl

/-- What leaves the firmware side alone keeps the accounts. -/
theorem Accounts.congr (h : Accounts c s L) (hact : s'.activeEvents=s.activeEvents)
    (hmap : s'.fwEventMap=s.fwEventMap) : Accounts c s' L where
  event i := by rw [fwEventOf_congr hact,h.event]
  entry i k hk := by
    rw [fwEventOf_congr hact] at hk
    rw [hmap,h.entry i k hk]

/-- A firmware counter whose search is skipped. -/
theorem Accounts.skipped {base : Nat} {flags eventIdx : Word x} (h : Accounts c s L)
    (hex : getCidxType eventIdx=SBI_PMU_EVENT_TYPE_FW →
      ∀ j k,s.fwEventOf c j=some k → (j=base ↔ k≠getCidxCode eventIdx) →
        configFw flags (s.fwEventMap k)=s.fwEventMap k)
    (hact : s'.activeEvents=s.activeEvents) (hmap : s'.fwEventMap=s.configMap flags eventIdx) :
    Accounts c s' fun i => if i=base then (L i).reconfigure flags eventIdx else L i where
  event i := by
    rw [fwEventOf_congr hact,← h.event]
    split_ifs
    · exact Account.event_reconfigure flags eventIdx (L i)
    · rfl
  entry i k hk := by
    rw [fwEventOf_congr hact] at hk
    have hentry := h.entry i k hk
    rw [hmap,PmuState.configMap]
    by_cases ht : getCidxType eventIdx=SBI_PMU_EVENT_TYPE_FW
    · rw [if_pos ht]
      have hconf : Function.update s.fwEventMap (getCidxCode eventIdx)
          (configFw flags (s.fwEventMap (getCidxCode eventIdx))) k=
          if i=base then configFw flags (s.fwEventMap k) else s.fwEventMap k := by
        by_cases hkc : k=getCidxCode eventIdx
        · subst hkc
          rw [Function.update_self]
          split_ifs with hi
          · rfl
          · exact hex ht i _ hk ⟨fun hb => absurd hb hi,fun hne => absurd rfl hne⟩
        · rw [Function.update_of_ne hkc]
          split_ifs with hi
          · exact (hex ht i k hk ⟨fun _ => hkc,fun _ => hi⟩).symm
          · rfl
      rw [hconf]
      split_ifs
      · rw [Account.entry_reconfigure flags ht (h.isSome hk),hentry]
      · exact hentry
    · rw [if_neg ht,hentry]
      simp [Account.reconfigure,ht]

/-- A counter found for an event. -/
theorem Accounts.matched {i : Nat} {flags eventIdx : Word x} (h : Accounts c s L)
    (hin : SkipInBounds i flags eventIdx)
    (hfw : getCidxType eventIdx=SBI_PMU_EVENT_TYPE_FW → i<c.totalCtrs)
    (hex : getCidxType eventIdx=SBI_PMU_EVENT_TYPE_FW →
      (∀ j,s.fwEventOf c j=some (getCidxCode eventIdx) →
        configFw flags (s.fwEventMap (getCidxCode eventIdx))=
          s.fwEventMap (getCidxCode eventIdx)) ∧
      (hasFlag flags SBI_PMU_CFG_FLAG_CLEAR_VALUE=true ∨
        (s.fwEventMap (getCidxCode eventIdx)).currCount=(L i).reading) ∧
      (hasFlag flags SBI_PMU_CFG_FLAG_AUTO_START=true ∨
        (s.fwEventMap (getCidxCode eventIdx)).bStarted=false))
    (hact : s'.activeEvents=Function.update s.activeEvents i (toU32 eventIdx))
    (hmap : s'.fwEventMap=s.configMap flags eventIdx) :
    Accounts c s' fun j => if j=i then (L j).configure flags eventIdx else L j := by
  have hothers : ∀ j,j≠i → s'.fwEventOf c j=s.fwEventOf c j := by
    intro j hj
    simp only [PmuState.fwEventOf,PmuState.event,hact,Function.update_of_ne hj]
  have hself : s'.fwEventOf c i=
      if getCidxType eventIdx=SBI_PMU_EVENT_TYPE_FW then some (getCidxCode eventIdx) else none := by
    by_cases ht : getCidxType eventIdx=SBI_PMU_EVENT_TYPE_FW
    · have hval : toU32 eventIdx≠SBI_PMU_EVENT_IDX_INVALID := by
        intro he
        have hcode := hin.code ht
        rw [← getCidxCode_toU32,he] at hcode
        exact absurd hcode (by decide)
      rw [if_pos ht,PmuState.fwEventOf_eq_some]
      simp only [PmuState.event,hact,Function.update_self,hval,or_false,
        if_neg (Nat.not_le.mpr (hfw ht)),getCidxType_toU32,getCidxCode_toU32,ht]
    · rw [if_neg ht]
      simp only [PmuState.fwEventOf,PmuState.event,hact,Function.update_self]
      split_ifs
      · rfl
      · simp [getCidxType_toU32,ht]
  constructor
  · intro j
    by_cases hj : j=i
    · subst hj
      rw [if_pos rfl,hself,Account.configure]
      split_ifs <;> rfl
    · rw [if_neg hj,hothers j hj,h.event]
  · intro j k hk
    rw [hmap,PmuState.configMap]
    by_cases hj : j=i
    · subst hj
      rw [hself] at hk
      split_ifs at hk with ht
      obtain rfl := Option.some.inj hk
      obtain ⟨-,hcount,hstart⟩ := hex ht
      rw [if_pos ht,Function.update_self,if_pos rfl,Account.entry_configure flags ht hcount hstart]
    · rw [hothers j hj] at hk
      rw [if_neg hj,← h.entry j k hk]
      split_ifs with ht
      · by_cases hkc : k=getCidxCode eventIdx
        · subst hkc
          rw [Function.update_self]
          exact (hex ht).1 j hk
        · rw [Function.update_of_ne hkc]
      · rfl

/-- The counter that a `COUNTER_CFG_MATCH` returns, as the caller sees it. -/
theorem cfgMatch_ret {base mask flags eventIdx : Word x} {ret : Int}
    (hout : CfgOutcome c s base mask flags eventIdx s' ret) (h : 0≤ret) :
    (BitVec.ofInt x.bits ret).toNat=ret.toNat := by
  have hnat : ∀ n : Nat,n<2^x.bits → (BitVec.ofInt x.bits (n : Int)).toNat=n := by
    intro n hn
    rw [BitVec.ofInt_natCast,BitVec.toNat_ofNat,Nat.mod_eq_of_lt hn]
  cases hout with
  | failed _ hret => exact absurd h (Int.not_le.mpr hret)
  | skipped => exact hnat _ base.isLt
  | matched i _ _ hfw hhw =>
    have hi : i<SBI_PMU_CTR_MAX := by
      by_cases ht : getCidxType eventIdx=SBI_PMU_EVENT_TYPE_FW
      · exact (List.mem_range.mp (List.mem_of_find?_eq_some (hfw ht))).trans c.totalCtrs_lt
      · exact Nat.lt_of_lt_of_le (hhw ht).1 (by decide)
    have hpow : 2^32≤2^x.bits := Nat.pow_le_pow_right (by decide) x.bits_ge
    exact hnat i (hi.trans (Nat.lt_of_lt_of_le (by decide) hpow))

theorem Accounts.cfgMatch {base mask flags eventIdx : Word x} {ret : Int} (h : Accounts c s L)
    (hout : CfgOutcome c s base mask flags eventIdx s' ret)
    (hex : CfgExact c s L base mask flags eventIdx) :
    Accounts c s' fun i => if 0≤ret ∧ ret.toNat=i then
      (if hasFlag flags SBI_PMU_CFG_FLAG_SKIP_MATCH=true then (L i).reconfigure flags eventIdx
      else (L i).configure flags eventIdx) else L i := by
  cases hout with
  | failed _ hret hact hmap =>
    have hneg : ¬0≤ret := Int.not_le.mpr hret
    simpa only [hneg,false_and,if_false] using h.congr hact hmap
  | skipped hfls hskip hentry hin hact hmap =>
    have hex' : getCidxType eventIdx=SBI_PMU_EVENT_TYPE_FW → ∀ j k,s.fwEventOf c j=some k →
        (j=base.toNat ↔ k≠getCidxCode eventIdx) →
        configFw flags (s.fwEventMap k)=s.fwEventMap k := by
      intro ht
      have he := hex hfls ht
      rw [if_pos hskip] at he
      exact he hentry
    have hs := h.skipped hex' hact hmap
    simpa only [Int.natCast_nonneg,true_and,Int.toNat_natCast,hskip,if_true,eq_comm] using hs
  | matched i hfls hskip hfw hhw hin hact hmap =>
    have hs := h.matched hin (fun ht => List.mem_range.mp (List.mem_of_find?_eq_some (hfw ht)))
      (fun ht => by
        have hex' := hex hfls ht
        rw [if_neg (by simp [hskip])] at hex'
        exact hex' i (hfw ht)) hact hmap
    simpa only [Int.natCast_nonneg,true_and,Int.toNat_natCast,hskip,Bool.false_eq_true,if_false,
      eq_comm] using hs

/-- Only started events count. -/
theorem sbiPmuCtrIncrFw_map {fwId : Nat} {ret : Int}
    (h : sbiPmuCtrIncrFw s fwId=some (s',ret)) :
    s'.activeEvents=s.activeEvents ∧ s'.fwEventMap=
      if fwId<SBI_PMU_FW_MAX ∧ (s.fwEventMap fwId).bStarted=true then
        Function.update s.fwEventMap fwId ⟨(s.fwEventMap fwId).currCount+1,true⟩
      else s.fwEventMap := by
  rw [sbiPmuCtrIncrFw] at h
  split_ifs at h with hle
  · obtain ⟨rfl,-⟩ := Prod.mk.inj (Option.some.inj h)
    exact ⟨rfl,by simp [Nat.not_lt.mpr hle]⟩
  have hlt := Nat.not_le.mp hle
  have hk : fwId<SBI_PMU_FW_EVENT_MAX := hlt.trans (by decide)
  simp only [PmuState.fwEvent,PmuState.setFwEvent,hk,if_true,Option.bind_eq_bind,
    Option.bind_some] at h
  split_ifs at h with hst
  · obtain ⟨rfl,-⟩ := Prod.mk.inj (Option.some.inj h)
    exact ⟨rfl,by simp [hlt,hst]⟩
  · obtain ⟨rfl,-⟩ := Prod.mk.inj (Option.some.inj h)
    exact ⟨rfl,by simp [hst]⟩

theorem Accounts.occur {fwId : Nat} {ret : Int} (h : Accounts c s L)
    (hstep : sbiPmuCtrIncrFw s fwId=some (s',ret)) :
    Accounts c s' fun i => if fwId<SBI_PMU_FW_MAX then (L i).occur fwId else L i := by
  obtain ⟨hact,hmap⟩ := sbiPmuCtrIncrFw_map hstep
  by_cases hlt : fwId<SBI_PMU_FW_MAX
  · simp only [hlt,if_true,true_and] at hmap ⊢
    constructor
    · intro i
      rw [Account.event_occur,fwEventOf_congr hact,h.event]
    · intro i k hk
      rw [fwEventOf_congr hact] at hk
      have hentry := h.entry i k hk
      have hev : (L i).event=some k := (h.event i).trans hk
      by_cases hkid : k=fwId
      · subst hkid
        rw [Account.entry_occur k (L i) hev,hmap,hentry]
        cases hst : (L i).started with
        | true => simp [Account.entry,hst]
        | false => simp [Account.entry,hst,hentry]
      · have hne : ¬(L i).event=some fwId := by simpa [hev] using hkid
        have hsame : s'.fwEventMap k=s.fwEventMap k := by
          rw [hmap]
          split_ifs
          · exact Function.update_of_ne hkid _ _
          · rfl
        rw [hsame,hentry]
        simp [Account.occur,hne]
  · simp only [hlt,false_and,if_false] at hmap ⊢
    exact h.congr hact hmap

theorem sbiPmuInit_accounts (c : PmuConfig x) (s : PmuState x) :
    Accounts c (sbiPmuInit c s) Ledger.initial where
  event i := by
    cases hf : (sbiPmuInit c s).fwEventOf c i with
    | none => rfl
    | some k => exact absurd (sbiPmuInit_event (PmuState.fwEventOf_eq_some.mp hf)).1 hw_ne_fw.symm
  entry i k hk :=
    absurd (sbiPmuInit_event (PmuState.fwEventOf_eq_some.mp hk)).1 hw_ne_fw.symm

/-- One call. -/
theorem Accounts.ecall {behind funcid : Word x} {regs : PmuRegs x} {r : PmuState x × PmuReturn x}
    (hs : s.Sound c) (h : Accounts c s L)
    (hex : (PmuAction.ecall behind funcid regs).Exact c s L)
    (hstep : sbiEcallPmuHandler c s behind funcid regs=some r) :
    Accounts c r.1 (L.next c (.ecall behind funcid regs) r.2) := by
  obtain ⟨hcfg,hstart,hstop⟩ := hex
  rw [sbiEcallPmuHandler] at hstep
  simp only [Ledger.next,PmuAction.names]
  split at hstep
  next hf =>
    obtain rfl := Option.some.inj hstep
    simpa [hf] using h
  next hf =>
    obtain rfl := Option.some.inj hstep
    simpa [hf] using h
  next hf =>
    rcases sbiPmuCtrCfgMatch_cases c s regs.a0 regs.a1 regs.a2 regs.a3
      (uint64Arg regs.a4 regs.a5) with ⟨-,s',ret,he,hout⟩ | ⟨-,he⟩
    · rw [he] at hstep
      obtain rfl := Option.some.inj hstep
      have hacc := h.cfgMatch hout (hcfg hf)
      by_cases hret : 0≤ret
      · simp only [hret,true_and] at hacc
        simp only [hf,if_pos hret,PmuRegs.post,Option.any_some,decide_eq_true_eq,
          cfgMatch_ret hout hret]
        cases hskip : hasFlag regs.a2 SBI_PMU_CFG_FLAG_SKIP_MATCH <;>
          simpa only [hskip,if_true,if_false,Bool.false_eq_true] using hacc
      · simpa only [hf,if_neg hret,hret,false_and,if_false,Option.any_none,Bool.false_eq_true]
          using hacc
    · rw [he] at hstep
      cases hstep
  next hf =>
    obtain ⟨s',ret,he,heff⟩ := sbiPmuCtrStart_effect hs behind regs.a0 regs.a1 regs.a2
      (uint64Arg regs.a3 regs.a4)
    rw [he] at hstep
    obtain rfl := Option.some.inj hstep
    have hacc := h.effect heff (fun i => namesCtr_visited) (hstart hf) (fun hr => by cases hr)
      (fun a => by rw [Account.event_start]; rfl)
      (fun a ha => Account.entry_start _ _ ha)
    simpa only [hf,PmuRegs.post] using hacc
  next hf =>
    obtain ⟨s',ret,he,heff⟩ := sbiPmuCtrStop_effect hs behind regs.a0 regs.a1 regs.a2
    rw [he] at hstep
    obtain rfl := Option.some.inj hstep
    have hacc := h.effect heff (fun i => namesCtr_visited) (hstop hf).1 (hstop hf).2
      (fun a => rfl) (fun a _ => Account.entry_stop _ a)
    simpa only [hf,PmuRegs.post] using hacc
  next hf =>
    cases he : sbiPmuCtrRead c s (toU32 regs.a0).toNat with
    | none => simp [he] at hstep
    | some v =>
      rw [he] at hstep
      obtain rfl := Option.some.inj hstep
      simpa [hf] using h
  next h0 h1 h2 h3 h4 h5 =>
    obtain rfl := Option.some.inj hstep
    simpa using h

/-- One step that meets the condition keeps the accounts. -/
theorem Accounts.step {a : PmuAction x} {r : PmuState x × PmuReturn x} (hs : s.Sound c)
    (h : Accounts c s L) (hex : a.Exact c s L) (hstep : pmuStep c s a=some r) :
    Accounts c r.1 (L.next c a r.2) := by
  cases a with
  | ecall behind funcid regs => exact h.ecall hs hex hstep
  | occur fwId =>
    obtain ⟨⟨s',ret⟩,he,hr⟩ := Option.bind_eq_some_iff.mp hstep
    obtain rfl := Option.some.inj hr
    exact h.occur he
  | hardware csrs =>
    obtain rfl := Option.some.inj hstep
    exact h.congr rfl rfl
  | restart =>
    obtain rfl := Option.some.inj hstep
    exact sbiPmuInit_accounts c _

end OpenSBI
