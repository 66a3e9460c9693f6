import OpenSBI.Pmu.Match

namespace OpenSBI

open Framework

variable {x : Xlen} {c : PmuConfig x} {s : PmuState x}

/-- A call that starts or stops counters. -/
inductive PmuCtrCall (x : Xlen) where
  | start (flags : Word x) (ival : BitVec 64)
  | stop (flag : Word x)

namespace PmuCtrCall

def update (flags : Word x) : Bool := hasFlag flags SBI_PMU_START_FLAG_SET_INIT_VALUE

/-- The loop body. -/
def round (c : PmuConfig x) : PmuCtrCall x → PmuState x×Int → Nat → Option (PmuState x×Int)
  | start flags ival => pmuCtrStartRound c ival (update flags)
  | stop flag => pmuCtrStopRound c (hasFlag flag SBI_PMU_STOP_FLAG_RESET)

/-- The call. -/
def run (c : PmuConfig x) (s : PmuState x) (behind cbase cmask : Word x) :
    PmuCtrCall x → Option (PmuState x×Int)
  | start flags ival => sbiPmuCtrStart c s behind cbase cmask flags ival
  | stop flag => sbiPmuCtrStop c s behind cbase cmask flag

/-- What the call makes of a firmware event. -/
def onFw : PmuCtrCall x → PmuFwEvent x → PmuFwEvent x
  | start flags ival => startFw ival (update flags)
  | stop _ => stopFw

/-- What the call makes of an inhibit bit. -/
def inhibits : PmuCtrCall x → Bool
  | start _ _ => false
  | stop _ => true

def resets : PmuCtrCall x → Bool
  | start _ _ => false
  | stop flag => hasFlag flag SBI_PMU_STOP_FLAG_RESET

/-- The loop body, with the counters that it starts or stops and what comes of it. -/
def loggedRound (c : PmuConfig x) (call : PmuCtrCall x) (r : (PmuState x×Int)×List (Nat×Int)) (i : Nat) :
    Option ((PmuState x×Int)×List (Nat×Int)) := do
  let configured ← pmuCtrValidate c r.1.1 i
  let r' ← call.round c r.1 i
  some (r',if configured.isSome then r.2++[(i,r'.2)] else r.2)

/-- The call, with that log. -/
def loggedRun (c : PmuConfig x) (s : PmuState x) (behind cbase cmask : Word x) (call : PmuCtrCall x) :
    Option ((PmuState x×Int)×List (Nat×Int)) :=
  (visitedCtrs c behind cbase cmask).foldlM (loggedRound c call) ((s,SBI_EINVAL),[])

/-- A counter of a hardware event that has no hardware counter. -/
def Phantom (c : PmuConfig x) (i : Nat) : Prop := c.numHwCtrs < i ∨ i=1

/-- The counter is refused with `SBI_EINVAL`. -/
def Refused (c : PmuConfig x) (call : PmuCtrCall x) (i t : Nat) : Prop :=
  t≠SBI_PMU_EVENT_TYPE_FW ∧ Phantom c i ∧ (call.inhibits=true → c.hasMcountinhibit=true)

end PmuCtrCall

/-- The registers of a hardware counter. -/
def CtrReg (i num : Nat) : Prop :=
  i<SBI_PMU_HW_CTR_MAX ∧ (num=CSR_MCYCLE+i ∨ num=CSR_MCYCLEH+i ∨
    3 ≤ i ∧ (num=CSR_MHPMEVENT3+i-3 ∨ num=CSR_MHPMEVENT3H+i-3))

theorem not_ctrReg_inhibit (i : Nat) : ¬CtrReg i CSR_MCOUNTINHIBIT := by
  simp only [CtrReg,SBI_PMU_HW_CTR_MAX,CSR_MCYCLE,CSR_MCYCLEH,CSR_MHPMEVENT3,CSR_MHPMEVENT3H,CSR_MCOUNTINHIBIT]
  omega

section Registers

/-- An operation that changes no other registers than those of a counter. -/
def Within (i : Nat) (s : PmuState x) (o : Option (PmuState x)) : Prop :=
  ∃ csrs,o=some { s with csrs := csrs } ∧ ∀ num,¬CtrReg i num → csrs num=s.csrs num

theorem Within.refl (i : Nat) (s : PmuState x) : Within i s (some s) := ⟨s.csrs,rfl,fun _ _ => rfl⟩

theorem Within.bind {i : Nat} {o : Option (PmuState x)} {f : PmuState x → Option (PmuState x)}
    (h : Within i s o) (hf : ∀ s1 : PmuState x,Within i s1 (f s1)) : Within i s (o.bind f) := by
  obtain ⟨csrs,rfl,hsame⟩ := h
  obtain ⟨csrs',h',hsame'⟩ := hf { s with csrs := csrs }
  exact ⟨csrs',h',fun num hnum => (hsame' num hnum).trans (hsame num hnum)⟩

theorem Within.ite {i : Nat} {p : Prop} [Decidable p] {a b : Option (PmuState x)} (ha : p → Within i s a)
    (hb : ¬p → Within i s b) : Within i s (if p then a else b) := by
  split_ifs with h
  · exact ha h
  · exact hb h

theorem writeNum_within {i num : Nat} (s : PmuState x) (val : Word x) (hk : csrKnown x num=true)
    (hreg : CtrReg i num) : Within i s (s.writeNum num val) := by
  refine ⟨Function.update s.csrs num val,by simp [PmuState.writeNum,csrWriteNum,hk],fun n hn => ?_⟩
  exact Function.update_of_ne (fun heq : n=num => hn (heq.symm ▸ hreg)) _ _

theorem pmuCtrWriteHw_within (s : PmuState x) {i : Nat} (ival : BitVec 64) (h : i<SBI_PMU_HW_CTR_MAX)
    (h1 : i≠1) : Within i s (pmuCtrWriteHw s i ival) := by
  have hlow := fun v (s : PmuState x) => writeNum_within s v (csrKnown_counter (x := x) h h1)
    (show CtrReg i (CSR_MCYCLE+i) from ⟨h,.inl rfl⟩)
  cases x with
  | rv32 =>
    exact (hlow _ s).bind fun s1 => (hlow _ s1).bind fun s2 =>
      writeNum_within s2 _ (csrKnown_counterh h h1) ⟨h,.inr (.inl rfl)⟩
  | rv64 => exact hlow _ s

theorem pmuCtrEnableIrqHw_within (s : PmuState x) (i : Nat) : Within i s (pmuCtrEnableIrqHw s i) := by
  rw [pmuCtrEnableIrqHw.eq_def]
  refine .ite (fun _ => .refl i s) fun h => ?_
  push Not at h
  cases x with
  | rv32 =>
    have hk := csrKnown_eventh h.1 h.2
    simp only [csrReadNum,hk,if_true,Option.bind_eq_bind,Option.bind_some]
    exact .ite (fun _ => writeNum_within s _ hk ⟨h.2,.inr (.inr ⟨h.1,.inr rfl⟩)⟩) fun _ => .refl i s
  | rv64 =>
    have hk := csrKnown_event (x := .rv64) h.1 h.2
    simp only [csrReadNum,hk,if_true,Option.bind_eq_bind,Option.bind_some]
    exact .ite (fun _ => writeNum_within s _ hk ⟨h.2,.inr (.inr ⟨h.1,.inl rfl⟩)⟩) fun _ => .refl i s

theorem pmuResetHwMhpmevent_within (s : PmuState x) (i : Nat) : Within i s (pmuResetHwMhpmevent s i) := by
  rw [pmuResetHwMhpmevent.eq_def]
  refine .ite (fun _ => .refl i s) fun h => ?_
  push Not at h
  have hlow := fun s : PmuState x => writeNum_within s 0 (csrKnown_event (x := x) h.1 h.2)
    (show CtrReg i (CSR_MHPMEVENT3+i-3) from ⟨h.2,.inr (.inr ⟨h.1,.inl rfl⟩)⟩)
  cases x with
  | rv32 =>
    exact (hlow s).bind fun s1 => writeNum_within s1 0 (csrKnown_eventh h.1 h.2) ⟨h.2,.inr (.inr ⟨h.1,.inr rfl⟩)⟩
  | rv64 => exact hlow s

end Registers

theorem PmuState.writeCsr_self (s : PmuState x) (num : Nat) (val : Word x) :
    (s.writeCsr num val).csrs num=val := by
  simp [writeCsr]

theorem PmuState.writeCsr_of_ne (s : PmuState x) {num n : Nat} (val : Word x) (h : n≠num) :
    (s.writeCsr num val).csrs n=s.csrs n := by
  simp [writeCsr,h]

theorem getLsbD_clear_of_ne (v : Word x) {i j : Nat} (hi : i<x.bits) (hj : j≠i) :
    (v &&& ~~~Word.bit i).getLsbD j=v.getLsbD j := by
  rw [BitVec.getLsbD_and,BitVec.getLsbD_not,Word.getLsbD_bit hi,decide_eq_false (Ne.symm hj)]
  by_cases hlt : j<x.bits
  · simp [hlt]
  · rw [BitVec.getLsbD_of_ge _ j (not_lt.mp hlt),Bool.false_and]

theorem getLsbD_clear_self (v : Word x) {i : Nat} (hi : i<x.bits) : (v &&& ~~~Word.bit i).getLsbD i=false := by
  rw [BitVec.getLsbD_and,BitVec.getLsbD_not,Word.getLsbD_bit hi,decide_eq_true rfl]
  simp

namespace PmuCtrCall

/-- What the loop body does to the state for a counter that counts an event of type `t` with code `k`. -/
structure Acted (c : PmuConfig x) (call : PmuCtrCall x) (s s1 : PmuState x) (ret1 : Int) (i t k : Nat) :
    Prop where
  active : s1.activeEvents=
    if call.resets=true then Function.update s.activeEvents i SBI_PMU_EVENT_IDX_INVALID else s.activeEvents
  map : s1.fwEventMap=
    if t=SBI_PMU_EVENT_TYPE_FW then Function.update s.fwEventMap k (call.onFw (s.fwEventMap k)) else s.fwEventMap
  csrs : ∀ num,num≠CSR_MCOUNTINHIBIT → ¬CtrReg i num → s1.csrs num=s.csrs num
  others : ∀ j,j≠i → (s1.csrs CSR_MCOUNTINHIBIT).getLsbD j=(s.csrs CSR_MCOUNTINHIBIT).getLsbD j
  inhibit : t≠SBI_PMU_EVENT_TYPE_FW → ¬call.Refused c i t → c.hasMcountinhibit=true →
    (s1.csrs CSR_MCOUNTINHIBIT).getLsbD i=call.inhibits
  refused : ret1=SBI_EINVAL ↔ call.Refused c i t

/-- An operation on a counter's registers and on its inhibit bit. -/
theorem Acted.hw {call : PmuCtrCall x} {i t k : Nat} {s1 : PmuState x} {ret1 : Int}
    (ht : t≠SBI_PMU_EVENT_TYPE_FW) (hreset : call.resets=false) (hact : s1.activeEvents=s.activeEvents)
    (hmap : s1.fwEventMap=s.fwEventMap)
    (hcsrs : ∀ num,num≠CSR_MCOUNTINHIBIT → ¬CtrReg i num → s1.csrs num=s.csrs num)
    (hothers : ∀ j,j≠i → (s1.csrs CSR_MCOUNTINHIBIT).getLsbD j=(s.csrs CSR_MCOUNTINHIBIT).getLsbD j)
    (hbit : ¬call.Refused c i t → c.hasMcountinhibit=true →
      (s1.csrs CSR_MCOUNTINHIBIT).getLsbD i=call.inhibits)
    (hret : ret1=SBI_EINVAL ↔ call.Refused c i t) : call.Acted c s s1 ret1 i t k where
  active := by rw [hreset,hact]; rfl
  map := by rw [if_neg ht,hmap]
  csrs := hcsrs
  others := hothers
  inhibit _ := hbit
  refused := hret

theorem start_hw_acted (c : PmuConfig x) (s : PmuState x) (flags : Word x) (ival : BitVec 64) (i k : Nat) {t : Nat}
    (ht : t≠SBI_PMU_EVENT_TYPE_FW) :
    ∃ s1 ret1,pmuCtrStartHw c s i ival (update flags)=some (s1,ret1) ∧
      (start flags ival).Acted c s s1 ret1 i t k := by
  have hle := c.numHwCtrs_le
  by_cases hp : c.numHwCtrs < i ∨ i=1
  · rw [pmuCtrStartHw,if_pos hp]
    have href : (start flags ival).Refused c i t := ⟨ht,hp,fun h => by cases h⟩
    exact ⟨s,_,rfl,.hw ht rfl rfl rfl (fun _ _ _ => rfl) (fun _ _ => rfl) (fun hn => absurd href hn)
      (iff_of_true rfl href)⟩
  have href : ¬(start flags ival).Refused c i t := fun h => hp h.2.1
  rw [pmuCtrStartHw,if_neg hp]
  push Not at hp
  have hi : i<SBI_PMU_HW_CTR_MAX := by simp only [SBI_PMU_HW_CTR_MAX]; omega
  have hw : ∀ s1 : PmuState x,
      Within i s1 (if update flags=true then pmuCtrWriteHw s1 i ival else some s1) := fun s1 =>
    .ite (fun _ => pmuCtrWriteHw_within s1 ival hi hp.2) fun _ => .refl i s1
  have hmci := not_ctrReg_inhibit i
  by_cases hm : c.hasMcountinhibit=true
  · rw [if_pos hm]
    dsimp only
    by_cases hset : (s.csrs CSR_MCOUNTINHIBIT).getLsbD i=false
    · rw [if_pos hset]
      exact ⟨s,_,rfl,.hw ht rfl rfl rfl (fun _ _ _ => rfl) (fun _ _ => rfl) (fun _ _ => hset)
        (iff_of_false (by decide) href)⟩
    rw [if_neg hset]
    have he : Within i s (if c.hasSscofpmf=true then pmuCtrEnableIrqHw s i else some s) :=
      .ite (fun _ => pmuCtrEnableIrqHw_within s i) fun _ => .refl i s
    obtain ⟨csrs1,h1,hsame1⟩ := he
    rw [h1]
    obtain ⟨csrs2,h2,hsame2⟩ := hw ({ s with csrs := csrs1 }.writeCsr CSR_MCOUNTINHIBIT
      (s.csrs CSR_MCOUNTINHIBIT &&& ~~~Word.bit i))
    have hbits : i<x.bits := hi.trans_le x.bits_ge
    have hval : csrs2 CSR_MCOUNTINHIBIT=s.csrs CSR_MCOUNTINHIBIT &&& ~~~Word.bit i := by
      rw [hsame2 _ hmci]
      exact PmuState.writeCsr_self _ _ _
    simp only [Option.bind_eq_bind,Option.bind_some,h2]
    refine ⟨_,0,rfl,.hw ht rfl rfl rfl ?_ ?_ ?_ (iff_of_false (by decide) href)⟩
    · intro num hne hreg
      exact (hsame2 num hreg).trans ((PmuState.writeCsr_of_ne _ _ hne).trans (hsame1 num hreg))
    · intro j hj
      exact (congrArg (fun v => v.getLsbD j) hval).trans (getLsbD_clear_of_ne _ hbits hj)
    · intro _ _
      exact (congrArg (fun v => v.getLsbD i) hval).trans (getLsbD_clear_self _ hbits)
  · rw [if_neg hm]
    obtain ⟨csrs,h1,hsame⟩ := hw s
    simp only [Option.bind_eq_bind,Option.bind_some,h1]
    refine ⟨_,0,rfl,.hw ht rfl rfl rfl (fun num _ hreg => hsame num hreg) (fun j _ => ?_)
      (fun _ h => absurd h hm) (iff_of_false (by decide) href)⟩
    exact congrArg (fun v => v.getLsbD j) (hsame _ hmci)

theorem stop_hw_acted (c : PmuConfig x) (s : PmuState x) (i k : Nat) {flag : Word x} {t : Nat}
    (ht : t≠SBI_PMU_EVENT_TYPE_FW) (hreset : (stop flag).resets=false) :
    (stop flag).Acted c s (pmuCtrStopHw c s i).1 (pmuCtrStopHw c s i).2 i t k := by
  have hle := c.numHwCtrs_le
  have hok : (0 : Int)≠SBI_EINVAL := by decide
  rw [pmuCtrStopHw]
  by_cases hm : c.hasMcountinhibit=false
  · rw [if_pos hm]
    have hm' : c.hasMcountinhibit≠true := by simp [hm]
    exact .hw ht hreset rfl rfl (fun _ _ _ => rfl) (fun _ _ => rfl) (fun _ h => absurd h hm')
      (iff_of_false hok fun h => hm' (h.2.2 rfl))
  rw [if_neg hm]
  dsimp only
  by_cases hp : c.numHwCtrs < i ∨ i=1
  · rw [if_pos hp]
    have href : (stop flag).Refused c i t := ⟨ht,hp,fun _ => by simpa using hm⟩
    exact .hw ht hreset rfl rfl (fun _ _ _ => rfl) (fun _ _ => rfl) (fun hn => absurd href hn)
      (iff_of_true rfl href)
  rw [if_neg hp]
  have href : ¬(stop flag).Refused c i t := fun h => hp h.2.1
  by_cases hset : (s.csrs CSR_MCOUNTINHIBIT).getLsbD i=false
  · rw [if_pos hset]
    push Not at hp
    have hbits : i<x.bits := by
      have := x.bits_ge
      omega
    have hval := s.writeCsr_self CSR_MCOUNTINHIBIT (s.csrs CSR_MCOUNTINHIBIT ||| Word.bit i)
    refine .hw ht hreset rfl rfl ?_ ?_ ?_ (iff_of_false hok href)
    · intro num hne _
      exact PmuState.writeCsr_of_ne _ _ hne
    · intro j hj
      rw [hval,BitVec.getLsbD_or,Word.getLsbD_bit hbits,decide_eq_false (Ne.symm hj),Bool.or_false]
    · intro _ _
      rw [hval,BitVec.getLsbD_or,Word.getLsbD_bit hbits,decide_eq_true rfl,Bool.or_true]
      rfl
  · rw [if_neg hset]
    have hstopped : SBI_EALREADY_STOPPED≠SBI_EINVAL := by decide
    have htrue : (s.csrs CSR_MCOUNTINHIBIT).getLsbD i=true := by simpa using hset
    exact .hw ht hreset rfl rfl (fun _ _ _ => rfl) (fun _ _ => rfl) (fun _ _ => htrue)
      (iff_of_false hstopped href)

/-- An operation on a counter's firmware event. -/
theorem Acted.fw (c : PmuConfig x) (s : PmuState x) {call : PmuCtrCall x} (i k : Nat) (hreset : call.resets=false) :
    call.Acted c s { s with fwEventMap := Function.update s.fwEventMap k (call.onFw (s.fwEventMap k)) } 0 i
      SBI_PMU_EVENT_TYPE_FW k where
  active := by rw [hreset]; rfl
  map := (if_pos rfl).symm
  csrs _ _ _ := rfl
  others _ _ := rfl
  inhibit ht := absurd rfl ht
  refused := iff_of_false (by decide) fun h => h.1 rfl

/-- A reset behind the operation. -/
theorem Acted.reset {call call' : PmuCtrCall x} {i t k : Nat} {s1 : PmuState x} {ret1 : Int} {csrs : Csrs x}
    (h : call.Acted c s s1 ret1 i t k) (hcall : call.resets=false) (hcall' : call'.resets=true)
    (hfw : call'.onFw=call.onFw) (hinh : call'.inhibits=call.inhibits)
    (hcsrs : ∀ num,¬CtrReg i num → csrs num=s1.csrs num) :
    call'.Acted c s
      ⟨Function.update s1.activeEvents i SBI_PMU_EVENT_IDX_INVALID,s1.fwEventMap,csrs⟩ ret1 i t k where
  active := by
    have hact := h.active
    rw [if_neg (by simp [hcall])] at hact
    rw [hcall',if_pos rfl,hact]
  map := by rw [hfw]; exact h.map
  csrs num hne hreg := (hcsrs num hreg).trans (h.csrs num hne hreg)
  others j hj := (congrArg (fun v => v.getLsbD j) (hcsrs _ (not_ctrReg_inhibit i))).trans (h.others j hj)
  inhibit ht href hm := by
    rw [hinh]
    refine (congrArg (fun v => v.getLsbD i) (hcsrs _ (not_ctrReg_inhibit i))).trans (h.inhibit ht ?_ hm)
    simpa only [Refused,hinh] using href
  refused := by simpa only [Refused,hinh] using h.refused

/-- The loop body on a counter that is not configured. -/
theorem loggedRound_idle (call : PmuCtrCall x) {r : (PmuState x×Int)×List (Nat×Int)} {i : Nat}
    (hi : i<SBI_PMU_CTR_MAX) (h : r.1.1.event c i=none) : loggedRound c call r i=some r := by
  have hround : call.round c r.1 i=some r.1 := by
    cases call with
    | start flags ival =>
      simp only [round,pmuCtrStartRound,pmuCtrValidate_eq r.1.1 hi,h,Option.bind_eq_bind,Option.bind_some]
    | stop flag =>
      simp only [round,pmuCtrStopRound,pmuCtrValidate_eq r.1.1 hi,h,Option.bind_eq_bind,Option.bind_some]
  rw [loggedRound,pmuCtrValidate_eq r.1.1 hi,h,hround]
  rfl

/-- The loop body leaves `fw_event_map`. -/
theorem loggedRound_outside (call : PmuCtrCall x) {r : (PmuState x×Int)×List (Nat×Int)} {i k : Nat}
    (hi : i<SBI_PMU_CTR_MAX) (h : r.1.1.event c i=some (SBI_PMU_EVENT_TYPE_FW,k))
    (hk : ¬k<SBI_PMU_FW_EVENT_MAX) : loggedRound c call r i=none := by
  have hround : call.round c r.1 i=none := by
    cases call with
    | start flags ival =>
      simp [round,pmuCtrStartRound,pmuCtrValidate_eq r.1.1 hi,h,pmuCtrStartFw,PmuState.fwEvent,hk]
    | stop flag =>
      simp [round,pmuCtrStopRound,pmuCtrValidate_eq r.1.1 hi,h,pmuCtrStopFw,PmuState.fwEvent,hk]
  rw [loggedRound,pmuCtrValidate_eq r.1.1 hi,h,hround]
  rfl

/-- Without a reset. -/
theorem resets_stop_zero : (stop (0 : Word x)).resets=false := by
  simp [resets,hasFlag]

theorem round_acted (call : PmuCtrCall x) {r : PmuState x×Int} {i t k : Nat} (hi : i<SBI_PMU_CTR_MAX)
    (h : r.1.event c i=some (t,k)) (hk : t=SBI_PMU_EVENT_TYPE_FW → k<SBI_PMU_FW_EVENT_MAX) :
    ∃ s1 ret1,call.round c r i=some (s1,ret1) ∧ call.Acted c r.1 s1 ret1 i t k := by
  cases call with
  | start flags ival =>
    simp only [round,pmuCtrStartRound,pmuCtrValidate_eq r.1 hi,h,Option.bind_eq_bind,Option.bind_some]
    by_cases ht : t=SBI_PMU_EVENT_TYPE_FW
    · subst ht
      rw [if_pos rfl,pmuCtrStartFw_eq r.1 ival _ (hk rfl)]
      exact ⟨_,_,rfl,.fw c r.1 i k rfl⟩
    · rw [if_neg ht]
      exact start_hw_acted c r.1 flags ival i k ht
  | stop flag =>
    simp only [round,pmuCtrStopRound,pmuCtrValidate_eq r.1 hi,h,Option.bind_eq_bind,Option.bind_some]
    have hstop : ∀ flag : Word x,(stop flag).resets=false → ∃ s1 ret1,
        (if t=SBI_PMU_EVENT_TYPE_FW then pmuCtrStopFw r.1 k else some (pmuCtrStopHw c r.1 i))=some (s1,ret1) ∧
        (stop flag).Acted c r.1 s1 ret1 i t k := by
      intro flag hreset
      by_cases ht : t=SBI_PMU_EVENT_TYPE_FW
      · subst ht
        rw [if_pos rfl,pmuCtrStopFw_eq r.1 (hk rfl)]
        exact ⟨_,_,rfl,.fw c r.1 i k hreset⟩
      · rw [if_neg ht]
        exact ⟨_,_,rfl,stop_hw_acted c r.1 i k ht hreset⟩
    by_cases hreset : hasFlag flag SBI_PMU_STOP_FLAG_RESET=true
    · obtain ⟨s1,ret1,h1,hact⟩ := hstop 0 resets_stop_zero
      obtain ⟨csrs,h2,hcsrs⟩ := pmuResetHwMhpmevent_within
        { s1 with activeEvents := Function.update s1.activeEvents i SBI_PMU_EVENT_IDX_INVALID } i
      rw [h1,Option.bind_some]
      simp only [hreset,if_true,PmuState.setActiveEvent,if_pos hi,Option.bind_some]
      rw [h2]
      exact ⟨_,_,rfl,hact.reset resets_stop_zero hreset rfl rfl hcsrs⟩
    · have hnone : (stop flag).resets=false := Bool.not_eq_true _ ▸ hreset
      obtain ⟨s1,ret1,h1,hact⟩ := hstop flag hnone
      rw [h1,Option.bind_some]
      simp only [hreset]
      exact ⟨s1,ret1,rfl,hact⟩

/-- The call is its log without the log. -/
theorem loggedRound_fst (call : PmuCtrCall x) (r : (PmuState x×Int)×List (Nat×Int)) {i : Nat}
    (hi : i<SBI_PMU_CTR_MAX) : (loggedRound c call r i).map Prod.fst=call.round c r.1 i := by
  rw [loggedRound,pmuCtrValidate_eq r.1.1 hi]
  cases call.round c r.1 i <;> rfl

theorem loggedFold_fst (call : PmuCtrCall x) {l : List Nat} (hl : ∀ i∈l,i<SBI_PMU_CTR_MAX)
    (r : (PmuState x×Int)×List (Nat×Int)) :
    (l.foldlM (loggedRound c call) r).map Prod.fst=l.foldlM (call.round c) r.1 := by
  induction l generalizing r with
  | nil => rfl
  | cons i l ih =>
    rw [List.foldlM_cons,List.foldlM_cons,← loggedRound_fst call r (hl i List.mem_cons_self)]
    cases h : loggedRound c call r i with
    | none => rfl
    | some r1 => exact ih (fun j hj => hl j (List.mem_cons_of_mem i hj)) r1

theorem run_eq (c : PmuConfig x) (s : PmuState x) (behind cbase cmask : Word x) (call : PmuCtrCall x) :
    call.run c s behind cbase cmask=(call.loggedRun c s behind cbase cmask).map Prod.fst := by
  have hlt : ∀ i∈visitedCtrs c behind cbase cmask,i<SBI_PMU_CTR_MAX :=
    fun i hi => (visitedCtrs_lt hi).trans c.totalCtrs_lt
  rw [loggedRun,loggedFold_fst call hlt]
  cases call with
  | start flags ival =>
    simp only [run,sbiPmuCtrStart,visitedCtrs]
    split_ifs
    · rfl
    · rfl
  | stop flag =>
    simp only [run,sbiPmuCtrStop,visitedCtrs]
    split_ifs
    · rfl
    · rfl

/-- The counters of `l` are those started or stopped, each once; nothing else changed. -/
structure Acts (c : PmuConfig x) (s : PmuState x) (call : PmuCtrCall x) (l : List Nat)
    (r : (PmuState x×Int)×List (Nat×Int)) : Prop where
  once : r.2.map Prod.fst=l
  active : ∀ j,r.1.1.activeEvents j=
    if call.resets=true ∧ j∈l then SBI_PMU_EVENT_IDX_INVALID else s.activeEvents j
  map : r.1.1.fwEventMap=s.onFwEvents c l call.onFw
  csrs : ∀ num,num≠CSR_MCOUNTINHIBIT → (∀ i∈l,¬CtrReg i num) → r.1.1.csrs num=s.csrs num
  others : ∀ j∉l,(r.1.1.csrs CSR_MCOUNTINHIBIT).getLsbD j=(s.csrs CSR_MCOUNTINHIBIT).getLsbD j
  inhibit : ∀ p∈r.2,p.2≠SBI_EINVAL → s.fwEventOf c p.1=none → c.hasMcountinhibit=true →
    (r.1.1.csrs CSR_MCOUNTINHIBIT).getLsbD p.1=call.inhibits

/-- Inside the loop. -/
structure After (c : PmuConfig x) (s : PmuState x) (call : PmuCtrCall x) (l : List Nat)
    (r : (PmuState x×Int)×List (Nat×Int)) : Prop extends Acts c s call l r where
  refused : ∀ p∈r.2,∀ t k,s.event c p.1=some (t,k) → (p.2=SBI_EINVAL ↔ call.Refused c p.1 t)

/-- The code of a firmware event is inside `fw_event_map`. -/
def Coded (c : PmuConfig x) (s : PmuState x) (i : Nat) : Prop :=
  ∀ k,s.fwEventOf c i=some k → k<SBI_PMU_FW_EVENT_MAX

theorem onFw_onFw (call : PmuCtrCall x) (e : PmuFwEvent x) : call.onFw (call.onFw e)=call.onFw e := by
  cases call with
  | start flags ival => exact startFw_startFw ival _ e
  | stop flag => exact stopFw_stopFw e

theorem After.refl (c : PmuConfig x) (s : PmuState x) (call : PmuCtrCall x) (ret : Int) :
    After c s call [] ((s,ret),[]) where
  once := rfl
  active j := by simp
  map := (Effect.refl c s false call.onFw).map
  csrs _ _ _ := rfl
  others _ _ := rfl
  inhibit p hp := by cases hp
  refused p hp := by cases hp

theorem Acts.effect {call : PmuCtrCall x} {l : List Nat} {r : (PmuState x×Int)×List (Nat×Int)}
    (h : Acts c s call l r) : Effect c s r.1.1 call.resets l call.onFw where
  event j := by
    simp only [PmuState.event,h.active]
    split_ifs <;> simp_all
  map := h.map

theorem Acted.effect {call : PmuCtrCall x} {s1 : PmuState x} {ret1 : Int} {i t k : Nat}
    (h : call.Acted c s s1 ret1 i t k) (he : s.event c i=some (t,k)) :
    Effect c s s1 call.resets [i] call.onFw := by
  have hmap := h.map
  have hone : Effect c s { s1 with activeEvents := s.activeEvents } false [i] call.onFw := by
    by_cases ht : t=SBI_PMU_EVENT_TYPE_FW
    · rw [if_pos ht] at hmap
      exact .of_fwEvent (ht ▸ he) rfl hmap
    · rw [if_neg ht] at hmap
      exact .of_other (fwEventOf_hw he ht) rfl hmap
  have hact := h.active
  cases hreset : call.resets with
  | true =>
    rw [hreset,if_pos rfl] at hact
    exact hone.reset hact rfl
  | false =>
    rw [hreset,if_neg Bool.false_ne_true] at hact
    rw [← hact] at hone
    exact hone

/-- One more counter. -/
theorem After.snoc {call : PmuCtrCall x} {l : List Nat} {r : (PmuState x×Int)×List (Nat×Int)}
    {s1 : PmuState x} {ret1 : Int} {i t k : Nat} (h : After c s call l r) (hi : i∉l)
    (he : s.event c i=some (t,k)) (hact : call.Acted c r.1.1 s1 ret1 i t k) :
    After c s call (l++[i]) ((s1,ret1),r.2++[(i,ret1)]) := by
  have hevent : r.1.1.event c i=some (t,k) := by
    rw [h.effect.event,if_neg fun hmem => hi hmem.2,he]
  have hsnoc := h.effect.snoc call.onFw_onFw (hact.effect hevent)
  have hmem : ∀ p∈r.2,p.1≠i := by
    intro p hp heq
    exact hi (h.once ▸ heq ▸ List.mem_map_of_mem hp)
  refine ⟨⟨?_,?_,hsnoc.map,?_,?_,?_⟩,?_⟩
  · rw [List.map_append,h.once]
    rfl
  · intro j
    show s1.activeEvents j=_
    have hj := h.active j
    rw [hact.active]
    by_cases hreset : call.resets=true
    · by_cases hji : j=i
      · subst hji
        simp [hreset]
      · simpa [hreset,hji] using hj
    · simpa [hreset] using hj
  · intro num hne hreg
    have hnum := hact.csrs num hne (hreg i (List.mem_append_right l List.mem_cons_self))
    exact hnum.trans (h.csrs num hne fun j hj => hreg j (List.mem_append_left [i] hj))
  · intro j hj
    rw [List.mem_append,List.mem_singleton,not_or] at hj
    exact (hact.others j hj.2).trans (h.others j hj.1)
  · intro p hp hret hfw hm
    rcases List.mem_append.mp hp with hp | hp
    · exact (hact.others p.1 (hmem p hp)).trans (h.inhibit p hp hret hfw hm)
    · obtain rfl := List.mem_singleton.mp hp
      have ht : t≠SBI_PMU_EVENT_TYPE_FW := by
        intro ht
        rw [PmuState.fwEventOf_eq_some.mpr (ht ▸ he)] at hfw
        cases hfw
      exact hact.inhibit ht (fun href => hret (hact.refused.mpr href)) hm
  · intro p hp t' k' he'
    rcases List.mem_append.mp hp with hp | hp
    · exact h.refused p hp t' k' he'
    · obtain rfl := List.mem_singleton.mp hp
      obtain ⟨rfl,rfl⟩ := Prod.mk.inj (Option.some.inj (he'.symm.trans he))
      exact hact.refused

/-- The loop acts on the configured counters that it visits, until one leaves `fw_event_map`. -/
theorem After.run {call : PmuCtrCall x} {rest l : List Nat} {r : (PmuState x×Int)×List (Nat×Int)}
    (hlt : ∀ i∈rest,i<SBI_PMU_CTR_MAX) (hnodup : rest.Nodup) (hnew : ∀ i∈rest,i∉l) (h : After c s call l r) :
    (∃ r',rest.foldlM (loggedRound c call) r=some r' ∧ (∀ i∈rest,Coded c s i) ∧
      After c s call (l++rest.filter fun i => (s.event c i).isSome) r') ∨
    rest.foldlM (loggedRound c call) r=none ∧ ∃ i∈rest,¬Coded c s i := by
  induction rest generalizing l r with
  | nil =>
    refine .inl ⟨r,rfl,List.forall_mem_nil _,?_⟩
    rwa [List.filter_nil,List.append_nil]
  | cons i rest ih =>
    have hi := hlt i List.mem_cons_self
    have hil := hnew i List.mem_cons_self
    obtain ⟨hirest,hnodup⟩ := List.nodup_cons.mp hnodup
    have hlt : ∀ j∈rest,j<SBI_PMU_CTR_MAX := fun j hj => hlt j (List.mem_cons_of_mem i hj)
    have hevent : r.1.1.event c i=s.event c i := by
      rw [h.effect.event,if_neg fun hmem => hil hmem.2]
    rw [List.foldlM_cons]
    cases he : s.event c i with
    | none =>
      have hcoded : Coded c s i := fun k hk => by
        rw [fwEventOf_none he] at hk
        cases hk
      rw [loggedRound_idle call hi (hevent.trans he),List.filter_cons_of_neg (by simp [he])]
      rcases ih hlt hnodup (fun j hj => hnew j (List.mem_cons_of_mem i hj)) h with ⟨r',hr,hc,hr'⟩ | ⟨hr,j,hj,hc⟩
      · exact .inl ⟨r',hr,List.forall_mem_cons.mpr ⟨hcoded,hc⟩,hr'⟩
      · exact .inr ⟨hr,j,List.mem_cons_of_mem i hj,hc⟩
    | some e =>
      obtain ⟨t,k⟩ := e
      by_cases hk : t=SBI_PMU_EVENT_TYPE_FW → k<SBI_PMU_FW_EVENT_MAX
      · obtain ⟨s1,ret1,hround,hact⟩ := round_acted call hi (hevent.trans he) hk
        have hlog : loggedRound c call r i=some ((s1,ret1),r.2++[(i,ret1)]) := by
          rw [loggedRound,pmuCtrValidate_eq r.1.1 hi,hevent,he,hround]
          rfl
        have hcoded : Coded c s i := by
          intro k' hk'
          rw [PmuState.fwEventOf_eq_some,he] at hk'
          obtain ⟨rfl,rfl⟩ := Prod.mk.inj (Option.some.inj hk')
          exact hk rfl
        have hnew' : ∀ j∈rest,j∉l++[i] := by
          intro j hj hmem
          rcases List.mem_append.mp hmem with hmem | hmem
          · exact hnew j (List.mem_cons_of_mem i hj) hmem
          · exact hirest (List.mem_singleton.mp hmem ▸ hj)
        rw [hlog,List.filter_cons_of_pos (by simp [he]),List.append_cons l i]
        rcases ih hlt hnodup hnew' (h.snoc hil he hact) with ⟨r',hr,hc,hr'⟩ | ⟨hr,j,hj,hc⟩
        · exact .inl ⟨r',hr,List.forall_mem_cons.mpr ⟨hcoded,hc⟩,hr'⟩
        · exact .inr ⟨hr,j,List.mem_cons_of_mem i hj,hc⟩
      · push Not at hk
        have he' : s.event c i=some (SBI_PMU_EVENT_TYPE_FW,k) := hk.1 ▸ he
        rw [loggedRound_outside call hi (hevent.trans he') (not_lt.mpr hk.2)]
        refine .inr ⟨rfl,i,List.mem_cons_self,fun hc => ?_⟩
        exact not_lt.mpr hk.2 (hc k (PmuState.fwEventOf_eq_some.mpr he'))

end PmuCtrCall

instance (cidxBase cidxMask : Word x) (i : Nat) : Decidable (NamesCtr cidxBase cidxMask i) :=
  decidable_of_iff (cidxBase.toNat ≤ i ∧ cidxMask.getLsbD (i-cidxBase.toNat)=true) (by
    constructor
    · intro h
      exact ⟨i-cidxBase.toNat,by omega,h.2⟩
    · rintro ⟨k,rfl,hk⟩
      refine ⟨Nat.le_add_right _ k,?_⟩
      rwa [Nat.add_sub_cancel_left])

theorem namesCtr_iff {cbase cmask : Word x} {i : Nat} (h : cbase.toNat ≤ i) :
    NamesCtr cbase cmask i ↔ cmask.getLsbD (i-cbase.toNat)=true := by
  constructor
  · rintro ⟨k,rfl,hk⟩
    rwa [Nat.add_sub_cancel_left]
  · intro hk
    exact ⟨i-cbase.toNat,by omega,hk⟩

/-- The named counters that are configured. -/
def namedCtrs (c : PmuConfig x) (s : PmuState x) (cbase cmask : Word x) : List Nat :=
  (List.range c.totalCtrs).filter fun i => decide (NamesCtr cbase cmask i) && (s.event c i).isSome

/-- Named counters below the number of counters pass the test of the call. -/
theorem fls_lt_of_named {cbase cmask : Word x} (h : ∀ n,NamesCtr cbase cmask n → n<c.totalCtrs) :
    fls (Word.shl cmask cbase.toNat)<c.totalCtrs := by
  have hpos : 0<c.totalCtrs := by
    simp only [PmuConfig.totalCtrs,SBI_PMU_FW_CTR_MAX]
    omega
  by_cases hz : (Word.shl cmask cbase.toNat).toNat=0
  · rw [fls,hz]
    exact hpos
  have hbit : (Word.shl cmask cbase.toNat).getLsbD (fls (Word.shl cmask cbase.toNat))=true :=
    Nat.testBit_log2 hz
  have hmod := Nat.mod_le cbase.toNat x.bits
  rw [Word.shl,BitVec.getLsbD_shiftLeft] at hbit
  simp only [Bool.and_eq_true,Bool.not_eq_true',decide_eq_false_iff_not,not_lt] at hbit
  have hnamed := h _ ⟨_,rfl,hbit.2⟩
  simp only [Word.shl] at hnamed ⊢
  omega

/-- The bit of a counter that the call tests. -/
def Scanned (behind cbase cmask : Word x) (i : Nat) : Prop :=
  cbase.toNat ≤ i ∧ if i<x.bits then NamesCtr cbase cmask i else behind.getLsbD (i-x.bits)=true

theorem mem_visitedCtrs {behind cbase cmask : Word x} {i : Nat} :
    i∈visitedCtrs c behind cbase cmask ↔
      fls (Word.shl cmask cbase.toNat)<c.totalCtrs ∧ i<c.totalCtrs ∧ Scanned behind cbase cmask i := by
  simp only [visitedCtrs,Scanned]
  by_cases hfls : c.totalCtrs ≤ fls (Word.shl cmask cbase.toNat)
  · simp [hfls,Nat.not_lt.mpr hfls]
  rw [if_neg hfls,mem_setBitsFrom,bitAt]
  simp only [Nat.not_le.mp hfls,true_and]
  by_cases hi : i<x.bits
  · rw [if_pos hi,if_pos hi]
    refine and_congr_right fun _ => and_congr_right fun hlo => ?_
    rw [Word.getLsbD_shl cmask hlo hi,namesCtr_iff hlo]
  · rw [if_neg hi,if_neg hi]

theorem visitedCtrs_nodup (c : PmuConfig x) (behind cbase cmask : Word x) :
    (visitedCtrs c behind cbase cmask).Nodup := by
  simp only [visitedCtrs]
  split_ifs
  · exact List.nodup_nil
  · exact List.nodup_range.filter _

/-- The configured counters that a call visits are the named ones, where the word behind the mask names the
same counters as the call. -/
theorem visited_configured_iff (s : PmuState x) (behind : Word x) {cbase cmask : Word x}
    (hnamed : ∀ n,NamesCtr cbase cmask n → n<c.totalCtrs) :
    ((visitedCtrs c behind cbase cmask).filter fun i => (s.event c i).isSome)=namedCtrs c s cbase cmask ↔
      ∀ j,(s.event c j).isSome=true → x.bits ≤ j → cbase.toNat ≤ j →
        (behind.getLsbD (j-x.bits)=true ↔ NamesCtr cbase cmask j) := by
  have hfls := fls_lt_of_named hnamed
  constructor
  · intro h j hj hbits hlo
    have hlt : j<c.totalCtrs := by
      by_contra hn
      rw [PmuState.event_eq_none j (not_lt.mp hn)] at hj
      cases hj
    have hmem : j∈((visitedCtrs c behind cbase cmask).filter fun i => (s.event c i).isSome) ↔
        j∈namedCtrs c s cbase cmask := by rw [h]
    simpa [mem_visitedCtrs,namedCtrs,Scanned,hfls,hlt,hj,hlo,not_lt.mpr hbits] using hmem
  · intro h
    rw [visitedCtrs,if_neg (not_le.mpr hfls),setBitsFrom,List.filter_filter,namedCtrs]
    apply List.filter_congr
    intro j hj
    have hlt := List.mem_range.mp hj
    cases hconf : (s.event c j).isSome with
    | false => simp
    | true =>
      have hmem : j∈visitedCtrs c behind cbase cmask ↔ _ := mem_visitedCtrs
      rw [visitedCtrs,if_neg (not_le.mpr hfls),mem_setBitsFrom] at hmem
      simp only [hlt,hfls,true_and] at hmem
      have hscan : Scanned behind cbase cmask j ↔ NamesCtr cbase cmask j := by
        rw [Scanned]
        by_cases hlo : cbase.toNat ≤ j
        · rw [and_iff_right hlo]
          by_cases hbits : j<x.bits
          · rw [if_pos hbits]
          · rw [if_neg hbits]
            exact h j hconf (not_lt.mp hbits) hlo
        · refine iff_of_false (fun hn => hlo hn.1) ?_
          rintro ⟨k,rfl,_⟩
          exact hlo (Nat.le_add_right _ k)
      rw [Bool.true_and,Bool.and_true,Bool.eq_iff_iff,Bool.and_eq_true,decide_eq_true_eq,decide_eq_true_eq]
      exact hmem.trans hscan

/-- No counter that the call visits is configured. -/
theorem loggedFold_idle {call : PmuCtrCall x} {l : List Nat} {r : (PmuState x×Int)×List (Nat×Int)}
    (hlt : ∀ i∈l,i<SBI_PMU_CTR_MAX) (h : ∀ i∈l,r.1.1.event c i=none) :
    l.foldlM (PmuCtrCall.loggedRound c call) r=some r := by
  induction l with
  | nil => rfl
  | cons i l ih =>
    rw [List.foldlM_cons,call.loggedRound_idle (hlt i List.mem_cons_self) (h i List.mem_cons_self)]
    exact ih (fun j hj => hlt j (List.mem_cons_of_mem i hj)) fun j hj => h j (List.mem_cons_of_mem i hj)

/-- The configured counters that are named are started or stopped once each, with success, and nothing else
changes; where a counter that does not exist is named the call is refused and touches no counter. -/
def ActsOnNamed (c : PmuConfig x) (s : PmuState x) (behind cbase cmask : Word x) (call : PmuCtrCall x) : Prop :=
  ((∀ n,NamesCtr cbase cmask n → n<c.totalCtrs) →
    ∃ r,call.loggedRun c s behind cbase cmask=some r ∧ call.run c s behind cbase cmask=some r.1 ∧
      call.Acts c s (namedCtrs c s cbase cmask) r ∧ (∀ p∈r.2,p.2≠SBI_EINVAL) ∧
      ∀ j∉namedCtrs c s cbase cmask,∀ k,s.fwEventOf c j=some k → r.1.1.fwEventMap k=s.fwEventMap k) ∧
  ((∃ n,NamesCtr cbase cmask n ∧ c.totalCtrs ≤ n) →
    call.loggedRun c s behind cbase cmask=some ((s,SBI_EINVAL),[]) ∧
      call.run c s behind cbase cmask=some (s,SBI_EINVAL))

/-- What a call needs to act on the counters it names: the word behind the mask agrees with the call on the
counters past the mask, the named counters have an entry or a hardware counter of their own, and share
no firmware event with another counter. -/
structure NamedWell (c : PmuConfig x) (s : PmuState x) (behind cbase cmask : Word x) (call : PmuCtrCall x) :
    Prop where
  past : ∀ j,(s.event c j).isSome=true → x.bits ≤ j → cbase.toNat ≤ j →
    (behind.getLsbD (j-x.bits)=true ↔ NamesCtr cbase cmask j)
  coded : ∀ i∈namedCtrs c s cbase cmask,PmuCtrCall.Coded c s i
  real : ∀ i∈namedCtrs c s cbase cmask,∀ t k,s.event c i=some (t,k) → ¬call.Refused c i t
  alone : ∀ i∈namedCtrs c s cbase cmask,∀ j∉namedCtrs c s cbase cmask,∀ k,
    s.fwEventOf c i=some k → s.fwEventOf c j=some k → call.onFw (s.fwEventMap k)=s.fwEventMap k

theorem actsOnNamed_inside {behind cbase cmask : Word x} {call : PmuCtrCall x}
    (hnamed : ∀ n,NamesCtr cbase cmask n → n<c.totalCtrs) :
    (∃ r,call.loggedRun c s behind cbase cmask=some r ∧ call.run c s behind cbase cmask=some r.1 ∧
      call.Acts c s (namedCtrs c s cbase cmask) r ∧ (∀ p∈r.2,p.2≠SBI_EINVAL) ∧
      ∀ j∉namedCtrs c s cbase cmask,∀ k,s.fwEventOf c j=some k → r.1.1.fwEventMap k=s.fwEventMap k) ↔
    NamedWell c s behind cbase cmask call := by
  have hlt : ∀ i∈visitedCtrs c behind cbase cmask,i<SBI_PMU_CTR_MAX :=
    fun i hi => (visitedCtrs_lt hi).trans c.totalCtrs_lt
  have hrun := PmuCtrCall.After.run hlt (visitedCtrs_nodup c behind cbase cmask) (fun i _ => List.not_mem_nil)
    (PmuCtrCall.After.refl c s call SBI_EINVAL)
  have hvisited := visited_configured_iff s behind hnamed
  constructor
  · rintro ⟨r,hlog,_,hacts,hdone,hother⟩
    rcases hrun with ⟨r',hr',hcoded,hafter⟩ | ⟨hnone,_⟩
    · obtain rfl := Option.some.inj (hr'.symm.trans hlog)
      have heq := hafter.once.symm.trans hacts.once
      rw [List.nil_append] at heq
      refine ⟨hvisited.mp heq,fun i hi => ?_,fun i hi t k he href => ?_,fun i hi j hj k hik hjk => ?_⟩
      · rw [← heq] at hi
        exact hcoded i (List.mem_filter.mp hi).1
      · rw [← hacts.once] at hi
        obtain ⟨p,hp,rfl⟩ := List.mem_map.mp hi
        exact hdone p hp ((hafter.refused p hp t k he).mpr href)
      · rw [← hother j hj k hjk,hacts.map,PmuState.onFwEvents,if_pos ⟨i,hi,hik⟩,call.onFw_onFw]
    · rw [PmuCtrCall.loggedRun,hnone] at hlog
      cases hlog
  · intro h
    have heq := hvisited.mpr h.past
    rcases hrun with ⟨r,hr,_,hafter⟩ | ⟨_,i,hi,hcoded⟩
    · rw [List.nil_append,heq] at hafter
      have hlog : call.loggedRun c s behind cbase cmask=some r := hr
      refine ⟨r,hlog,?_,hafter.toActs,fun p hp hret => ?_,fun j hj k hjk => ?_⟩
      · rw [call.run_eq,hlog]
        rfl
      · have hmem : p.1∈namedCtrs c s cbase cmask := hafter.once ▸ List.mem_map_of_mem hp
        have hconf := (Bool.and_eq_true _ _ ▸ (List.mem_filter.mp hmem).2).2
        obtain ⟨⟨t,k⟩,he⟩ := Option.isSome_iff_exists.mp hconf
        exact h.real p.1 hmem t k he ((hafter.refused p hp t k he).mp hret)
      · rw [hafter.map,PmuState.onFwEvents]
        split_ifs with hex
        · obtain ⟨i,hi,hik⟩ := hex
          exact h.alone i hi j hj k hik hjk
        · rfl
    · refine absurd (fun k hk => ?_) hcoded
      have hconf : (s.event c i).isSome=true := by
        rw [PmuState.fwEventOf_eq_some.mp hk]
        rfl
      have hmem : i∈namedCtrs c s cbase cmask := heq ▸ List.mem_filter.mpr ⟨hi,hconf⟩
      exact h.coded i hmem k hk

theorem actsOnNamed_outside {behind cbase cmask : Word x} {call : PmuCtrCall x} :
    (call.loggedRun c s behind cbase cmask=some ((s,SBI_EINVAL),[]) ∧
      call.run c s behind cbase cmask=some (s,SBI_EINVAL)) ↔
    ∀ j,(s.event c j).isSome=true → Scanned behind cbase cmask j →
      c.totalCtrs ≤ fls (Word.shl cmask cbase.toNat) := by
  have hlt : ∀ i∈visitedCtrs c behind cbase cmask,i<SBI_PMU_CTR_MAX :=
    fun i hi => (visitedCtrs_lt hi).trans c.totalCtrs_lt
  constructor
  · rintro ⟨hlog,_⟩ j hj hscan
    by_contra hfls
    have hjt : j<c.totalCtrs := by
      by_contra hn
      rw [PmuState.event_eq_none j (not_lt.mp hn)] at hj
      cases hj
    have hmem : j∈visitedCtrs c behind cbase cmask := mem_visitedCtrs.mpr ⟨not_le.mp hfls,hjt,hscan⟩
    rcases PmuCtrCall.After.run hlt (visitedCtrs_nodup c behind cbase cmask) (fun i _ => List.not_mem_nil)
      (PmuCtrCall.After.refl c s call SBI_EINVAL) with ⟨r,hr,_,hafter⟩ | ⟨hnone,_⟩
    · obtain rfl := Option.some.inj (hr.symm.trans hlog)
      have honce := hafter.once
      rw [List.nil_append,List.map_nil] at honce
      have hin : j∈(visitedCtrs c behind cbase cmask).filter fun i => (s.event c i).isSome :=
        List.mem_filter.mpr ⟨hmem,hj⟩
      rw [← honce] at hin
      cases hin
    · rw [PmuCtrCall.loggedRun,hnone] at hlog
      cases hlog
  · intro h
    have hlog : call.loggedRun c s behind cbase cmask=some ((s,SBI_EINVAL),[]) := by
      refine loggedFold_idle hlt fun i hi => ?_
      obtain ⟨hfls,_,hscan⟩ := mem_visitedCtrs.mp hi
      rw [← Option.not_isSome_iff_eq_none]
      exact fun hconf => not_le.mpr hfls (h i hconf hscan)
    exact ⟨hlog,by rw [call.run_eq,hlog]; rfl⟩

/-- A start or stop acts on the counters it names exactly when `NamedWell`, or, where it names one that does
not exist, when the test of the shifted mask sees that or no counter that it finds is configured. -/
theorem pmuCtrCall_named_iff (c : PmuConfig x) (s : PmuState x) (behind cbase cmask : Word x)
    (call : PmuCtrCall x) : ActsOnNamed c s behind cbase cmask call ↔
      ((∀ n,NamesCtr cbase cmask n → n<c.totalCtrs) → NamedWell c s behind cbase cmask call) ∧
      ((∃ n,NamesCtr cbase cmask n ∧ c.totalCtrs ≤ n) →
        ∀ j,(s.event c j).isSome=true → Scanned behind cbase cmask j →
          c.totalCtrs ≤ fls (Word.shl cmask cbase.toNat)) := by
  refine and_congr ?_ ?_
  · exact forall_congr' fun hnamed => actsOnNamed_inside hnamed
  · exact forall_congr' fun _ => actsOnNamed_outside

/-- Counter 40 counts the first firmware event. -/
def oneFwCtr : PmuState .rv64 where
  activeEvents := Function.update (fun _ => SBI_PMU_EVENT_IDX_INVALID) 40 0xf0000
  fwEventMap _ := ⟨0,false⟩
  csrs _ := 0

/-- Counters 40 and 64 are named, and there are 47; the bit for counter 64 is shifted out, and counter 40 is
started. -/
theorem shiftedOut_started :
    ¬∀ (x : Xlen) (c : PmuConfig x) (s : PmuState x) (behind cbase cmask : Word x) (call : PmuCtrCall x),
      ActsOnNamed c s behind cbase cmask call := by
  intro h
  have hnamed : NamesCtr (x := .rv64) 40 0x1000001 64 := ⟨24,rfl,rfl⟩
  have hret := ((h .rv64 fullPmu oneFwCtr 0 40 0x1000001 (.start 0 0)).2 ⟨64,hnamed,by decide⟩).2
  have hrun : (PmuCtrCall.run fullPmu oneFwCtr 0 40 0x1000001 (.start 0 0)).map (fun r => (r.1.fwEventMap 0,r.2))=
      some (⟨0,true⟩,0) := by decide
  rw [hret] at hrun
  revert hrun
  decide

end OpenSBI
