import OpenSBI.Boot.Coldboot

namespace OpenSBI

open Framework

variable {x : Xlen}

namespace WaitPc

/-- The hart has the lock. -/
def Locked : WaitPc → Prop
  | .load _ | .store _ _ | .unlock _ => True
  | _ => False

/-- The hart has set its bit of the mask and not yet cleared it. -/
def Registered : WaitPc → Prop
  | .unlock mark => mark=true
  | .lock mark | .load mark | .store mark _ => mark=false
  | .poll | .wfi | .readMip => True
  | .out | .restoreMie => False

/-- The hart has left the loop. -/
def Past : WaitPc → Prop
  | .lock mark | .load mark | .store mark _ | .unlock mark => mark=false
  | .restoreMie => True
  | _ => False

/-- The hart sleeps, or goes back to sleep unless its software interrupt is pending. -/
def Asleep : WaitPc → Prop
  | .wfi | .readMip => True
  | _ => False

theorem Asleep.registered {p : WaitPc} (h : p.Asleep) : p.Registered := by
  cases p with
  | wfi | readMip => trivial
  | _ => cases h

theorem Asleep.ne_out {p : WaitPc} (h : p.Asleep) : p≠.out := by
  rintro rfl
  exact h

/-- A copy of the mask is up to date. -/
def Current (hmask : Hartmask) : WaitPc → Prop
  | .store _ copy => copy=hmask
  | _ => True

end WaitPc

namespace WakerPc

def Locked : WakerPc → Prop
  | .scan _ | .send _ | .unlock => True
  | _ => False

/-- The loop has not passed hart `h`. -/
def Before (h : Nat) : WakerPc → Prop
  | .booting | .lock => True
  | .scan i | .send i => i ≤ h
  | .unlock | .finished => False

end WakerPc

/-- What holds of a hart: one asleep is still ahead of the waker, or its interrupt is pending. -/
structure HartInv (c : ColdbootConfig x) (s : ColdbootState) (h : Nat) (p : WaitPc) : Prop where
  locked : p.Locked → s.lock=some (.hart h)
  current : p.Current s.hmask
  registered : p.Registered → sbiHartmaskTestHart h s.hmask=true
  past : p.Past → s.done=true
  here : p≠.out → c.mayRun h=true ∧ s.msie h=true ∧ (h≠c.hartid ∨ s.waker=.finished)
  asleep : p.Asleep → h≠c.hartid ∧ (s.msip h=true ∨ s.waker.Before h)

structure ColdbootInv (c : ColdbootConfig x) (s : ColdbootState) : Prop where
  done : s.done=true ↔ s.waker≠.booting
  waker : s.waker.Locked → s.lock=some .waker
  harts : ∀ h,HartInv c s h (s.pc h)

section Steps

variable {c : ColdbootConfig x} {s s' : ColdbootState} {h j : Nat} {p : WaitPc}

/-- What others may do around a hart. -/
theorem HartInv.frame (hi : HartInv c s j p) (hdone : s.done=true → s'.done=true)
    (hlock : p.Locked → s.lock=some (.hart j) → s'.lock=some (.hart j) ∧ s'.hmask=s.hmask)
    (htest : sbiHartmaskTestHart j s'.hmask=sbiHartmaskTestHart j s.hmask)
    (hmsie : p≠.out → s'.msie j=s.msie j) (hwaker : s.waker=.finished → s'.waker=.finished)
    (hasleep : p.Asleep → s.msip j=true ∨ s.waker.Before j → s'.msip j=true ∨ s'.waker.Before j) :
    HartInv c s' j p where
  locked := fun hp => (hlock hp (hi.locked hp)).1
  current := by
    have hcur := hi.current
    cases p with
    | store mark copy => exact hcur.trans (hlock trivial (hi.locked trivial)).2.symm
    | _ => trivial
  registered := fun hp => htest.trans (hi.registered hp)
  past := fun hp => hdone (hi.past hp)
  here := by
    intro hp
    obtain ⟨hrun,hm,hid⟩ := hi.here hp
    exact ⟨hrun,(hmsie hp).trans hm,hid.imp_right hwaker⟩
  asleep := fun hp => ⟨(hi.asleep hp).1,hasleep hp (hi.asleep hp).2⟩

/-- The flag stays set. -/
theorem coldbootStep_done {a : ColdbootAction} {ev : List ColdbootEvent}
    (hstep : coldbootStep c s a=some (s',ev)) (hd : s.done=true) : s'.done=true := by
  cases a with
  | wait h =>
    rw [coldbootStep] at hstep
    unfold waitForColdboot at hstep
    split at hstep <;> (try split at hstep) <;> cases hstep <;> exact hd
  | waker =>
    obtain ⟨s1,h1,heq⟩ := Option.map_eq_some_iff.mp hstep
    cases heq
    unfold wakeColdbootHarts sbiIpiRawSend at h1
    split at h1 <;> (try split_ifs at h1) <;> cases h1 <;> first | rfl | exact hd
  | raise h =>
    cases hstep
    exact hd
  | arrive _ | wake _ _ | clear _ | writeMie _ _ =>
    simp only [coldbootStep] at hstep
    split_ifs at hstep
    cases hstep
    exact hd

@[simp] theorem ColdbootState.goto_self : (s.goto h p).pc h=p := Function.update_self ..
theorem ColdbootState.goto_of_ne (hne : j≠h) : (s.goto h p).pc j=s.pc j := Function.update_of_ne hne ..

/-- The other harts do not have the lock while hart `h` has it. -/
theorem HartInv.not_locked (hi : HartInv c s j p) (hl : s.lock=some (.hart h)) (hne : j≠h) : ¬p.Locked := by
  intro hp
  have heq := (hi.locked hp).symm.trans hl
  exact hne (ColdbootParty.hart.inj (Option.some.inj heq))

namespace ColdbootInv

/-- A hart goes on: it meets its invariant where it comes to, and the others do not notice. -/
theorem goto (hs : ColdbootInv c s) (hp : HartInv c s' h p) (hdone : s'.done=s.done)
    (hw : s'.waker=s.waker) (hpc : s'.pc=s.pc) (hmsip : ∀ j≠h,s'.msip j=s.msip j)
    (hmsie : ∀ j≠h,s'.msie j=s.msie j)
    (hshared : s'.lock=s.lock ∧ s'.hmask=s.hmask ∨ s.lock=none ∧ s'.hmask=s.hmask ∨
      s.lock=some (.hart h) ∧ ∀ j≠h,sbiHartmaskTestHart j s'.hmask=sbiHartmaskTestHart j s.hmask) :
    ColdbootInv c (s'.goto h p) where
  done := by
    change s'.done=true ↔ s'.waker≠.booting
    rw [hdone,hw]
    exact hs.done
  waker := by
    intro hl
    change s'.lock=_
    have hlock := hs.waker (hw ▸ hl)
    rcases hshared with ⟨hsame,-⟩ | ⟨hnone,-⟩ | ⟨hhart,-⟩
    · exact hsame.trans hlock
    · rw [hnone] at hlock
      cases hlock
    · rw [hhart] at hlock
      cases hlock
  harts := by
    intro j
    by_cases hj : j=h
    · subst hj
      rw [ColdbootState.goto_self]
      exact ⟨hp.locked,hp.current,hp.registered,hp.past,hp.here,hp.asleep⟩
    rw [ColdbootState.goto_of_ne hj,hpc]
    have htest : sbiHartmaskTestHart j s'.hmask=sbiHartmaskTestHart j s.hmask := by
      rcases hshared with ⟨-,hm⟩ | ⟨-,hm⟩ | ⟨-,hm⟩
      · rw [hm]
      · rw [hm]
      · exact hm j hj
    refine (hs.harts j).frame (fun hd => hdone.trans hd) (fun hl hlock => ?_) htest
      (fun _ => hmsie j hj) (fun hf => hw.trans hf) (fun _ ha => ?_)
    · rcases hshared with ⟨hsame,hm⟩ | ⟨hnone,-⟩ | ⟨hhart,-⟩
      · exact ⟨hsame.trans hlock,hm⟩
      · rw [hnone] at hlock
        cases hlock
      · exact absurd hl ((hs.harts j).not_locked hhart hj)
    · change s'.msip j=true ∨ s'.waker.Before j
      rw [hmsip j hj,hw]
      exact ha

/-- A hart that changes nothing but its place. -/
theorem advance (hs : ColdbootInv c s) (hp : HartInv c s h p) : ColdbootInv c (s.goto h p) :=
  hs.goto hp rfl rfl rfl (fun _ _ => rfl) (fun _ _ => rfl) (.inl ⟨rfl,rfl⟩)

/-- A step of a waiting hart. -/
theorem wait (hs : ColdbootInv c s) {ev : List ColdbootEvent}
    (hstep : waitForColdboot s h=some (s',ev)) :
    ColdbootInv c s' ∧ ∀ j,.left j∈ev → s.done=true := by
  have hi := hs.harts h
  have hnil : ∀ j,ColdbootEvent.left j∈[] → s.done=true := fun j hj => absurd hj List.not_mem_nil
  cases hpc : s.pc h <;> simp only [waitForColdboot,hpc] at hstep <;> rw [hpc] at hi
  case lock mark =>
    split at hstep
    next hfree =>
      cases hstep
      exact ⟨hs.goto ⟨fun _ => rfl,trivial,hi.registered,hi.past,fun _ => hi.here (by simp),False.elim⟩
        rfl rfl rfl (fun _ _ => rfl) (fun _ _ => rfl) (.inr (.inl ⟨hfree,rfl⟩)),hnil⟩
    · cases hstep
  case load mark =>
    cases hstep
    exact ⟨hs.advance ⟨hi.locked,rfl,hi.registered,hi.past,fun _ => hi.here (by simp),False.elim⟩,hnil⟩
  case store mark hmask =>
    cases hstep
    obtain rfl := hi.current
    have hrun := (hi.here (by simp)).1
    simp only [ColdbootConfig.mayRun,Bool.and_eq_true] at hrun
    refine ⟨hs.goto ⟨hi.locked,trivial,?_,hi.past,fun _ => hi.here (by simp),False.elim⟩ rfl rfl rfl
      (fun _ _ => rfl) (fun _ _ => rfl) (.inr (.inr ⟨hi.locked trivial,fun j hj => ?_⟩)),hnil⟩
    · rintro rfl
      rw [if_pos rfl,testHart_set,hrun.1,decide_eq_true (rfl : h=h)]
      exact Bool.or_true _
    · cases mark
      · simp [hj]
      · simp [hj]
  case unlock mark =>
    cases hstep
    have hlock := hi.locked trivial
    refine ⟨hs.goto ?_ rfl rfl rfl (fun _ _ => rfl) (fun _ _ => rfl)
      (.inr (.inr ⟨hlock,fun _ _ => rfl⟩)),hnil⟩
    cases mark with
    | true =>
      exact ⟨False.elim,trivial,fun _ => hi.registered rfl,False.elim,fun _ => hi.here (by simp),False.elim⟩
    | false =>
      exact ⟨False.elim,trivial,False.elim,fun _ => hi.past rfl,fun _ => hi.here (by simp),False.elim⟩
  case poll =>
    cases hstep
    refine ⟨hs.advance ?_,hnil⟩
    split
    next hdone =>
      exact ⟨False.elim,trivial,fun _ => hi.registered trivial,fun _ => hdone,fun _ => hi.here (by simp),
        False.elim⟩
    next hdone =>
      -- the waker has not published the flag: it has everything before it
      have hboot : s.waker=.booting := not_not.mp fun hb => hdone (hs.done.mpr hb)
      have hother : h≠c.hartid := by
        obtain ⟨-,-,hid⟩ := hi.here (by simp)
        rw [hboot] at hid
        exact hid.resolve_right (by simp)
      refine ⟨False.elim,trivial,fun _ => hi.registered trivial,False.elim,fun _ => hi.here (by simp),
        fun _ => ⟨hother,.inr ?_⟩⟩
      rw [hboot]
      trivial
  case readMip =>
    cases hstep
    refine ⟨hs.advance ?_,hnil⟩
    split
    · exact ⟨False.elim,trivial,hi.registered,False.elim,fun _ => hi.here (by simp),False.elim⟩
    · exact ⟨False.elim,trivial,hi.registered,False.elim,fun _ => hi.here (by simp),hi.asleep⟩
  case restoreMie =>
    cases hstep
    exact ⟨hs.goto ⟨False.elim,trivial,False.elim,False.elim,fun hp => absurd rfl hp,False.elim⟩ rfl rfl rfl
      (fun _ _ => rfl) (fun j hj => Function.update_of_ne hj ..) (.inl ⟨rfl,rfl⟩),
      fun _ _ => hi.past trivial⟩
  all_goals cases hstep

/-- A step of the waker, or of nobody: what it does to the harts asleep. -/
theorem shared (hs : ColdbootInv c s) (hdone : s'.done=true ↔ s'.waker≠.booting)
    (hwaker : s'.waker.Locked → s'.lock=some .waker) (hmono : s.done=true → s'.done=true)
    (hpc : s'.pc=s.pc) (hmask : s'.hmask=s.hmask) (hmsie : ∀ j,s.pc j≠.out → s'.msie j=s.msie j)
    (hlock : ∀ j,s.lock=some (.hart j) → s'.lock=some (.hart j))
    (hfin : s.waker=.finished → s'.waker=.finished)
    (hasleep : ∀ j,(s.pc j).Asleep → s.msip j=true ∨ s.waker.Before j → s'.msip j=true ∨ s'.waker.Before j) :
    ColdbootInv c s' where
  done := hdone
  waker := hwaker
  harts := by
    intro j
    rw [hpc]
    exact (hs.harts j).frame hmono (fun _ hl => ⟨hlock j hl,hmask⟩) (by rw [hmask]) (hmsie j) hfin
      (hasleep j)

/-- A step of the waker itself, which runs with the flag published. -/
theorem published (hs : ColdbootInv c s) (hdone : s'.done=true) (hnext : s'.waker≠.booting)
    (hbusy : s.waker≠.finished) (hwaker : s'.waker.Locked → s'.lock=some .waker)
    (hpc : s'.pc=s.pc) (hmask : s'.hmask=s.hmask) (hmsie : s'.msie=s.msie)
    (hlock : ∀ j,s.lock=some (.hart j) → s'.lock=some (.hart j))
    (hasleep : ∀ j,(s.pc j).Asleep → s.msip j=true ∨ s.waker.Before j → s'.msip j=true ∨ s'.waker.Before j) :
    ColdbootInv c s' :=
  hs.shared (iff_of_true hdone hnext) hwaker (fun _ => hdone) hpc hmask (fun j _ => congrFun hmsie j) hlock
    (fun hf => absurd hf hbusy) hasleep

/-- A step of `wake_coldboot_harts()`. -/
theorem wakeStep (hs : ColdbootInv c s) (hdev : c.ipiDev=true)
    (hstep : wakeColdbootHarts c s=some s') : ColdbootInv c s' := by
  have hw := hs.waker
  have hpub : s.waker≠.booting → s.done=true := hs.done.mpr
  unfold wakeColdbootHarts at hstep
  cases hwk : s.waker <;> simp only [hwk] at hstep <;> rw [hwk] at hw hpub
  case booting =>
    cases hstep
    exact hs.published rfl (by simp) (by simp [hwk]) False.elim rfl rfl rfl (fun _ hl => hl)
      (fun _ _ _ => .inr trivial)
  case lock =>
    split at hstep
    next hfree =>
      cases hstep
      refine hs.published (hpub (by simp)) (by simp) (by simp [hwk]) (fun _ => rfl) rfl rfl rfl (fun j hl => ?_)
        (fun j _ _ => .inr (Nat.zero_le j))
      rw [hfree] at hl
      cases hl
    · cases hstep
  case scan i =>
    have hlock := hw trivial
    split_ifs at hstep with hle hsend
    · cases hstep
      refine hs.published (hpub (by simp)) (by simp) (by simp [hwk]) (fun _ => hlock) rfl rfl rfl
        (fun j hl => hl) (fun j _ hj => ?_)
      rwa [hwk] at hj
    · cases hstep
      refine hs.published (hpub (by simp)) (by simp) (by simp [hwk]) (fun _ => hlock) rfl rfl rfl
        (fun j hl => hl) (fun j hj hm => ?_)
      rw [hwk] at hm
      refine hm.imp_right fun hbefore => Nat.lt_of_le_of_ne hbefore ?_
      -- a hart asleep has its bit set, so the loop does not skip it
      rintro rfl
      have hi := hs.harts i
      exact hsend ⟨(hi.asleep hj).1,hi.registered hj.registered⟩
    · cases hstep
      refine hs.published (hpub (by simp)) (by simp) (by simp [hwk]) (fun _ => hlock) rfl rfl rfl
        (fun j hl => hl) (fun j hj hm => ?_)
      rw [hwk] at hm
      refine hm.imp_right fun hbefore => hle ?_
      exact hbefore.trans (c.le_lastHartid ((hs.harts j).here hj.ne_out).1)
  case send i =>
    have hlock := hw trivial
    cases hstep
    rw [sbiIpiRawSend,if_pos hdev]
    refine hs.published (hpub (by simp)) (by simp) (by simp [hwk]) (fun _ => hlock) rfl rfl rfl
      (fun j hl => hl) (fun j _ hm => ?_)
    rw [hwk] at hm
    by_cases hj : j=i
    · subst hj
      exact .inl (Function.update_self ..)
    · exact hm.imp (fun h => (Function.update_of_ne hj ..).trans h)
        fun h => Nat.lt_of_le_of_ne h (Ne.symm hj)
  case unlock =>
    have hlock := hw trivial
    cases hstep
    refine hs.published (hpub (by simp)) (by simp) (by simp [hwk]) False.elim rfl rfl rfl (fun j hl => ?_)
      (fun j _ hm => ?_)
    · rw [hlock] at hl
      cases hl
    · rw [hwk] at hm
      exact hm
  case finished => cases hstep

/-- Every step keeps the invariant, and a hart leaves only with the flag set. -/
theorem step (hs : ColdbootInv c s) (hdev : c.ipiDev=true) {a : ColdbootAction}
    {ev : List ColdbootEvent} (hstep : coldbootStep c s a=some (s',ev)) :
    ColdbootInv c s' ∧ ∀ j,.left j∈ev → s.done=true := by
  have hnil : ∀ j,ColdbootEvent.left j∈[] → s.done=true := fun j hj => absurd hj List.not_mem_nil
  cases a with
  | wait h => exact hs.wait hstep
  | waker =>
    obtain ⟨s1,h1,heq⟩ := Option.map_eq_some_iff.mp hstep
    cases heq
    exact ⟨hs.wakeStep hdev h1,hnil⟩
  | arrive h =>
    simp only [coldbootStep] at hstep
    split_ifs at hstep with hin
    cases hstep
    obtain ⟨hpc,hrun,hid⟩ := hin
    refine ⟨hs.goto ?_ rfl rfl rfl (fun _ _ => rfl) (fun j hj => Function.update_of_ne hj ..)
      (.inl ⟨rfl,rfl⟩),hnil⟩
    refine ⟨False.elim,trivial,fun hp => ?_,fun hp => ?_,fun _ => ⟨hrun,Function.update_self ..,hid⟩,
      False.elim⟩
    · cases hp
    · cases hp
  | wake h other =>
    simp only [coldbootStep] at hstep
    split_ifs at hstep with hin
    cases hstep
    have hi := hs.harts h
    rw [hin.1] at hi
    exact ⟨hs.advance ⟨False.elim,trivial,hi.registered,False.elim,fun _ => hi.here (by simp),hi.asleep⟩,hnil⟩
  | raise h =>
    cases hstep
    refine ⟨hs.shared hs.done hs.waker id rfl rfl (fun _ _ => rfl) (fun _ hl => hl) id (fun j _ hm => ?_),hnil⟩
    refine hm.imp_left fun h1 => ?_
    by_cases hj : j=h
    · subst hj
      exact Function.update_self ..
    · exact (Function.update_of_ne hj ..).trans h1
  | clear h =>
    simp only [coldbootStep] at hstep
    split_ifs at hstep with hin
    cases hstep
    refine ⟨hs.shared hs.done hs.waker id rfl rfl (fun _ _ => rfl) (fun _ hl => hl) id (fun j hj hm => ?_),hnil⟩
    rcases hin with hout | hboot
    · have hne : j≠h := by
        rintro rfl
        rw [hout] at hj
        exact hj
      exact hm.imp_left (Function.update_of_ne hne ..).trans
    · refine .inr ?_
      change s.waker.Before j
      rw [hboot]
      trivial
  | writeMie h msie =>
    simp only [coldbootStep] at hstep
    split_ifs at hstep with hout
    cases hstep
    refine ⟨hs.shared hs.done hs.waker id rfl rfl (fun j hj => ?_) (fun _ hl => hl) id (fun _ _ hm => hm),hnil⟩
    refine Function.update_of_ne ?_ ..
    rintro rfl
    exact hj hout

end ColdbootInv

theorem boot_inv (c : ColdbootConfig x) (msip msie : Nat → Bool) :
    ColdbootInv c (.boot msip msie) where
  done := iff_of_false Bool.false_ne_true (not_not.mpr rfl)
  waker := False.elim
  harts := fun _ => ⟨False.elim,trivial,False.elim,False.elim,fun hp => absurd rfl hp,False.elim⟩

/-- The coldboot hand-off loses no hart, on a platform with an IPI device: once the waker has finished, a
hart asleep has its software interrupt pending and enabled; and no hart leaves before the flag is set. -/
theorem coldboot_handoff (hdev : c.ipiDev=true) (msip msie : Nat → Bool) {t : List ColdbootEvent}
    (hrun : (coldbootMachine c).Run Machine.anyStep (.boot msip msie) t s) :
    (s.waker=.finished → ∀ h,(s.pc h).Asleep → s.msip h=true ∧ s.msie h=true) ∧
    ∀ h,.left h∈t → s.done=true := by
  have hinv : ColdbootInv c s ∧ ∀ j,.left j∈t → s.done=true := by
    apply hrun.traceInvariant (P := fun t s => ColdbootInv c s ∧ ∀ j,.left j∈t → s.done=true)
    · rintro t s a s' ev ⟨hs,hleft⟩ hstep -
      obtain ⟨hs',hev⟩ := hs.step hdev hstep
      refine ⟨hs',fun j hm => ?_⟩
      have hdone : s.done=true := (List.mem_append.mp hm).elim (hleft j) (hev j)
      exact coldbootStep_done hstep hdone
    · exact ⟨boot_inv c msip msie,fun h hm => absurd hm List.not_mem_nil⟩
  obtain ⟨hs,hleft⟩ := hinv
  refine ⟨fun hfin h hasleep => ?_,hleft⟩
  have hi := hs.harts h
  have hpend := (hi.asleep hasleep).2
  rw [hfin] at hpend
  exact ⟨hpend.resolve_right id,(hi.here hasleep.ne_out).2.1⟩

end Steps

/-- Three harts, of which hart 0 boots. -/
def handoffHarts : ColdbootConfig .rv64 where
  plat := ⟨fun h => decide (3 ≤ h)⟩
  hartidToScratch _ := 0x80040000
  hasScratch _ _ := by decide
  mem _ := 0
  hartid := 0
  ipiDev := true

/-- Hart 1 sleeps when the waker comes; hart 2 arrives when the flag is set, and leaves. -/
theorem coldboot_handoff_twoHarts : ∃ t s,
    (coldbootMachine handoffHarts).Run Machine.anyStep (.boot (fun _ => false) fun _ => false) t s ∧
    s.waker=.finished ∧ s.pc 1=.wfi ∧ s.msip 1=true ∧ .left 2∈t ∧ s.done=true := by
  obtain ⟨s,t,hrun,hend⟩ := @Machine.exists_run _ _ _ (coldbootMachine handoffHarts) (fun _ _ _ => true)
    (.boot (fun _ => false) fun _ => false)
    ([.arrive 1]++List.replicate 5 (.wait 1)++[.waker,.arrive 2]++List.replicate 10 (.wait 2)++
      List.replicate 7 .waker)
    (fun s t => decide (s.waker=.finished ∧ s.pc 1=.wfi ∧ .left 2∈t)) (by decide +kernel)
  obtain ⟨hfin,hpc,hleft⟩ := of_decide_eq_true hend
  have hany : (coldbootMachine handoffHarts).Run Machine.anyStep (.boot (fun _ => false) fun _ => false) t s :=
    hrun.mono fun _ _ _ _ => trivial
  have hsafe := coldboot_handoff (c := handoffHarts) rfl _ _ hany
  have hasleep : (s.pc 1).Asleep := by
    rw [hpc]
    trivial
  exact ⟨t,s,hany,hfin,hpc,(hsafe.1 hfin 1 hasleep).1,hleft,hsafe.2 2 hleft⟩

end OpenSBI
