import OpenSBI.Domain.Table
import OpenSBI.Hsm.State

namespace OpenSBI

variable {x : Xlen}

/-- The arguments of `sbi_hsm_hart_start()`. -/
structure StartCall (x : Xlen) where
  hartid : Nat
  saddr : Word x
  smode : Nat
  priv : Word x
  deriving DecidableEq

/-- The checks of `sbi_hsm_hart_start()` in front of its claim of the target; `scratch` tells
whether `sbi_hartid_to_scratch()` finds the hart. -/
def hartStartCheck (dom : Option (SbiDomain x)) (scratch : Nat → Bool) (call : StartCall x) :
    Int :=
  if call.smode≠PRV_S ∧ call.smode≠PRV_U then SBI_EINVAL
  else if dom.any (fun d => !sbiDomainIsAssignedHart (some d) call.hartid) then SBI_EINVAL
  else if dom.any (fun d => !sbiDomainCheckAddr d call.saddr call.smode SBI_DOMAIN_EXECUTE) then
    SBI_EINVALID_ADDR
  else if !scratch call.hartid then SBI_EINVAL
  else SBI_OK

def SBI_HSM_SUSP_NON_RET_BIT : BitVec 32 := 0x80000000
def SBI_HSM_SUSPEND_RET_DEFAULT : BitVec 32 := 0
def SBI_HSM_SUSPEND_RET_PLATFORM : BitVec 32 := 0x10000000
def SBI_HSM_SUSPEND_NON_RET_DEFAULT : BitVec 32 := 0x80000000
def SBI_HSM_SUSPEND_NON_RET_PLATFORM : BitVec 32 := 0x90000000

/-- A suspend type from which the hart resumes through the warm boot path. -/
def nonRetentive (suspendType : BitVec 32) : Bool :=
  decide (suspendType &&& SBI_HSM_SUSP_NON_RET_BIT≠0)

/-- The checks of `sbi_hsm_hart_suspend()`; those of the resume address and mode are made for a
non-retentive suspend only. -/
def hartSuspendCheck (dom : Option (SbiDomain x)) (suspendType : BitVec 32) (raddr : Word x)
    (rmode : Nat) : Int :=
  match dom with
  | none => SBI_EINVAL
  | some d =>
      if SBI_HSM_SUSPEND_RET_DEFAULT < suspendType ∧
          suspendType < SBI_HSM_SUSPEND_RET_PLATFORM then SBI_EINVAL
      else if SBI_HSM_SUSPEND_NON_RET_DEFAULT < suspendType ∧
          suspendType < SBI_HSM_SUSPEND_NON_RET_PLATFORM then SBI_EINVAL
      else if nonRetentive suspendType ∧ rmode≠PRV_S ∧ rmode≠PRV_U then SBI_EINVAL
      else if nonRetentive suspendType ∧ !sbiDomainCheckAddr d raddr rmode SBI_DOMAIN_EXECUTE then
        SBI_EINVALID_ADDR
      else SBI_OK

/-- What the claim by `atomic_cmpxchg()` makes of the state it finds, and the code of the call when
that is not `SBI_HSM_STATE_STOPPED`. -/
def hartStartClaim (hstate : HsmState) : HsmState × Int :=
  match hstate with
  | .stopped => (.startPending,SBI_OK)
  | .started => (.started,SBI_EALREADY)
  | st => (st,SBI_EINVAL)

/-- The callbacks of `struct sbi_hsm_device` a start depends on. -/
structure HsmDevice (x : Xlen) where
  hartStart : Option (Nat → Word x → Int)
  hasHartStop : Bool

namespace HsmDevice

/-- `hsm_device_has_hart_hotplug()`. -/
def hasHartHotplug (dev : Option (HsmDevice x)) : Bool :=
  dev.any fun d => d.hartStart.isSome && d.hasHartStop

/-- `hsm_device_has_hart_secondary_boot()`. -/
def hasHartSecondaryBoot (dev : Option (HsmDevice x)) : Bool :=
  dev.any fun d => d.hartStart.isSome && !d.hasHartStop

/-- `hsm_device_hart_start()`. -/
def hartStartDevice (dev : Option (HsmDevice x)) (hartid : Nat) (saddr : Word x) : Int :=
  match dev.bind HsmDevice.hartStart with
  | some start => start hartid saddr
  | none => SBI_ENOTSUPP

/-- The test of `sbi_hsm_hart_start()` for the device instead of an interrupt. -/
def powersUp (dev : Option (HsmDevice x)) (initCount : Word x) : Bool :=
  hasHartHotplug dev || hasHartSecondaryBoot dev && decide (initCount=0)

end HsmDevice

/-- What a start reads and writes of the target hart: the state word, the scratch fields of its
next jump and `sbi_init_count()`. -/
structure TargetHart (x : Xlen) where
  state : HsmState
  nextArg1 : Word x
  nextAddr : Word x
  nextMode : Nat
  initCount : Word x
  deriving DecidableEq

/-- `sbi_hsm_hart_start()` without other harts; `warmboot` is the warm boot address in the scratch
space of the caller. -/
def sbiHsmHartStart (dev : Option (HsmDevice x)) (warmboot : Word x)
    (dom : Option (SbiDomain x)) (scratch : Nat → Bool) (call : StartCall x)
    (target : TargetHart x) : Int × TargetHart x :=
  let rc := hartStartCheck dom scratch call
  if rc≠SBI_OK then (rc,target)
  else
    let claim := hartStartClaim target.state
    if claim.2≠SBI_OK then (claim.2,target)
    else
      let target' := { target with
        state := claim.1,nextArg1 := call.priv,nextAddr := call.saddr,nextMode := call.smode }
      if HsmDevice.powersUp dev target.initCount then
        (HsmDevice.hartStartDevice dev call.hartid warmboot,target')
      else (SBI_OK,target')

/-- The call gets as far as the callback of the device, which reports an error. -/
def PowerUpFails (dev : Option (HsmDevice x)) (warmboot : Word x) (dom : Option (SbiDomain x))
    (scratch : Nat → Bool) (call : StartCall x) (target : TargetHart x) : Prop :=
  hartStartCheck dom scratch call=SBI_OK ∧ target.state=.stopped ∧
    HsmDevice.powersUp dev target.initCount=true ∧
    HsmDevice.hartStartDevice dev call.hartid warmboot < 0

/-- What a call has passed when it goes on to its claim. -/
structure StartCall.Checked (dom : Option (SbiDomain x)) (scratch : Nat → Bool)
    (call : StartCall x) : Prop where
  smode : call.smode=PRV_S ∨ call.smode=PRV_U
  assigned : ∀ d,dom=some d → sbiDomainIsAssignedHart (some d) call.hartid=true
  saddr : ∀ d,dom=some d → sbiDomainCheckAddr d call.saddr call.smode SBI_DOMAIN_EXECUTE=true
  scratch : scratch call.hartid=true

theorem hartStartCheck_ok_iff (dom : Option (SbiDomain x)) (scratch : Nat → Bool)
    (call : StartCall x) :
    hartStartCheck dom scratch call=SBI_OK ↔ call.Checked dom scratch := by
  have h1 : ¬SBI_EINVAL=SBI_OK := by decide
  have h2 : ¬SBI_EINVALID_ADDR=SBI_OK := by decide
  have hany : ∀ p : SbiDomain x → Bool,
      dom.any (fun d => !p d)=true ↔ ¬∀ d,dom=some d → p d=true := by
    intro p
    cases dom <;> simp
  unfold hartStartCheck
  simp only [hany]
  split_ifs with hm ha hc hs
  · exact iff_of_false h1 fun h => h.smode.elim hm.1 hm.2
  · exact iff_of_false h1 fun h => by simp [h.scratch] at hs
  · refine iff_of_true rfl ⟨?_,ha,hc,by simpa using hs⟩
    rcases not_and_or.mp hm with h | h
    · exact .inl (not_not.mp h)
    · exact .inr (not_not.mp h)
  · exact iff_of_false h2 fun h => hc h.saddr
  · exact iff_of_false h1 fun h => ha h.assigned

theorem hartStartClaim_ok_iff (hstate : HsmState) :
    (hartStartClaim hstate).2=SBI_OK ↔ hstate=.stopped := by
  cases hstate <;> decide

variable {dev : Option (HsmDevice x)} {warmboot : Word x} {dom : Option (SbiDomain x)}
  {scratch : Nat → Bool} {call : StartCall x} {target : TargetHart x}

/-- A call that is refused before it owns the target changes nothing. -/
theorem sbiHsmHartStart_refused
    (h : hartStartCheck dom scratch call≠SBI_OK ∨ target.state≠.stopped) :
    (sbiHsmHartStart dev warmboot dom scratch call target).2=target := by
  unfold sbiHsmHartStart
  by_cases hc : hartStartCheck dom scratch call=SBI_OK
  · have hclaim : (hartStartClaim target.state).2≠SBI_OK :=
      mt (hartStartClaim_ok_iff _).mp (h.resolve_left (not_not_intro hc))
    simp only [hc,ne_eq,not_true_eq_false,if_false,hclaim,not_false_eq_true,if_true]
  · simp only [ne_eq,hc,not_false_eq_true,if_true]

/-- A call that gets the target describes its next jump. -/
theorem sbiHsmHartStart_claimed (hc : hartStartCheck dom scratch call=SBI_OK)
    (hst : target.state=.stopped) :
    sbiHsmHartStart dev warmboot dom scratch call target=
      (if HsmDevice.powersUp dev target.initCount then
          HsmDevice.hartStartDevice dev call.hartid warmboot else SBI_OK,
        { target with
          state := .startPending,nextArg1 := call.priv,nextAddr := call.saddr
          nextMode := call.smode }) := by
  unfold sbiHsmHartStart
  simp only [hc,ne_eq,not_true_eq_false,if_false,hst,hartStartClaim]
  split_ifs <;> rfl

/-- A start that returns an error leaves the target as it was, and startable, exactly when the
error is not one of the callback that powers the target up. -/
theorem sbiHsmHartStart_rollback_iff (dev : Option (HsmDevice x)) (warmboot : Word x)
    (dom : Option (SbiDomain x)) (scratch : Nat → Bool) (call : StartCall x)
    (target : TargetHart x) :
    ((sbiHsmHartStart dev warmboot dom scratch call target).1 < 0 →
        (sbiHsmHartStart dev warmboot dom scratch call target).2=target ∧
        ∀ dev' dom' call',0≤(sbiHsmHartStart dev' warmboot dom' scratch call' target).1 →
          0≤(sbiHsmHartStart dev' warmboot dom' scratch call'
            (sbiHsmHartStart dev warmboot dom scratch call target).2).1) ↔
      ¬PowerUpFails dev warmboot dom scratch call target := by
  by_cases h : hartStartCheck dom scratch call≠SBI_OK ∨ target.state≠.stopped
  · rw [sbiHsmHartStart_refused h]
    refine iff_of_true (fun _ => ⟨rfl,fun _ _ _ hok => hok⟩) fun hf => ?_
    rcases h with h | h
    · exact h hf.1
    · exact h hf.2.1
  simp only [not_or,not_not] at h
  obtain ⟨hc,hst⟩ := h
  rw [sbiHsmHartStart_claimed hc hst]
  by_cases hp : HsmDevice.powersUp dev target.initCount=true
  · rw [if_pos hp]
    by_cases hneg : HsmDevice.hartStartDevice dev call.hartid warmboot < 0
    · refine iff_of_false (fun hall => ?_) (not_not_intro ⟨hc,hst,hp,hneg⟩)
      have hsame := congrArg TargetHart.state (hall hneg).1
      simp only [hst] at hsame
      cases hsame
    · exact iff_of_true (fun hlt => absurd hlt hneg) fun hf => hneg hf.2.2.2
  · rw [if_neg hp]
    have hok : ¬SBI_OK < 0 := by decide
    exact iff_of_true (fun hlt => absurd hlt hok) fun hf => hp hf.2.2.1

/-- A device whose `hart_start` callback fails. -/
def brokenDevice : HsmDevice .rv64 := ⟨some fun _ _ => SBI_EFAIL,true⟩

/-- The call that fails in the callback leaves its target claimed. -/
theorem brokenDevice_claimed :
    ¬∀ (x : Xlen) (dev : Option (HsmDevice x)) (warmboot : Word x) (dom : Option (SbiDomain x))
      (scratch : Nat → Bool) (call : StartCall x) (target : TargetHart x),
      (sbiHsmHartStart dev warmboot dom scratch call target).1 < 0 →
        (sbiHsmHartStart dev warmboot dom scratch call target).2=target ∧
        ∀ dev' dom' call',0≤(sbiHsmHartStart dev' warmboot dom' scratch call' target).1 →
          0≤(sbiHsmHartStart dev' warmboot dom' scratch call'
            (sbiHsmHartStart dev warmboot dom scratch call target).2).1 := by
  intro h
  have hsame := (h .rv64 (some brokenDevice) 0x80000000
    (some { tableDomain rootTable with assignedHarts := 3 }) (fun i => decide (i<2))
    ⟨1,0x80200000,PRV_S,0⟩ ⟨.stopped,0,0,PRV_S,0⟩ (by decide)).1
  revert hsame
  decide

end OpenSBI
