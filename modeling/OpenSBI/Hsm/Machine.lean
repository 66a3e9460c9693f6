import OpenSBI.Domain.Boot
import OpenSBI.Hsm.Start

namespace OpenSBI

open Framework

variable {x : Xlen}

/-- Where a call of `sbi_hsm_hart_start()` stands that has passed its checks: in front of the claim
of the target, of `sbi_init_count()`, of the three stores, and of the power-up or interrupt. -/
inductive StartStage (x : Xlen) where
  | claim
  | initCount
  | nextArg1 (initCount : Word x)
  | nextAddr (initCount : Word x)
  | nextMode (initCount : Word x)
  | launch (initCount : Word x)
  deriving DecidableEq

/-- The caller of `sbi_hsm_hart_start()`: an ecall from a privilege mode, or the loop of
`sbi_domain_finalize()` with the domains it still visits. -/
inductive StartOrigin where
  | ecall (mode : Nat)
  | finalize (rest : List Nat)
  deriving DecidableEq

structure Starting (x : Xlen) where
  call : StartCall x
  origin : StartOrigin
  stage : StartStage x
  deriving DecidableEq

/-- The arguments of `sbi_hsm_hart_suspend()`; the resume mode is the mode of the caller. -/
structure Suspending (x : Xlen) where
  suspendType : BitVec 32
  raddr : Word x
  rmode : Nat
  priv : Word x
  deriving DecidableEq

/-- Where a call of `sbi_hsm_hart_suspend()` stands: in front of the three stores, of the claim, in
the device or `wfi()`, and in front of the way back to `SBI_HSM_STATE_STARTED`. -/
inductive SuspendStage where
  | nextArg1
  | nextAddr
  | nextMode
  | suspend
  | device
  | restore
  deriving DecidableEq

/-- The loads of the arguments of `sbi_hart_switch_mode()`, and the call itself. -/
inductive SwitchStage (x : Xlen) where
  | nextArg1
  | nextAddr (arg1 : Word x)
  | nextMode (arg1 addr : Word x)
  | switchMode (arg1 addr : Word x) (mode : Nat)
  deriving DecidableEq

/-- The warm boot path up to the jump; a hart that is `off` has not come up, or has been powered
down. `wfi` is the wait inside `sbi_hsm_hart_wait()`. -/
inductive WarmPc where
  | off
  | sbiInit
  | waitForColdboot
  | getState
  | hartWait
  | wfi
  | platformInit
  | initCount
  | prepareNextJump
  deriving DecidableEq

/-- `init_warm_resume()`. -/
inductive ResumePc where
  | resumeStart
  | reinit
  | resumeFinish
  deriving DecidableEq

/-- The way out: `sbi_system_reset()` after its `sbi_hsm_hart_stop()`, then `sbi_exit()` with the
exchange of `sbi_hsm_exit()`, and the `hart_stop` callback of the device. -/
inductive ExitPc where
  | systemReset
  | hsmExit
  | hartStop
  deriving DecidableEq

/-- `init_coldboot()` from the loop of `sbi_domain_finalize()` on; its end is that of the warm boot
path. -/
inductive ColdPc where
  | finalize (rest : List Nat)
  | platformInit
  | wakeHarts
  deriving DecidableEq

/-- Program positions of a hart. In `lower` it executes its next stage in the given mode. -/
inductive HsmPc (x : Xlen) where
  | lower (mode : Nat)
  | start (k : Starting x)
  | suspend (k : Suspending x) (stage : SuspendStage)
  | exit (p : ExitPc)
  | warm (p : WarmPc)
  | resume (p : ResumePc)
  | switch (resumed : Bool) (stage : SwitchStage x)
  | cold (p : ColdPc)
  | hang
  deriving DecidableEq

/-- What a hart has of its own: the state word, the scratch fields of the next jump, the count
behind `sbi_init_count()`, and a wake-up (an interrupt, or a power-up by the device) it has not
consumed. -/
structure HsmHart (x : Xlen) where
  state : HsmState
  nextArg1 : Word x
  nextAddr : Word x
  nextMode : Nat
  initCount : Word x
  wakeup : Bool
  pc : HsmPc x
  deriving DecidableEq

/-- What does not change once `sbi_domain_finalize()` has reached its loop. -/
structure HsmConfig (x : Xlen) where
  plat : Platform
  table : DomainTable x
  /-- What `sbi_domain_for_each()` reads behind the last index of a full table. -/
  pastTable : List Nat
  dev : Option (HsmDevice x)
  /-- The device has a `hart_suspend` callback. -/
  hasHartSuspend : Bool
  coldHartid : Nat
  /-- The scratch spaces as the platform set them up. -/
  warmbootAddr : Nat → Word x
  nextArg1 : Nat → Word x
  nextAddr : Nat → Word x
  nextMode : Nat → Nat
  /-- A hart has a privilege mode, by `misa_extension()`. -/
  misa : Nat → Nat → Bool

structure HsmSystem (x : Xlen) where
  hart : Nat → HsmHart x
  coldbootDone : Bool

/-- What a hart does next: it runs on, or what is outside the firmware happens to it. Stops come
from the ecall and from the halt IPI. -/
inductive HsmAction (x : Xlen) where
  | run
  | initFails
  | interrupt
  | powerUp
  | hartStart (a0 a1 a2 : Word x)
  | hartStop
  | systemReset
  | hartSuspend (a0 a1 a2 : Word x)
  | deviceReturns (ret : Int)
  | deviceResumes
  | stopReturns

/-- The branches taken when a state word is not what the code expects there, and the one behind a
`hart_stop` callback that returns. -/
inductive SanityBranch where
  | exitState
  | exitReturned
  | prepareNextJump
  | resumeStart
  | resumeFinish
  | suspendState
  | suspendRestore
  | stopState
  deriving DecidableEq

/-- Events of the trace: a call of `sbi_hsm_hart_start()` by a hart with the outcome of its checks,
its return, the jump of a hart to its next stage, and a sanity branch. -/
inductive HsmEvent (x : Xlen) where
  | call (i : Nat) (call : StartCall x) (check : Int)
  | ret (i : Nat) (call : StartCall x) (rc : Int)
  | enter (h : Nat) (resumed : Bool) (arg1 addr : Word x) (mode : Nat)
  | sanity (h : Nat) (branch : SanityBranch)
  deriving DecidableEq

namespace HsmConfig

/-- `sbi_hartid_to_scratch()` is not NULL. -/
def scratch (c : HsmConfig x) (h : Nat) : Bool :=
  decide (h<SBI_HARTMASK_MAX_BITS) && !c.plat.hartInvalid h

/-- The domains `sbi_domain_for_each()` visits. -/
def domains (c : HsmConfig x) : List Nat :=
  c.table.domidx++(if c.table.domidx.length<SBI_DOMAIN_MAX_INDEX then [] else c.pastTable)

end HsmConfig

def HsmHart.goto (me : HsmHart x) (p : HsmPc x) : HsmHart x := { me with pc := p }

/-- The hart in front of the first load for `sbi_hart_switch_mode()`. -/
def HsmHart.jump (me : HsmHart x) (resumed : Bool) : HsmHart x :=
  { me with state := .started,pc := .switch resumed .nextArg1 }

/-- A failed sanity check that ends in `sbi_hart_hang()`. -/
def HsmHart.fail (me : HsmHart x) (h : Nat) (branch : SanityBranch) :
    Option (HsmHart x × List (HsmEvent x)) :=
  some (me.goto .hang,[.sanity h branch])

/-- `init_warmboot()` and `init_warm_startup()`. -/
def warmStep (c : HsmConfig x) (h : Nat) (coldbootDone : Bool) (me : HsmHart x) :
    WarmPc → HsmAction x → Option (HsmHart x × List (HsmEvent x))
  | .off,.powerUp => some (me.goto (.warm .sbiInit),[])
  | .off,.run => if me.wakeup then some (me.goto (.warm .sbiInit),[]) else none
  | .sbiInit,.run =>
      if !c.scratch h then some (me.goto .hang,[])
      else if me.nextMode=PRV_M ∨ me.nextMode=PRV_S ∨ me.nextMode=PRV_U then
        some (me.goto (.warm .waitForColdboot),[])
      else some (me.goto .hang,[])
  | .waitForColdboot,.run =>
      if coldbootDone then some (me.goto (.warm .getState),[]) else none
  | .getState,.run =>
      if !(sbiDomainIsAssignedHart (c.table.domainOf h) h && c.scratch h) then
        some (me.goto .hang,[])
      else if me.state=.suspended then some (me.goto (.resume .resumeStart),[])
      else some (me.goto (.warm .hartWait),[])
  | .hartWait,.run =>
      if me.state=.startPending then some (me.goto (.warm .platformInit),[])
      else some (me.goto (.warm .wfi),[])
  | .wfi,.run => if me.wakeup then some (me.goto (.warm .hartWait),[]) else none
  | .wfi,.interrupt => some (me.goto (.warm .hartWait),[])
  -- sbi_ipi_init() clears the interrupt.
  | .platformInit,.run => some ({ me with wakeup := false,pc := .warm .initCount },[])
  | .platformInit,.initFails => some (me.goto .hang,[])
  | .initCount,.run =>
      some ({ me with initCount := me.initCount+1,pc := .warm .prepareNextJump },[])
  | .prepareNextJump,.run =>
      if me.state=.startPending then some (me.jump false,[]) else me.fail h .prepareNextJump
  | _,_ => none

def resumeStep (h : Nat) (me : HsmHart x) :
    ResumePc → HsmAction x → Option (HsmHart x × List (HsmEvent x))
  | .resumeStart,.run =>
      if me.state=.suspended then
        some ({ me with state := .resumePending,pc := .resume .reinit },[])
      else me.fail h .resumeStart
  | .reinit,.run => some (me.goto (.resume .resumeFinish),[])
  | .reinit,.initFails => some (me.goto .hang,[])
  | .resumeFinish,.run =>
      if me.state=.resumePending then some (me.jump true,[]) else me.fail h .resumeFinish
  | _,_ => none

/-- `sbi_hart_switch_mode()` with the loads of its arguments. -/
def switchStep (c : HsmConfig x) (h : Nat) (me : HsmHart x) (resumed : Bool) :
    SwitchStage x → HsmAction x → Option (HsmHart x × List (HsmEvent x))
  | .nextArg1,.run => some (me.goto (.switch resumed (.nextAddr me.nextArg1)),[])
  | .nextAddr arg1,.run => some (me.goto (.switch resumed (.nextMode arg1 me.nextAddr)),[])
  | .nextMode arg1 addr,.run =>
      some (me.goto (.switch resumed (.switchMode arg1 addr me.nextMode)),[])
  | .switchMode arg1 addr mode,.run =>
      if mode=PRV_M ∨ (mode=PRV_S ∨ mode=PRV_U) ∧ c.misa h mode=true then
        some (me.goto (.lower mode),[.enter h resumed arg1 addr mode])
      else some (me.goto .hang,[])
  | _,_ => none

def suspendStep (c : HsmConfig x) (h : Nat) (me : HsmHart x) (k : Suspending x) :
    SuspendStage → HsmAction x → Option (HsmHart x × List (HsmEvent x))
  | .nextArg1,.run => some ({ me with nextArg1 := k.priv,pc := .suspend k .nextAddr },[])
  | .nextAddr,.run => some ({ me with nextAddr := k.raddr,pc := .suspend k .nextMode },[])
  | .nextMode,.run => some ({ me with nextMode := k.rmode,pc := .suspend k .suspend },[])
  | .suspend,.run =>
      if me.state=.started then some ({ me with state := .suspended,pc := .suspend k .device },[])
      else some (me.goto (.suspend k .restore),[.sanity h .suspendState])
  | .device,.deviceReturns ret =>
      if !c.hasHartSuspend ∧ ret≠SBI_ENOTSUPP then none
      else if ret=SBI_ENOTSUPP ∧ k.suspendType=SBI_HSM_SUSPEND_NON_RET_DEFAULT then
        some (me.goto (.warm .sbiInit),[])
      else some (me.goto (.suspend k .restore),[])
  | .device,.deviceResumes =>
      if c.hasHartSuspend ∧ nonRetentive k.suspendType then some (me.goto (.warm .sbiInit),[])
      else none
  | .restore,.run =>
      if me.state=.suspended then some ({ me with state := .started,pc := .lower k.rmode },[])
      else me.fail h .suspendRestore
  | _,_ => none

/-- `sbi_hsm_hart_stop()` with `exitnow`, on the way to the exchange of `sbi_hsm_exit()`. -/
def hartStop (c : HsmConfig x) (h : Nat) (me : HsmHart x) : HsmHart x × List (HsmEvent x) :=
  if (c.table.domainOf h).isNone then (me,[])
  else if me.state=.started then ({ me with state := .stopPending,pc := .exit .hsmExit },[])
  else (me,[.sanity h .stopState])

def exitStep (c : HsmConfig x) (h : Nat) (me : HsmHart x) :
    ExitPc → HsmAction x → Option (HsmHart x × List (HsmEvent x))
  | .systemReset,.run => some (me.goto (.exit .hsmExit),[])
  | .hsmExit,.run =>
      if c.plat.hartInvalid h then some (me.goto .hang,[])
      else if me.state=.stopPending then
        some ({ me with
          state := .stopped
          pc := if HsmDevice.hasHartHotplug c.dev then .exit .hartStop else .warm .sbiInit },[])
      else me.fail h .exitState
  -- sbi_ipi_exit() processes a halt IPI that is still pending.
  | .hsmExit,.hartStop => some (hartStop c h me)
  | .hartStop,.run => some (me.goto (.warm .off),[])
  | .hartStop,.stopReturns => me.fail h .exitReturned
  | _,_ => none

/-- The HSM calls of a hart that runs in a lower mode. Every hart of the platform has a domain, so
`sbi_system_reset()` does not meet a NULL domain. -/
def lowerStep (c : HsmConfig x) (h : Nat) (me : HsmHart x) (mode : Nat) :
    HsmAction x → Option (HsmHart x × List (HsmEvent x))
  | .hartStart a0 a1 a2 =>
      let call : StartCall x := ⟨(toU32 a0).toNat,a1,mode,a2⟩
      let rc := hartStartCheck (c.table.domainOf h) c.scratch call
      if rc=SBI_OK then some (me.goto (.start ⟨call,.ecall mode,.claim⟩),[.call h call rc])
      else some (me,[.call h call rc,.ret h call rc])
  | .hartStop => some (hartStop c h me)
  | .systemReset =>
      if (c.table.domainOf h).isNone then none
      else if me.state=.started then
        some ({ me with state := .stopPending,pc := .exit .systemReset },[])
      else some (me.goto (.exit .systemReset),[.sanity h .stopState])
  | .hartSuspend a0 a1 a2 =>
      if hartSuspendCheck (c.table.domainOf h) (toU32 a0) a1 mode=SBI_OK then
        some (me.goto (.suspend ⟨toU32 a0,a1,mode,a2⟩ .nextArg1),[])
      else some (me,[])
  | _ => none

/-- One round of the loop of `sbi_domain_finalize()` for the domain at `p`. -/
def finalizeDomain (c : HsmConfig x) (h : Nat) (me : HsmHart x) (p : Nat) (rest : List Nat) :
    HsmHart x × List (HsmEvent x) :=
  let dom := c.table.store p
  let dhart := dom.bootHartid
  if SBI_HARTMASK_MAX_BITS≤dhart then (me.goto (.cold (.finalize rest)),[])
  else if !dom.possibleHarts.any (sbiHartmaskTestHart dhart) then
    (me.goto (.cold (.finalize rest)),[])
  else if c.table.hartidToDomain dhart≠some p ∨ !sbiHartmaskTestHart dhart dom.assignedHarts then
    (me.goto (.cold (.finalize rest)),[])
  else if dhart=c.coldHartid then
    ({ me with
      nextAddr := dom.nextAddr,nextMode := dom.nextMode,nextArg1 := dom.nextArg1
      pc := .cold (.finalize rest) },[])
  else
    let call : StartCall x := ⟨dhart,dom.nextAddr,dom.nextMode,dom.nextArg1⟩
    let rc := hartStartCheck none c.scratch call
    if rc=SBI_OK then (me.goto (.start ⟨call,.finalize rest,.claim⟩),[.call h call rc])
    else (me.goto .hang,[.call h call rc,.ret h call rc])

def coldStep (c : HsmConfig x) (h : Nat) (me : HsmHart x) :
    ColdPc → HsmAction x → Option (HsmHart x × List (HsmEvent x))
  | .finalize [],.run => some (me.goto (.cold .platformInit),[])
  | .finalize (p::rest),.run => some (finalizeDomain c h me p rest)
  | .platformInit,.run => some (me.goto (.cold .wakeHarts),[])
  | .platformInit,.initFails => some (me.goto .hang,[])
  | _,_ => none

/-- The steps that touch nothing but the hart itself. -/
def ownStep (c : HsmConfig x) (h : Nat) (coldbootDone : Bool) (me : HsmHart x) :
    HsmPc x → HsmAction x → Option (HsmHart x × List (HsmEvent x))
  | .lower mode,a => lowerStep c h me mode a
  | .suspend k stage,a => suspendStep c h me k stage a
  | .exit p,a => exitStep c h me p a
  | .warm p,a => warmStep c h coldbootDone me p a
  | .resume p,a => resumeStep h me p a
  | .switch resumed stage,a => switchStep c h me resumed stage a
  | .cold p,a => coldStep c h me p a
  | .start _,_ => none
  | .hang,_ => none

namespace HsmSystem

def put (s : HsmSystem x) (h : Nat) (me : HsmHart x) : HsmSystem x :=
  { s with hart := Function.update s.hart h me }

def goto (s : HsmSystem x) (h : Nat) (p : HsmPc x) : HsmSystem x := s.put h ((s.hart h).goto p)

end HsmSystem

/-- Where a call leaves its caller; an error ends `sbi_domain_finalize()` and the cold boot. -/
def StartOrigin.back (rc : Int) : StartOrigin → HsmPc x
  | .ecall mode => .lower mode
  | .finalize rest => if rc=SBI_OK then .cold (.finalize rest) else .hang

/-- The return of a call with its code. -/
def startReturn (s : HsmSystem x) (i : Nat) (k : Starting x) (rc : Int) :
    HsmSystem x × List (HsmEvent x) :=
  (s.goto i (k.origin.back rc),[.ret i k.call rc])

/-- The step of a call to its next shared access. -/
def startNext (s : HsmSystem x) (i : Nat) (k : Starting x) (stage : StartStage x) :
    HsmSystem x × List (HsmEvent x) :=
  (s.goto i (.start { k with stage := stage }),[])

/-- One shared access of `sbi_hsm_hart_start()` on hart `i`. -/
def startStep (c : HsmConfig x) (s : HsmSystem x) (i : Nat) (k : Starting x) :
    HsmSystem x × List (HsmEvent x) :=
  let t := k.call.hartid
  let target := s.hart t
  match k.stage with
  | .claim =>
      let r := hartStartClaim target.state
      let s' := s.put t { target with state := r.1 }
      if r.2=SBI_OK then startNext s' i k .initCount else startReturn s' i k r.2
  | .initCount => startNext s i k (.nextArg1 target.initCount)
  | .nextArg1 n => startNext (s.put t { target with nextArg1 := k.call.priv }) i k (.nextAddr n)
  | .nextAddr n => startNext (s.put t { target with nextAddr := k.call.saddr }) i k (.nextMode n)
  | .nextMode n => startNext (s.put t { target with nextMode := k.call.smode }) i k (.launch n)
  | .launch n =>
      if HsmDevice.powersUp c.dev n then
        let rc := HsmDevice.hartStartDevice c.dev t (c.warmbootAddr i)
        startReturn (if rc=SBI_OK then s.put t { target with wakeup := true } else s) i k rc
      else startReturn (s.put t { target with wakeup := true }) i k SBI_OK

def hsmStep (c : HsmConfig x) (s : HsmSystem x) (i : Nat) (a : HsmAction x) :
    Option (HsmSystem x × List (HsmEvent x)) :=
  match (s.hart i).pc,a with
  | .start k,.run => some (startStep c s i k)
  | .cold .wakeHarts,.run =>
      some ({ s.goto i (.warm .initCount) with coldbootDone := true },[])
  | p,a => (ownStep c i s.coldbootDone (s.hart i) p a).map fun r => (s.put i r.1,r.2)

/-- The harts of a platform: one of them makes one step. -/
def hsmMachine (c : HsmConfig x) : Machine (HsmSystem x) (Nat × HsmAction x) (HsmEvent x) where
  step s l := hsmStep c s l.1 l.2

/-- The cold boot hart in front of the loop of `sbi_domain_finalize()`, with the state words as
`sbi_hsm_init()` has set them. -/
def HsmConfig.initial (c : HsmConfig x) : HsmSystem x where
  hart h :=
    { state := if h=c.coldHartid then .startPending else .stopped
      nextArg1 := c.nextArg1 h,nextAddr := c.nextAddr h,nextMode := c.nextMode h
      initCount := 0,wakeup := false
      pc := if h=c.coldHartid then .cold (.finalize c.domains) else .warm .off }
  coldbootDone := false

end OpenSBI
