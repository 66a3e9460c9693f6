import OpenSBI.Domain.Table
import OpenSBI.Hsm.State
import OpenSBI.Riscv.Error

namespace OpenSBI

variable {x : Xlen}

/-- What the mask of a window is computed from: the harts that have a scratch space, with their HSM
state in it. -/
structure HsmTable where
  lastHartid : Nat
  last_lt : lastHartid<SBI_HARTMASK_MAX_BITS
  state : Nat → Option HsmState
  state_le : ∀ h,(state h).isSome=true → h ≤ lastHartid

/-- A test of `__sbi_hsm_hart_get_state()`, which fails on a hart without a scratch space. -/
def HsmTable.interruptible (w : HsmTable) (h : Nat) : Bool := (w.state h).any HsmState.interruptible

/-- The body of the loop for hart `hbase+k`. -/
def interruptibleRound (w : HsmTable) (dmask : Word x) (hbase : Nat) (out : Word x) (k : Nat) : Word x :=
  let hmask := Word.bit k
  if dmask &&& hmask≠0 then
    if w.interruptible (hbase+k) then out ||| hmask else out
  else out

/-- `sbi_hsm_hart_interruptible_mask()`; `none` is SBI_EINVAL, with the mask 0. -/
def sbiHsmHartInterruptibleMask (w : HsmTable) (dom : Option (SbiDomain x)) (hbase : Word x) :
    Option (Word x) :=
  let hend := w.lastHartid+1
  if hend ≤ hbase.toNat then none
  else
    let n := if x.bits<hend-hbase.toNat then x.bits else hend-hbase.toNat
    let dmask := sbiDomainGetAssignedHartmask dom hbase.toNat
    some ((List.range n).foldl (interruptibleRound w dmask hbase.toNat) 0)

theorem toNat_half (m : Word x) : (m >>> 1).toNat=m.toNat/2 := by
  rw [BitVec.toNat_ushiftRight,Nat.shiftRight_one]

/-- `for (i = hbase; m; i++, m >>= 1)`: the harts `sbi_ipi_send()` is called for, in order. -/
def sendLoop (m i : Word x) : List Nat :=
  if m=0 then []
  else (if m &&& 1≠0 then [(toU32 i).toNat] else [])++sendLoop (m >>> 1) (i+1)
termination_by m.toNat
decreasing_by
  next h =>
    have hm : m.toNat≠0 := fun h0 => h (BitVec.eq_of_toNat_eq (by simpa using h0))
    rw [toNat_half]
    omega

theorem interruptibleMask_lt {w : HsmTable} {dom : Option (SbiDomain x)} {hbase m : Word x}
    (h : sbiHsmHartInterruptibleMask w dom hbase=some m) : hbase.toNat<w.lastHartid+1 := by
  unfold sbiHsmHartInterruptibleMask at h
  dsimp only at h
  split at h
  · cases h
  next hlt => exact not_le.mp hlt

/-- The next window, while the last hart is ahead. -/
theorem toNat_nextWindow {w : HsmTable} {hbase : Word x} (h : hbase.toNat<w.lastHartid+1) :
    (hbase+BitVec.ofNat x.bits x.bits).toNat=hbase.toNat+x.bits := by
  have hl := w.last_lt
  have hb := x.bits_le
  have hp : 2^32 ≤ 2^x.bits := Nat.pow_le_pow_right (by decide) x.bits_ge
  simp only [SBI_HARTMASK_MAX_BITS] at hl
  rw [BitVec.toNat_add,BitVec.toNat_ofNat,Nat.mod_eq_of_lt (show x.bits<2^x.bits by omega),
    Nat.mod_eq_of_lt (by omega)]

/-- The loop over all windows. -/
def sendWindows (w : HsmTable) (dom : Option (SbiDomain x)) (hbase : Word x) : List Nat :=
  match _h : sbiHsmHartInterruptibleMask w dom hbase with
  | none => []
  | some m => sendLoop m hbase++sendWindows w dom (hbase+BitVec.ofNat x.bits x.bits)
termination_by w.lastHartid+1-hbase.toNat
decreasing_by
  have hlt := interruptibleMask_lt ‹_›
  have hb := x.bits_pos
  rw [toNat_nextWindow hlt]
  omega

/-- `sbi_ipi_send_many()`: its result and the harts it calls the send routine for, in order. -/
def sbiIpiSendMany (w : HsmTable) (dom : Option (SbiDomain x)) (hmask hbase : Word x) : Int×List Nat :=
  if hbase≠Word.max then
    match sbiHsmHartInterruptibleMask w dom hbase with
    | none => (SBI_EINVAL,[])
    | some m => (SBI_OK,sendLoop (m &&& hmask) hbase)
  else (SBI_OK,sendWindows w dom 0)

/-- Hart `h` of the domain is to be interrupted when it is named. -/
def Interruptible (w : HsmTable) (dom : Option (SbiDomain x)) (h : Nat) : Prop :=
  sbiDomainIsAssignedHart dom h=true ∧ ∃ st∈w.state h,st=.started ∨ st=.suspended

/-- The mask and base name hart `h`. -/
def NamedBy (hmask hbase : Word x) (h : Nat) : Prop :=
  hbase=Word.max ∨ ∃ i<x.bits,h=hbase.toNat+i ∧ hmask.getLsbD i=true

section Windows

variable {w : HsmTable} {dom : Option (SbiDomain x)} {hbase : Word x}

theorem interruptible_iff {h : Nat} : Interruptible w dom h ↔
    sbiDomainIsAssignedHart dom h=true ∧ w.interruptible h=true := by
  unfold Interruptible HsmTable.interruptible
  cases w.state h with
  | none => simp
  | some st => simp [HsmState.interruptible]

theorem Interruptible.le {h : Nat} (hr : Interruptible w dom h) : h ≤ w.lastHartid := by
  obtain ⟨st,hst,-⟩ := hr.2
  exact w.state_le h (by rw [Option.mem_def.mp hst]; rfl)

/-- A round sets its own bit when the hart is reachable. -/
theorem getLsbD_interruptibleRound (out : Word x) {k i : Nat} (hk : k<x.bits) :
    (interruptibleRound w (sbiDomainGetAssignedHartmask dom hbase.toNat) hbase.toNat out k).getLsbD i=
      (out.getLsbD i || decide (i=k) && (sbiDomainIsAssignedHart dom (hbase.toNat+k) &&
        w.interruptible (hbase.toNat+k))) := by
  unfold interruptibleRound
  simp only [Word.and_bit_ne_zero hk,getLsbD_assignedHartmask dom _ hk]
  cases ha : sbiDomainIsAssignedHart dom (hbase.toNat+k) with
  | false => simp
  | true =>
    cases hi : w.interruptible (hbase.toNat+k) with
    | false => simp
    | true => simp [BitVec.getLsbD_or,Word.getLsbD_bit hk,eq_comm]

theorem getLsbD_interruptibleFold {n : Nat} (hn : n ≤ x.bits) (i : Nat) :
    ((List.range n).foldl (interruptibleRound w (sbiDomainGetAssignedHartmask dom hbase.toNat)
      hbase.toNat) 0).getLsbD i=true ↔ i<n ∧ Interruptible w dom (hbase.toNat+i) := by
  induction n with
  | zero => simp
  | succ n ih =>
    rw [List.range_succ,List.foldl_append,List.foldl_cons,List.foldl_nil,
      getLsbD_interruptibleRound _ (by omega),Bool.or_eq_true,ih (by omega),Bool.and_eq_true,
      Bool.and_eq_true,decide_eq_true_iff,← interruptible_iff]
    constructor
    · rintro (⟨hi,hr⟩ | ⟨rfl,hr⟩)
      · exact ⟨by omega,hr⟩
      · exact ⟨by omega,hr⟩
    · rintro ⟨hi,hr⟩
      by_cases he : i=n
      · subst he
        exact .inr ⟨rfl,hr⟩
      · exact .inl ⟨by omega,hr⟩

/-- The mask of a window is that of its reachable harts. -/
theorem interruptibleMask_some (dom : Option (SbiDomain x)) (h : hbase.toNat<w.lastHartid+1) :
    ∃ m,sbiHsmHartInterruptibleMask w dom hbase=some m ∧
      ∀ i,m.getLsbD i=true ↔ i<x.bits ∧ Interruptible w dom (hbase.toNat+i) := by
  refine ⟨_,by rw [sbiHsmHartInterruptibleMask,if_neg (not_le.mpr h)],fun i => ?_⟩
  split
  · rw [getLsbD_interruptibleFold (le_refl _)]
  · rw [getLsbD_interruptibleFold (by omega)]
    constructor
    · rintro ⟨hi,hr⟩
      exact ⟨by omega,hr⟩
    · rintro ⟨hi,hr⟩
      exact ⟨by have := hr.le; omega,hr⟩

theorem interruptibleMask_none (h : ¬hbase.toNat<w.lastHartid+1) :
    sbiHsmHartInterruptibleMask w dom hbase=none := by
  rw [sbiHsmHartInterruptibleMask,if_pos (not_lt.mp h)]

end Windows

/-! ## The loops -/

theorem sendLoop_zero (i : Word x) : sendLoop 0 i=[] := by rw [sendLoop,if_pos rfl]

/-- The shifting loop goes through the bits of its mask in ascending order. -/
theorem sendLoop_spec (n : Nat) (m i : Word x) (hm : m.toNat<2^n) (hi : i.toNat+n<2^32) :
    (sendLoop m i).Pairwise (·<·) ∧
      ∀ h,h∈sendLoop m i ↔ ∃ k,m.getLsbD k=true ∧ h=i.toNat+k := by
  induction n generalizing m i with
  | zero =>
    have h0 : m=0 := BitVec.eq_of_toNat_eq (by simpa using hm)
    rw [h0,sendLoop_zero]
    exact ⟨.nil,by simp⟩
  | succ n ih =>
    have hp : 2^32 ≤ 2^x.bits := Nat.pow_le_pow_right (by decide) x.bits_ge
    have h1 : (1 : Word x).toNat=1 := by cases x <;> rfl
    have hi1 : (i+1).toNat=i.toNat+1 := by
      rw [BitVec.toNat_add,h1,Nat.mod_eq_of_lt (by omega)]
    have hi32 : (toU32 i).toNat=i.toNat := by
      rw [toU32,BitVec.toNat_setWidth,Nat.mod_eq_of_lt (by omega)]
    obtain ⟨hpw,hmem⟩ := ih (m >>> 1) (i+1) (by rw [toNat_half]; omega) (by omega)
    by_cases h0 : m=0
    · rw [h0,sendLoop_zero]
      exact ⟨.nil,by simp⟩
    have hone : (Word.bit 0 : Word x)=1 := by cases x <;> rfl
    have hbit : m &&& 1≠0 ↔ m.getLsbD 0=true := by
      rw [← hone]
      exact Word.and_bit_ne_zero x.bits_pos m
    have hs : ∀ h,h∈sendLoop (m >>> 1) (i+1) ↔ ∃ k,m.getLsbD (k+1)=true ∧ h=i.toNat+(k+1) := by
      intro h
      rw [hmem,hi1]
      simp only [BitVec.getLsbD_ushiftRight,Nat.add_comm 1,Nat.add_assoc]
    rw [sendLoop,if_neg h0,hi32]
    constructor
    · refine List.pairwise_append.mpr ⟨by split <;> simp,hpw,fun a ha b hb => ?_⟩
      obtain ⟨k,-,rfl⟩ := (hs b).mp hb
      split at ha
      · rw [List.mem_singleton.mp ha]
        omega
      · cases ha
    · intro h
      rw [List.mem_append,hs]
      constructor
      · rintro (ha | ⟨k,hk,rfl⟩)
        · split at ha
          next hb => exact ⟨0,hbit.mp hb,List.mem_singleton.mp ha⟩
          next => cases ha
        · exact ⟨k+1,hk,rfl⟩
      · rintro ⟨k,hk,rfl⟩
        cases k with
        | zero =>
          rw [if_pos (hbit.mpr hk)]
          exact .inl (List.mem_singleton.mpr rfl)
        | succ k => exact .inr ⟨k,hk,rfl⟩

section Sends

variable {w : HsmTable} {dom : Option (SbiDomain x)}

/-- A window that is not past the last hart, under the mask `hmask`. -/
theorem sendLoop_window {hbase m : Word x} (h : hbase.toNat<w.lastHartid+1)
    (hm : ∀ i,m.getLsbD i=true ↔ i<x.bits ∧ Interruptible w dom (hbase.toNat+i)) (hmask : Word x) :
    (sendLoop (m &&& hmask) hbase).Pairwise (·<·) ∧ ∀ k,k∈sendLoop (m &&& hmask) hbase ↔
      ∃ i<x.bits,k=hbase.toNat+i ∧ hmask.getLsbD i=true ∧ Interruptible w dom k := by
  have hl := w.last_lt
  have hb := x.bits_le
  simp only [SBI_HARTMASK_MAX_BITS] at hl
  obtain ⟨hpw,hmem⟩ := sendLoop_spec x.bits (m &&& hmask) hbase (m &&& hmask).isLt (by omega)
  refine ⟨hpw,fun k => ?_⟩
  rw [hmem]
  constructor
  · rintro ⟨i,hi,rfl⟩
    rw [BitVec.getLsbD_and,Bool.and_eq_true,hm] at hi
    exact ⟨i,hi.1.1,rfl,hi.2,hi.1.2⟩
  · rintro ⟨i,hi,rfl,hbit,hint⟩
    refine ⟨i,?_,rfl⟩
    rw [BitVec.getLsbD_and,Bool.and_eq_true,hm]
    exact ⟨⟨hi,hint⟩,hbit⟩

theorem sendWindows_none {hbase : Word x} (h : ¬hbase.toNat<w.lastHartid+1) :
    sendWindows w dom hbase=[] := by
  rw [sendWindows]
  split
  next => rfl
  next hm => rw [interruptibleMask_none h] at hm; cases hm

theorem sendWindows_some {hbase m : Word x} (h : sbiHsmHartInterruptibleMask w dom hbase=some m) :
    sendWindows w dom hbase=
      sendLoop m hbase++sendWindows w dom (hbase+BitVec.ofNat x.bits x.bits) := by
  rw [sendWindows]
  split
  next hm => rw [h] at hm; cases hm
  next m' hm =>
    rw [h] at hm
    cases hm
    rfl

/-- All windows from `hbase` on; the measure is what is left up to the last hart. -/
theorem sendWindows_spec (dom : Option (SbiDomain x)) (n : Nat) (hbase : Word x)
    (hn : w.lastHartid+1 ≤ hbase.toNat+n) :
    (sendWindows w dom hbase).Pairwise (·<·) ∧
      ∀ k,k∈sendWindows w dom hbase ↔ hbase.toNat ≤ k ∧ Interruptible w dom k := by
  induction n using Nat.strong_induction_on generalizing hbase with
  | _ n ih =>
    by_cases h : hbase.toNat<w.lastHartid+1
    · obtain ⟨m,hm,hbits⟩ := interruptibleMask_some dom h
      have hpos := x.bits_pos
      have hnext := toNat_nextWindow h
      obtain ⟨hpw,hmem⟩ := sendLoop_window h hbits Word.max
      rw [Word.max,BitVec.and_allOnes] at hpw hmem
      obtain ⟨hpw2,hmem2⟩ := ih (n-x.bits) (by omega) (hbase+BitVec.ofNat x.bits x.bits) (by omega)
      rw [sendWindows_some hm]
      rw [hnext] at hmem2
      refine ⟨List.pairwise_append.mpr ⟨hpw,hpw2,fun a ha b hb => ?_⟩,fun k => ?_⟩
      · obtain ⟨i,hi,rfl,-⟩ := (hmem a).mp ha
        have hb' := ((hmem2 b).mp hb).1
        omega
      · rw [List.mem_append,hmem,hmem2]
        constructor
        · rintro (⟨i,hi,rfl,-,hr⟩ | ⟨hk,hr⟩)
          · exact ⟨by omega,hr⟩
          · exact ⟨by omega,hr⟩
        · rintro ⟨hk,hr⟩
          by_cases hlt : k<hbase.toNat+x.bits
          · refine .inl ⟨k-hbase.toNat,by omega,by omega,?_,hr⟩
            rw [BitVec.getLsbD_allOnes,decide_eq_true_iff]
            omega
          · exact .inr ⟨by omega,hr⟩
    · rw [sendWindows_none h]
      refine ⟨.nil,fun k => ⟨fun hk => absurd hk (by simp),fun hk => ?_⟩⟩
      have hle := hk.2.le
      omega

/-- `sbi_ipi_send_many()` fails, with nothing sent, when the base is past the last hart; otherwise it
calls the send routine once for each hart that is named and can be interrupted, in ascending order. -/
theorem sbiIpiSendMany_exact (w : HsmTable) (dom : Option (SbiDomain x)) (hmask hbase : Word x) :
    if hbase≠Word.max ∧ w.lastHartid<hbase.toNat then
      sbiIpiSendMany w dom hmask hbase=(SBI_EINVAL,[])
    else (sbiIpiSendMany w dom hmask hbase).1=SBI_OK ∧
      (sbiIpiSendMany w dom hmask hbase).2.Pairwise (·<·) ∧
      ∀ h,h∈(sbiIpiSendMany w dom hmask hbase).2 ↔ NamedBy hmask hbase h ∧ Interruptible w dom h := by
  unfold sbiIpiSendMany
  by_cases hall : hbase=Word.max
  · rw [if_neg (fun h => h.1 hall),if_neg (not_not.mpr hall)]
    obtain ⟨hpw,hmem⟩ := sendWindows_spec dom (w.lastHartid+1) (0 : Word x) (Nat.le_add_left _ _)
    refine ⟨rfl,hpw,fun h => ?_⟩
    rw [hmem]
    exact ⟨fun hr => ⟨.inl hall,hr.2⟩,fun hr => ⟨by simp,hr.2⟩⟩
  rw [if_pos hall]
  by_cases hlt : hbase.toNat<w.lastHartid+1
  · rw [if_neg (fun h => absurd h.2 (by omega))]
    obtain ⟨m,hm,hbits⟩ := interruptibleMask_some dom hlt
    obtain ⟨hpw,hmem⟩ := sendLoop_window hlt hbits hmask
    rw [hm]
    refine ⟨rfl,hpw,fun h => ?_⟩
    rw [hmem]
    constructor
    · rintro ⟨i,hi,rfl,hbit,hr⟩
      exact ⟨.inr ⟨i,hi,rfl,hbit⟩,hr⟩
    · rintro ⟨hn,hr⟩
      obtain ⟨i,hi,rfl,hbit⟩ := hn.resolve_left hall
      exact ⟨i,hi,rfl,hbit,hr⟩
  · rw [if_pos ⟨hall,by omega⟩,interruptibleMask_none hlt]

end Sends
end OpenSBI
