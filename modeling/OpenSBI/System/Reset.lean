import OpenSBI.Ipi.Machine
import OpenSBI.Ipi.SendMany

namespace OpenSBI

variable {x : Xlen}

/-- `struct sbi_system_reset_device`, named by its address. -/
structure SystemResetDevice where
  address : Nat
  systemResetCheck : Option (BitVec 32 → BitVec 32 → Int)

/-- A round of the search for a device: the candidate so far and its priority. -/
def resetDeviceRound (resetType resetReason : BitVec 32) (best : Option SystemResetDevice×Int)
    (dev : SystemResetDevice) : Option SystemResetDevice×Int :=
  match dev.systemResetCheck with
  | none => best
  | some check =>
    let status := check resetType resetReason
    if status=0 then best else if best.2<status then (some dev,status) else best

/-- `sbi_system_reset_get_device()` over the devices of the list. -/
def sbiSystemResetGetDevice (devices : List SystemResetDevice) (resetType resetReason : BitVec 32) :
    Option SystemResetDevice :=
  (devices.foldl (resetDeviceRound resetType resetReason) (none,0)).1

/-- What a reset does to the other harts and the machine, in order. -/
inductive ResetEvent where
  | haltIpi (hart : Nat)
  | hartStop
  | systemReset (device : Nat)
  | exit
  deriving DecidableEq,Repr

/-- `sbi_ipi_send_halt()`: the harts the send routine is called for. -/
def sbiIpiSendHalt (w : HsmTable) (dom : Option (SbiDomain x)) (hmask hbase : Word x) : List Nat :=
  (sbiIpiSendMany w dom hmask hbase).2

/-- The loop of `sbi_system_reset()` over the windows of harts. -/
def haltWindows (w : HsmTable) (dom : SbiDomain x) (curHartid : Nat) (hbase : Word x) : List Nat :=
  match _h : sbiHsmHartInterruptibleMask w (some dom) hbase with
  | none => []
  | some m =>
    let hmask := othersMask curHartid m hbase
    (if hmask≠0 then sbiIpiSendHalt w (some dom) hmask hbase else [])++
      haltWindows w dom curHartid (hbase+BitVec.ofNat x.bits x.bits)
termination_by w.lastHartid+1-hbase.toNat
decreasing_by
  have hlt := interruptibleMask_lt ‹_›
  have hb := x.bits_pos
  rw [toNat_nextWindow hlt]
  omega

/-- `sbi_system_reset()` on hart `curHartid` of domain `dom`, in case the reset of the device
returns. -/
def sbiSystemReset (w : HsmTable) (dom : SbiDomain x) (curHartid : Nat)
    (devices : List SystemResetDevice) (resetType resetReason : BitVec 32) : List ResetEvent :=
  (haltWindows w dom curHartid 0).map .haltIpi++[.hartStop]++
    (if dom.systemResetAllowed then
      match sbiSystemResetGetDevice devices resetType resetReason with
      | some dev => [.systemReset dev.address]
      | none => []
    else [])++[.exit]

/-- The event ends the run of the firmware: the reset of a device or `sbi_exit()`. -/
def ResetEvent.ends : ResetEvent → Bool
  | .systemReset _ | .exit => true
  | .haltIpi _ | .hartStop => false

def ResetEvent.halted : ResetEvent → Option Nat
  | .haltIpi h => some h
  | _ => none

/-- Every other hart of the domain that can be interrupted is sent the halt IPI once, nobody else is,
and no halt IPI comes behind an attempt to end. -/
structure HaltsOthers (w : HsmTable) (dom : SbiDomain x) (curHartid : Nat) (tr : List ResetEvent) :
    Prop where
  once : (tr.filterMap ResetEvent.halted).Nodup
  exact : ∀ h,.haltIpi h∈tr ↔ Interruptible w (some dom) h ∧ h≠curHartid
  before : tr.Pairwise fun e e' => e.ends=true → e'.halted=none

/-- A hart that can be interrupted lies before the window of the caller, in its place. -/
def Shadowed (w : HsmTable) (dom : SbiDomain x) (curHartid h : Nat) : Prop :=
  Interruptible w (some dom) h ∧ h<curHartid ∧ h%x.bits=curHartid%x.bits

section Windows

variable {w : HsmTable} {dom : SbiDomain x} {curHartid : Nat} {hbase : Word x}

theorem getLsbD_othersMask (hbase hmask : Word x) {i : Nat} (hi : i<x.bits) :
    (othersMask curHartid hmask hbase).getLsbD i=
      (hmask.getLsbD i && !(decide (hbase.toNat≤curHartid) &&
        decide (i=(curHartid-hbase.toNat)%x.bits))) := by
  have hmod : (curHartid-hbase.toNat)%x.bits<x.bits := Nat.mod_lt _ x.bits_pos
  have hshl : (Word.bit (curHartid-hbase.toNat) : Word x)=Word.bit ((curHartid-hbase.toNat)%x.bits) := by
    rw [Word.bit,Word.bit,Word.shl,Word.shl,Nat.mod_mod]
  unfold othersMask
  by_cases hle : hbase.toNat≤curHartid
  · rw [if_pos hle,hshl,BitVec.getLsbD_and,BitVec.getLsbD_not,Word.getLsbD_bit hmod]
    simp [hi,hle,eq_comm]
  · simp [hle]

theorem sendHalt_window {m : Word x} (h : hbase.toNat<w.lastHartid+1)
    (hm : sbiHsmHartInterruptibleMask w (some dom) hbase=some m) (hmask : Word x) :
    sbiIpiSendHalt w (some dom) hmask hbase=sendLoop (m &&& hmask) hbase := by
  have hl := w.last_lt
  have hne : hbase≠Word.max := by
    intro he
    have hb : 2^32≤2^x.bits := Nat.pow_le_pow_right (by decide) x.bits_ge
    simp only [he,Word.toNat_max,SBI_HARTMASK_MAX_BITS] at h hl
    omega
  rw [sbiIpiSendHalt,sbiIpiSendMany,if_pos hne,hm]

theorem haltWindows_none (h : ¬hbase.toNat<w.lastHartid+1) :
    haltWindows w dom curHartid hbase=[] := by
  rw [haltWindows]
  split
  next => rfl
  next hm => rw [interruptibleMask_none h] at hm; cases hm

theorem haltWindows_some {m : Word x} (h : hbase.toNat<w.lastHartid+1)
    (hm : sbiHsmHartInterruptibleMask w (some dom) hbase=some m) :
    haltWindows w dom curHartid hbase=sendLoop (m &&& othersMask curHartid m hbase) hbase++
      haltWindows w dom curHartid (hbase+BitVec.ofNat x.bits x.bits) := by
  rw [haltWindows]
  split
  next hm' => rw [hm] at hm'; cases hm'
  next m' hm' =>
    rw [hm] at hm'
    cases hm'
    show (if othersMask curHartid m hbase≠0 then
      sbiIpiSendHalt w (some dom) (othersMask curHartid m hbase) hbase else [])++_=_++_
    congr 1
    by_cases h0 : othersMask curHartid m hbase=0
    · have hz : m &&& (0 : Word x)=0 := BitVec.and_zero
      rw [if_neg (not_not_intro h0),h0,hz,sendLoop_zero]
    · rw [if_pos h0]
      exact sendHalt_window h hm _

/-- In a window that starts with a word of the mask, the cleared bit is that of the hart in the
place of the caller. -/
theorem shadow_iff {i : Nat} (hmul : x.bits∣hbase.toNat) (hi : i<x.bits) :
    hbase.toNat≤curHartid ∧ i=(curHartid-hbase.toNat)%x.bits ↔
      hbase.toNat+i≤curHartid ∧ (hbase.toNat+i)%x.bits=curHartid%x.bits := by
  obtain ⟨j,hj⟩ := hmul
  have hmod : (hbase.toNat+i)%x.bits=i := by
    rw [hj,Nat.mul_add_mod,Nat.mod_eq_of_lt hi]
  rw [hmod]
  constructor
  · rintro ⟨hle,he⟩
    have hrest := Nat.mod_le (curHartid-hbase.toNat) x.bits
    rw [← he] at hrest
    refine ⟨by omega,?_⟩
    rw [he,hj,Nat.sub_mul_mod (hj ▸ hle)]
  · rintro ⟨hle,he⟩
    have hb : hbase.toNat≤curHartid := by omega
    refine ⟨hb,?_⟩
    rw [he,hj,Nat.sub_mul_mod (hj ▸ hb)]

/-- All windows from `hbase` on; the measure is what is left up to the last hart. -/
theorem haltWindows_spec (dom : SbiDomain x) (curHartid n : Nat) (hbase : Word x)
    (hmul : x.bits∣hbase.toNat) (hn : w.lastHartid+1≤hbase.toNat+n) :
    (haltWindows w dom curHartid hbase).Pairwise (·<·) ∧
      ∀ h,h∈haltWindows w dom curHartid hbase ↔ hbase.toNat≤h ∧ Interruptible w (some dom) h ∧
        ¬(h≤curHartid ∧ h%x.bits=curHartid%x.bits) := by
  induction n using Nat.strong_induction_on generalizing hbase with
  | _ n ih =>
    by_cases h : hbase.toNat<w.lastHartid+1
    · obtain ⟨m,hm,hbits⟩ := interruptibleMask_some (some dom) h
      have hpos := x.bits_pos
      have hnext := toNat_nextWindow h
      obtain ⟨hpw,hmem⟩ := sendLoop_window h hbits (othersMask curHartid m hbase)
      obtain ⟨hpw2,hmem2⟩ := ih (n-x.bits) (by omega) (hbase+BitVec.ofNat x.bits x.bits)
        (by rw [hnext]; exact Nat.dvd_add_self_right.mpr hmul) (by omega)
      rw [haltWindows_some h hm]
      rw [hnext] at hmem2
      have hwin : ∀ k,k∈sendLoop (m &&& othersMask curHartid m hbase) hbase ↔
          k<hbase.toNat+x.bits ∧ hbase.toNat≤k ∧ Interruptible w (some dom) k ∧
            ¬(k≤curHartid ∧ k%x.bits=curHartid%x.bits) := by
        intro k
        rw [hmem]
        constructor
        · rintro ⟨i,hi,rfl,hbit,hint⟩
          rw [getLsbD_othersMask hbase m hi,Bool.and_eq_true,Bool.not_eq_true',
            Bool.and_eq_false_iff,decide_eq_false_iff_not,decide_eq_false_iff_not,
            ← not_and_or,shadow_iff hmul hi] at hbit
          exact ⟨by omega,by omega,hint,hbit.2⟩
        · rintro ⟨hlt,hle,hint,hsh⟩
          obtain ⟨i,rfl⟩ := Nat.exists_eq_add_of_le hle
          have hi : i<x.bits := by omega
          refine ⟨i,hi,rfl,?_,hint⟩
          rw [getLsbD_othersMask hbase m hi,Bool.and_eq_true,Bool.not_eq_true',
            Bool.and_eq_false_iff,decide_eq_false_iff_not,decide_eq_false_iff_not,
            ← not_and_or,shadow_iff hmul hi]
          exact ⟨(hbits i).mpr ⟨hi,hint⟩,hsh⟩
      refine ⟨List.pairwise_append.mpr ⟨hpw,hpw2,fun a ha b hb => ?_⟩,fun k => ?_⟩
      · have ha' := ((hwin a).mp ha).1
        have hb' := ((hmem2 b).mp hb).1
        omega
      · rw [List.mem_append,hwin,hmem2]
        constructor
        · rintro (hk | hk)
          · exact hk.2
          · exact ⟨by omega,hk.2⟩
        · rintro ⟨hle,hk⟩
          by_cases hlt : k<hbase.toNat+x.bits
          · exact .inl ⟨hlt,hle,hk⟩
          · exact .inr ⟨by omega,hk⟩
    · rw [haltWindows_none h]
      refine ⟨.nil,fun k => ⟨fun hk => absurd hk (by simp),fun hk => ?_⟩⟩
      have hle := hk.2.1.le
      omega

end Windows

section Trace

variable {w : HsmTable} {dom : SbiDomain x} {curHartid : Nat} {devices : List SystemResetDevice}
  {resetType resetReason : BitVec 32}

/-- What comes behind the halt IPIs. -/
theorem sbiSystemReset_split (w : HsmTable) (dom : SbiDomain x) (curHartid : Nat)
    (devices : List SystemResetDevice) (resetType resetReason : BitVec 32) :
    ∃ rest,sbiSystemReset w dom curHartid devices resetType resetReason=
        (haltWindows w dom curHartid 0).map .haltIpi++rest ∧ ∀ e∈rest,e.halted=none := by
  refine ⟨_,by rw [sbiSystemReset,List.append_assoc,List.append_assoc],fun e he => ?_⟩
  have hdev : ∀ e∈(if dom.systemResetAllowed then
      match sbiSystemResetGetDevice devices resetType resetReason with
      | some dev => [ResetEvent.systemReset dev.address]
      | none => []
    else []),e.halted=none := by
    intro e he
    split at he
    · split at he
      · rw [List.mem_singleton.mp he]
        rfl
      · cases he
    · cases he
  rcases List.mem_append.mp he with he | he
  · rw [List.mem_singleton.mp he]
    rfl
  rcases List.mem_append.mp he with he | he
  · exact hdev e he
  · rw [List.mem_singleton.mp he]
    rfl

theorem mem_halts {l : List Nat} {rest : List ResetEvent} (hrest : ∀ e∈rest,e.halted=none) (h : Nat) :
    ResetEvent.haltIpi h∈l.map ResetEvent.haltIpi++rest ↔ h∈l := by
  rw [List.mem_append]
  constructor
  · rintro (hm | hm)
    · obtain ⟨k,hk,he⟩ := List.mem_map.mp hm
      exact ResetEvent.haltIpi.inj he ▸ hk
    · exact absurd (hrest _ hm) (by simp [ResetEvent.halted])
  · exact fun hm => .inl (List.mem_map_of_mem hm)

theorem filterMap_halts {l : List Nat} {rest : List ResetEvent} (hrest : ∀ e∈rest,e.halted=none) :
    (l.map ResetEvent.haltIpi++rest).filterMap ResetEvent.halted=l := by
  have hl : (l.map ResetEvent.haltIpi).filterMap ResetEvent.halted=l := by
    rw [List.filterMap_map]
    exact List.filterMap_some
  rw [List.filterMap_append,hl,List.filterMap_eq_nil_iff.mpr hrest,List.append_nil]

/-- The halt IPIs come first, so nothing that ends the run is in front of one. -/
theorem halts_before {l : List Nat} {rest : List ResetEvent} (hrest : ∀ e∈rest,e.halted=none) :
    (l.map ResetEvent.haltIpi++rest).Pairwise fun e e' => e.ends=true → e'.halted=none := by
  refine List.pairwise_append.mpr ⟨?_,?_,?_⟩
  · exact List.pairwise_map.mpr (List.pairwise_of_forall fun _ _ hends => by simp [ResetEvent.ends] at hends)
  · exact List.Pairwise.imp_of_mem (R := fun _ _ => True) (fun _ hb _ _ => hrest _ hb)
      (List.pairwise_of_forall fun _ _ => trivial)
  · exact fun a _ b hb _ => hrest b hb

/-- `sbi_system_reset()` halts every other hart of the domain that can be interrupted, once each and
before the reset, exactly when none of them lies before the caller's window in the caller's place. -/
theorem sbiSystemReset_haltsOthers_iff (w : HsmTable) (dom : SbiDomain x) (curHartid : Nat)
    (devices : List SystemResetDevice) (resetType resetReason : BitVec 32) :
    HaltsOthers w dom curHartid
        (sbiSystemReset w dom curHartid devices resetType resetReason) ↔
      ¬∃ h,Shadowed w dom curHartid h := by
  obtain ⟨rest,he,hrest⟩ := sbiSystemReset_split w dom curHartid devices resetType resetReason
  obtain ⟨hpw,hmem⟩ := haltWindows_spec (w := w) dom curHartid (w.lastHartid+1) (0 : Word x)
    (by simp) (Nat.le_add_left _ _)
  have hz : (0 : Word x).toNat=0 := by cases x <;> rfl
  simp only [hz,Nat.zero_le,true_and] at hmem
  rw [he]
  constructor
  · rintro hall ⟨h,hint,hlt,hsame⟩
    have hsent := (hall.exact h).mpr ⟨hint,by omega⟩
    rw [mem_halts hrest,hmem] at hsent
    exact hsent.2 ⟨by omega,hsame⟩
  · intro hno
    refine ⟨?_,fun h => ?_,halts_before hrest⟩
    · rw [filterMap_halts hrest]
      exact hpw.imp Nat.ne_of_lt
    · rw [mem_halts hrest,hmem]
      constructor
      · rintro ⟨hint,hsh⟩
        refine ⟨hint,?_⟩
        rintro rfl
        exact hsh ⟨le_refl _,rfl⟩
      · rintro ⟨hint,hne⟩
        refine ⟨hint,fun hsh => hno ⟨h,hint,?_,hsh.2⟩⟩
        omega

end Trace

/-- All harts of the mask have a scratch space and run. -/
def fullTable : HsmTable where
  lastHartid := 127
  last_lt := by decide
  state h := if h<128 then some .started else none
  state_le h hs := by
    split at hs
    · omega
    · cases hs

/-- Harts 0 and 64 in one domain. -/
def twoWindows : SbiDomain .rv64 :=
  { tableDomain [] with assignedHarts := sbiHartmaskSetHart 64 (sbiHartmaskInitExcept 0) }

/-- A reset by hart 64 does not halt hart 0. -/
theorem hart64_misses_hart0 :
    ¬∀ (x : Xlen) (w : HsmTable) (dom : SbiDomain x) (curHartid : Nat)
      (devices : List SystemResetDevice) (resetType resetReason : BitVec 32),
      curHartid<SBI_HARTMASK_MAX_BITS →
        HaltsOthers w dom curHartid
          (sbiSystemReset w dom curHartid devices resetType resetReason) := by
  intro h
  have hall := h .rv64 fullTable twoWindows 64 [] 0 0 (by decide)
  obtain ⟨rest,he,hrest⟩ := sbiSystemReset_split fullTable twoWindows 64 [] 0 0
  have hint : Interruptible fullTable (some twoWindows) 0 :=
    ⟨by decide,.started,rfl,.inl rfl⟩
  have hsent := (hall.exact 0).mpr ⟨hint,by decide⟩
  rw [he,mem_halts hrest,(haltWindows_spec twoWindows 64 128 0 (by decide) (by decide)).2] at hsent
  exact hsent.2.2 ⟨by decide,by decide⟩

end OpenSBI
