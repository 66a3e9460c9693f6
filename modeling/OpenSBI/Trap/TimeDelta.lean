import OpenSBI.Trap.Zicsr

namespace OpenSBI

/-! ## The two halves of HTIMEDELTA on RV32 -/

/-- An emulated write to a half of HTIMEDELTA, by a trap from HS-mode on some build. -/
structure DeltaWrite where
  env : TrapEnv .rv32
  trap : TrapState .rv32
  hs : fromHs trap=true
  high : Bool
  val : BitVec 32

def deltaCsr (high : Bool) : Nat := if high then CSR_HTIMEDELTAH else CSR_HTIMEDELTA

/-- The delta in the scratch space after the write. -/
def DeltaWrite.apply (delta : BitVec 64) (w : DeltaWrite) : Option (BitVec 64) :=
  (sbiEmulateCsrWrite w.env { w.trap with timeDelta := delta } (deltaCsr w.high) w.val).map (·.timeDelta)

/-- What a half was last set to. -/
def lastWritten (delta : BitVec 64) (ws : List DeltaWrite) (high : Bool) : BitVec 32 :=
  (((ws.filter fun w => w.high==high).getLast?).map (·.val)).getD (delta.extractLsb' (if high then 32 else 0) 32)

/-- After the writes a read of each half gives what was last written to it, and the virtual time is off by
the two halves together. -/
def ReadsBack (delta : BitVec 64) (ws : List DeltaWrite) : Prop :=
  ∃ d,ws.foldlM DeltaWrite.apply delta=some d ∧ ∀ env : TrapEnv .rv32,∀ trap : TrapState .rv32,
    (fromHs trap=true → ∀ high,sbiEmulateCsrRead env { trap with timeDelta := d } (deltaCsr high)=
      some (lastWritten delta ws high)) ∧
    timerVirtValue env { trap with timeDelta := d }=
      env.mtime+(lastWritten delta ws true++lastWritten delta ws false)

variable {delta : BitVec 64} {ws : List DeltaWrite}

theorem fromHs_iff {s : TrapState .rv32} : fromHs s=true ↔ s.regs.prevMode=PRV_S ∧ s.regs.prevVirt=false := by
  rw [fromHs,Bool.and_eq_true,decide_eq_true_iff,Bool.not_eq_true']

/-- A write to the high half keeps the low one; a write to the low half clears the high one. -/
theorem DeltaWrite.apply_halves (w : DeltaWrite) (hi lo : BitVec 32) :
    w.apply (hi++lo)=some (if w.high=true then w.val++lo else (0 : BitVec 32)++w.val) := by
  have hs := fromHs_iff.mp w.hs
  cases hh : w.high with
  | true =>
    have hne : CSR_HTIMEDELTAH≠CSR_HTIMEDELTA := by decide
    have hlow : (hi++lo).setWidth 32=lo := (extractLsb'_append hi lo).2
    simp only [DeltaWrite.apply,deltaCsr,hh,if_true,sbiEmulateCsrWrite,if_neg hne,hs,and_self,Option.map_some]
    exact congrArg some ((timerSetDeltaUpper_eq rfl _ _).trans (congrArg (w.val++·) hlow))
  | false =>
    have hval : w.val.setWidth 64=(0 : BitVec 32)++w.val := by
      have hlt : w.val.toNat<2^32 := BitVec.isLt w.val
      apply BitVec.eq_of_toNat_eq
      rw [BitVec.toNat_setWidth]
      refine Eq.trans ?_ (toNat_halves 0 w.val).symm
      show w.val.toNat%2^64=2^32*0+w.val.toNat
      omega
    simp only [DeltaWrite.apply,deltaCsr,hh,Bool.false_eq_true,if_false,sbiEmulateCsrWrite,if_true,hs,and_self,
      Option.map_some]
    exact congrArg some hval

theorem lastWritten_append (delta : BitVec 64) (ws : List DeltaWrite) (w : DeltaWrite) (high : Bool) :
    lastWritten delta (ws++[w]) high=if w.high=high then w.val else lastWritten delta ws high := by
  rw [lastWritten,List.filter_append]
  by_cases h : w.high=high
  · rw [List.filter_cons_of_pos (by simp [h]),List.filter_nil,List.getLast?_append,if_pos h]
    rfl
  · rw [List.filter_cons_of_neg (by simp [h]),List.filter_nil,List.append_nil,if_neg h,lastWritten]

/-- The delta the halves make up. -/
def wholeDelta (delta : BitVec 64) (ws : List DeltaWrite) : BitVec 64 :=
  lastWritten delta ws true++lastWritten delta ws false

/-- Each write to the low half meets a clear high half. -/
def LowMeetsClear (delta : BitVec 64) (ws : List DeltaWrite) : Prop :=
  ∀ n w,ws[n]?=some w → w.high=false → lastWritten delta (ws.take n) true=0

theorem LowMeetsClear.take (h : LowMeetsClear delta ws) (k : Nat) : LowMeetsClear delta (ws.take k) := by
  intro n w hw hlow
  rw [List.getElem?_take] at hw
  split_ifs at hw with hnk
  rw [List.take_take,Nat.min_eq_left hnk.le]
  exact h n w hw hlow

theorem LowMeetsClear.last {w : DeltaWrite} (h : LowMeetsClear delta (ws++[w])) (hlow : w.high=false) :
    lastWritten delta ws true=0 := by
  have hl := h ws.length w (by simp) hlow
  rwa [List.take_left] at hl

/-- One write keeps the delta the two halves that were written. -/
theorem DeltaWrite.apply_wholeDelta {w : DeltaWrite} (h : w.high=false → lastWritten delta ws true=0) :
    w.apply (wholeDelta delta ws)=some (wholeDelta delta (ws++[w])) := by
  rw [wholeDelta,DeltaWrite.apply_halves,wholeDelta,lastWritten_append,lastWritten_append]
  cases hh : w.high with
  | true => rfl
  | false =>
    rw [h hh]
    rfl

/-- The delta after writes of which each to the low half meets a clear high half. -/
theorem applyAll_eq (h : LowMeetsClear delta ws) :
    ws.foldlM DeltaWrite.apply delta=some (wholeDelta delta ws) := by
  induction ws using List.reverseRecOn with
  | nil =>
    exact congrArg some (append_extractLsb' delta).symm
  | append_singleton ws w ih =>
    have hws := h.take ws.length
    rw [List.take_left] at hws
    rw [List.foldlM_append,ih hws]
    show (List.foldlM DeltaWrite.apply (wholeDelta delta ws) [w])=_
    rw [List.foldlM_cons,DeltaWrite.apply_wholeDelta fun hlow => h.last hlow]
    rfl

/-- Reads take the delta apart. -/
theorem read_halves (env : TrapEnv .rv32) {trap : TrapState .rv32} (hs : fromHs trap=true) (hi lo : BitVec 32)
    (high : Bool) : sbiEmulateCsrRead env { trap with timeDelta := hi++lo } (deltaCsr high)=
      some (if high=true then hi else lo) := by
  have hs := fromHs_iff.mp hs
  cases high with
  | true =>
    have hshift : ((hi++lo) >>> 32).setWidth 32=hi := by
      have hh := hi.isLt
      have hl := lo.isLt
      apply BitVec.eq_of_toNat_eq
      rw [BitVec.toNat_setWidth,BitVec.toNat_ushiftRight,toNat_halves,Nat.shiftRight_eq_div_pow]
      omega
    change (if trap.regs.prevMode=PRV_S ∧ trap.regs.prevVirt=false then
      some (((hi++lo) >>> 32).setWidth 32) else none)=_
    rw [if_pos hs,hshift]
    rfl
  | false =>
    change (if trap.regs.prevMode=PRV_S ∧ trap.regs.prevVirt=false then some ((hi++lo).setWidth 32) else none)=_
    rw [if_pos hs]
    exact congrArg some (extractLsb'_append hi lo).2

theorem LowMeetsClear.readsBack (h : LowMeetsClear delta ws) : ReadsBack delta ws := by
  refine ⟨_,applyAll_eq h,fun env trap => ⟨fun hs high => ?_,rfl⟩⟩
  rw [wholeDelta,read_halves env hs]
  cases high <;> rfl

/-- A write to the low half loses what the high half holds. -/
theorem ReadsBack.low {w : DeltaWrite} (h : ReadsBack delta (ws++[w])) (hws : ReadsBack delta ws)
    (hlow : w.high=false) : lastWritten delta ws true=0 := by
  obtain ⟨d,hd,-⟩ := hws
  obtain ⟨d',hd',hread⟩ := h
  have hval : d'=(0 : BitVec 32)++w.val := by
    rw [List.foldlM_append,hd] at hd'
    change (w.apply d).bind some=some d' at hd'
    rw [← append_extractLsb' d,DeltaWrite.apply_halves,hlow] at hd'
    exact (Option.some.inj hd').symm
  have hhigh := (hread w.env w.trap).1 w.hs true
  rw [hval,read_halves w.env w.hs,lastWritten_append,hlow] at hhigh
  exact (Option.some.inj hhigh).symm

/-- The halves read back what was written to them, in every state of a sequence of writes, if and only if
every write to the low half meets a clear high half; and two writes to different halves commute if and only
if the one to the high half clears it. -/
theorem htimedelta_halves (delta : BitVec 64) (ws : List DeltaWrite) :
    ((∀ n,ReadsBack delta (ws.take n)) ↔
      ∀ n w,ws[n]?=some w → w.high=false → lastWritten delta (ws.take n) true=0) ∧
    ∀ a b : DeltaWrite,a.high=false → b.high=true →
      ([a,b].foldlM DeltaWrite.apply delta=[b,a].foldlM DeltaWrite.apply delta ↔ b.val=0) := by
  refine ⟨⟨?_,?_⟩,?_⟩
  · intro h n w hw hlow
    have hnext := h (n+1)
    rw [List.take_add_one,hw] at hnext
    exact hnext.low (h n) hlow
  · intro h n
    exact (LowMeetsClear.take h n).readsBack
  · intro a b ha hb
    have hab : [a,b].foldlM DeltaWrite.apply delta=some (b.val++a.val) := by
      rw [List.foldlM_cons,← append_extractLsb' delta,DeltaWrite.apply_halves,ha]
      change (b.apply ((0 : BitVec 32)++a.val)).bind some=_
      rw [DeltaWrite.apply_halves,hb]
      rfl
    have hba : [b,a].foldlM DeltaWrite.apply delta=some ((0 : BitVec 32)++a.val) := by
      rw [List.foldlM_cons,← append_extractLsb' delta,DeltaWrite.apply_halves,hb]
      change (a.apply (b.val++delta.extractLsb' 0 32)).bind some=_
      rw [DeltaWrite.apply_halves,ha]
      rfl
    rw [hab,hba,Option.some.injEq,halves_inj,and_iff_left rfl]

/-- A write from S-mode on a hart without delegations. -/
def quietWrite (high : Bool) (val : BitVec 32) : DeltaWrite where
  env := TrapEnv.quiet .rv32
  trap := TrapState.idle 0x800 fun _ => 0
  hs := by decide
  high := high
  val := val

/-- 1 written to the high half and then 5 to the low half: the high half reads 0. -/
theorem quietWrite_halves : ¬ReadsBack 0 [quietWrite true 1,quietWrite false 5] ∧
    [quietWrite true 1,quietWrite false 5].foldlM DeltaWrite.apply 0=some 5 ∧
    [quietWrite false 5,quietWrite true 1].foldlM DeltaWrite.apply 0=some 0x100000005 := by
  refine ⟨?_,by decide,by decide⟩
  intro h
  have hfirst : LowMeetsClear 0 [quietWrite true 1] := by
    intro n w hw hlow
    obtain ⟨hn,rfl⟩ := List.getElem?_eq_some_iff.mp hw
    obtain rfl : n=0 := by simpa using hn
    cases hlow
  have hlow : lastWritten 0 [quietWrite true 1] true=0 :=
    ReadsBack.low (w := quietWrite false 5) h hfirst.readsBack rfl
  exact absurd hlow (by decide)

end OpenSBI
