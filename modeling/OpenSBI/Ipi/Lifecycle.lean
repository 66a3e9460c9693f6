import Mathlib.Data.Prod.Lex
import OpenSBI.Ipi.Deadlock

namespace OpenSBI

open Framework

variable {x : Xlen} {c : Harts x} {s s' : IpiState x} {a b h : Nat} {ev : List (IpiTrace x)}

/-! ## How far a hart is from its next look at its FIFO -/

/-- Windows of the send loop still to come, and steps left in this one. -/
def Sending.rank (c : Harts x) (k : Sending x) (left : Nat) : ℕ ×ₗ ℕ ×ₗ ℕ :=
  toLex (7,toLex (c.lastHartid+1-k.base,left))

/-- Steps left at one target: the loop goes on with the bits above it. -/
def Sending.stepsAt (k : Sending x) (j : Nat) : Nat := 16*(k.m >>> 1).toNat+j

def IpiType.count (w : IpiType) : Nat := w.smode.toNat+w.halt.toNat

/-- A bound on the way of a hart to its next `sbi_fifo_dequeue()`. -/
def Pc.rank (c : Harts x) (msip : Bool) : Pc x → ℕ ×ₗ ℕ ×ₗ ℕ
  | .localFn _ _ _ => toLex (9,toLex (0,0))
  | .ack _ _ _ i => toLex (8,toLex (0,SBI_HARTMASK_MAX_BITS-i))
  | .mask k => k.rank c (16*2^x.bits+1+(maskEnd c k-k.target))
  | .send k => k.rank c (16*k.m.toNat)
  | .update k => k.rank c (k.stepsAt 5)
  | .enqueue k => k.rank c (k.stepsAt 4)
  | .setBit k => k.rank c (k.stepsAt 3)
  | .raise k => k.rank c (k.stepsAt 2)
  | .sync k => k.rank c (k.stepsAt 1)
  | .startKick _ => toLex (6,toLex (0,0))
  | .prepareJump => toLex (6,toLex (0,0))
  | .ipiLoop ex w => if (Pc.ipiLoop ex w : Pc x).draining then toLex (1,toLex (0,w.count))
      else toLex (5,toLex (0,w.count))
  | .smode => toLex (4,toLex (0,if msip then 0 else 1))
  | .ipiClear _ => toLex (3,toLex (0,0))
  | .ipiXchg _ => toLex (2,toLex (0,0))
  | _ => toLex (0,toLex (0,0))

theorem rank_draining {ex m : Bool} {w : IpiType} (h : (w.tlb && (!w.halt || ex))=true) :
    (Pc.ipiLoop ex w).rank c m=toLex (1,toLex (0,w.count)) := if_pos h

theorem rank_notDraining {ex m : Bool} {w : IpiType} (h : ¬(w.tlb && (!w.halt || ex))=true) :
    (Pc.ipiLoop ex w).rank c m=toLex (5,toLex (0,w.count)) := if_neg h

theorem rank_lt_of_level {a b : ℕ} {p q : ℕ ×ₗ ℕ} (h : a<b) :
    (toLex (a,p) : ℕ ×ₗ ℕ ×ₗ ℕ)<toLex (b,q) := Prod.Lex.toLex_lt_toLex.mpr (.inl h)

theorem rank_lt_of_steps {a w m n : ℕ} (h : m<n) :
    (toLex (a,toLex (w,m)) : ℕ ×ₗ ℕ ×ₗ ℕ)<toLex (a,toLex (w,n)) :=
  Prod.Lex.toLex_lt_toLex.mpr (.inr ⟨rfl,Prod.Lex.toLex_lt_toLex.mpr (.inr ⟨rfl,h⟩)⟩)

theorem Sending.rank_lt {k k' : Sending x} (hb : k'.base=k.base) {m n : Nat} (h : m<n) :
    k'.rank c m<k.rank c n := by
  unfold Sending.rank
  rw [hb]
  exact rank_lt_of_steps h

theorem shift_lt {m : Word x} (h : m≠0) : 16*(m >>> 1).toNat+16≤16*m.toNat := by
  have hpos : 0 < m.toNat := Nat.pos_of_ne_zero fun he => h (BitVec.eq_of_toNat_eq he)
  rw [BitVec.toNat_ushiftRight,Nat.shiftRight_one]
  omega

theorem shift_lt_of_bit {m : Word x} (h : m.getLsbD 0=true) : 16*(m >>> 1).toNat+16≤16*m.toNat :=
  shift_lt fun he => by simp [he] at h

/-- The next window is a smaller task than this one. -/
theorem maskEntry_rank_lt {k : Sending x} {m : Bool} {n : Nat} :
    (maskEntry c { k with base := k.base+x.bits }).rank c m<k.rank c n := by
  unfold maskEntry
  split_ifs with hlast
  · exact rank_lt_of_level (by decide)
  · refine Prod.Lex.toLex_lt_toLex.mpr (.inr ⟨rfl,Prod.Lex.toLex_lt_toLex.mpr (.inl ?_)⟩)
    have := x.bits_pos
    dsimp only at hlast ⊢
    omega

/-! ## A hart with something to acknowledge comes to it -/

/-- Entries in the FIFO of hart `b`, then the way to the next of them. -/
def fifoRank (c : Harts x) (b : Nat) (s : IpiState x) : ℕ ×ₗ ℕ ×ₗ ℕ ×ₗ ℕ :=
  toLex ((s.tlbFifo b).toList.length,(s.pc b).rank c (s.msip b))

private theorem fifoRank_lt {p p' : Pc x} (hp : s.pc b=p) (hp' : s'.pc b=p')
    (hf : s'.tlbFifo b=s.tlbFifo b) (hlt : ∀ m m',p'.rank c m'<p.rank c m) :
    fifoRank c b s'<fifoRank c b s := by
  unfold fifoRank
  rw [hp,hp',hf]
  exact Prod.Lex.toLex_lt_toLex.mpr (.inr ⟨rfl,hlt _ _⟩)

/-- An acknowledgement due at `b` that `b` does not hold is in its FIFO. -/
private theorem queued_of_tokens (htok : (s.queues c).tokens a b≠0) (ht : (s.pc b).taken c=∅)
    (hk : (s.pc b).acking c=∅) : Queued s a b := by
  rcases AckQueues.mem_of_tokens htok with ⟨m,hm,ha⟩ | hm | hm
  · obtain ⟨e,he,rfl⟩ := List.mem_map.mp hm
    exact ⟨e,he,(mem_sourceHarts.mp ha).1⟩
  · have hm' : a∈(s.pc b).taken c := hm
    simp [ht] at hm'
  · have hm' : a∈(s.pc b).acking c := hm
    simp [hk] at hm'

/-- Every step of a hart at which an acknowledgement is due brings it closer. -/
private theorem IpiStep.descends (hs : IpiStep c s b ev s') (hl : s.Accounted c)
    (hr : Heard c s b) (hsm : s.pc b≠.smode) (ha : (s.pc a).posted=some b)
    (hq : (s.queues c).tokens a b≠0) : fifoRank c b s'<fifoRank c b s := by
  have hok := hl.placed b
  have hne : (s.pc b).taken c=∅ → (s.pc b).acking c=∅ → (s.tlbFifo b).toList≠[] :=
    fun ht hk => List.ne_nil_of_mem (queued_of_tokens hq ht hk).choose_spec.1
  have hdeaf : (s.pc b).taken c=∅ → (s.pc b).acking c=∅ → (s.pc b).deaf=false :=
    fun ht hk => hr.awake (hne ht hk)
  cases hs with
  | trap hp => exact absurd hp hsm
  | call k hp => exact absurd hp hsm
  | hartStop hp => exact absurd hp hsm
  | hartStart t hp => exact absurd hp hsm
  | refused hp => exact absurd hp hsm
  | maskRead k m hp hlt =>
    refine fifoRank_lt hp (Function.update_self _ _ _) rfl fun _ _ => Sending.rank_lt rfl ?_
    simp only [maskEnd,Sending.target] at hlt ⊢
    omega
  | maskDone k m hp hge hm =>
    refine fifoRank_lt hp (Function.update_self _ _ _) rfl fun _ _ => Sending.rank_lt rfl ?_
    have := m.isLt
    dsimp only
    omega
  | sendWindow k hp hm hall =>
    exact fifoRank_lt hp (Function.update_self _ _ _) rfl fun _ _ => maskEntry_rank_lt
  | sendEnd k hp hm hall =>
    exact fifoRank_lt hp (Function.update_self _ _ _) rfl fun _ _ => rank_lt_of_level (by decide)
  | sendTlb k hp hm ht he =>
    refine fifoRank_lt hp (Function.update_self _ _ _) rfl fun _ _ => Sending.rank_lt rfl ?_
    have := shift_lt_of_bit hm
    simp only [Sending.stepsAt]
    omega
  | sendEvent k hp hm ht he =>
    refine fifoRank_lt hp (Function.update_self _ _ _) rfl fun _ _ => Sending.rank_lt rfl ?_
    have := shift_lt_of_bit hm
    simp only [Sending.stepsAt]
    omega
  | sendSkip k hp hm =>
    refine fifoRank_lt hp (Function.update_self _ _ _) rfl fun _ _ => Sending.rank_lt rfl ?_
    have := shift_lt hm
    simp only [Sending.next]
    omega
  | updateSelf k d hp ht hd =>
    refine fifoRank_lt hp (Function.update_self _ _ _) rfl fun _ _ => Sending.rank_lt rfl ?_
    simp only [Sending.stepsAt,Sending.next]
    omega
  | updateNone k d hp ht hd =>
    refine fifoRank_lt hp (Function.update_self _ _ _) rfl fun _ _ => Sending.rank_lt rfl ?_
    simp only [Sending.stepsAt]
    omega
  | merge k d hp ht hd f =>
    refine fifoRank_lt hp (Function.update_self _ _ _) (Function.update_of_ne (Ne.symm ht) _ _)
      fun _ _ => Sending.rank_lt rfl ?_
    simp only [Sending.stepsAt]
    omega
  | enqueue k hp f =>
    rw [hp] at hok
    refine fifoRank_lt hp (Function.update_self _ _ _)
      (Function.update_of_ne (Ne.symm hok.2.away) _ _) fun _ _ => Sending.rank_lt rfl ?_
    simp only [Sending.stepsAt]
    omega
  | enqueueFull k hp hf =>
    exact fifoRank_lt hp (Function.update_self _ _ _) rfl fun _ _ => rank_lt_of_level (by decide)
  | setBit k hp =>
    refine fifoRank_lt hp (Function.update_self _ _ _) rfl fun _ _ => Sending.rank_lt rfl ?_
    simp only [Sending.stepsAt]
    omega
  | raise k hp =>
    refine fifoRank_lt hp (Function.update_self _ _ _) rfl fun _ _ => ?_
    split_ifs
    · exact Sending.rank_lt rfl (by simp only [Sending.stepsAt]; omega)
    · exact Sending.rank_lt rfl (by simp only [Sending.stepsAt,Sending.next]; omega)
  | ret k hp hf =>
    refine fifoRank_lt hp (Function.update_self _ _ _) rfl fun _ _ => Sending.rank_lt rfl ?_
    simp only [Sending.stepsAt,Sending.next]
    omega
  | poll k hp hf =>
    exact fifoRank_lt hp (Function.update_self _ _ _) rfl fun _ _ => rank_lt_of_level (by decide)
  | dequeue r n hp e f hf =>
    refine Prod.Lex.toLex_lt_toLex.mpr (.inl ?_)
    simp [hf]
  | dequeueEmpty r n hp hf => exact absurd hf (hne (by rw [hp]; rfl) (by rw [hp]; rfl))
  | exec r n e hp =>
    exact fifoRank_lt hp (Function.update_self _ _ _) rfl fun _ _ => rank_lt_of_level (by decide)
  | ack r n e i hp hi =>
    refine fifoRank_lt hp (Function.update_self _ _ _) rfl fun _ _ => rank_lt_of_steps ?_
    omega
  | ackSpin r n e i hp hi ht hsci hf =>
    refine absurd ?_ (ack_advances hl hp)
    simp only [FailedPoll,hp]
    exact ⟨hi,ht,hsci,hf⟩
  | ackSkip r n e i hp hi =>
    refine fifoRank_lt hp (Function.update_self _ _ _) rfl fun _ _ => rank_lt_of_steps ?_
    omega
  | ackDone r n e i hp hi =>
    refine fifoRank_lt hp (Function.update_self _ _ _) rfl fun _ _ => ?_
    cases r <;> simp only [Caller.processed] <;> (try split_ifs) <;>
      exact rank_lt_of_level (by decide)
  | ipiClear ex hp =>
    exact fifoRank_lt hp (Function.update_self _ _ _) rfl fun _ _ => rank_lt_of_level (by decide)
  | ipiXchg ex hp =>
    -- the word it takes has the fence event, and no halt event that would come first
    have hq := queued_of_tokens hq (by rw [hp]; rfl) (by rw [hp]; rfl)
    refine fifoRank_lt hp (Function.update_self _ _ _) rfl fun _ _ => ?_
    rcases hr.woken a ha hq with ⟨ht,hh,-⟩ | hd
    · rw [hp] at hh
      rw [rank_draining]
      · exact rank_lt_of_level (by decide)
      · cases hha : (s.ipiType b).halt <;> cases ex <;> simp_all [Pc.exiting]
    · rw [hp] at hd; cases hd
  | ipiSmode ex w hp hw =>
    refine fifoRank_lt hp (Function.update_self _ _ _) rfl fun _ _ => ?_
    by_cases hd : (w.tlb && (!w.halt || ex))=true
    · rw [rank_draining hd,rank_draining (w := { w with smode := false }) hd]
      exact rank_lt_of_steps (by simp [IpiType.count,hw])
    · rw [rank_notDraining hd,rank_notDraining (w := { w with smode := false }) hd]
      exact rank_lt_of_steps (by simp [IpiType.count,hw])
  | ipiHalt ex w hp hsm hw hst =>
    rw [hp,hst] at hok
    refine fifoRank_lt hp (Function.update_self _ _ _) rfl fun _ _ => ?_
    cases ex with
    | true => cases hok
    | false =>
      rw [rank_notDraining (by simp [hw])]
      exact rank_lt_of_level (by decide)
  | ipiHaltRefused ex w hp hsm hw hst =>
    rw [hp] at hok
    refine fifoRank_lt hp (Function.update_self _ _ _) rfl fun _ _ => ?_
    have hd := hdeaf (by rw [hp]; rfl) (by rw [hp]; rfl)
    cases ex with
    | false => exact absurd hok hst
    | true =>
      simp only [hp,Pc.deaf,Bool.true_and,Bool.not_eq_false'] at hd
      rw [rank_draining (by simp [hd]),rank_draining (by simp [hd])]
      exact rank_lt_of_steps (by simp [IpiType.count,hw])
  | ipiTlb ex w hp hsm hh hw =>
    refine fifoRank_lt hp (Function.update_self _ _ _) rfl fun _ _ => ?_
    rw [rank_draining (by simp [hh,hw])]
    exact rank_lt_of_level (by decide)
  | ipiDone ex w hp hsm hh hw =>
    refine fifoRank_lt hp (Function.update_self _ _ _) rfl fun _ _ => ?_
    have hd := hdeaf (by rw [hp]; rfl) (by rw [hp]; rfl)
    simp only [hp,Pc.deaf,hw,Bool.not_false,Bool.and_true] at hd
    rw [rank_notDraining (by simp [hw]),hd]
    exact rank_lt_of_level (by decide)
  | prepareJump hp hst =>
    exact fifoRank_lt hp (Function.update_self _ _ _) rfl fun _ _ => rank_lt_of_level (by decide)
  | prepareJumpHang hp hst => rw [hp] at hok; exact absurd hok hst
  | startKick t hp =>
    exact fifoRank_lt hp (Function.update_self _ _ _) rfl fun _ _ => rank_lt_of_level (by decide)
  | _ =>
    have hd := hdeaf (by simp [*,Pc.taken]) (by simp [*,Pc.acking])
    simp [*,Pc.deaf] at hd

/-- A hart with something to acknowledge heeds itself. -/
private theorem heeds_self (hl : s.Accounted c) (hr : Heard c s b) (ha : (s.pc a).posted=some b)
    (hq : (s.queues c).tokens a b≠0) : Heeds s b b := by
  have hok := hl.placed b
  unfold Heeds
  split
  · rename_i k hp
    rw [hp] at hok
    exact fun hk => absurd hk hok.2.away
  · rename_i hp
    intro _ htlb
    have hq := queued_of_tokens hq (by rw [hp]; rfl) (by rw [hp]; rfl)
    rcases hr.woken a ha hq with ⟨ht,-⟩ | hd
    · rw [htlb] at ht; cases ht
    · rw [hp] at hd; cases hd
  · rename_i k hp
    rw [hp] at hok
    exact fun hk hsm => absurd hk (hok.2.2 hsm)
  · trivial

/-- Hart `a` waits for hart `b`, which owes it the acknowledgement. -/
private structure Owed (c : Harts x) (a b : Nat) (s : IpiState x) : Prop extends s.Accounted c where
  heard : Heard c s b
  posted : (s.pc a).posted=some b
  flag : s.tlbSync a=false

private theorem Owed.tokens (ho : Owed c a b s) : (s.queues c).tokens a b≠0 := by
  have hdue := ho.balanced.due a b
  rw [if_pos ⟨Pc.waiting_of_posted ho.posted,ho.flag⟩] at hdue
  omega

/-- The flag of a hart is set only by its acknowledgement. -/
private theorem IpiStep.flag (hs : IpiStep c s h ev s') (hf : s.tlbSync a=false) :
    s'.tlbSync a=false ∨ .ack h a∈ev := by
  cases hs with
  | ack r n e i hp =>
    by_cases hi : a=i
    · subst hi; exact .inr (by simp)
    · exact .inl (by simpa [Function.update_of_ne hi] using hf)
  | ret k hp =>
    refine .inl ?_
    by_cases hi : a=h
    · subst hi; simp
    · simpa [Function.update_of_ne hi] using hf
  | tlbInitSync hp =>
    refine .inl ?_
    by_cases hi : a=h
    · subst hi; simp
    · simpa [Function.update_of_ne hi] using hf
  | _ => exact .inl hf

/-- The debt stays until it is paid. -/
private theorem Owed.step (ho : Owed c a b s) (hs : IpiStep c s h ev s') (hsc : c.scratch h=true)
    (hh : Heeds s h b) (hreset : s.pc h=.tlbInitFifo → (s.tlbFifo h).toList=[])
    (hpost : (s'.pc a).posted=some b) : .ack h a∈ev ∨ Owed c a b s' := by
  rcases hs.flag ho.flag with hf | hack
  · exact .inr ⟨(ho.toAccounted.step hs hsc hreset).1,ho.heard.step hs ho.placed hsc hh,hpost,hf⟩
  · exact .inl hack

private theorem Owed.progress (ho : Owed c a b s) (hsc : c.scratch b=true) :
    ∃ l s' ev,(ipiMachine c).step s l=some (s',ev) ∧
      (.ack b a∈ev ∨ Owed c a b s' ∧ fifoRank c b s'<fifoRank c b s) := by
  have hab := ho.placed.posted_ne ho.posted
  by_cases hp : s.pc b=.smode
  · have hq := queued_of_tokens ho.tokens (by rw [hp]; rfl) (by rw [hp]; rfl)
    by_cases hm : s.msip b=true
    · -- the hart takes its interrupt
      have hs : IpiStep c s b [] (s.setPc b (.ipiClear false)) := .trap hp hm
      have hpost : ((s.setPc b (.ipiClear false)).pc a).posted=some b := by
        simpa [IpiState.setPc,Function.update_of_ne hab] using ho.posted
      refine ⟨(b,.trap),s.setPc b (.ipiClear false),[],
        by simp [ipiMachine,hsc,hp,smodeStep,hm],.inr ⟨?_,?_⟩⟩
      · exact (ho.step hs hsc (by simp [Heeds,hp]) (by simp [hp]) hpost).resolve_left (by simp)
      · exact fifoRank_lt hp (Function.update_self _ _ _) rfl
          fun _ _ => rank_lt_of_level (by decide)
    -- or another hart is about to raise it
    obtain ⟨d,hd,hr⟩ : ∃ d,c.scratch d=true ∧ (s.pc d).raises b := by
      rcases ho.heard.woken a ho.posted hq with ⟨-,-,hms | hd | ⟨ex,hx⟩⟩ | hdr
      · exact absurd hms hm
      · exact hd
      · rw [hp] at hx; cases hx
      · rw [hp] at hdr; cases hdr
    obtain ⟨k,hpd,rfl⟩ : ∃ k,s.pc d=.raise k ∧ k.target=b := by
      cases hpd : s.pc d with
      | raise k => rw [hpd] at hr; exact ⟨k,rfl,hr⟩
      | _ => rw [hpd] at hr; exact hr.elim
    have hdb : k.target≠d := by
      intro he
      rw [he] at hp
      rw [hpd] at hp
      cases hp
    have hs := IpiStep.raise (c := c) k hpd
    refine ⟨(d,.run),_,[],by rw [run_step hd hpd]; rfl,.inr ⟨?_,?_⟩⟩
    · refine (ho.step hs hd (by simp [Heeds,hpd]) (by simp [hpd]) ?_).resolve_left (by simp)
      by_cases had : a=d
      · have hpost := ho.posted
        subst had
        rw [hpd] at hpost
        simp only [Pc.posted,Pc.waiting] at hpost
        split_ifs at hpost with he
        simp [he,Pc.posted,Pc.waiting]
      · simpa [Function.update_of_ne had] using ho.posted
    · refine Prod.Lex.toLex_lt_toLex.mpr (.inr ⟨rfl,?_⟩)
      simp only [Function.update_of_ne hdb,Function.update_self,hp]
      rw [Bool.not_eq_true] at hm
      rw [hm]
      exact rank_lt_of_steps (by decide)
  · obtain ⟨s',ev,hstep⟩ := run_enabled hsc hp ho.placed.not_hang
    have hs := (ipiMachine_step hstep).2
    have hpost : (s'.pc a).posted=some b := by rw [(step_other hs hab).1]; exact ho.posted
    refine ⟨_,s',ev,hstep,?_⟩
    have hlt := hs.descends ho.toAccounted ho.heard hp ho.posted ho.tokens
    have hh := heeds_self ho.toAccounted ho.heard ho.posted ho.tokens
    exact (ho.step hs hsc hh ho.heard.not_reset hpost).imp_right fun h => ⟨h,hlt⟩

/-- The hart whose acknowledgement `tlb_sync()` is waiting for. -/
def Pc.syncing : Pc x → Option Nat
  | .sync k => some k.target
  | .dequeue r _ => r.waiting
  | .localFn r _ _ => r.waiting
  | .ack r _ _ _ => r.waiting
  | _ => none

theorem Pc.posted_of_syncing {p : Pc x} (h : p.syncing=some b) : p.posted=some b := by
  cases p <;> first | exact h | cases h

/-- No acknowledgement is lost, also across stop, start and halt, in runs whose steps all heed every
hart: a hart in `tlb_sync()` has its flag set, or its bit is in an entry that is queued or held at
the hart it waits for, and that hart can still come to acknowledge it. -/
theorem tlbSync_notLost (c : Harts x) {s0 s : IpiState x} {t : List (IpiTrace x)}
    (hi : s0.Initial) (hrun : (ipiMachine c).Run (heeding c) s0 t s) (a b : Nat)
    (hw : (s.pc a).syncing=some b) :
    s.tlbSync a=true ∨
      (Queued s a b ∨ a∈(s.pc b).taken c ∨ a∈(s.pc b).acking c) ∧
        ∃ t' s',(ipiMachine c).Run Machine.anyStep s t' s' ∧ .ack b a∈t' := by
  have hl := run_live hi hrun
  have hpost := Pc.posted_of_syncing hw
  have hsc := (hl.aimed a b (Pc.target_of_waiting (Pc.waiting_of_posted hpost))).2
  cases hf : s.tlbSync a with
  | true => exact .inl rfl
  | false =>
    have ho : Owed c a b s := ⟨hl.toAccounted,hl.heard b hsc,hpost,hf⟩
    refine .inr ⟨?_,Machine.exists_event (P := Owed c a b) (fifoRank c b)
      (fun s ho => ho.progress hsc) ho⟩
    rcases AckQueues.mem_of_tokens ho.tokens with ⟨m,hm,ham⟩ | hm | hm
    · obtain ⟨e,he,rfl⟩ := List.mem_map.mp hm
      exact .inl ⟨e,he,(mem_sourceHarts.mp ham).1⟩
    · exact .inr (.inl hm)
    · exact .inr (.inr hm)

theorem twoHarts_notLost : ∃ s t,
    (ipiMachine twoHarts).Run (heeding twoHarts) bootedState t s ∧ (s.pc 0).syncing=some 1 ∧
    s.tlbSync 0=false ∧
    (Queued s 0 1 ∨ 0∈(s.pc 1).taken twoHarts ∨ 0∈(s.pc 1).acking twoHarts) ∧
    ∃ t' s',(ipiMachine twoHarts).Run Machine.anyStep s t' s' ∧ .ack 1 0∈t' := by
  have hreplay : ((ipiMachine twoHarts).replay steadyStep bootedState requestFence).any
      (fun r => decide ((r.1.pc 0).syncing=some 1) && !r.1.tlbSync 0)=true := by
    decide +kernel
  obtain ⟨s,t,hrun,hp⟩ := Machine.exists_run
    (p := fun s _ => decide ((IpiState.pc s 0).syncing=some 1) && !s.tlbSync 0) hreplay
  simp only [Bool.and_eq_true,decide_eq_true_iff,Bool.not_eq_true'] at hp
  have hst : (ipiMachine twoHarts).Run (heeding twoHarts) bootedState t s :=
    heeding_of_steady bootedState_initial (fun _ _ => rfl)
      (hrun.mono fun _ _ _ => steady_of_steadyStep)
  rcases tlbSync_notLost twoHarts bootedState_initial hst 0 1 hp.1 with hf | h
  · rw [hp.2] at hf; cases hf
  · exact ⟨s,t,hst,hp.1,hp.2,h⟩

/-! ## A target that stops in between -/

def threeHarts : Harts .rv32 := oneDomain 3 (by decide)

/-- Hart 0 finds hart 1 started, hart 1 stops, hart 0 enters its request and waits; then hart 2
starts hart 1 again, which initialises its FIFO. -/
def stopBetween : List (Nat × Action .rv32) :=
  (0,.tlbRequest 2 0 zeroTlbInfo)::List.replicate 4 (0,.run)++
    (1,.hartStop)::List.replicate 4 (1,.run)++List.replicate 6 (0,.run)++
    (2,.hartStart 1)::List.replicate 5 (1,.run)

theorem stoppedTarget_lost : ∃ s t,
    (ipiMachine threeHarts).Run Machine.anyStep bootedState t s ∧ (s.pc 0).syncing=some 1 ∧
    s.tlbSync 0=false ∧
    ¬(Queued s 0 1 ∨ 0∈(s.pc 1).taken threeHarts ∨ 0∈(s.pc 1).acking threeHarts) := by
  have hreplay : ((ipiMachine threeHarts).replay (fun _ _ _ => true) bootedState stopBetween).any
      (fun r => decide ((r.1.pc 0).syncing=some 1) && !r.1.tlbSync 0 && (r.1.tlbFifo 1).isEmpty &&
        decide ((r.1.pc 1).taken threeHarts=∅ ∧ (r.1.pc 1).acking threeHarts=∅))=true := by
    decide +kernel
  obtain ⟨s,t,hrun,hp⟩ := Machine.exists_run (p := fun s _ =>
    decide ((IpiState.pc s 0).syncing=some 1) && !s.tlbSync 0 && (s.tlbFifo 1).isEmpty &&
      decide ((s.pc 1).taken threeHarts=∅ ∧ (s.pc 1).acking threeHarts=∅)) hreplay
  simp only [Bool.and_eq_true,decide_eq_true_iff,Bool.not_eq_true'] at hp
  obtain ⟨⟨⟨hw,hf⟩,hem⟩,ht,hk⟩ := hp
  refine ⟨s,t,hrun.mono fun _ _ _ _ => trivial,hw,hf,?_⟩
  rintro (⟨e,he,-⟩ | hm | hm)
  · rw [toList_eq_nil.mpr hem] at he; cases he
  · rw [ht] at hm; cases hm
  · rw [hk] at hm; cases hm

end OpenSBI
