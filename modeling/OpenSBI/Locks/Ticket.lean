import OpenSBI.Locks.Spinlock
import OpenSBI.Framework.Turnstile

namespace OpenSBI

open Framework

variable {x : Xlen} {ι : Type}

/-- The contender has a ticket: it waits for the lock or has it. -/
def LockPc.Outstanding : LockPc x → Prop
  | .spin _ _ | .held | .unlocking _ => True
  | _ => False

/-- The contender is between the return of `spin_lock()` or `spin_trylock()` and the store of
`spin_unlock()`. -/
def LockPc.Inside : LockPc x → Prop
  | .held | .unlocking _ => True
  | _ => False

/-- The lock belongs to the contender whose ticket is served, also before its loop sees that. -/
def SpinState.Holds (s : SpinState x ι) (i : ι) : Prop :=
  match s.pc i with
  | .spin tmp1 _ => tmp1=s.lock.owner.setWidth x.bits
  | .held | .unlocking _ => True
  | _ => False

/-- The tickets taken, granted and released in a run, in order. -/
def ticketsOf (t : List (SpinEvent ι)) : List (ι×BitVec 16) :=
  t.filterMap fun | .ticket i number => some (i,number) | _ => none
def grantsOf (t : List (SpinEvent ι)) : List (ι×BitVec 16) :=
  t.filterMap fun | .grant i number => some (i,number) | _ => none
def releasesOf (t : List (SpinEvent ι)) : List (ι×BitVec 16) :=
  t.filterMap fun | .release i number => some (i,number) | _ => none

/-- The word that the waiter with ticket `k` has seen is one since it took its ticket. -/
def SeenBy (T : Turnstile ι) (k : Nat) (l0 : Word x) : Prop :=
  ∃ (lock : SpinlockT) (m : Nat),l0=loadWord lock ∧ lock.owner=BitVec.ofNat 16 m ∧ m ≤ T.served ∧
    k < m+2^16

/-- What a contender knows. -/
def PcInv (T : Turnstile ι) (lock : SpinlockT) (i : ι) (reserved : Bool) : LockPc x → Prop
  | .idle | .retry => i∉T.waiting
  | .loaded l0 => i∉T.waiting ∧ ∃ w,l0=loadWord w ∧ (reserved=true → w=lock)
  | .spin tmp1 l0 => ∃ k,T.Ticket i k ∧ tmp1=(BitVec.ofNat 16 k).setWidth x.bits ∧ SeenBy T k l0
  | .held => T.Ticket i T.served
  | .unlocking owner => T.Ticket i T.served ∧ owner=lock.owner

/-- The two halves of the word count the tickets served and taken. -/
structure SpinInv (T : Turnstile ι) (s : SpinState x ι) (t : List (SpinEvent ι)) : Prop where
  owner : s.lock.owner=BitVec.ofNat 16 T.served
  next : s.lock.next=BitVec.ofNat 16 T.taken.length
  pcs : ∀ i,PcInv T s.lock i (s.reserved i) (s.pc i)
  tickets : ticketsOf t=T.numbered 16
  releases : releasesOf t=(T.numbered 16).take T.served
  granted : ∀ i,(s.pc i).Inside → grantsOf t=(T.numbered 16).take (T.served+1)
  pending : (∀ i,¬(s.pc i).Inside) → grantsOf t=(T.numbered 16).take T.served

section Contender

variable {T : Turnstile ι} {lock lock' : SpinlockT} {i j : ι} {r : Bool} {p : LockPc x}

theorem PcInv.inside (h : PcInv T lock i r p) (hp : p.Inside) : T.Ticket i T.served := by
  cases p with
  | held => exact h
  | unlocking owner => exact h.1
  | idle | retry | loaded l0 | spin tmp1 l0 => cases hp

theorem PcInv.mem_waiting_iff (h : PcInv T lock i r p) : i∈T.waiting ↔ p.Outstanding := by
  have hin : ∀ k,T.Ticket i k → i∈T.waiting := fun k hk => Turnstile.mem_waiting_iff.mpr ⟨k,hk⟩
  cases p with
  | idle | retry => exact iff_of_false h not_false
  | loaded l0 => exact iff_of_false h.1 not_false
  | spin tmp1 l0 =>
    obtain ⟨k,hk,-⟩ := h
    exact iff_of_true (hin k hk) trivial
  | held => exact iff_of_true (hin _ h) trivial
  | unlocking owner => exact iff_of_true (hin _ h.1) trivial

/-- Another contender takes a ticket. -/
theorem PcInv.take (h : PcInv T lock j r p) (hne : j≠i) (hi : i∉T.waiting)
    (ho : lock'.owner=lock.owner) : PcInv (T.take i hi) lock' j false p := by
  have hout : j∉T.waiting → j∉(T.take i hi).waiting := by
    intro hj
    rw [T.waiting_take i hi,List.mem_append,List.mem_singleton,not_or]
    exact ⟨hj,hne⟩
  cases p with
  | idle | retry => exact hout h
  | loaded l0 =>
    obtain ⟨hj,w,hw,-⟩ := h
    exact ⟨hout hj,w,hw,by simp⟩
  | spin tmp1 l0 =>
    obtain ⟨k,hk,htmp,hseen⟩ := h
    exact ⟨k,hk.take hi,htmp,hseen⟩
  | held => exact Turnstile.Ticket.take h hi
  | unlocking owner => exact ⟨Turnstile.Ticket.take h.1 hi,h.2.trans ho.symm⟩

/-- Another contender releases the lock. -/
theorem PcInv.leave (h : PcInv T lock j r p) (hne : j≠i) (hi : T.Ticket i T.served)
    (hw : T.waiting≠[]) : PcInv (T.leave hw) lock' j false p := by
  have hother : ¬T.Ticket j T.served := fun hj => hne (Option.some.inj (hj.2.symm.trans hi.2))
  have hout : j∉T.waiting → j∉(T.leave hw).waiting := by
    intro hj hmem
    rw [T.waiting_leave hw] at hmem
    exact hj (List.mem_of_mem_tail hmem)
  cases p with
  | idle | retry => exact hout h
  | loaded l0 =>
    obtain ⟨hj,w,hl0,-⟩ := h
    exact ⟨hout hj,w,hl0,by simp⟩
  | spin tmp1 l0 =>
    obtain ⟨k,hk,htmp,w,m,hl0,hm,hle,hlt⟩ := h
    exact ⟨k,hk.leave hi hne hw,htmp,w,m,hl0,hm,Nat.le_succ_of_le hle,hlt⟩
  | held => exact absurd h hother
  | unlocking owner => exact absurd h.1 hother

/-- A waiter that sees its ticket served has the lock. -/
theorem PcInv.served {tmp1 l0 : Word x} (h : PcInv T lock i r (.spin tmp1 l0))
    (heq : tmp1=l0 &&& lockMask) :
    T.Ticket i T.served ∧ tmp1.setWidth 16=BitVec.ofNat 16 T.served := by
  obtain ⟨k,hk,htmp,w,m,hl0,hm,hle,hlt⟩ := h
  rw [htmp,hl0,loadWord_and_lockMask] at heq
  have hmk := Turnstile.ofNat_inj_of_near (hle.trans hk.1) hlt (hm.symm.trans (setWidth_half_inj heq).symm)
  have hks : k=T.served := by
    have := hk.1
    omega
  rw [htmp,hks]
  have hx := x.bits_ge
  exact ⟨hks ▸ hk,by rw [BitVec.setWidth_setWidth_of_le _ (by omega),BitVec.setWidth_eq]⟩

end Contender

section Steps

variable {T : Turnstile ι} {s : SpinState x ι} {t e : List (SpinEvent ι)} {i j : ι}

theorem ticketsOf_append : ticketsOf (t++e)=ticketsOf t++ticketsOf e := List.filterMap_append
theorem grantsOf_append : grantsOf (t++e)=grantsOf t++grantsOf e := List.filterMap_append
theorem releasesOf_append : releasesOf (t++e)=releasesOf t++releasesOf e := List.filterMap_append

namespace SpinInv

theorem exclusive (h : SpinInv T s t) (hi : (s.pc i).Inside) (hj : (s.pc j).Inside) : i=j := by
  have h1 := (h.pcs i).inside hi
  have h2 := (h.pcs j).inside hj
  exact Option.some.inj (h1.2.symm.trans h2.2)

/-- While nobody waits nobody is inside. -/
theorem outside (h : SpinInv T s t) (hw : T.waiting=[]) (j : ι) : ¬(s.pc j).Inside := fun hj =>
  ((h.pcs j).inside hj).waiting_ne_nil hw

section Card

variable [Fintype ι] (hcard : Fintype.card ι<2^16)
include hcard

/-- Somebody waits exactly while the halves of the word differ. -/
theorem unlocked_iff (h : SpinInv T s t) : spinLockUnlocked s.lock=true ↔ T.waiting=[] := by
  rw [spinLockUnlocked,beq_iff_eq,h.owner,h.next]
  exact T.counters_eq_iff hcard

theorem near (T : Turnstile ι) : T.taken.length<T.served+2^16 :=
  T.taken_le.trans_lt (Nat.add_lt_add_left hcard _)

end Card
end SpinInv

variable [DecidableEq ι]

@[simp] theorem SpinState.goto_self (p : LockPc x) : (s.goto i p).pc i=p := Function.update_self ..
theorem SpinState.goto_of_ne (p : LockPc x) (h : j≠i) : (s.goto i p).pc j=s.pc j :=
  Function.update_of_ne h ..

theorem SpinState.setReserved_self : s.setReserved i (s.reserved i)=s := by
  rw [setReserved,Function.update_eq_self]

/-- Nobody goes in or out. -/
theorem inside_goto_iff {p : LockPc x} (h : (s.pc i).Inside ↔ p.Inside) (j : ι) :
    ((s.goto i p).pc j).Inside ↔ (s.pc j).Inside := by
  by_cases hj : j=i
  · subst hj
    rw [SpinState.goto_self]
    exact h.symm
  · rw [SpinState.goto_of_ne p hj]

namespace SpinInv

/-- A step that leaves the lock word alone and moves nobody in or out. -/
theorem quiet (h : SpinInv T s t) {p : LockPc x} {r : Bool} (hp : PcInv T s.lock i r p)
    (hin : (s.pc i).Inside ↔ p.Inside) (hev : ticketsOf e=[] ∧ grantsOf e=[] ∧ releasesOf e=[]) :
    SpinInv T ((s.setReserved i r).goto i p) (t++e) where
  owner := h.owner
  next := h.next
  pcs := by
    intro j
    by_cases hj : j=i
    · subst hj
      rw [SpinState.goto_self]
      change PcInv T s.lock j (Function.update s.reserved j r j) p
      rwa [Function.update_self]
    · rw [SpinState.goto_of_ne p hj]
      change PcInv T s.lock j (Function.update s.reserved i r j) (s.pc j)
      rw [Function.update_of_ne hj]
      exact h.pcs j
  tickets := by rw [ticketsOf_append,hev.1,List.append_nil,h.tickets]
  releases := by rw [releasesOf_append,hev.2.2,List.append_nil,h.releases]
  granted := by
    intro j hj
    rw [grantsOf_append,hev.2.1,List.append_nil]
    exact h.granted j ((inside_goto_iff hin j).mp hj)
  pending := by
    intro hout
    rw [grantsOf_append,hev.2.1,List.append_nil]
    exact h.pending fun j hj => hout j ((inside_goto_iff hin j).mpr hj)

theorem quiet' (h : SpinInv T s t) {p : LockPc x} (hp : PcInv T s.lock i (s.reserved i) p)
    (hin : (s.pc i).Inside ↔ p.Inside) (hev : ticketsOf e=[] ∧ grantsOf e=[] ∧ releasesOf e=[]) :
    SpinInv T (s.goto i p) (t++e) := by
  have hq := h.quiet hp hin hev
  rwa [SpinState.setReserved_self] at hq

/-- A waiter goes in. -/
theorem enter (h : SpinInv T s t) (hi : T.Ticket i T.served) (hout : ∀ j,¬(s.pc j).Inside) :
    SpinInv T (s.goto i .held) (t++[.grant i (BitVec.ofNat 16 T.served)]) where
  owner := h.owner
  next := h.next
  pcs := by
    intro j
    by_cases hj : j=i
    · subst hj
      rw [SpinState.goto_self]
      exact hi
    · rw [SpinState.goto_of_ne _ hj]
      exact h.pcs j
  tickets := by rw [ticketsOf_append,h.tickets]; exact List.append_nil _
  releases := by rw [releasesOf_append,h.releases]; exact List.append_nil _
  granted := by
    intro j _
    rw [grantsOf_append,h.pending hout,hi.take_numbered 16]
    rfl
  pending := by
    intro hnone
    refine absurd ?_ (hnone i)
    rw [SpinState.goto_self]
    trivial

/-- A ticket is taken, by a write of the next word. -/
theorem take (h : SpinInv T s t) (hi : i∉T.waiting) (hpc : ¬(s.pc i).Inside) {p : LockPc x}
    (hp : PcInv (T.take i hi) (s.lock+(ticketInc : Word x).setWidth 32) i false p) (hin : ¬p.Inside) :
    SpinInv (T.take i hi) ((s.write (s.lock+(ticketInc : Word x).setWidth 32)).goto i p)
      (t++[.ticket i s.lock.next]) where
  owner := (SpinlockT.owner_add s.lock).trans h.owner
  next := by
    change (s.lock+(ticketInc : Word x).setWidth 32).next=BitVec.ofNat 16 (T.taken++[i]).length
    rw [SpinlockT.next_add,h.next,List.length_append,BitVec.ofNat_add]
    rfl
  pcs := by
    intro j
    by_cases hj : j=i
    · subst hj
      rwa [SpinState.goto_self]
    · rw [SpinState.goto_of_ne _ hj]
      exact (h.pcs j).take hj hi (SpinlockT.owner_add s.lock)
  tickets := by
    rw [ticketsOf_append,h.tickets,T.numbered_take 16 i hi,h.next]
    rfl
  releases := by
    rw [releasesOf_append,h.releases]
    exact (List.append_nil _).trans (T.take_numbered_take 16 i hi T.served_le).symm
  granted := by
    intro j hj
    have hj' := (inside_goto_iff (s := s) (iff_of_false hpc hin) j).mp hj
    rw [grantsOf_append,h.granted j hj']
    exact (List.append_nil _).trans (T.take_numbered_take 16 i hi ((h.pcs j).inside hj').lt).symm
  pending := by
    intro hout
    rw [grantsOf_append,h.pending fun j hj =>
      hout j ((inside_goto_iff (s := s) (iff_of_false hpc hin) j).mpr hj)]
    exact (List.append_nil _).trans (T.take_numbered_take 16 i hi T.served_le).symm

/-- The store of `spin_unlock()`. -/
theorem release (h : SpinInv T s t) {owner : BitVec 16} (hpc : s.pc i=.unlocking owner) :
    ∃ T',SpinInv T' ((s.write (s.lock.setOwner (owner+1))).goto i .idle) (t++[.release i owner]) := by
  obtain ⟨hi,howner⟩ : PcInv T s.lock i (s.reserved i) (.unlocking owner) := hpc ▸ h.pcs i
  have hw := hi.waiting_ne_nil
  have hin : (s.pc i).Inside := by rw [hpc]; trivial
  have hout : ∀ j,¬((s.goto i .idle).pc j).Inside := by
    intro j hj
    by_cases hji : j=i
    · subst hji
      rw [SpinState.goto_self] at hj
      exact hj
    · rw [SpinState.goto_of_ne _ hji] at hj
      exact hji (h.exclusive hj hin)
  refine ⟨T.leave hw,?_,?_,?_,?_,?_,?_,?_⟩
  · change (s.lock.setOwner (owner+1)).owner=BitVec.ofNat 16 (T.served+1)
    rw [SpinlockT.owner_setOwner,howner,h.owner,BitVec.ofNat_add]
    rfl
  · exact (SpinlockT.next_setOwner s.lock _).trans h.next
  · intro j
    by_cases hj : j=i
    · subst hj
      rw [SpinState.goto_self]
      change j∉(T.leave hw).waiting
      intro hmem
      obtain ⟨k,hk⟩ := Turnstile.mem_waiting_iff.mp hmem
      have heq := hi.unique ⟨Nat.le_of_succ_le hk.1,hk.2⟩
      exact absurd hk.1 (by rw [← heq]; exact Nat.not_succ_le_self _)
    · rw [SpinState.goto_of_ne _ hj]
      exact (h.pcs j).leave hj hi hw
  · rw [ticketsOf_append,h.tickets]
    exact List.append_nil _
  · rw [releasesOf_append,h.releases,howner,h.owner]
    exact (hi.take_numbered 16).symm
  · intro j hj
    exact absurd hj (hout j)
  · intro _
    rw [grantsOf_append,h.granted i hin]
    exact List.append_nil _

variable [Fintype ι] (hcard : Fintype.card ι<2^16)
include hcard

/-- The `amoadd.w` of `spin_lock()`. -/
theorem amoadd (h : SpinInv T s t) (hi : i∉T.waiting) :
    SpinInv (T.take i hi) ((s.write (s.lock+(ticketInc : Word x).setWidth 32)).goto i
      (.spin (myTicket (loadWord s.lock)) (loadWord s.lock))) (t++[.ticket i s.lock.next]) := by
  refine h.take hi (fun hin => hi (Turnstile.mem_waiting_iff.mpr ⟨_,(h.pcs i).inside hin⟩)) ?_ not_false
  refine ⟨T.taken.length,T.ticket_take i hi,?_,s.lock,T.served,rfl,h.owner,le_refl _,near hcard T⟩
  rw [myTicket_loadWord,h.next]

/-- A successful `sc.w` takes the ticket that is served next. -/
theorem storeConditional (h : SpinInv T s t) (hi : i∉T.waiting) (hfree : T.waiting=[]) :
    SpinInv (T.take i hi) ((s.write (s.lock+(ticketInc : Word x).setWidth 32)).goto i .held)
      (t++[.ticket i s.lock.next,.grant i s.lock.next,.tried i true]) := by
  have hlen : T.taken.length=T.served := by
    have hwait := T.waiting_length
    have hle := T.served_le
    rw [hfree,List.length_nil] at hwait
    omega
  have htaken := h.amoadd hcard hi
  have hserved : (T.take i hi).Ticket i T.served := hlen ▸ T.ticket_take i hi
  have hspin : ¬(LockPc.spin (myTicket (loadWord s.lock : Word x)) (loadWord s.lock)).Inside := not_false
  have hout := fun j hj => h.outside hfree j
    ((inside_goto_iff (s := s) (iff_of_false (h.outside hfree i) hspin) j).mp hj)
  have hheld := htaken.enter hserved hout
  have hret := hheld.quiet' (i := i) (p := .held) (e := [.tried i true])
    hserved (by rw [SpinState.goto_self]) ⟨rfl,rfl,rfl⟩
  have hnext : s.lock.next=BitVec.ofNat 16 (T.take i hi).served := h.next.trans (hlen ▸ rfl)
  have hpc : ∀ (s' : SpinState x ι) (p q : LockPc x),(s'.goto i p).goto i q=s'.goto i q := by
    intro s' p q
    simp only [SpinState.goto,Function.update_idem]
  rw [hpc,hpc,List.append_assoc,List.append_assoc,← hnext] at hret
  exact hret

/-- A round of the loop of `spin_lock()`. -/
theorem spinLoop (h : SpinInv T s t) {tmp1 l0 : Word x} (hpc : s.pc i=.spin tmp1 l0) :
    (tmp1=l0 &&& lockMask → SpinInv T (s.goto i .held) (t++[.grant i (tmp1.setWidth 16)])) ∧
    SpinInv T (s.goto i (.spin tmp1 (loadWord s.lock))) (t++[]) := by
  have hi : PcInv T s.lock i (s.reserved i) (.spin tmp1 l0) := hpc ▸ h.pcs i
  have hin : ¬(s.pc i).Inside := by rw [hpc]; exact not_false
  constructor
  · intro heq
    obtain ⟨hserved,hnum⟩ := hi.served heq
    rw [hnum]
    refine h.enter hserved fun j hj => hin ?_
    -- only the waiter itself could be inside
    obtain rfl : j=i := Option.some.inj (((h.pcs j).inside hj).2.symm.trans hserved.2)
    exact hj
  · obtain ⟨k,hk,htmp,-⟩ := hi
    exact h.quiet' ⟨k,hk,htmp,s.lock,T.served,rfl,h.owner,le_refl _,hk.lt.trans (near hcard T)⟩
      (iff_of_false hin not_false) ⟨rfl,rfl,rfl⟩

omit hcard [Fintype ι] in
theorem loadReserved (h : SpinInv T s t) (hpc : s.pc i=.idle ∨ s.pc i=.retry) :
    SpinInv T ((s.setReserved i true).goto i (.loaded (loadWord s.lock))) (t++[]) := by
  have hi := h.pcs i
  have hout : i∉T.waiting ∧ ¬(s.pc i).Inside := by
    rcases hpc with hpc | hpc <;> rw [hpc] at hi ⊢ <;> exact ⟨hi,not_false⟩
  exact h.quiet ⟨hout.1,s.lock,rfl,fun _ => rfl⟩ (iff_of_false hout.2 not_false) ⟨rfl,rfl,rfl⟩

/-- The end of `spin_trylock()`, or its next round. -/
theorem tryEnd (h : SpinInv T s t) {l0 : Word x} (hpc : s.pc i=.loaded l0) {succeeds : Bool}
    {s' : SpinState x ι} (hstep : spinStep s (.sc i succeeds)=some (s',e)) :
    ∃ T',SpinInv T' s' (t++e) := by
  obtain ⟨hwait,w,rfl,hres⟩ : PcInv T s.lock i (s.reserved i) (.loaded l0) := hpc ▸ h.pcs i
  have hin : ¬(s.pc i).Inside := by rw [hpc]; exact not_false
  simp only [spinStep,hpc] at hstep
  split_ifs at hstep with hbusy hsc
  · cases hstep
    rw [SpinState.tried,trylockRet_of_busy w hbusy]
    exact ⟨T,h.quiet' hwait (iff_of_false hin not_false) ⟨rfl,rfl,rfl⟩⟩
  · cases hstep
    rw [Bool.and_eq_true] at hsc
    obtain rfl := hres hsc.1
    have hfree : T.waiting=[] := by
      rw [← h.unlocked_iff hcard]
      rw [trylockBusy_loadWord,Bool.not_eq_true,Bool.not_eq_false'] at hbusy
      exact hbusy
    have hret : trylockRet (0 : Word x)=true := by cases x <;> rfl
    rw [setWidth_add_ticketInc,setWidth_loadWord,SpinState.tried,hret]
    exact ⟨_,h.storeConditional hcard hwait hfree⟩
  · cases hstep
    exact ⟨T,h.quiet hwait (iff_of_false hin not_false) ⟨rfl,rfl,rfl⟩⟩

/-- Every step keeps the invariant. -/
theorem step {s' : SpinState x ι} {a : SpinAction ι} (h : SpinInv T s t)
    (hstep : spinStep s a=some (s',e)) : ∃ T',SpinInv T' s' (t++e) := by
  cases a with
  | amoadd i =>
    have hi := h.pcs i
    cases hpc : s.pc i <;> simp only [spinStep,hpc] at hstep
    case idle =>
      cases hstep
      rw [hpc] at hi
      exact ⟨_,h.amoadd hcard hi⟩
    all_goals cases hstep
  | spin i =>
    cases hpc : s.pc i <;> simp only [spinStep,hpc] at hstep
    case spin tmp1 l0 =>
      obtain ⟨hgrant,hloop⟩ := h.spinLoop hcard hpc
      split at hstep
      next heq =>
        cases hstep
        exact ⟨T,hgrant heq⟩
      · cases hstep
        exact ⟨T,hloop⟩
    all_goals cases hstep
  | lr i =>
    cases hpc : s.pc i <;> simp only [spinStep,hpc] at hstep
    case idle =>
      cases hstep
      exact ⟨T,h.loadReserved (.inl hpc)⟩
    case retry =>
      cases hstep
      exact ⟨T,h.loadReserved (.inr hpc)⟩
    all_goals cases hstep
  | sc i succeeds =>
    cases hpc : s.pc i
    case loaded l0 => exact h.tryEnd hcard hpc hstep
    all_goals
      simp only [spinStep,hpc] at hstep
      cases hstep
  | unlockLoad i =>
    have hi := h.pcs i
    cases hpc : s.pc i <;> simp only [spinStep,hpc] at hstep
    case held =>
      cases hstep
      rw [hpc] at hi
      exact ⟨T,h.quiet' ⟨hi,rfl⟩ (by rw [hpc]; exact Iff.rfl) ⟨rfl,rfl,rfl⟩⟩
    all_goals cases hstep
  | unlockStore i =>
    cases hpc : s.pc i <;> simp only [spinStep,hpc] at hstep
    case unlocking owner =>
      cases hstep
      exact h.release hpc
    all_goals cases hstep
  | check i =>
    have hs : s.goto i (s.pc i)=s := by rw [SpinState.goto,Function.update_eq_self]
    have hq : ∀ b,SpinInv T s (t++[.checked i b]) := fun b => by
      have hquiet := h.quiet' (e := [.checked i b]) (h.pcs i) Iff.rfl ⟨rfl,rfl,rfl⟩
      rwa [hs] at hquiet
    cases hpc : s.pc i <;> simp only [spinStep,hpc] at hstep
    case idle =>
      cases hstep
      exact ⟨T,hq _⟩
    case held =>
      cases hstep
      exact ⟨T,hq _⟩
    all_goals cases hstep

end SpinInv

/-- What the lock owes its contenders after a run. -/
structure FairLock (s : SpinState x ι) (t : List (SpinEvent ι)) : Prop where
  /-- At most one contender has the lock. -/
  exclusive : ∀ i j,s.Holds i → s.Holds j → i=j
  /-- Who is inside has the lock, the last one granted and not yet released. -/
  inside : ∀ i,(s.pc i).Inside → s.Holds i ∧ ∃ number,grantsOf t=releasesOf t++[(i,number)]
  outside : (∀ i,¬(s.pc i).Inside) → grantsOf t=releasesOf t
  /-- The lock is granted in the order of the tickets, none of which is left out. -/
  ordered : releasesOf t<+:grantsOf t ∧ grantsOf t<+:ticketsOf t
  /-- The tickets are numbered one after the other. -/
  numbers : ∀ k e,(ticketsOf t)[k]?=some e → e.2=BitVec.ofNat 16 k
  /-- The tickets not released are those of the contenders that wait or have the lock, one each. -/
  outstanding : (((ticketsOf t).drop (releasesOf t).length).map Prod.fst).Nodup ∧
    ∀ i,i∈((ticketsOf t).drop (releasesOf t).length).map Prod.fst ↔ (s.pc i).Outstanding
  /-- `spin_lock_check()` tells whether somebody has the lock. -/
  check : spinLockCheck s.lock=true ↔ ∃ i,s.Holds i
  /-- `spin_trylock()` returns true only for a free lock, and writes the word only then. -/
  trylock : ∀ i a s' e,(a=.lr i ∨ ∃ succeeds,a=.sc i succeeds) → spinStep s a=some (s',e) →
    (.tried i true∈e → (∀ j,¬s.Holds j) ∧ s'.Holds i) ∧ (.tried i true∉e → s'.lock=s.lock)

namespace SpinInv

omit [DecidableEq ι] in
theorem released (h : SpinInv T s t) : (releasesOf t).length=T.served := by
  rw [h.releases,List.length_take,Turnstile.length_numbered,Nat.min_eq_left T.served_le]

omit [DecidableEq ι] in
/-- The grants are the releases, and the ticket that is served if its owner is inside. -/
theorem grants_inside (h : SpinInv T s t) (hin : (s.pc i).Inside) :
    grantsOf t=releasesOf t++[(i,BitVec.ofNat 16 T.served)] := by
  rw [h.granted i hin,h.releases,((h.pcs i).inside hin).take_numbered 16]

omit [DecidableEq ι] in
theorem ordered (h : SpinInv T s t) : releasesOf t<+:grantsOf t ∧ grantsOf t<+:ticketsOf t := by
  by_cases hin : ∃ i,(s.pc i).Inside
  · obtain ⟨i,hi⟩ := hin
    refine ⟨?_,?_⟩
    · rw [h.grants_inside hi]
      exact List.prefix_append _ _
    · rw [h.granted i hi,h.tickets]
      exact List.take_prefix _ _
  · have hpend := h.pending fun i hi => hin ⟨i,hi⟩
    rw [hpend,h.releases,h.tickets]
    exact ⟨List.prefix_refl _,List.take_prefix _ _⟩

omit [DecidableEq ι] in
theorem outstanding (h : SpinInv T s t) :
    ((ticketsOf t).drop (releasesOf t).length).map Prod.fst=T.waiting := by
  rw [h.released,h.tickets,List.map_drop,T.map_fst_numbered]
  rfl

variable [Fintype ι] (hcard : Fintype.card ι<2^16)
include hcard

omit [DecidableEq ι] in
/-- Who has the lock has the ticket that is served. -/
theorem holds_iff (h : SpinInv T s t) : s.Holds i ↔ T.Ticket i T.served := by
  have hi := h.pcs i
  have hwait := hi.mem_waiting_iff
  have hin := fun hp => hi.inside hp
  have hserved : ∀ hp : T.Ticket i T.served,i∈T.waiting := fun hp => Turnstile.mem_waiting_iff.mpr ⟨_,hp⟩
  unfold SpinState.Holds
  cases hpc : s.pc i <;> rw [hpc] at hi hwait hin
  case spin tmp1 l0 =>
    obtain ⟨k,hk,rfl,-⟩ := hi
    simp only [h.owner]
    constructor
    · intro heq
      have hks := Turnstile.ofNat_inj_of_near hk.1 (hk.lt.trans (near hcard T)) (setWidth_half_inj heq).symm
      exact hks ▸ hk
    · intro hp
      rw [hk.unique hp]
  case held => exact iff_of_true trivial (hin trivial)
  case unlocking owner => exact iff_of_true trivial (hin trivial)
  all_goals exact iff_of_false not_false fun hp => hwait.mp (hserved hp)

omit [DecidableEq ι] in
theorem check_iff (h : SpinInv T s t) : spinLockCheck s.lock=true ↔ ∃ i,s.Holds i := by
  simp only [h.holds_iff hcard]
  rw [← Turnstile.waiting_ne_nil_iff,spinLockCheck,Bool.not_eq_true',← Bool.not_eq_true,
    h.unlocked_iff hcard]

theorem trylock (h : SpinInv T s t) {a : SpinAction ι} {s' : SpinState x ι}
    (ha : a=.lr i ∨ ∃ succeeds,a=.sc i succeeds) (hstep : spinStep s a=some (s',e)) :
    (.tried i true∈e → (∀ j,¬s.Holds j) ∧ s'.Holds i) ∧ (.tried i true∉e → s'.lock=s.lock) := by
  rcases ha with rfl | ⟨succeeds,rfl⟩
  · cases hpc : s.pc i <;> simp only [spinStep,hpc] at hstep
    case idle | retry =>
      cases hstep
      exact ⟨fun hm => absurd hm (List.not_mem_nil),fun _ => rfl⟩
    all_goals cases hstep
  · cases hpc : s.pc i <;> simp only [spinStep,hpc] at hstep
    case loaded l0 =>
      obtain ⟨hwait,w,rfl,hres⟩ : PcInv T s.lock i (s.reserved i) (.loaded l0) := hpc ▸ h.pcs i
      split_ifs at hstep with hbusy hsc
      · cases hstep
        rw [trylockRet_of_busy w hbusy]
        exact ⟨fun hm => by simp at hm,fun _ => rfl⟩
      · cases hstep
        rw [Bool.and_eq_true] at hsc
        obtain rfl := hres hsc.1
        have hret : trylockRet (0 : Word x)=true := by cases x <;> rfl
        rw [hret]
        refine ⟨fun _ => ⟨fun j hj => ?_,?_⟩,fun hm => by simp at hm⟩
        · rw [trylockBusy_loadWord,Bool.not_eq_true,← spinLockCheck,Bool.eq_false_iff] at hbusy
          exact hbusy ((h.check_iff hcard).mpr ⟨j,hj⟩)
        · rw [SpinState.Holds,SpinState.tried,hret,if_pos rfl,SpinState.goto_self]
          trivial
      · cases hstep
        exact ⟨fun hm => absurd hm (List.not_mem_nil),fun _ => rfl⟩
    all_goals cases hstep

theorem fair (h : SpinInv T s t) : FairLock s t where
  exclusive := by
    intro i j hi hj
    have h1 := (h.holds_iff hcard).mp hi
    have h2 := (h.holds_iff hcard).mp hj
    exact Option.some.inj (h1.2.symm.trans h2.2)
  inside := fun i hi => ⟨(h.holds_iff hcard).mpr ((h.pcs i).inside hi),_,h.grants_inside hi⟩
  outside := fun hout => (h.pending hout).trans h.releases.symm
  ordered := h.ordered
  numbers := by
    intro k e he
    rw [h.tickets,Turnstile.numbered,List.getElem?_mapIdx,Option.map_eq_some_iff] at he
    obtain ⟨i,-,rfl⟩ := he
    rfl
  outstanding := by
    rw [h.outstanding]
    exact ⟨T.nodup,fun i => (h.pcs i).mem_waiting_iff⟩
  check := h.check_iff hcard
  trylock := fun _ _ _ _ ha hstep => h.trylock hcard ha hstep

end SpinInv

omit [DecidableEq ι] in
theorem unlocked_inv : SpinInv Turnstile.empty (.unlocked x ι) [] where
  owner := rfl
  next := (by decide : SpinlockT.next SPIN_LOCK_UNLOCKED=0)
  pcs := fun i => List.not_mem_nil
  tickets := rfl
  releases := rfl
  granted := fun i hi => hi.elim
  pending := fun _ => rfl

/-- Fewer than 2^16 contenders, in any number of steps in any order. -/
theorem spinLock_fair [Fintype ι] (hcard : Fintype.card ι<2^16)
    (h : (spinMachine x ι).Run Machine.anyStep (.unlocked x ι) t s) : FairLock s t := by
  have hinv : ∃ T,SpinInv T s t := by
    apply h.traceInvariant (P := fun t s => ∃ T,SpinInv T s t)
    · rintro t s a s' e ⟨T,hT⟩ hstep -
      exact hT.step hcard hstep
    · exact ⟨_,unlocked_inv⟩
  obtain ⟨T,hT⟩ := hinv
  exact hT.fair hcard

end Steps

/-- Contender 1 tries the lock while contender 0 has it, then waits and gets it. -/
theorem spinLock_fair_handover : ∃ t s,
    (spinMachine .rv64 (Fin 2)).Run Machine.anyStep (.unlocked .rv64 (Fin 2)) t s ∧ FairLock s t ∧
    grantsOf t=[(0,0),(1,1)] := by
  have hreplay : ((spinMachine .rv64 (Fin 2)).replay (fun _ _ _ => true) (.unlocked .rv64 (Fin 2))
      [.amoadd 0,.spin 0,.lr 1,.sc 1 true,.amoadd 1,.unlockLoad 0,.unlockStore 0,.spin 1,.spin 1]).any
      (fun r => decide (grantsOf r.2=[(0,0),(1,1)]))=true := by
    decide +kernel
  obtain ⟨s,t,hrun,hgrants⟩ := Machine.exists_run (p := fun _ t => decide (grantsOf t=[(0,0),(1,1)]))
    hreplay
  have hany : (spinMachine .rv64 (Fin 2)).Run Machine.anyStep (.unlocked .rv64 (Fin 2)) t s :=
    hrun.mono fun _ _ _ _ => trivial
  exact ⟨t,s,hany,spinLock_fair (by decide) hany,of_decide_eq_true hgrants⟩

end OpenSBI
