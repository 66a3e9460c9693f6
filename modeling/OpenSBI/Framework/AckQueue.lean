import Mathlib.Data.Finset.Basic
import Mathlib.Data.Finset.Insert
import Mathlib.Logic.Function.Basic
import Mathlib.Tactic.Common
import OpenSBI.Framework.Transition

/-! # Acknowledged request queues

Every party owns a queue of requests. A request carries the set of parties to acknowledge when it
has been executed, and a party that entered a request waits for its acknowledgement before it
enters another one. Requests of several parties can be merged into one entry of a queue. -/

namespace OpenSBI.Framework

variable {ι : Type} [DecidableEq ι]

/-- The queues and flags of all parties. `taken` and `acking` belong to the entry a party copied
out of its queue, before and after its execution. -/
@[ext] structure AckQueues (ι : Type) where
  queue : ι → List (Finset ι)
  taken : ι → Finset ι
  acking : ι → Finset ι
  flag : ι → Bool
  waiting : ι → Option ι

inductive AckEvent (ι : Type) where
  | enter (a b : ι)
  | exec (b : ι) (m : Finset ι)
  | ack (b a : ι)
  | ret (a b : ι)
  deriving DecidableEq

namespace AckQueues

/-- The steps of the protocol: a request of `a` enters the queue of `b`, by a merge or as a new
entry; `b` copies its oldest entry out, executes it and acknowledges its parties one by one; `a`
consumes its acknowledgement. -/
inductive Step : AckQueues ι → List (AckEvent ι) → AckQueues ι → Prop where
  | merge {s : AckQueues ι} (a b : ι) (pre post : List (Finset ι)) (m : Finset ι)
      (hw : s.waiting a=none) (hq : s.queue b=pre++m::post) :
      Step s [.enter a b] { s with
        queue := Function.update s.queue b (pre++insert a m::post)
        waiting := Function.update s.waiting a (some b) }
  | push {s : AckQueues ι} (a b : ι) (hw : s.waiting a=none) :
      Step s [.enter a b] { s with
        queue := Function.update s.queue b (s.queue b++[{a}])
        waiting := Function.update s.waiting a (some b) }
  | take {s : AckQueues ι} (b : ι) (m : Finset ι) (rest : List (Finset ι))
      (hq : s.queue b=m::rest) (ht : s.taken b=∅) :
      Step s [] { s with
        queue := Function.update s.queue b rest
        taken := Function.update s.taken b m }
  | exec {s : AckQueues ι} (b : ι) (ha : s.acking b=∅) :
      Step s [.exec b (s.taken b)] { s with
        taken := Function.update s.taken b ∅
        acking := Function.update s.acking b (s.taken b) }
  | ack {s : AckQueues ι} (b a : ι) (ha : a∈s.acking b) (hf : s.flag a=false) :
      Step s [.ack b a] { s with
        acking := Function.update s.acking b ((s.acking b).erase a)
        flag := Function.update s.flag a true }
  | ret {s : AckQueues ι} (a b : ι) (hw : s.waiting a=some b) (hf : s.flag a=true) :
      Step s [.ret a b] { s with
        flag := Function.update s.flag a false
        waiting := Function.update s.waiting a none }

/-- The entries queued or held at `b` that will acknowledge `a`. -/
def tokens (s : AckQueues ι) (a b : ι) : Nat :=
  (s.queue b).countP (fun m => decide (a∈m))+(if a∈s.taken b then 1 else 0)+
    (if a∈s.acking b then 1 else 0)

/-- A waiting party has exactly one acknowledgement, set in its flag or due from the party it waits
for; a party that does not wait has none. -/
structure Balanced (s : AckQueues ι) : Prop where
  due : ∀ a b,s.tokens a b=if s.waiting a=some b ∧ s.flag a=false then 1 else 0
  clear : ∀ a,s.waiting a=none → s.flag a=false

variable {s s' : AckQueues ι} {ev : List (AckEvent ι)}

theorem Balanced.tokens_zero (h : Balanced s) {a : ι} (hw : s.waiting a=none) (b : ι) :
    s.tokens a b=0 := by
  rw [h.due,if_neg (by simp [hw])]

/-- An acknowledgement that is due finds the flag clear: acknowledging never blocks. -/
theorem Balanced.of_tokens (h : Balanced s) {a b : ι} (ht : s.tokens a b≠0) :
    s.waiting a=some b ∧ s.flag a=false ∧ s.tokens a b=1 := by
  have he := h.due a b
  split_ifs at he with hc
  · exact ⟨hc.1,hc.2,he⟩
  · exact absurd he ht

theorem tokens_of_queue {a b : ι} {m : Finset ι} (hm : m∈s.queue b) (ha : a∈m) :
    s.tokens a b≠0 := by
  have hpos : 0<(s.queue b).countP (fun m => decide (a∈m)) :=
    List.countP_pos_iff.mpr ⟨m,hm,by simpa using ha⟩
  unfold tokens
  omega

theorem tokens_of_taken {a b : ι} (ha : a∈s.taken b) : s.tokens a b≠0 := by
  unfold tokens
  rw [if_pos ha]
  omega

theorem tokens_of_acking {a b : ι} (ha : a∈s.acking b) : s.tokens a b≠0 := by
  unfold tokens
  rw [if_pos ha]
  omega

/-- Where the entry that will acknowledge `a` can be. -/
theorem mem_of_tokens {a b : ι} (h : s.tokens a b≠0) :
    (∃ m∈s.queue b,a∈m) ∨ a∈s.taken b ∨ a∈s.acking b := by
  by_contra hc
  simp only [not_or,not_exists,not_and] at hc
  obtain ⟨hq,ht,ha⟩ := hc
  refine h ?_
  unfold tokens
  rw [if_neg ht,if_neg ha,List.countP_eq_zero.mpr (by simpa using hq)]

/-- Entering a request puts one acknowledgement of `a` at `b`. -/
private theorem tokens_enter {a b c d : ι} {q : List (Finset ι)}
    (hq : ∀ c,q.countP (fun m => decide (c∈m))=
      (s.queue b).countP (fun m => decide (c∈m))+if c=a then 1 else 0) :
    tokens { s with
      queue := Function.update s.queue b q
      waiting := Function.update s.waiting a (some b) } c d=
        s.tokens c d+if c=a ∧ d=b then 1 else 0 := by
  unfold tokens
  by_cases hd : d=b
  · subst hd
    simp only [Function.update_self,hq,and_true]
    omega
  · simp only [Function.update_of_ne hd,hd,and_false,if_false,Nat.add_zero]

private theorem Balanced.enter (h : Balanced s) {a b : ι} {q : List (Finset ι)}
    (hw : s.waiting a=none)
    (hq : ∀ c,q.countP (fun m => decide (c∈m))=
      (s.queue b).countP (fun m => decide (c∈m))+if c=a then 1 else 0) :
    Balanced { s with
      queue := Function.update s.queue b q
      waiting := Function.update s.waiting a (some b) } where
  due c d := by
    rw [tokens_enter hq]
    by_cases hc : c=a
    · subst hc
      have hz := h.tokens_zero hw d
      have hf := h.clear c hw
      simp only [Function.update_self,hz,hf,true_and,and_true,Option.some.injEq,Nat.zero_add]
      simp only [eq_comm]
    · simp only [hc,false_and,if_false,Nat.add_zero,Function.update_of_ne hc]
      exact h.due c d
  clear c := by
    intro hn
    by_cases hc : c=a
    · subst hc; exact h.clear c hw
    · exact h.clear c (by simpa [Function.update_of_ne hc] using hn)

private theorem countP_insert_at (a : ι) (pre post : List (Finset ι)) (m : Finset ι) (ha : a∉m)
    (c : ι) : (pre++insert a m::post).countP (fun m => decide (c∈m))=
      (pre++m::post).countP (fun m => decide (c∈m))+if c=a then 1 else 0 := by
  simp only [List.countP_append,List.countP_cons,Finset.mem_insert]
  by_cases hc : c=a
  · subst hc
    simp [ha]
    omega
  · simp [hc]

/-- The books stay balanced. -/
theorem Balanced.step (h : Balanced s) (hs : Step s ev s') : Balanced s' := by
  cases hs with
  | merge a b pre post m hw hq =>
    refine h.enter hw (fun c => ?_)
    rw [hq]
    refine countP_insert_at a pre post m (fun ha => ?_) c
    exact tokens_of_queue (by rw [hq]; simp) ha (h.tokens_zero hw b)
  | push a b hw =>
    refine h.enter hw (fun c => ?_)
    simp [List.countP_append]
  | take b m rest hq ht =>
    refine ⟨fun c d => ?_,h.clear⟩
    rw [← h.due c d]
    unfold tokens
    by_cases hd : d=b
    · subst hd
      simp only [Function.update_self,hq,ht,List.countP_cons]
      simp
    · simp only [Function.update_of_ne hd]
  | exec b ha =>
    refine ⟨fun c d => ?_,h.clear⟩
    rw [← h.due c d]
    unfold tokens
    by_cases hd : d=b
    · subst hd
      simp only [Function.update_self,ha]
      simp
    · simp only [Function.update_of_ne hd]
  | ack b a ha hf =>
    obtain ⟨hw,-,hone⟩ := h.of_tokens (tokens_of_acking ha)
    refine ⟨fun c d => ?_,fun c hn => ?_⟩
    · have hold := h.due c d
      by_cases hc : c=a
      · subst hc
        by_cases hd : d=b
        · subst hd
          simp only [tokens,Function.update_self,ha,if_true,Finset.notMem_erase,if_false] at hone ⊢
          rw [if_neg (show ¬(s.waiting c=some d ∧ true=false) by simp)]
          omega
        · have hne : s.waiting c≠some d := by rw [hw]; simpa using fun he => hd he.symm
          simp only [hne,false_and,if_false] at hold ⊢
          rw [← hold]
          simp only [tokens,Function.update_of_ne hd]
      · simp only [Function.update_of_ne hc]
        rw [← hold]
        by_cases hd : d=b
        · subst hd
          simp only [tokens,Function.update_self,Finset.mem_erase,ne_eq,hc,not_false_eq_true,
            true_and]
        · simp only [tokens,Function.update_of_ne hd]
    · have hc : c≠a := fun he => by subst he; simp [hw] at hn
      dsimp only
      rw [Function.update_of_ne hc]
      exact h.clear c hn
  | ret a b hw hf =>
    refine ⟨fun c d => ?_,fun c hn => ?_⟩
    · have hold := h.due c d
      by_cases hc : c=a
      · subst hc
        simp only [hf,Bool.true_eq_false,and_false,if_false] at hold
        simp only [Function.update_self]
        exact hold
      · simp only [Function.update_of_ne hc]
        exact hold
    · dsimp only at hn ⊢
      by_cases hc : c=a
      · subst hc; rw [Function.update_self]
      · rw [Function.update_of_ne hc] at hn ⊢
        exact h.clear c hn

/-- Every entry has a party to acknowledge. -/
def Populated (s : AckQueues ι) : Prop := ∀ b,∀ m∈s.queue b,m.Nonempty

theorem Populated.step (h : Populated s) (hs : Step s ev s') : Populated s' := by
  intro d m hm
  cases hs with
  | merge a b pre post m0 hw hq =>
    by_cases hd : d=b
    · subst hd
      simp only [Function.update_self,List.mem_append,List.mem_cons] at hm
      rcases hm with hm | rfl | hm
      · exact h d m (by rw [hq]; simp [hm])
      · exact Finset.insert_nonempty a m0
      · exact h d m (by rw [hq]; simp [hm])
    · exact h d m (by simpa [Function.update_of_ne hd] using hm)
  | push a b hw =>
    by_cases hd : d=b
    · subst hd
      simp only [Function.update_self,List.mem_append,List.mem_singleton] at hm
      rcases hm with hm | rfl
      · exact h d m hm
      · exact Finset.singleton_nonempty a
    · exact h d m (by simpa [Function.update_of_ne hd] using hm)
  | take b m0 rest hq ht =>
    by_cases hd : d=b
    · subst hd
      simp only [Function.update_self] at hm
      exact h d m (by rw [hq]; exact List.mem_cons_of_mem _ hm)
    · exact h d m (by simpa [Function.update_of_ne hd] using hm)
  | exec b ha => exact h d m hm
  | ack b a ha hf => exact h d m hm
  | ret a b hw hf => exact h d m hm

/-- How far the current request of a party has come. -/
inductive Phase (ι : Type) where
  | idle
  | entered (b : ι)
  | executed (b : ι)
  | acked (b : ι)
  deriving DecidableEq

def phase (s : AckQueues ι) (a : ι) : Phase ι :=
  match s.waiting a with
  | none => .idle
  | some b => if s.flag a then .acked b else if a∈s.acking b then .executed b else .entered b

/-- The order of the events of one party: enter, execution of an entry that carries it, one
acknowledgement, return. -/
def advance (a : ι) (p : Phase ι) : AckEvent ι → Option (Phase ι)
  | .enter a' b => if a'=a then if p=.idle then some (.entered b) else none else some p
  | .exec b m => if a∈m then if p=.entered b then some (.executed b) else none else some p
  | .ack b a' => if a'=a then if p=.executed b then some (.acked b) else none else some p
  | .ret a' b => if a'=a then if p=.acked b then some .idle else none else some p

private theorem advance_one {a : ι} {p p' : Phase ι} {e : AckEvent ι}
    (h : advance a p e=some p') : [e].foldlM (advance a) p=some p' := by
  rw [List.foldlM_cons,h]
  rfl

private theorem phase_enter (h : Balanced s) {a b : ι} (q : ι → List (Finset ι))
    (hw : s.waiting a=none) (c : ι) :
    advance c (phase s c) (.enter a b)=
      some (phase { s with queue := q,waiting := Function.update s.waiting a (some b) } c) := by
  by_cases hc : a=c
  · subst hc
    have hacking : a∉s.acking b := fun ha => tokens_of_acking ha (h.tokens_zero hw b)
    simp [advance,phase,hw,h.clear a hw,hacking]
  · simp [advance,phase,hc,Function.update_of_ne (Ne.symm hc)]

/-- Every step moves every party along its phases. -/
theorem Balanced.phases (h : Balanced s) (hs : Step s ev s') (c : ι) :
    ev.foldlM (advance c) (phase s c)=some (phase s' c) := by
  cases hs with
  | merge a b pre post m hw hq => exact advance_one (phase_enter h _ hw c)
  | push a b hw => exact advance_one (phase_enter h _ hw c)
  | take b m rest hq ht => rfl
  | exec b ha =>
    refine advance_one ?_
    by_cases hc : c∈s.taken b
    · obtain ⟨hw,hf,-⟩ := h.of_tokens (tokens_of_taken hc)
      simp [advance,phase,hc,hw,hf,ha]
    · rw [advance,if_neg hc]
      unfold phase
      cases hw : s.waiting c with
      | none => rfl
      | some d =>
        by_cases hd : d=b
        · subst hd; simp [ha,hc]
        · simp [Function.update_of_ne hd]
  | ack b a ha hf =>
    refine advance_one ?_
    obtain ⟨hw,-,-⟩ := h.of_tokens (tokens_of_acking ha)
    by_cases hc : a=c
    · subst hc
      simp [advance,phase,hw,hf,ha]
    · rw [advance,if_neg hc]
      unfold phase
      cases hwc : s.waiting c with
      | none => rfl
      | some d =>
        by_cases hd : d=b
        · subst hd
          simp [Ne.symm hc]
        · simp [Function.update_of_ne (Ne.symm hc),Function.update_of_ne hd]
  | ret a b hw hf =>
    refine advance_one ?_
    by_cases hc : a=c
    · subst hc
      simp [advance,phase,hw,hf]
    · simp [advance,phase,hc,Function.update_of_ne (Ne.symm hc)]

/-- No event moves the request of `a`. -/
def Quiet (a : ι) (t : List (AckEvent ι)) : Prop := ∀ e∈t,∀ p,advance a p e=some p

/-- What the phase of a party says about the trace: the events since it last entered a request. -/
inductive Since (a : ι) : Phase ι → List (AckEvent ι) → Prop where
  | idle (t : List (AckEvent ι)) : Since a .idle t
  | entered (b : ι) (u v : List (AckEvent ι)) (hv : Quiet a v) :
      Since a (.entered b) (u++.enter a b::v)
  | executed (b : ι) (u v w : List (AckEvent ι)) (m : Finset ι) (ha : a∈m) (hv : Quiet a v)
      (hw : Quiet a w) : Since a (.executed b) (u++.enter a b::(v++.exec b m::w))
  | acked (b : ι) (u v w z : List (AckEvent ι)) (m : Finset ι) (ha : a∈m) (hv : Quiet a v)
      (hw : Quiet a w) (hz : Quiet a z) :
      Since a (.acked b) (u++.enter a b::(v++.exec b m::(w++.ack b a::z)))

theorem quiet_snoc {a : ι} {t : List (AckEvent ι)} {e : AckEvent ι} (h : Quiet a t)
    (he : ∀ p,advance a p e=some p) : Quiet a (t++[e]) := by
  intro e' hmem
  rcases List.mem_append.mp hmem with hm | hm
  · exact h e' hm
  · rw [List.mem_singleton.mp hm]; exact he

/-- Appending an event that does not concern the party. -/
theorem Since.quiet {a : ι} {p : Phase ι} {t : List (AckEvent ι)} {e : AckEvent ι}
    (h : Since a p t) (he : ∀ p,advance a p e=some p) : Since a p (t++[e]) := by
  cases h with
  | idle => exact .idle _
  | entered b u v hv => simpa using Since.entered b u _ (quiet_snoc hv he)
  | executed b u v w m ha hv hw => simpa using Since.executed b u v _ m ha hv (quiet_snoc hw he)
  | acked b u v w z m ha hv hw hz =>
    simpa using Since.acked b u v w _ m ha hv hw (quiet_snoc hz he)

theorem Since.advance {a : ι} {p p' : Phase ι} {t : List (AckEvent ι)} {e : AckEvent ι}
    (h : Since a p t) (he : advance a p e=some p') : Since a p' (t++[e]) := by
  have quiet : (∀ p,AckQueues.advance a p e=some p) → Since a p' (t++[e]) := by
    intro hq
    rw [hq p] at he
    exact Option.some.inj he ▸ h.quiet hq
  cases e with
  | enter a' b =>
    by_cases ha : a'=a
    · subst ha
      simp only [AckQueues.advance,if_true] at he
      split_ifs at he
      obtain rfl := Option.some.inj he
      exact .entered b t [] (by simp [Quiet])
    · exact quiet (fun p => by simp [AckQueues.advance,ha])
  | exec b m =>
    by_cases ha : a∈m
    · simp only [AckQueues.advance,ha,if_true] at he
      split_ifs at he with hp
      obtain rfl := Option.some.inj he
      subst hp
      cases h with
      | entered b u v hv => simpa using Since.executed b u v [] m ha hv (by simp [Quiet])
    · exact quiet (fun p => by simp [AckQueues.advance,ha])
  | ack b a' =>
    by_cases ha : a'=a
    · subst ha
      simp only [AckQueues.advance,if_true] at he
      split_ifs at he with hp
      obtain rfl := Option.some.inj he
      subst hp
      cases h with
      | executed b u v w m ha hv hw =>
        simpa using Since.acked b u v w [] m ha hv hw (by simp [Quiet])
    · exact quiet (fun p => by simp [AckQueues.advance,ha])
  | ret a' b =>
    by_cases ha : a'=a
    · subst ha
      simp only [AckQueues.advance,if_true] at he
      split_ifs at he
      obtain rfl := Option.some.inj he
      exact .idle _
    · exact quiet (fun p => by simp [AckQueues.advance,ha])

/-- Along a trace the phases account for, each phase tells what has happened. -/
theorem since_of_foldlM {a : ι} {t : List (AckEvent ι)} {p : Phase ι}
    (h : t.foldlM (advance a) .idle=some p) : Since a p t := by
  induction t using List.reverseRecOn generalizing p with
  | nil =>
    obtain rfl : Phase.idle=p := Option.some.inj h
    exact .idle []
  | append_singleton t e ih =>
    rw [List.foldlM_append] at h
    cases hp : t.foldlM (advance a) .idle with
    | none => simp [hp] at h
    | some q =>
      rw [hp] at h
      have he : advance a q e=some p := by simpa using h
      exact (ih hp).advance he

/-- A return of `a` from its request to `b` is preceded by the entering of the request, the
execution by `b` of an entry that carries `a`, and one acknowledgement, in this order. -/
theorem ret_preceded {a b : ι} {t1 t2 : List (AckEvent ι)} {p : Phase ι}
    (h : (t1++.ret a b::t2).foldlM (advance a) .idle=some p) : Since a (.acked b) t1 := by
  rw [List.foldlM_append] at h
  cases hq : t1.foldlM (advance a) .idle with
  | none => simp [hq] at h
  | some q =>
    rw [hq] at h
    have hs := since_of_foldlM hq
    by_cases hc : q=.acked b
    · exact hc ▸ hs
    · simp [advance,hc] at h

/-- Requests of `a` entered and acknowledged so far. -/
def enters (a : ι) (t : List (AckEvent ι)) : Nat :=
  t.countP (fun | .enter a' _ => decide (a'=a) | _ => false)

def acks (a : ι) (t : List (AckEvent ι)) : Nat :=
  t.countP (fun | .ack _ a' => decide (a'=a) | _ => false)

def rets (a : ι) (t : List (AckEvent ι)) : Nat :=
  t.countP (fun | .ret a' _ => decide (a'=a) | _ => false)

/-- Requests still to be acknowledged, and acknowledgements still to be consumed. -/
def Phase.unacked : Phase ι → Nat
  | .entered _ => 1
  | .executed _ => 1
  | _ => 0

def Phase.unreturned : Phase ι → Nat
  | .acked _ => 1
  | _ => 0

omit [DecidableEq ι] in
theorem Phase.unacked_add_unreturned_le (p : Phase ι) : p.unacked+p.unreturned≤1 := by
  cases p <;> simp [Phase.unacked,Phase.unreturned]

/-- Every request is acknowledged once, and every acknowledgement is consumed once. -/
theorem counts_of_foldlM {a : ι} {t : List (AckEvent ι)} {p : Phase ι}
    (h : t.foldlM (advance a) .idle=some p) :
    enters a t=acks a t+p.unacked ∧ acks a t=rets a t+p.unreturned := by
  induction t using List.reverseRecOn generalizing p with
  | nil =>
    obtain rfl : Phase.idle=p := Option.some.inj h
    exact ⟨rfl,rfl⟩
  | append_singleton t e ih =>
    rw [List.foldlM_append] at h
    cases hp : t.foldlM (advance a) .idle with
    | none => simp [hp] at h
    | some q =>
      rw [hp] at h
      have he : advance a q e=some p := by simpa using h
      obtain ⟨h1,h2⟩ := ih hp
      simp only [enters,acks,rets,List.countP_append,List.countP_singleton] at h1 h2 ⊢
      cases e <;> simp only [advance] at he <;> split_ifs at he with ha hq <;>
        obtain rfl := Option.some.inj he <;>
        simp_all [Phase.unacked,Phase.unreturned]

end AckQueues
end OpenSBI.Framework
