import OpenSBI.Riscv.SbiString
import OpenSBI.Domain.Sanitize
import OpenSBI.Framework.Arena
import OpenSBI.Framework.Transition

namespace OpenSBI

variable {x : Xlen}

/-- The eleven words of `struct sbi_scratch` come first. -/
def SBI_SCRATCH_EXTRA_SPACE_OFFSET (x : Xlen) : Nat := 11*sizeofPointer x
def SBI_SCRATCH_SIZE : Nat := 0x1000

/-- `hartid_to_scratch_table`, where 0 is NULL, `last_hartid_having_scratch`, `extra_offset`, and the
memory the scratch spaces lie in. -/
structure ScratchState (x : Xlen) where
  table : Nat → Word x
  lastHartid : Nat
  extraOffset : Word x
  mem : Mem x

/-- The static initialisers. -/
def ScratchState.boot (mem : Mem x) : ScratchState x where
  table _ := 0
  lastHartid := SBI_HARTMASK_MAX_BITS-1
  extraOffset := BitVec.ofNat x.bits (SBI_SCRATCH_EXTRA_SPACE_OFFSET x)
  mem := mem

/-- A round of `sbi_scratch_init()`, where `hartidToScratch` is the function of the firmware the
scratch space points to, with the hart index already looked up. -/
def scratchInitRound (plat : Platform) (hartidToScratch : Nat → Word x) (s : ScratchState x) (i : Nat) :
    ScratchState x :=
  if plat.hartInvalid i then s
  else
    { s with
      table := Function.update s.table i (hartidToScratch i)
      lastHartid := if hartidToScratch i≠0 then i else s.lastHartid }

/-- `sbi_scratch_init()`. -/
def sbiScratchInit (plat : Platform) (hartidToScratch : Nat → Word x) (s : ScratchState x) :
    ScratchState x :=
  (List.range SBI_HARTMASK_MAX_BITS).foldl (scratchInitRound plat hartidToScratch) s

/-- A round of the loop that clears a new range in every scratch space. -/
def clearRound (s : ScratchState x) (offset : Word x) (size : Nat) (mem : Mem x) (i : Nat) : Mem x :=
  if s.table i=0 then mem else sbiMemset mem (s.table i+offset) 0 size

def clearRange (s : ScratchState x) (offset : Word x) (size : Nat) : Mem x :=
  (List.range (s.lastHartid+1)).foldl (clearRound s offset size) s.mem

/-- The size in whole pointers. -/
def roundSize (size : Word x) : Word x :=
  let mask : Word x := BitVec.ofNat x.bits (sizeofPointer x-1)
  if size &&& mask≠0 then (size &&& ~~~mask)+BitVec.ofNat x.bits (sizeofPointer x) else size

/-- `sbi_scratch_alloc_offset()`. -/
def sbiScratchAllocOffset (size : Word x) (s : ScratchState x) : Word x×ScratchState x :=
  if size=0 then (0,s)
  else if SBI_SCRATCH_SIZE<(s.extraOffset+roundSize size).toNat then (0,s)
  else if s.extraOffset=0 then (0,{ s with extraOffset := s.extraOffset+roundSize size })
  else (s.extraOffset,{ s with
    extraOffset := s.extraOffset+roundSize size
    mem := clearRange s s.extraOffset (roundSize size).toNat })

/-! ## Histories -/

/-- A request, or a write of the code that uses the memory. -/
inductive ScratchAction (x : Xlen) where
  | alloc (size : Word x)
  | store (addr : Word x) (byte : BitVec 8)

/-- A call, its result, and the memory around it. -/
structure AllocCall (x : Xlen) where
  size : Word x
  ret : Word x
  before : Mem x
  after : Mem x

def scratchMachine (x : Xlen) : Framework.Machine (ScratchState x) (ScratchAction x) (AllocCall x) where
  step s a := match a with
    | .alloc size =>
      let r := sbiScratchAllocOffset size s
      some (r.2,[⟨size,r.1,s.mem,r.2.mem⟩])
    | .store addr byte => some ({ s with mem := Function.update s.mem addr byte },[])

namespace AllocCall

def Granted (e : AllocCall x) : Prop := e.ret≠0

instance (e : AllocCall x) : Decidable e.Granted := inferInstanceAs (Decidable (_≠_))

/-- The bytes a request takes up, as a number that cannot overflow. -/
def span (e : AllocCall x) : Nat := Framework.roundUp (sizeofPointer x) e.size.toNat

/-- The block of a call that was granted. -/
def block (e : AllocCall x) : Nat×Nat := (e.ret.toNat,e.span)

end AllocCall

/-- How far the calls of a history have come; those that were refused do not count. -/
def usedUp (t : List (AllocCall x)) : Nat :=
  SBI_SCRATCH_EXTRA_SPACE_OFFSET x+((t.filter fun e => e.Granted).map AllocCall.span).sum

/-- What a call owes after the history `t`, with `table` the scratch spaces of the harts. -/
structure CallOk (table : Nat → Word x) (t : List (AllocCall x)) (e : AllocCall x) : Prop where
  granted : e.Granted ↔ e.size≠0 ∧ usedUp t+e.span ≤ SBI_SCRATCH_SIZE
  aligned : e.Granted → sizeofPointer x∣e.ret.toNat
  within : e.Granted → SBI_SCRATCH_EXTRA_SPACE_OFFSET x ≤ e.ret.toNat ∧
    e.ret.toNat+e.size.toNat ≤ SBI_SCRATCH_SIZE
  apart : e.Granted → ∀ f∈t,f.Granted → f.ret.toNat+f.size.toNat ≤ e.ret.toNat
  zero : e.Granted → ∀ h,table h≠0 → ∀ j<e.size.toNat,e.after (offsetPtr (table h+e.ret) j)=0
  kept : ¬e.Granted → e.after=e.before

/-- Every call of a history meets what it owes. -/
def CallsOk (table : Nat → Word x) (t : List (AllocCall x)) : Prop :=
  ∀ t1 e t2,t=t1++e::t2 → CallOk table t1 e

/-- Neither the size rounded up nor the end of the new range passes the width of a word. -/
def NoWrap (s : ScratchState x) (a : ScratchAction x) (_ : ScratchState x) : Prop :=
  match a with
  | .alloc size => s.extraOffset.toNat+Framework.roundUp (sizeofPointer x) size.toNat<2^x.bits
  | .store _ _ => True

/-! ## The scratch spaces -/

/-- No hart above `last_hartid_having_scratch` has a scratch space. -/
def LastBounds (s : ScratchState x) : Prop := ∀ h,s.table h≠0 → h ≤ s.lastHartid

theorem sbiScratchInit_lastBounds (plat : Platform) (hartidToScratch : Nat → Word x) (mem : Mem x) :
    LastBounds (sbiScratchInit plat hartidToScratch (.boot mem)) := by
  -- after `n` rounds the entries from `n` on are still NULL
  suffices h : ∀ n i,
      ((List.range n).foldl (scratchInitRound plat hartidToScratch) (.boot mem)).table i≠0 → i<n ∧
      i ≤ ((List.range n).foldl (scratchInitRound plat hartidToScratch) (.boot mem)).lastHartid from
    fun i hi => (h _ i hi).2
  intro n
  induction n with
  | zero => exact fun i hi => absurd rfl hi
  | succ n ih =>
    intro i hi
    rw [List.range_succ,List.foldl_append,List.foldl_cons,List.foldl_nil,scratchInitRound] at hi ⊢
    split at hi
    next hinv =>
      rw [if_pos hinv]
      have h := ih i hi
      exact ⟨by omega,h.2⟩
    next hinv =>
      rw [if_neg hinv]
      dsimp only at hi ⊢
      by_cases he : i=n
      · subst he
        rw [Function.update_self] at hi
        rw [if_pos hi]
        exact ⟨by omega,le_refl i⟩
      · rw [Function.update_of_ne he] at hi
        have h := ih i hi
        refine ⟨by omega,?_⟩
        split
        · omega
        · exact h.2

/-- The range is zero in every scratch space up to `last_hartid_having_scratch`. -/
theorem clearRange_zero (s : ScratchState x) (offset : Word x) (size : Nat) {h j : Nat}
    (hl : h ≤ s.lastHartid) (ht : s.table h≠0) (hj : j<size) :
    clearRange s offset size (offsetPtr (s.table h+offset) j)=0 := by
  suffices hn : ∀ n,h<n → (List.range n).foldl (clearRound s offset size) s.mem
      (offsetPtr (s.table h+offset) j)=0 from hn _ (Nat.lt_succ_of_le hl)
  intro n
  induction n with
  | zero => exact fun h0 => absurd h0 (Nat.not_lt_zero h)
  | succ n ih =>
    intro hlt
    rw [List.range_succ,List.foldl_append,List.foldl_cons,List.foldl_nil,clearRound]
    by_cases he : h=n
    · subst he
      rw [if_neg ht,sbiMemset_at _ _ _ hj]
    · split
      · exact ih (by omega)
      · exact sbiMemset_keeps _ _ _ _ (ih (by omega))

/-! ## The arithmetic of a call -/

theorem and_not_mask {n : Nat} (a : BitVec n) (k : Nat) :
    (a &&& ~~~BitVec.ofNat n (2^k-1)).toNat=a.toNat-a.toNat%2^k := by
  have hd : a.toNat-a.toNat%2^k=2^k*(a.toNat/2^k) := by
    have hm := Nat.div_add_mod a.toNat (2^k)
    omega
  rw [hd]
  apply Nat.eq_of_testBit_eq
  intro i
  rw [← BitVec.getLsbD,BitVec.getLsbD_and,BitVec.getLsbD_not,BitVec.getLsbD_ofNat,
    Nat.testBit_two_pow_sub_one,Nat.testBit_two_pow_mul,Nat.testBit_div_two_pow]
  by_cases hk : k ≤ i
  · rw [Nat.sub_add_cancel hk,← BitVec.getLsbD]
    by_cases hi : i<n
    · simp [hk,hi]
    · simp [hi,BitVec.getLsbD_of_ge a i (not_lt.mp hi)]
  · simp [hk,not_le.mp hk]

theorem sizeofPointer_pow (x : Xlen) : ∃ k,sizeofPointer x=2^k := by
  cases x
  · exact ⟨2,rfl⟩
  · exact ⟨3,rfl⟩

theorem roundSize_toNat (size : Word x) :
    (roundSize size).toNat=Framework.roundUp (sizeofPointer x) size.toNat%2^x.bits := by
  obtain ⟨k,hk⟩ := sizeofPointer_pow x
  have hb : 2^k-1<2^x.bits := by
    rw [← hk]
    cases x <;> decide
  have hm : (size &&& BitVec.ofNat x.bits (2^k-1)).toNat=size.toNat%2^k := by
    rw [BitVec.toNat_and,BitVec.toNat_ofNat,Nat.mod_eq_of_lt hb,Nat.and_two_pow_sub_one_eq_mod]
  have h0 : size &&& BitVec.ofNat x.bits (2^k-1)=0 ↔ size.toNat%2^k=0 := by
    rw [← hm,← BitVec.toNat_inj]
    simp
  unfold roundSize Framework.roundUp
  dsimp only
  rw [hk]
  by_cases hz : size.toNat%2^k=0
  · rw [if_neg (not_not.mpr (h0.mpr hz)),if_pos hz,Nat.mod_eq_of_lt size.isLt]
  · rw [if_pos (fun h => hz (h0.mp h)),if_neg hz,BitVec.toNat_add,and_not_mask,BitVec.toNat_ofNat,
      Nat.add_mod_mod]

theorem sizeofPointer_pos (x : Xlen) : 0<sizeofPointer x := by cases x <;> decide

theorem sizeofPointer_dvd (x : Xlen) : sizeofPointer x∣2^x.bits := by cases x <;> decide

theorem extraSpace_le (x : Xlen) : SBI_SCRATCH_EXTRA_SPACE_OFFSET x ≤ SBI_SCRATCH_SIZE := by
  cases x <;> decide

theorem scratchSize_lt (x : Xlen) : SBI_SCRATCH_SIZE+sizeofPointer x<2^x.bits := by cases x <;> decide

/-! ## The allocator behind the arithmetic -/

/-- The extra space of a scratch area. -/
abbrev ScratchArena (x : Xlen) :=
  Framework.Arena (SBI_SCRATCH_EXTRA_SPACE_OFFSET x) SBI_SCRATCH_SIZE (sizeofPointer x)

/-- After the history `t` the state holds the arena `a`. -/
structure Follows (table : Nat → Word x) (t : List (AllocCall x)) (s : ScratchState x)
    (a : ScratchArena x) : Prop where
  table : s.table=table
  last : LastBounds s
  top : s.extraOffset.toNat=a.top
  blocks : (t.filter fun e => e.Granted).map AllocCall.block=a.blocks.reverse

section Calls

variable {table : Nat → Word x} {t : List (AllocCall x)} {s : ScratchState x} {a : ScratchArena x}

theorem Follows.usedUp_eq (h : Follows table t s a) : usedUp t=a.top := by
  have hs : (t.filter fun e => e.Granted).map AllocCall.span=(a.blocks.map Prod.snd).reverse := by
    rw [← List.map_reverse,← h.blocks,List.map_map]
    rfl
  rw [usedUp,hs,List.sum_reverse,a.top_eq]

theorem Follows.extraOffset_ne (h : Follows table t s a) : s.extraOffset≠0 := by
  intro h0
  have ht := h.top
  have hl := a.le_top
  have he : 0<SBI_SCRATCH_EXTRA_SPACE_OFFSET x := by cases x <;> decide
  rw [h0] at ht
  simp at ht
  omega

/-- While nothing wraps a call is a request to the arena. -/
theorem sbiScratchAllocOffset_of_noWrap (h : Follows table t s a) {size : Word x} (hz : size≠0)
    (hn : s.extraOffset.toNat+Framework.roundUp (sizeofPointer x) size.toNat<2^x.bits) :
    (s.extraOffset+roundSize size).toNat=a.top+Framework.roundUp (sizeofPointer x) size.toNat ∧
    sbiScratchAllocOffset size s=if (a.alloc size.toNat).isSome then
      (s.extraOffset,{ s with
        extraOffset := s.extraOffset+roundSize size
        mem := clearRange s s.extraOffset (roundSize size).toNat }) else (0,s) := by
  have hr : (roundSize size).toNat=Framework.roundUp (sizeofPointer x) size.toNat := by
    rw [roundSize_toNat,Nat.mod_eq_of_lt (by omega)]
  have he : (s.extraOffset+roundSize size).toNat=
      a.top+Framework.roundUp (sizeofPointer x) size.toNat := by
    rw [BitVec.toNat_add,hr,Nat.mod_eq_of_lt hn,h.top]
  refine ⟨he,?_⟩
  rw [sbiScratchAllocOffset,if_neg hz,he]
  simp only [a.alloc_isSome,if_neg h.extraOffset_ne]
  by_cases hf : a.top+Framework.roundUp (sizeofPointer x) size.toNat ≤ SBI_SCRATCH_SIZE
  · rw [if_neg (not_lt.mpr hf),if_pos hf]
  · rw [if_pos (not_le.mp hf),if_neg hf]

/-- A request whose arithmetic wraps is granted a range that ends outside the space. -/
theorem not_within_of_wrap (h : Follows table t s a) {size : Word x} (hz : size≠0)
    (hn : 2^x.bits ≤ s.extraOffset.toNat+Framework.roundUp (sizeofPointer x) size.toNat) :
    (sbiScratchAllocOffset size s).1≠0 ∧
    SBI_SCRATCH_SIZE<(sbiScratchAllocOffset size s).1.toNat+size.toNat := by
  have htop := h.top
  have hle := a.top_le
  have hlt := Framework.roundUp_lt (sizeofPointer_pos x) size.toNat
  have hw := scratchSize_lt x
  have hr := Framework.roundUp_le size.isLt.le (sizeofPointer_dvd x)
  have he : (s.extraOffset+roundSize size).toNat ≤ SBI_SCRATCH_SIZE := by
    rw [BitVec.toNat_add,roundSize_toNat,Nat.add_mod_mod,Nat.mod_eq_sub_mod hn,Nat.mod_eq_of_lt] <;> omega
  rw [sbiScratchAllocOffset,if_neg hz,if_neg (not_lt.mpr he),if_neg h.extraOffset_ne]
  exact ⟨h.extraOffset_ne,by dsimp only; omega⟩

theorem sbiScratchInit_extraOffset (plat : Platform) (hartidToScratch : Nat → Word x)
    (s : ScratchState x) : (sbiScratchInit plat hartidToScratch s).extraOffset=s.extraOffset := by
  have h : ∀ l : List Nat,∀ s : ScratchState x,
      (l.foldl (scratchInitRound plat hartidToScratch) s).extraOffset=s.extraOffset := by
    intro l
    induction l with
    | nil => exact fun _ => rfl
    | cons i l ih =>
      intro s
      rw [List.foldl_cons,ih,scratchInitRound]
      split <;> rfl
  exact h _ s

theorem follows_init (plat : Platform) (hartidToScratch : Nat → Word x) (mem : Mem x) :
    Follows (sbiScratchInit plat hartidToScratch (.boot mem)).table []
      (sbiScratchInit plat hartidToScratch (.boot mem)) (.empty (extraSpace_le x)) := by
  refine ⟨rfl,sbiScratchInit_lastBounds plat hartidToScratch mem,?_,rfl⟩
  rw [sbiScratchInit_extraOffset]
  cases x <;> rfl

theorem Follows.refused (h : Follows table t s a) {e : AllocCall x} (he : ¬e.Granted) :
    Follows table (t++[e]) s a := by
  refine ⟨h.table,h.last,h.top,?_⟩
  rw [List.filter_append]
  simpa [he] using h.blocks

/-- The block of every granted call is one of the arena's. -/
theorem Follows.block_mem (h : Follows table t s a) {e : AllocCall x} (he : e∈t) (hg : e.Granted) :
    e.block∈a.blocks := by
  rw [← List.mem_reverse,← h.blocks]
  exact List.mem_map_of_mem (List.mem_filter.mpr ⟨he,by simpa using hg⟩)

theorem callOk_refused (h : Follows table t s a) {e : AllocCall x} (he : ¬e.Granted)
    (hm : e.after=e.before) (hno : e.size≠0 → ¬(a.alloc e.size.toNat).isSome=true) :
    CallOk table t e := by
  refine ⟨⟨fun hg => absurd hg he,fun hf => ?_⟩,fun hg => absurd hg he,fun hg => absurd hg he,
    fun hg => absurd hg he,fun hg => absurd hg he,fun _ => hm⟩
  rw [h.usedUp_eq] at hf
  exact absurd ((a.alloc_isSome _).mpr hf.2) (hno hf.1)

/-- The call that is given the top of the arena. -/
theorem granted_step (h : Follows table t s a) {b : ScratchArena x} {e : AllocCall x}
    (hz : e.size≠0) (hb : a.alloc e.size.toNat=some b) (hret : e.ret=s.extraOffset)
    (hafter : e.after=clearRange s s.extraOffset (roundSize e.size).toNat)
    (hn : s.extraOffset.toNat+e.span<2^x.bits) :
    Follows table (t++[e])
      { s with extraOffset := s.extraOffset+roundSize e.size,mem := e.after } b ∧
    CallOk table t e := by
  have hg : e.Granted := by
    rw [AllocCall.Granted,hret]
    exact h.extraOffset_ne
  have hr : (roundSize e.size).toNat=e.span := by
    rw [roundSize_toNat,Nat.mod_eq_of_lt (by rw [AllocCall.span] at hn; omega)]
    rfl
  have htop : e.ret.toNat=a.top := by rw [hret,h.top]
  have hfit : a.top+e.span ≤ SBI_SCRATCH_SIZE := (a.alloc_isSome _).mp (by rw [hb]; rfl)
  have hle : e.size.toNat ≤ e.span := Framework.le_roundUp (sizeofPointer_pos x) _
  obtain ⟨hblocks,hbtop⟩ := Framework.Arena.blocks_alloc hb
  constructor
  · refine ⟨h.table,h.last,?_,?_⟩
    · rw [BitVec.toNat_add,hr,Nat.mod_eq_of_lt hn,h.top,hbtop]
      rfl
    · rw [List.filter_append,List.map_append,h.blocks,hblocks,List.reverse_cons]
      simp only [hg,decide_true,List.filter_cons_of_pos,List.filter_nil,List.map_cons,List.map_nil,
        AllocCall.block,htop]
      rfl
  · refine ⟨⟨fun _ => ⟨hz,?_⟩,fun _ => hg⟩,fun _ => ?_,fun _ => ⟨?_,?_⟩,fun _ f hf hfg => ?_,
      fun _ k hk j hj => ?_,fun hng => absurd hg hng⟩
    · rw [h.usedUp_eq]
      exact hfit
    · rw [htop]
      exact a.dvd_top (Nat.dvd_mul_left _ _)
    · rw [htop]
      exact a.le_top
    · omega
    · have hbl := a.blocks_le_top _ (h.block_mem hf hfg)
      have hfl : f.size.toNat ≤ f.span := Framework.le_roundUp (sizeofPointer_pos x) _
      simp only [AllocCall.block] at hbl
      omega
    · rw [hafter,hret,← h.table]
      rw [← h.table] at hk
      exact clearRange_zero s _ _ (h.last k hk) hk (by omega)

/-- The call as the trace records it. -/
def allocCall (size : Word x) (s : ScratchState x) : AllocCall x :=
  ⟨size,(sbiScratchAllocOffset size s).1,s.mem,(sbiScratchAllocOffset size s).2.mem⟩

/-- A call that does not wrap does what it owes, and the next state holds the next arena. -/
theorem call_step (h : Follows table t s a) {size : Word x}
    (hn : s.extraOffset.toNat+Framework.roundUp (sizeofPointer x) size.toNat<2^x.bits) :
    (∃ b,Follows table (t++[allocCall size s]) (sbiScratchAllocOffset size s).2 b) ∧
    CallOk table t (allocCall size s) := by
  by_cases hz : size=0
  · have hs : sbiScratchAllocOffset size s=(0,s) := by rw [sbiScratchAllocOffset,if_pos hz]
    have he : ¬(allocCall size s).Granted := by simp [AllocCall.Granted,allocCall,hs]
    refine ⟨⟨a,?_⟩,callOk_refused h he (by simp [allocCall,hs]) fun hne => absurd hz hne⟩
    rw [hs]
    exact h.refused he
  obtain ⟨-,hs⟩ := sbiScratchAllocOffset_of_noWrap h hz hn
  cases hb : a.alloc size.toNat with
  | none =>
    rw [hb] at hs
    have he : ¬(allocCall size s).Granted := by simp [AllocCall.Granted,allocCall,hs]
    refine ⟨⟨a,?_⟩,callOk_refused h he (by simp [allocCall,hs]) fun _ => by simp [allocCall,hb]⟩
    rw [hs]
    exact h.refused he
  | some b =>
    rw [hb] at hs
    obtain ⟨hf,hc⟩ := granted_step (e := allocCall size s) h hz hb (by simp [allocCall,hs])
      (by simp [allocCall,hs]) hn
    refine ⟨⟨b,?_⟩,hc⟩
    have hnext : (sbiScratchAllocOffset size s).2={ s with
        extraOffset := s.extraOffset+roundSize size,mem := (allocCall size s).after } := by
      simp [allocCall,hs]
    rw [hnext]
    exact hf

/-- So a call that does what it owes did not wrap. -/
theorem noWrap_of_callOk (h : Follows table t s a) {size : Word x}
    (hc : CallOk table t (allocCall size s)) :
    s.extraOffset.toNat+Framework.roundUp (sizeofPointer x) size.toNat<2^x.bits := by
  by_contra hn
  have hz : size≠0 := by
    intro hz
    have htop := h.top
    have hle := a.top_le
    have hw := scratchSize_lt x
    rw [hz] at hn
    simp [Framework.roundUp] at hn
    omega
  obtain ⟨hg,hout⟩ := not_within_of_wrap h hz (not_lt.mp hn)
  exact absurd (hc.within hg).2 (not_le.mpr hout)

end Calls

/-! ## Whole histories -/

section Histories

variable {table : Nat → Word x} {t : List (AllocCall x)} {s0 s : ScratchState x}

theorem callsOk_append {t1 t2 : List (AllocCall x)} (h : CallsOk table (t1++t2)) : CallsOk table t1 :=
  fun u e v he => h u e (v++t2) (by rw [he,List.append_assoc,List.cons_append])

theorem callsOk_snoc {e : AllocCall x} (h : CallsOk table t) (he : CallOk table t e) :
    CallsOk table (t++[e]) := by
  intro t1 f t2 heq
  rcases List.eq_nil_or_concat t2 with rfl | ⟨t3,g,rfl⟩
  · obtain ⟨rfl,hf⟩ := List.append_inj' heq rfl
    cases hf
    exact he
  · rw [List.concat_eq_append,← List.cons_append,← List.append_assoc] at heq
    obtain ⟨rfl,-⟩ := List.append_inj' heq rfl
    exact h t1 f t3 rfl

/-- What a run without a wrap keeps. -/
theorem run_follows {a0 : ScratchArena x} (h0 : Follows table [] s0 a0)
    (h : (scratchMachine x).Run NoWrap s0 t s) :
    (∃ a,Follows table t s a) ∧ CallsOk table t := by
  refine h.traceInvariant (P := fun t s => (∃ a,Follows table t s a) ∧ CallsOk table t) ?_
    ⟨⟨a0,h0⟩,fun t1 e t2 he => by simp at he⟩
  rintro t s act s' ev ⟨⟨a,ha⟩,hc⟩ hstep hn
  cases act with
  | alloc size =>
    cases hstep
    obtain ⟨hf,hok⟩ := call_step ha hn
    exact ⟨hf,callsOk_snoc hc hok⟩
  | store addr byte =>
    cases hstep
    rw [List.append_nil]
    exact ⟨⟨a,ha.table,ha.last,ha.top,ha.blocks⟩,hc⟩

theorem noWrap_of_callsOk {a0 : ScratchArena x} (h0 : Follows table [] s0 a0)
    (h : (scratchMachine x).Run Framework.Machine.anyStep s0 t s) (hc : CallsOk table t) :
    (scratchMachine x).Run NoWrap s0 t s := by
  induction h with
  | nil => exact .nil
  | @snoc t s1 s2 act ev hrun hstep _ ih =>
    have hr := ih (callsOk_append hc)
    obtain ⟨⟨a,ha⟩,-⟩ := run_follows h0 hr
    refine hr.snoc hstep ?_
    cases act with
    | alloc size =>
      cases hstep
      exact noWrap_of_callOk ha (hc t (allocCall size s1) [] rfl)
    | store addr byte => trivial

/-- In a history from boot every call does what it owes if and only if none of them wraps. -/
theorem sbiScratchAllocOffset_ok_iff (plat : Platform) (hartidToScratch : Nat → Word x) (mem : Mem x)
    (t : List (AllocCall x)) (s : ScratchState x)
    (h : (scratchMachine x).Run Framework.Machine.anyStep
      (sbiScratchInit plat hartidToScratch (.boot mem)) t s) :
    CallsOk (sbiScratchInit plat hartidToScratch (.boot mem)).table t ↔
      (scratchMachine x).Run NoWrap (sbiScratchInit plat hartidToScratch (.boot mem)) t s :=
  ⟨noWrap_of_callsOk (follows_init plat hartidToScratch mem) h,
    fun hr => (run_follows (follows_init plat hartidToScratch mem) hr).2⟩

/-- The first 16 bytes after boot. -/
theorem sbiScratchAllocOffset_ok_first :
    CallsOk (sbiScratchInit anyHart (fun _ => 0x80000000) (.boot fun _ => 1) : ScratchState .rv64).table
      [allocCall 16 (sbiScratchInit anyHart (fun _ => 0x80000000) (.boot fun _ => 1))] := by
  have hr : (scratchMachine .rv64).Run NoWrap
      (sbiScratchInit anyHart (fun _ => 0x80000000) (.boot fun _ => 1)) _ _ :=
    .single (a := .alloc 16) rfl (by rw [NoWrap,sbiScratchInit_extraOffset]; decide)
  exact (sbiScratchAllocOffset_ok_iff anyHart (fun _ => 0x80000000) (fun _ => 1) _ _
    (hr.mono fun _ _ _ _ => trivial)).mpr hr

/-- A request for 2^64-1 bytes is granted a range of none. -/
theorem sbiScratchAllocOffset_wraps :
    ¬CallsOk (sbiScratchInit anyHart (fun _ => 0x80000000) (.boot fun _ => 1) : ScratchState .rv64).table
      [allocCall 0xffffffffffffffff (sbiScratchInit anyHart (fun _ => 0x80000000) (.boot fun _ => 1))] := by
  intro h
  have hn := noWrap_of_callOk (follows_init anyHart _ _) (h [] _ [] rfl)
  rw [sbiScratchInit_extraOffset] at hn
  exact absurd hn (by decide)

end Histories
end OpenSBI
