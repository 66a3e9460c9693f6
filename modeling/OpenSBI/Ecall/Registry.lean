import OpenSBI.Framework.LinkedRing
import OpenSBI.Framework.Transition
import OpenSBI.Riscv.Xlen
import OpenSBI.Riscv.Error
import Mathlib.Data.Set.BooleanAlgebra
import Mathlib.Order.CompletePartialOrder

namespace OpenSBI

open Framework

variable {x : Xlen} {π : Type} [DecidableEq π]

/-! ## The list -/

section List

variable {ν : Type} [DecidableEq ν] (L : Links ν)

/-- `SBI_INIT_LIST_HEAD()`. -/
def sbiInitListHead (ptr : ν) : Links ν := L.alone ptr

/-- `__sbi_list_add()`. -/
def sbiListAddBetween (new prev next : ν) : Links ν := L.between new prev next

/-- `sbi_list_add_tail()`. -/
def sbiListAddTail (new tnode : ν) : Links ν := sbiListAddBetween L new (L.prev tnode) tnode

/-- `__sbi_list_del()`. -/
def sbiListDelBetween (prev next : ν) : Links ν := L.join prev next

/-- `sbi_list_del_init()`. -/
def sbiListDelInit (entry : ν) : Links ν :=
  sbiInitListHead (sbiListDelBetween L (L.prev entry) (L.next entry)) entry

end List

/-! ## The extensions -/

/-- `struct sbi_ecall_extension` without its list head; `handle` tells whether the pointer is not NULL. -/
structure EcallExtension (x : Xlen) where
  extidStart : Word x
  extidEnd : Word x
  handle : Bool

/-- `ecall_exts_list`, or the list head of the extension at a pointer. -/
inductive EcallNode (π : Type) where
  | list
  | ext (p : π)
  deriving DecidableEq

/-- `sbi_list_entry()` of a node the loop stopped at. -/
def EcallNode.entry : EcallNode π → Option π
  | .list => none
  | .ext p => some p

structure EcallRegistry (x : Xlen) (π : Type) where
  exts : π → EcallExtension x
  links : Links (EcallNode π)

/-- The static initialiser of `ecall_exts_list`. -/
def EcallRegistry.boot (exts : π → EcallExtension x) (links : Links (EcallNode π)) : EcallRegistry x π :=
  ⟨exts,sbiInitListHead links .list⟩

/-- `sbi_list_for_each_entry()` up to the first extension that satisfies `p`, in at most `fuel` rounds. -/
def EcallRegistry.forEachEntry (s : EcallRegistry x π) (fuel : Nat) (p : π → Bool) : Option (Option π) :=
  (s.links.search .list (fun node => node.entry.any p) fuel (s.links.next .list)).map
    fun o => o.bind EcallNode.entry

/-- `sbi_ecall_find_extension()`. -/
def sbiEcallFindExtension (fuel : Nat) (s : EcallRegistry x π) (extid : Word x) : Option (Option π) :=
  s.forEachEntry fuel fun t => decide ((s.exts t).extidStart ≤ extid ∧ extid ≤ (s.exts t).extidEnd)

/-- `sbi_ecall_register_extension()`, where `none` is NULL. -/
def sbiEcallRegisterExtension (fuel : Nat) (s : EcallRegistry x π) :
    Option π → Option (EcallRegistry x π×Int)
  | none => some (s,SBI_EINVAL)
  | some ext =>
    let e := s.exts ext
    if e.extidEnd<e.extidStart ∨ e.handle=false then some (s,SBI_EINVAL)
    else do
      let overlap ← s.forEachEntry fuel fun t =>
        !decide ((s.exts t).extidEnd<e.extidStart ∨ e.extidEnd<(s.exts t).extidStart)
      if overlap.isSome then some (s,SBI_EINVAL)
      else some ({ s with links := sbiListAddTail (sbiInitListHead s.links (.ext ext)) (.ext ext) .list },0)

/-- `sbi_ecall_unregister_extension()`. -/
def sbiEcallUnregisterExtension (fuel : Nat) (s : EcallRegistry x π) : Option π → Option (EcallRegistry x π)
  | none => some s
  | some ext => do
    let found ← s.forEachEntry fuel fun t => decide (t=ext)
    if found.isSome then some { s with links := sbiListDelInit s.links (.ext ext) } else some s

/-- The calls, and the owner of an extension that is not on the list fills it in. -/
inductive RegistryAction (x : Xlen) (π : Type) where
  | register (ext : Option π)
  | unregister (ext : Option π)
  | fill (ext : π) (e : EcallExtension x)

/-- What a call of `sbi_ecall_register_extension()` returned. -/
structure RegistryEvent (π : Type) where
  ext : Option π
  ret : Int

/-- Every action comes with the number of rounds its loop may take. -/
def registryMachine (x : Xlen) (π : Type) [DecidableEq π] :
    Machine (EcallRegistry x π) (Nat×RegistryAction x π) (RegistryEvent π) where
  step s a := match a.2 with
    | .register ext => (sbiEcallRegisterExtension a.1 s ext).map fun r => (r.1,[⟨ext,r.2⟩])
    | .unregister ext => (sbiEcallUnregisterExtension a.1 s ext).map fun s' => (s',[])
    | .fill ext e =>
      if s.forEachEntry a.1 (fun t => decide (t=ext))=some none then
        some ({ s with exts := Function.update s.exts ext e },[])
      else none

/-! ## What is registered -/

/-- The ids of an extension. -/
def EcallExtension.range (e : EcallExtension x) : Set (Word x) :=
  {extid | e.extidStart ≤ extid ∧ extid ≤ e.extidEnd}

instance (e : EcallExtension x) (extid : Word x) : Decidable (extid∈e.range) :=
  inferInstanceAs (Decidable (_ ∧ _))

/-- The list holds the extensions `l`, in order; they have handlers, and no id is in two of their
ranges. -/
structure HoldsExts (s : EcallRegistry x π) (l : List π) : Prop where
  ring : s.links.Ring .list (l.map EcallNode.ext)
  handled : ∀ p∈l,(s.exts p).handle=true ∧ (s.exts p).range.Nonempty
  disjoint : ∀ p∈l,∀ q∈l,p≠q → Disjoint (s.exts p).range (s.exts q).range

/-- What `sbi_ecall_register_extension()` asks for. -/
def Admissible (s : EcallRegistry x π) (l : List π) (ext : π) : Prop :=
  (s.exts ext).handle=true ∧ (s.exts ext).range.Nonempty ∧
    ∀ q∈l,Disjoint (s.exts ext).range (s.exts q).range

section Ranges

variable {e f : EcallExtension x}

theorem EcallExtension.range_nonempty_iff : e.range.Nonempty ↔ ¬e.extidEnd<e.extidStart := by
  constructor
  · rintro ⟨extid,hle,hge⟩
    exact BitVec.not_lt.mpr (BitVec.le_trans hle hge)
  · intro h
    exact ⟨e.extidStart,BitVec.le_refl _,BitVec.not_lt.mp h⟩

/-- The comparison of the end points. -/
theorem EcallExtension.disjoint_iff (he : e.range.Nonempty) (hf : f.range.Nonempty) :
    Disjoint e.range f.range ↔ f.extidEnd<e.extidStart ∨ e.extidEnd<f.extidStart := by
  rw [range_nonempty_iff,BitVec.not_lt] at he hf
  constructor
  · intro h
    by_contra hn
    rw [not_or,BitVec.not_lt,BitVec.not_lt] at hn
    -- the larger of the two starts is in both
    rcases BitVec.le_total e.extidStart f.extidStart with hle | hle
    · exact Set.disjoint_left.mp h ⟨hle,hn.2⟩ ⟨BitVec.le_refl _,hf⟩
    · exact Set.disjoint_left.mp h ⟨BitVec.le_refl _,he⟩ ⟨hle,hn.1⟩
  · intro h
    apply Set.disjoint_left.mpr
    rintro extid ⟨h1,h2⟩ ⟨h3,h4⟩
    rcases h with hlt | hlt
    · exact absurd (BitVec.le_trans h1 h4) (BitVec.not_le.mpr hlt)
    · exact absurd (BitVec.le_trans h3 h2) (BitVec.not_le.mpr hlt)

end Ranges

section Calls

variable {s s' : EcallRegistry x π} {l : List π} {fuel : Nat} {ext : π}

omit [DecidableEq π] in
theorem ext_injective : Function.Injective (EcallNode.ext : π → EcallNode π) := fun _ _ h => EcallNode.ext.inj h

namespace HoldsExts

omit [DecidableEq π] in
theorem nodup (h : HoldsExts s l) : l.Nodup := (List.nodup_cons.mp h.ring.nodup).2.of_map _

omit [DecidableEq π] in
/-- A state has one list. -/
theorem unique (h : HoldsExts s l) {k : List π} (hk : HoldsExts s k) : k=l :=
  List.map_injective_iff.mpr ext_injective (hk.ring.unique h.ring)

omit [DecidableEq π] in
theorem not_mem_nodes (hp : ext∉l) : EcallNode.ext ext∉EcallNode.list::l.map .ext := by
  simpa using hp

/-- With enough rounds a loop finds the first extension it looks for. -/
theorem forEachEntry (h : HoldsExts s l) (p : π → Bool) (hfuel : l.length<fuel) :
    s.forEachEntry fuel p=some (l.find? p) := by
  have hp : (fun node : EcallNode π => node.entry.any p)∘EcallNode.ext=p := rfl
  rw [EcallRegistry.forEachEntry,h.ring.search _ (by simpa using hfuel),Option.map_some,List.find?_map,hp]
  cases l.find? p <;> rfl

/-- A loop that looks for an extension tells whether it is on the list. -/
theorem isSome_find (p : π) : (l.find? fun t => decide (t=p)).isSome=true ↔ p∈l := by
  rw [List.find?_isSome]
  constructor
  · rintro ⟨q,hq,heq⟩
    exact of_decide_eq_true heq ▸ hq
  · intro hp
    exact ⟨p,hp,decide_eq_true rfl⟩

omit [DecidableEq π] in
/-- An admissible extension is not on the list. -/
theorem not_mem (hext : Admissible s l ext) : ext∉l := by
  intro hmem
  obtain ⟨extid,hin⟩ := hext.2.1
  exact Set.disjoint_left.mp (hext.2.2 ext hmem) hin hin

/-- Registering puts an extension at the end of the list. -/
theorem add (h : HoldsExts s l) (hext : Admissible s l ext) : HoldsExts { s with
    links := sbiListAddTail (sbiInitListHead s.links (.ext ext)) (.ext ext) .list } (l++[ext]) where
  ring := by
    have hout := not_mem_nodes (not_mem hext)
    rw [List.map_append]
    exact (h.ring.alone hout).insert hout
  handled := by
    intro p hp
    rcases List.mem_append.mp hp with hm | hm
    · exact h.handled p hm
    · rw [List.mem_singleton.mp hm]
      exact ⟨hext.1,hext.2.1⟩
  disjoint := by
    intro p hp q hq hne
    rcases List.mem_append.mp hp with hp | hp <;> rcases List.mem_append.mp hq with hq | hq
    · exact h.disjoint p hp q hq hne
    · rw [List.mem_singleton.mp hq]
      exact (hext.2.2 p hp).symm
    · rw [List.mem_singleton.mp hp]
      exact hext.2.2 q hq
    · exact absurd ((List.mem_singleton.mp hp).trans (List.mem_singleton.mp hq).symm) hne

/-- `sbi_ecall_register_extension()` succeeds exactly for an admissible extension, and otherwise changes
nothing. -/
theorem register (h : HoldsExts s l) (ext : π) (hfuel : l.length<fuel) :
    (Admissible s l ext → ∃ s',sbiEcallRegisterExtension fuel s (some ext)=some (s',0) ∧
      s'.exts=s.exts ∧ HoldsExts s' (l++[ext])) ∧
    (¬Admissible s l ext → sbiEcallRegisterExtension fuel s (some ext)=some (s,SBI_EINVAL)) := by
  have hfind := h.forEachEntry (fun t => !decide ((s.exts t).extidEnd<(s.exts ext).extidStart ∨
    (s.exts ext).extidEnd<(s.exts t).extidStart)) hfuel
  have hnone : (s.exts ext).range.Nonempty → ((l.find? fun t =>
      !decide ((s.exts t).extidEnd<(s.exts ext).extidStart ∨
        (s.exts ext).extidEnd<(s.exts t).extidStart)).isSome=false ↔
      ∀ q∈l,Disjoint (s.exts ext).range (s.exts q).range) := by
    intro he
    rw [Option.isSome_eq_false_iff,Option.isNone_iff_eq_none,List.find?_eq_none]
    refine forall₂_congr fun q hq => ?_
    rw [EcallExtension.disjoint_iff he (h.handled q hq).2,Bool.not_eq_true,Bool.not_eq_false',
      decide_eq_true_iff]
  rw [sbiEcallRegisterExtension]
  split
  next hbad =>
    refine ⟨fun hext => absurd hbad ?_,fun _ => rfl⟩
    rw [not_or]
    exact ⟨EcallExtension.range_nonempty_iff.mp hext.2.1,by rw [hext.1]; decide⟩
  next hgood =>
    rw [not_or,← EcallExtension.range_nonempty_iff,Bool.not_eq_false] at hgood
    rw [hfind]
    simp only [Option.bind_eq_bind,Option.bind_some]
    split
    next hover =>
      refine ⟨fun hext => ?_,fun _ => rfl⟩
      rw [(hnone hgood.1).mpr hext.2.2] at hover
      cases hover
    next hover =>
      rw [Bool.not_eq_true] at hover
      have hext : Admissible s l ext := ⟨hgood.2,hgood.1,(hnone hgood.1).mp hover⟩
      exact ⟨fun _ => ⟨_,rfl,rfl,h.add hext⟩,fun hn => absurd hext hn⟩

/-- Unregistering takes an extension off the list. -/
theorem del (h : HoldsExts s l) (hp : ext∈l) :
    HoldsExts { s with links := sbiListDelInit s.links (.ext ext) } (l.erase ext) where
  ring := by
    obtain ⟨l1,l2,rfl⟩ := List.append_of_mem hp
    have hnd := h.nodup
    have hout : ext∉l1 := fun hm => (List.nodup_append.mp hnd).2.2 ext hm ext List.mem_cons_self rfl
    have hring := h.ring
    rw [List.map_append,List.map_cons] at hring
    have herase : (l1++ext::l2).erase ext=l1++l2 := by
      rw [List.erase_append_right _ hout,List.erase_cons_head]
    rw [herase,List.map_append]
    refine hring.remove.alone ?_
    rw [← List.map_append]
    exact not_mem_nodes (herase ▸ hnd.not_mem_erase)
  handled := fun p hm => h.handled p (List.mem_of_mem_erase hm)
  disjoint := fun p hm q hq => h.disjoint p (List.mem_of_mem_erase hm) q (List.mem_of_mem_erase hq)

/-- `sbi_ecall_unregister_extension()` removes exactly that extension, or changes nothing. -/
theorem unregister (h : HoldsExts s l) (ext : π) (hfuel : l.length<fuel) :
    (ext∈l → ∃ s',sbiEcallUnregisterExtension fuel s (some ext)=some s' ∧ s'.exts=s.exts ∧
      HoldsExts s' (l.erase ext)) ∧
    (ext∉l → sbiEcallUnregisterExtension fuel s (some ext)=some s) := by
  rw [sbiEcallUnregisterExtension,h.forEachEntry _ hfuel]
  simp only [Option.bind_eq_bind,Option.bind_some]
  constructor
  · intro hp
    rw [if_pos ((isSome_find ext).mpr hp)]
    exact ⟨_,rfl,rfl,h.del hp⟩
  · intro hp
    rw [if_neg fun hs => hp ((isSome_find ext).mp hs)]

/-- `sbi_ecall_find_extension()` returns the extension that covers an id. -/
theorem find (h : HoldsExts s l) (extid : Word x) (hfuel : l.length<fuel) :
    ∃ r,sbiEcallFindExtension fuel s extid=some r ∧ ∀ p,r=some p ↔ p∈l ∧ extid∈(s.exts p).range := by
  refine ⟨_,h.forEachEntry _ hfuel,fun p => ?_⟩
  have hspec : ∀ q,(l.find? fun t => decide ((s.exts t).extidStart ≤ extid ∧ extid ≤ (s.exts t).extidEnd))=
      some q → q∈l ∧ extid∈(s.exts q).range := by
    intro q hq
    have hcover := List.find?_some hq
    exact ⟨List.mem_of_find?_eq_some hq,of_decide_eq_true hcover⟩
  refine ⟨hspec p,?_⟩
  rintro ⟨hp,hin⟩
  cases hf : l.find? fun t => decide ((s.exts t).extidStart ≤ extid ∧ extid ≤ (s.exts t).extidEnd) with
  | none => exact absurd (decide_eq_true hin) (List.find?_eq_none.mp hf p hp)
  | some q =>
    -- two that cover the id would not be disjoint
    obtain ⟨hq,hqin⟩ := hspec q hf
    by_contra hne
    exact Set.disjoint_left.mp (h.disjoint q hq p hp fun heq => hne (congrArg some heq)) hqin hin

end HoldsExts

theorem forEachEntry_mono {more : Nat} (hle : fuel ≤ more) {p : π → Bool} {r : Option π}
    (h : s.forEachEntry fuel p=some r) : s.forEachEntry more p=some r := by
  obtain ⟨o,ho,hr⟩ := Option.map_eq_some_iff.mp h
  rw [EcallRegistry.forEachEntry,Links.search_mono hle ho,Option.map_some,hr]

theorem sbiEcallRegisterExtension_mono {more : Nat} (hle : fuel ≤ more) {ext : Option π}
    {r : EcallRegistry x π×Int} (h : sbiEcallRegisterExtension fuel s ext=some r) :
    sbiEcallRegisterExtension more s ext=some r := by
  cases ext with
  | none => exact h
  | some p =>
    rw [sbiEcallRegisterExtension] at h ⊢
    split at h
    next hbad => rw [if_pos hbad,h]
    next hgood =>
      obtain ⟨o,ho,hr⟩ := Option.bind_eq_some_iff.mp h
      rw [if_neg hgood,forEachEntry_mono hle ho]
      exact hr

theorem sbiEcallUnregisterExtension_mono {more : Nat} (hle : fuel ≤ more) {ext : Option π}
    {r : EcallRegistry x π} (h : sbiEcallUnregisterExtension fuel s ext=some r) :
    sbiEcallUnregisterExtension more s ext=some r := by
  cases ext with
  | none => exact h
  | some p =>
    obtain ⟨o,ho,hr⟩ := Option.bind_eq_some_iff.mp h
    rw [sbiEcallUnregisterExtension,forEachEntry_mono hle ho]
    exact hr

/-- An extension outside the list may change. -/
theorem HoldsExts.fill (h : HoldsExts s l) (hp : ext∉l) (e : EcallExtension x) :
    HoldsExts { s with exts := Function.update s.exts ext e } l := by
  have hsame : ∀ q∈l,Function.update s.exts ext e q=s.exts q := by
    intro q hq
    refine Function.update_of_ne ?_ ..
    rintro rfl
    exact hp hq
  refine ⟨h.ring,fun q hq => ?_,fun q hq r hr hne => ?_⟩ <;> dsimp only
  · rw [hsame q hq]
    exact h.handled q hq
  · rw [hsame q hq,hsame r hr]
    exact h.disjoint q hq r hr hne

theorem boot_registered (exts : π → EcallExtension x) (links : Links (EcallNode π)) :
    HoldsExts (.boot exts links) [] where
  ring := links.ring_alone .list
  handled := fun _ hp => absurd hp List.not_mem_nil
  disjoint := fun _ hp => absurd hp List.not_mem_nil

/-- Every step keeps the list well formed and the ranges disjoint. -/
theorem registryMachine_step {a : Nat×RegistryAction x π} {ev : List (RegistryEvent π)} (h : HoldsExts s l)
    (hstep : (registryMachine x π).step s a=some (s',ev)) : ∃ l',HoldsExts s' l' := by
  obtain ⟨fuel,a⟩ := a
  -- rounds enough for the whole list do not change what the call does
  have henough : l.length<fuel+l.length+1 := by omega
  have hmore : fuel ≤ fuel+l.length+1 := by omega
  cases a with
  | register ext =>
    obtain ⟨⟨s1,ret⟩,h1,heq⟩ := Option.map_eq_some_iff.mp hstep
    cases heq
    have hcall := sbiEcallRegisterExtension_mono hmore h1
    cases ext with
    | none =>
      cases hcall
      exact ⟨l,h⟩
    | some p =>
      obtain ⟨hok,hfail⟩ := h.register p henough
      by_cases hext : Admissible s l p
      · obtain ⟨s2,h2,-,hs2⟩ := hok hext
        cases h2.symm.trans hcall
        exact ⟨_,hs2⟩
      · cases (hfail hext).symm.trans hcall
        exact ⟨l,h⟩
  | unregister ext =>
    obtain ⟨s1,h1,heq⟩ := Option.map_eq_some_iff.mp hstep
    cases heq
    have hcall := sbiEcallUnregisterExtension_mono hmore h1
    cases ext with
    | none =>
      cases hcall
      exact ⟨l,h⟩
    | some p =>
      obtain ⟨hok,hfail⟩ := h.unregister p henough
      by_cases hp : p∈l
      · obtain ⟨s2,h2,-,hs2⟩ := hok hp
        cases h2.symm.trans hcall
        exact ⟨_,hs2⟩
      · cases (hfail hp).symm.trans hcall
        exact ⟨l,h⟩
  | fill p e =>
    simp only [registryMachine] at hstep
    split_ifs at hstep with hfree
    cases hstep
    have hfind := (h.forEachEntry _ henough).symm.trans (forEachEntry_mono hmore hfree)
    refine ⟨l,h.fill (fun hp => ?_) e⟩
    have hsome := (HoldsExts.isSome_find p).mpr hp
    rw [Option.some.inj hfind] at hsome
    cases hsome

/-- What the calls owe in a state whose list is `l`. -/
structure CallsExact (s : EcallRegistry x π) (l : List π) : Prop where
  register : ∀ ext fuel,l.length<fuel →
    (Admissible s l ext → ∃ s',sbiEcallRegisterExtension fuel s (some ext)=some (s',0) ∧
      s'.exts=s.exts ∧ HoldsExts s' (l++[ext])) ∧
    (¬Admissible s l ext → sbiEcallRegisterExtension fuel s (some ext)=some (s,SBI_EINVAL))
  registerNull : ∀ fuel,sbiEcallRegisterExtension fuel s none=some (s,SBI_EINVAL)
  unregister : ∀ ext fuel,l.length<fuel →
    (ext∈l → ∃ s',sbiEcallUnregisterExtension fuel s (some ext)=some s' ∧ s'.exts=s.exts ∧
      HoldsExts s' (l.erase ext)) ∧
    (ext∉l → sbiEcallUnregisterExtension fuel s (some ext)=some s)
  unregisterNull : ∀ fuel,sbiEcallUnregisterExtension fuel s none=some s
  find : ∀ extid fuel,l.length<fuel → ∃ r,sbiEcallFindExtension fuel s extid=some r ∧
    ∀ p,r=some p ↔ p∈l ∧ extid∈(s.exts p).range

/-- After any calls there is one list of extensions with disjoint ranges, and the next call goes by it. -/
theorem ecallRegistry_exact (exts : π → EcallExtension x) (links : Links (EcallNode π))
    {t : List (RegistryEvent π)} (h : (registryMachine x π).Run Machine.anyStep (.boot exts links) t s) :
    ∃ l,HoldsExts s l ∧ (∀ k,HoldsExts s k → k=l) ∧ CallsExact s l := by
  obtain ⟨l,hl⟩ : ∃ l,HoldsExts s l := by
    apply h.invariant (P := fun s => ∃ l,HoldsExts s l)
    · rintro s a s' ev ⟨l,hl⟩ hstep -
      exact registryMachine_step hl hstep
    · exact ⟨[],boot_registered exts links⟩
  exact ⟨l,hl,fun k hk => hl.unique hk,fun ext _ hfuel => hl.register ext hfuel,fun _ => rfl,
    fun ext _ hfuel => hl.unregister ext hfuel,fun _ => rfl,fun extid _ hfuel => hl.find extid hfuel⟩

end Calls

/-- The legacy calls, a range within them, and the last id. -/
def threeExtensions : Fin 3 → EcallExtension .rv64
  | 0 => ⟨0,8,true⟩
  | 1 => ⟨4,5,true⟩
  | 2 => ⟨-1,-1,true⟩

/-- The second of the three is refused. -/
theorem ecallRegistry_exact_three : ∃ t s l,
    (registryMachine .rv64 (Fin 3)).Run Machine.anyStep (.boot threeExtensions ⟨id,id⟩) t s ∧
    t.map RegistryEvent.ret=[0,SBI_EINVAL,0] ∧ HoldsExts s l ∧ CallsExact s l := by
  obtain ⟨s,t,hrun,hret⟩ := @Machine.exists_run _ _ _ (registryMachine .rv64 (Fin 3)) (fun _ _ _ => true)
    (.boot threeExtensions ⟨id,id⟩)
    [(4,.register (some 0)),(4,.register (some 1)),(4,.register (some 2)),(4,.unregister (some 0))]
    (fun _ t => decide (t.map RegistryEvent.ret=[0,SBI_EINVAL,0])) (by decide +kernel)
  have hany : (registryMachine .rv64 (Fin 3)).Run Machine.anyStep (.boot threeExtensions ⟨id,id⟩) t s :=
    hrun.mono fun _ _ _ _ => trivial
  obtain ⟨l,hl,-,hcalls⟩ := ecallRegistry_exact threeExtensions ⟨id,id⟩ hany
  exact ⟨t,s,l,hany,of_decide_eq_true hret,hl,hcalls⟩

end OpenSBI
