import OpenSBI.Fdt.Address
import OpenSBI.Riscv.Hartmask
import OpenSBI.Riscv.Xlen

namespace OpenSBI

variable {x : Xlen}

def IRQ_M_SOFT : BitVec 32 := 3
def IRQ_M_TIMER : BitVec 32 := 7

def PropName.interruptsExtended : PropName := .other (cstr "interrupts-extended")

/-- What `fdt_parse_aclint_node()` writes; the second address and size can be null pointers. -/
structure AclintNode (x : Xlen) where
  addr1 : Word x
  size1 : Word x
  addr2 : Option (Word x)
  size2 : Option (Word x)
  firstHartid : Nat
  hartCount : Nat
  deriving DecidableEq

/-- The hart whose interrupt controller the phandle names, if the loop of `fdt_parse_aclint_node()`
does not skip it. -/
def intcHart (t : Fdt) (phandle : BitVec 32) : Option Nat :=
  match t.offsetByPhandle phandle with
  | .error _ => none
  | .ok cpuIntcOffset =>
    match t.parentOffset cpuIntcOffset with
    | .error _ => none
    | .ok cpuOffset =>
      match fdtParseHartId t cpuOffset with
      | .error _ => none
      | .ok hartid => if SBI_HARTMASK_MAX_BITS≤hartid.toNat then none else some hartid.toNat

/-- The locals of that loop. -/
structure HartSpan where
  firstHartid : Nat
  lastHartid : Nat
  hartCount : Nat

/-- `first_hartid` is `-1U` at first. -/
def HartSpan.init : HartSpan := ⟨2^32-1,0,0⟩

def HartSpan.add (r : HartSpan) (hartid : Nat) : HartSpan where
  firstHartid := if hartid < r.firstHartid then hartid else r.firstHartid
  lastHartid := if r.lastHartid<hartid then hartid else r.lastHartid
  hartCount := r.hartCount+1

/-- The loop body on entry `i`. -/
def aclintRound (t : Fdt) (matchHwirq : BitVec 32) (val : List (BitVec 8)) (r : HartSpan) (i : Nat) :
    HartSpan :=
  match intcHart t (fdt32 val (2*i)) with
  | none => r
  | some hartid => if matchHwirq=fdt32 val (2*i+1) then r.add hartid else r

/-- The first hart and the number of harts that are reported. -/
def HartSpan.range (r : HartSpan) : Nat×Nat :=
  if r.firstHartid ≤ r.lastHartid ∧ r.firstHartid≠2^32-1 then
    let count := r.lastHartid-r.firstHartid+1
    (r.firstHartid,if r.hartCount<count then r.hartCount else count)
  else (0,0)

/-- `fdt_parse_aclint_node()`; `local0` is what its locals for an address and a size hold at first. -/
def fdtParseAclintNode (t : Fdt) (nodeoffset : Nat) (forTimer : Bool) (local0 : BitVec 64×BitVec 64)
    (out : AclintNode x) : Option (Int×AclintNode x) := do
  let matchHwirq := if forTimer then IRQ_M_TIMER else IRQ_M_SOFT
  let (rc,reg) ← fdtGetNodeAddrSize t nodeoffset 0 ⟨some local0.1,some local0.2⟩
  let regAddr := reg.addr.getD local0.1
  let regSize := reg.size.getD local0.2
  if rc<0 ∨ regSize=0 then some (SBI_ENODEV,out)
  else
    let out := { out with addr1 := regAddr.setWidth _,size1 := regSize.setWidth _ }
    let (rc,reg) ← fdtGetNodeAddrSize t nodeoffset 1 ⟨some regAddr,some regSize⟩
    let regAddr := reg.addr.getD regAddr
    let regSize := reg.size.getD regSize
    let (regAddr,regSize) := if rc<0 ∨ regSize=0 then (0,0) else (regAddr,regSize)
    let out := { out with
      addr2 := out.addr2.map fun _ => regAddr.setWidth _
      size2 := out.size2.map fun _ => regSize.setWidth _
      firstHartid := 0
      hartCount := 0 }
    match t.getprop nodeoffset .interruptsExtended with
    | none => some (SBI_OK,out)
    | some val =>
      if val.length<4 then some (SBI_OK,out)
      else
        let r := (List.range (val.length/4/2)).foldl (aclintRound t matchHwirq val) .init
        some (SBI_OK,{ out with firstHartid := r.range.1,hartCount := r.range.2 })

/-- The harts that have an entry with the interrupt, entry by entry. -/
def aclintHarts (t : Fdt) (nodeoffset : Nat) (matchHwirq : BitVec 32) : List Nat :=
  let val := (t.getprop nodeoffset .interruptsExtended).getD []
  (List.range (val.length/4/2)).filterMap fun i =>
    if matchHwirq=fdt32 val (2*i+1) then intcHart t (fdt32 val (2*i)) else none

/-- The locals after the harts `l`. -/
structure HartSpan.Spans (r : HartSpan) (l : List Nat) : Prop where
  count : r.hartCount=l.length
  ge : ∀ h∈l,r.firstHartid ≤ h
  le : ∀ h∈l,h ≤ r.lastHartid
  ends : r.firstHartid=2^32-1 ∧ r.lastHartid=0 ∧ l=[] ∨ r.firstHartid∈l ∧ r.lastHartid∈l

theorem HartSpan.Spans.add {r : HartSpan} {l : List Nat} (hr : r.Spans l) {h : Nat}
    (hh : h<SBI_HARTMASK_MAX_BITS) : (r.add h).Spans (l++[h]) := by
  have hmax : SBI_HARTMASK_MAX_BITS<2^32-1 := by decide
  constructor
  · rw [HartSpan.add,List.length_append,hr.count]
    rfl
  · intro j hj
    simp only [HartSpan.add]
    rcases List.mem_append.mp hj with hj | hj
    · have := hr.ge j hj
      split_ifs <;> omega
    · obtain rfl := List.mem_singleton.mp hj
      split_ifs <;> omega
  · intro j hj
    simp only [HartSpan.add]
    rcases List.mem_append.mp hj with hj | hj
    · have := hr.le j hj
      split_ifs <;> omega
    · obtain rfl := List.mem_singleton.mp hj
      split_ifs <;> omega
  · refine .inr ⟨?_,?_⟩
    · simp only [HartSpan.add]
      split_ifs with h1
      · simp
      · rcases hr.ends with ⟨hf,-,-⟩ | ⟨hf,-⟩
        · omega
        · exact List.mem_append_left _ hf
    · simp only [HartSpan.add]
      split_ifs with h1
      · simp
      · rcases hr.ends with ⟨-,hl,-⟩ | ⟨-,hl⟩
        · have hz : h=r.lastHartid := by omega
          simp [hz]
        · exact List.mem_append_left _ hl

theorem intcHart_lt {t : Fdt} {phandle : BitVec 32} {h : Nat} (hh : intcHart t phandle=some h) :
    h<SBI_HARTMASK_MAX_BITS := by
  unfold intcHart at hh
  split at hh
  · cases hh
  · split at hh
    · cases hh
    · split at hh
      · cases hh
      · split_ifs at hh with hlt
        cases hh
        exact not_le.mp hlt

/-- What the loop makes of the harts of the entries it has seen. -/
theorem aclintRounds_spans (t : Fdt) (matchHwirq : BitVec 32) (val : List (BitVec 8)) (l : List Nat) :
    (l.foldl (aclintRound t matchHwirq val) .init).Spans (l.filterMap fun i =>
      if matchHwirq=fdt32 val (2*i+1) then intcHart t (fdt32 val (2*i)) else none) := by
  induction l using List.reverseRecOn with
  | nil => exact ⟨rfl,fun h hh => (by cases hh),fun h hh => (by cases hh),.inl ⟨rfl,rfl,rfl⟩⟩
  | append_singleton l i ih =>
    rw [List.foldl_append,List.filterMap_append,List.foldl_cons,List.foldl_nil,aclintRound]
    by_cases hirq : matchHwirq=fdt32 val (2*i+1)
    · cases hh : intcHart t (fdt32 val (2*i)) with
      | none => simpa [hirq,hh] using ih
      | some h => simpa [hirq,hh] using ih.add (intcHart_lt hh)
    · cases hh : intcHart t (fdt32 val (2*i)) with
      | none => simpa [hirq] using ih
      | some h => simpa [hirq] using ih

/-- The range covers the harts exactly when no two of them are further apart than there are entries. -/
theorem HartSpan.Spans.covers_iff {r : HartSpan} {l : List Nat} (hr : r.Spans l)
    (hl : ∀ h∈l,h<SBI_HARTMASK_MAX_BITS) :
    (∀ h∈l,r.range.1 ≤ h ∧ h < r.range.1+r.range.2) ↔ ∀ a∈l,∀ b∈l,b<a+l.length := by
  rcases hr.ends with ⟨-,-,rfl⟩ | ⟨hf,hlast⟩
  · exact iff_of_true (fun h hh => by cases hh) (fun h hh => by cases hh)
  have hle := hr.ge _ hlast
  have hmax : SBI_HARTMASK_MAX_BITS<2^32-1 := by decide
  have hfirst := hl _ hf
  rw [HartSpan.range,if_pos ⟨hle,by omega⟩]
  dsimp only
  constructor
  · intro h a ha b hb
    have hlt := (h _ hlast).2
    have := hr.ge a ha
    have := hr.le b hb
    rw [hr.count] at hlt
    split_ifs at hlt <;> omega
  · intro h j hj
    refine ⟨hr.ge j hj,?_⟩
    have := hr.le j hj
    have := h _ hf _ hlast
    rw [hr.count]
    split_ifs <;> omega

/-- A call that succeeds reports what the loop has found. -/
theorem fdtParseAclintNode_harts {t : Fdt} {nodeoffset : Nat} {forTimer : Bool}
    {local0 : BitVec 64×BitVec 64} {out node : AclintNode x}
    (h : fdtParseAclintNode t nodeoffset forTimer local0 out=some (SBI_OK,node)) :
    let val := (t.getprop nodeoffset .interruptsExtended).getD []
    (node.firstHartid,node.hartCount)=((List.range (val.length/4/2)).foldl
      (aclintRound t (if forTimer then IRQ_M_TIMER else IRQ_M_SOFT) val) .init).range := by
  unfold fdtParseAclintNode at h
  obtain ⟨⟨rc,reg⟩,-,h⟩ := Option.bind_eq_some_iff.mp h
  dsimp only at h
  by_cases herr : rc<0 ∨ reg.size.getD local0.2=0
  · rw [if_pos herr] at h
    cases h
  rw [if_neg herr] at h
  obtain ⟨⟨rc2,reg2⟩,-,h⟩ := Option.bind_eq_some_iff.mp h
  dsimp only at h
  cases hval : t.getprop nodeoffset .interruptsExtended with
  | none =>
    rw [hval] at h
    cases h
    rfl
  | some val =>
    rw [hval] at h
    dsimp only at h ⊢
    by_cases hlen : val.length<4
    · rw [if_pos hlen] at h
      cases h
      rw [Option.getD_some,show val.length/4/2=0 by omega]
      rfl
    · rw [if_neg hlen] at h
      cases h
      rfl

/-- The hart range of an ACLINT node covers the harts with an entry for its interrupt exactly when no two
of these harts are further apart than there are such entries. -/
theorem fdtParseAclintNode_covers_iff (t : Fdt) (nodeoffset : Nat) (forTimer : Bool)
    (local0 : BitVec 64×BitVec 64) (out node : AclintNode x)
    (h : fdtParseAclintNode t nodeoffset forTimer local0 out=some (SBI_OK,node)) :
    let harts := aclintHarts t nodeoffset (if forTimer then IRQ_M_TIMER else IRQ_M_SOFT)
    (∀ hartid∈harts,node.firstHartid ≤ hartid ∧ hartid<node.firstHartid+node.hartCount) ↔
      ∀ a∈harts,∀ b∈harts,b<a+harts.length := by
  intro harts
  have hlt : ∀ hartid∈harts,hartid<SBI_HARTMASK_MAX_BITS := by
    intro hartid hh
    obtain ⟨i,-,hi⟩ := List.mem_filterMap.mp hh
    exact intcHart_lt (Option.ite_none_right_eq_some.mp hi).2
  have hspan := aclintRounds_spans t (if forTimer then IRQ_M_TIMER else IRQ_M_SOFT)
    ((t.getprop nodeoffset .interruptsExtended).getD [])
    (List.range (((t.getprop nodeoffset .interruptsExtended).getD []).length/4/2))
  have hr := fdtParseAclintNode_harts h
  have hfirst : node.firstHartid=_ := congrArg Prod.fst hr
  have hcount : node.hartCount=_ := congrArg Prod.snd hr
  rw [hfirst,hcount]
  exact hspan.covers_iff hlt

/-- Two harts, and a timer with an entry for each of them. -/
def timerTree (a b : BitVec 32) : Fdt :=
  [⟨0,[],[]⟩,
   ⟨1,cstr "cpus",[]⟩,
   ⟨2,cstr "cpu",[.prop .deviceType (cstr "cpu" ++ [0]),.prop .reg (cellBytes a)]⟩,
   ⟨3,cstr "intc",[.prop .phandle (cellBytes 1)]⟩,
   ⟨2,cstr "cpu",[.prop .deviceType (cstr "cpu" ++ [0]),.prop .reg (cellBytes b)]⟩,
   ⟨3,cstr "intc",[.prop .phandle (cellBytes 2)]⟩,
   ⟨1,cstr "timer",[.prop .reg ([0,0x2000000,0x8000].flatMap cellBytes),
     .prop .interruptsExtended ([1,7,2,7].flatMap cellBytes)]⟩]

theorem timerTree_covered : ∃ node : AclintNode .rv64,
    fdtParseAclintNode (timerTree 0 1) 6 true (0,0) ⟨0,0,none,none,0,0⟩=some (SBI_OK,node) ∧
      ∀ hartid∈aclintHarts (timerTree 0 1) 6 IRQ_M_TIMER,
        node.firstHartid ≤ hartid ∧ hartid<node.firstHartid+node.hartCount := by
  have hcall : fdtParseAclintNode (timerTree 0 1) 6 true (0,0) (⟨0,0,none,none,0,0⟩ : AclintNode .rv64)=
      some (SBI_OK,⟨0x2000000,0x8000,none,none,0,2⟩) := by decide
  exact ⟨_,hcall,(fdtParseAclintNode_covers_iff (timerTree 0 1) 6 true (0,0) _ _ hcall).mpr (by decide)⟩

/-- Of the harts 0 and 2 the timer covers the first one only. -/
theorem sparseHarts_missed :
    ¬∀ (x : Xlen) (t : Fdt) (nodeoffset : Nat) (forTimer : Bool) (local0 : BitVec 64×BitVec 64)
      (out node : AclintNode x),fdtParseAclintNode t nodeoffset forTimer local0 out=some (SBI_OK,node) →
      ∀ hartid∈aclintHarts t nodeoffset (if forTimer then IRQ_M_TIMER else IRQ_M_SOFT),
        node.firstHartid ≤ hartid ∧ hartid<node.firstHartid+node.hartCount := by
  intro h
  have hcall : fdtParseAclintNode (timerTree 0 2) 6 true (0,0) (⟨0,0,none,none,0,0⟩ : AclintNode .rv64)=
      some (SBI_OK,⟨0x2000000,0x8000,none,none,0,2⟩) := by decide
  exact absurd (h .rv64 (timerTree 0 2) 6 true (0,0) _ _ hcall 2 (by decide)).2 (by decide)

end OpenSBI
