import OpenSBI.Fp.Precise
import OpenSBI.Trap.Delegation

namespace OpenSBI

variable {x : Xlen}

/-! ## The registers below M-mode that the firmware stands in for -/

/-- A register that traps and is emulated; `high` is the upper half of a 64-bit one on RV32. -/
inductive EmulatedCsr where
  | counter (k : Nat) (high : Bool)
  | time (high : Bool)
  | htimedelta (high : Bool)
  | fflags
  | frm
  | fcsr
  deriving DecidableEq

/-- The address map. -/
def emulatedCsr (env : TrapEnv x) (num : Nat) : Option EmulatedCsr :=
  if num=CSR_HTIMEDELTA then some (.htimedelta false)
  else if num=CSR_TIME then some (.time false)
  else if num=CSR_HTIMEDELTAH then if x=.rv32 then some (.htimedelta true) else none
  else if num=CSR_TIMEH then if x=.rv32 then some (.time true) else none
  else if num=CSR_FFLAGS then if env.softFp then some .fflags else none
  else if num=CSR_FRM then if env.softFp then some .frm else none
  else if num=CSR_FCSR then if env.softFp then some .fcsr else none
  else if csrBlock CSR_CYCLE 32 num then some (.counter (num-CSR_CYCLE) false)
  else if csrBlock CSR_CYCLEH 32 num then
    if x=.rv32 then some (.counter (num-CSR_CYCLEH) true) else none
  else none

/-- One half of a 64-bit register. -/
def half (high : Bool) (v : BitVec 64) : BitVec 64 := if high then v >>> 32 else v

/-- The counter-enable registers let the interrupted mode read counter `k`. -/
def counterAllowed (env : TrapEnv x) (s : TrapState x) (k : Nat) : Bool :=
  env.hasMcounteren && (s.csrs CSR_MCOUNTEREN).getLsbD k &&
    (!s.regs.prevVirt || (s.csrs CSR_HCOUNTEREN).getLsbD k) &&
    (decide (s.regs.prevMode≠PRV_U) || env.hasScounteren && (s.csrs CSR_SCOUNTEREN).getLsbD k)

/-- The interrupted mode is S with V=0, which is HS-mode where the hypervisor extension is there. -/
def fromHs (s : TrapState x) : Bool := decide (s.regs.prevMode=PRV_S) && !s.regs.prevVirt

/-- A 64-bit register after a write of `v`, on RV32 to one of its halves. -/
def withHalf (high : Bool) (old : BitVec 64) (v : Word x) : BitVec 64 :=
  if x=.rv64 then v.setWidth 64
  else if high then v.setWidth 32++old.setWidth 32
  else old.extractLsb' 32 32++v.setWidth 32

namespace EmulatedCsr

/-- The value a register holds. -/
def value (env : TrapEnv x) (s : TrapState x) : EmulatedCsr → Word x
  | counter k high => s.csrs ((if high then CSR_MCYCLEH else CSR_MCYCLE)+k)
  | time high =>
    (half high (if s.regs.prevVirt then env.mtime+s.timeDelta else env.mtime)).setWidth x.bits
  | htimedelta high => (half high s.timeDelta).setWidth x.bits
  | fflags => BitVec.ofNat x.bits s.getFflags
  | frm => BitVec.ofNat x.bits s.getFrm
  | fcsr => BitVec.ofNat x.bits s.getFcsr

/-- Who may read; TIME is open to everyone. -/
def readable (env : TrapEnv x) (s : TrapState x) : EmulatedCsr → Bool
  | counter k _ => decide (k<env.mhpmCount+3) && counterAllowed env s k
  | time _ => true
  | htimedelta _ => fromHs s
  | fflags => !decide s.fsOff
  | frm => !decide s.fsOff
  | fcsr => !decide s.fsOff

def writable (s : TrapState x) : EmulatedCsr → Bool
  | counter _ _ => false
  | time _ => false
  | htimedelta _ => fromHs s
  | fflags => !decide s.fsOff
  | frm => !decide s.fsOff
  | fcsr => !decide s.fsOff

/-- A write of `v` changes the bits of the register and no other emulated register. -/
def Written (s t : TrapState x) (v : Word x) : EmulatedCsr → Prop
  | counter _ _ => False
  | time _ => False
  | htimedelta high => t.timeDelta=withHalf high s.timeDelta v ∧ t.tp=s.tp
  | fflags => t.timeDelta=s.timeDelta ∧ t.getFflags=v.toNat%2^5 ∧ t.getFrm=s.getFrm
  | frm => t.timeDelta=s.timeDelta ∧ t.getFrm=v.toNat%2^3 ∧ t.getFflags=s.getFflags
  | fcsr => t.timeDelta=s.timeDelta ∧ t.getFcsr=v.toNat%2^8

end EmulatedCsr

/-! ## The instructions -/

inductive CsrOp where
  | rw
  | rs
  | rc
  deriving DecidableEq

/-- A CSR instruction; with `imm` the field of `rs1` is the operand itself. -/
structure CsrInsn where
  op : CsrOp
  imm : Bool
  csr : Nat
  rd : Fin 32
  rs1 : Fin 32
  deriving DecidableEq

def decodeCsrInsn (word : Word x) : Option CsrInsn :=
  let insn (op : CsrOp) (imm : Bool) : Option CsrInsn :=
    some ⟨op,imm,rvX word 20 12,regNum word SH_RD,regNum word SH_RS1⟩
  match getRm word with
  | 1 => insn .rw false
  | 2 => insn .rs false
  | 3 => insn .rc false
  | 5 => insn .rw true
  | 6 => insn .rs true
  | 7 => insn .rc true
  | _ => none

namespace CsrInsn

variable (i : CsrInsn)

def operand (s : TrapState x) : Word x :=
  if i.imm then BitVec.ofNat x.bits i.rs1.val else archGpr s.regs.gpr i.rs1

def newValue (s : TrapState x) (old : Word x) : Word x :=
  match i.op with
  | .rw => i.operand s
  | .rs => old ||| i.operand s
  | .rc => old &&& ~~~i.operand s

/-- Setting or clearing by x0 or by 0 does not write. -/
def writes : Bool := decide (i.op=.rw) || decide (i.rs1.val≠0)

end CsrInsn

/-- The access a word asks for, when the interrupted mode may make it. -/
def csrAccess (env : TrapEnv x) (s : TrapState x) (word : Word x) : Option (CsrInsn×EmulatedCsr) := do
  let i ← decodeCsrInsn word
  let c ← emulatedCsr env i.csr
  if c.readable env s && (!i.writes || c.writable s) then some (i,c) else none

/-- The instruction is carried out. -/
structure CsrExecuted (env : TrapEnv x) (s t : TrapState x) (i : CsrInsn) (c : EmulatedCsr) : Prop where
  rd : archGpr t.regs.gpr=
    if i.rd.val=0 then archGpr s.regs.gpr else Function.update (archGpr s.regs.gpr) i.rd (c.value env s)
  pc : t.regs.mepc=s.regs.mepc+BitVec.ofNat x.bits 4
  written : i.writes=true → c.Written s t (i.newValue s (c.value env s))
  kept : i.writes=false → t.timeDelta=s.timeDelta ∧ t.tp=s.tp ∧ t.csrs=s.csrs
  csrs : ∀ n,n≠CSR_MSTATUS → t.csrs n=s.csrs n
  live : clearMask (t.csrs CSR_MSTATUS) MSTATUS_FS=clearMask (s.csrs CSR_MSTATUS) MSTATUS_FS
  mstatus : t.regs.mstatus=s.regs.mstatus
  mstatusH : t.regs.mstatusH=s.regs.mstatusH
  fpr : t.fpr=s.fpr
  mem : t.mem=s.mem
  redirects : t.redirects=s.redirects

/-- The word goes to the supervisor as illegal, and nothing changes but what taking that trap sets. -/
structure CsrRefused (s t : TrapState x) (word : Word x) : Prop where
  illegal : RedirectedIllegal s t word
  csrs : ∀ n,n∉[CSR_SCAUSE,CSR_SEPC,CSR_STVAL,CSR_HSTATUS,CSR_HTVAL,CSR_HTINST] → t.csrs n=s.csrs n
  context : s.SameContext t

/-- A CSR instruction on an FP register while FS is Off. -/
def FcsrOff (env : TrapEnv x) (s : TrapState x) (word : Word x) : Prop :=
  env.softFp=true ∧ s.fsOff ∧
    ∃ i∈decodeCsrInsn word,i.csr=CSR_FFLAGS ∨ i.csr=CSR_FRM ∨ i.csr=CSR_FCSR

/-- A write to the low half of a time delta whose upper half is in use. -/
def DeltaHalved (s : TrapState x) (word : Word x) : Prop :=
  x=.rv32 ∧ fromHs s=true ∧ s.timeDelta.extractLsb' 32 32≠0 ∧
    ∃ i∈decodeCsrInsn word,i.csr=CSR_HTIMEDELTA ∧ i.writes=true

/-! ## The two switches -/

section Switches

variable {env : TrapEnv x} {s : TrapState x}

theorem hpmAllowed_eq (hb : s.regs.BelowM) (k : Nat) : hpmAllowed env s k=counterAllowed env s k := by
  have hle : s.regs.prevMode ≤ PRV_S := by
    obtain hm | hm := hb
    · exact hm.le
    · rw [hm]
      decide
  unfold hpmAllowed counterAllowed
  dsimp only
  rw [if_pos hle]
  cases env.hasMcounteren with
  | false => by_cases hu : s.regs.prevMode=PRV_U <;> cases env.hasScounteren <;> simp [hu]
  | true =>
    cases s.regs.prevVirt <;> by_cases hu : s.regs.prevMode=PRV_U <;> cases env.hasScounteren <;>
      simp [hu]

/-- The value of a register that may be read. -/
def EmulatedCsr.read (env : TrapEnv x) (s : TrapState x) (c : EmulatedCsr) : Option (Word x) :=
  if c.readable env s then some (c.value env s) else none

/-- A counter case, with or without the bound on its number. -/
theorem readCounter_eq (hb : s.regs.BelowM) (high : Bool) {uref mref k : Nat}
    (hm : mref=if high then CSR_MCYCLEH else CSR_MCYCLE) (hk : k<env.mhpmCount+3) :
    readCounter env s uref mref (uref+k)=(EmulatedCsr.counter k high).read env s := by
  rw [readCounter,hpmAllowed_eq hb,Nat.add_sub_cancel_left,← Nat.add_assoc,Nat.add_right_comm,
    Nat.add_sub_cancel]
  simp [EmulatedCsr.read,EmulatedCsr.readable,EmulatedCsr.value,hk,hm]

theorem readHpm_eq (hb : s.regs.BelowM) (high : Bool) {uref mref k : Nat}
    (hm : mref=if high then CSR_MCYCLEH else CSR_MCYCLE) :
    readHpm env s uref mref (uref+k)=(EmulatedCsr.counter k high).read env s := by
  rw [readHpm,Nat.add_sub_cancel_left]
  by_cases hk : k<env.mhpmCount+3
  · rw [if_neg (by omega),readCounter_eq hb high hm hk]
  · rw [if_pos (by omega)]
    simp [EmulatedCsr.read,EmulatedCsr.readable,hk]

theorem csrBlock_iff {first n num : Nat} :
    csrBlock first n num=true ↔ ∃ k<n,num=first+k := by
  simp only [csrBlock,Bool.and_eq_true,decide_eq_true_iff]
  constructor
  · intro ⟨h1,h2⟩
    exact ⟨num-first,by omega,by omega⟩
  · rintro ⟨k,hk,rfl⟩
    omega

/-- The time registers, each with a half of its own on RV32. -/
theorem read_time (num : Nat)
    (h : num∈[CSR_HTIMEDELTA,CSR_TIME,CSR_HTIMEDELTAH,CSR_TIMEH]) :
    sbiEmulateCsrRead env s num=(emulatedCsr env num).bind (EmulatedCsr.read env s) := by
  simp only [List.mem_cons,List.not_mem_nil,or_false] at h
  obtain rfl | rfl | rfl | rfl := h
  · simp [sbiEmulateCsrRead,emulatedCsr,EmulatedCsr.read,EmulatedCsr.readable,EmulatedCsr.value,fromHs,
      half]
  · cases hv : s.regs.prevVirt <;>
      simp [sbiEmulateCsrRead,emulatedCsr,EmulatedCsr.read,EmulatedCsr.readable,EmulatedCsr.value,half,
        timerVirtValue,hv,CSR_TIME,CSR_HTIMEDELTA,CSR_CYCLE]
  · cases x with
    | rv32 =>
      change (if s.regs.prevMode=PRV_S ∧ s.regs.prevVirt=false then
        some ((s.timeDelta >>> 32).setWidth _) else none)=(EmulatedCsr.htimedelta true).read env s
      simp [EmulatedCsr.read,EmulatedCsr.readable,EmulatedCsr.value,fromHs,half]
    | rv64 =>
      simp [sbiEmulateCsrRead,emulatedCsr,csrBlock,CSR_TIME,CSR_HTIMEDELTA,CSR_CYCLE,CSR_HTIMEDELTAH,
        CSR_INSTRET,CSR_FRM,CSR_FFLAGS,CSR_FCSR,CSR_HPMCOUNTER3]
  · cases x with
    | rv32 => rfl
    | rv64 =>
      simp [sbiEmulateCsrRead,emulatedCsr,csrBlock,CSR_TIME,CSR_HTIMEDELTA,CSR_CYCLE,CSR_HTIMEDELTAH,
        CSR_TIMEH,CSR_INSTRET,CSR_FRM,CSR_FFLAGS,CSR_FCSR,CSR_HPMCOUNTER3]

/-- The FP registers while FS is not Off. -/
theorem read_fcsr (num : Nat) (h : num∈[CSR_FFLAGS,CSR_FRM,CSR_FCSR])
    (hf : env.softFp=true → ¬s.fsOff) :
    sbiEmulateCsrRead env s num=(emulatedCsr env num).bind (EmulatedCsr.read env s) := by
  simp only [List.mem_cons,List.not_mem_nil,or_false] at h
  cases hs : env.softFp with
  | false =>
    obtain rfl | rfl | rfl := h <;>
      simp [sbiEmulateCsrRead,emulatedCsr,hs,csrBlock,CSR_TIME,CSR_HTIMEDELTA,CSR_CYCLE,CSR_HTIMEDELTAH,
        CSR_INSTRET,CSR_CYCLEH,CSR_TIMEH,CSR_INSTRETH,CSR_FRM,CSR_FFLAGS,CSR_FCSR,CSR_HPMCOUNTER3,
        CSR_HPMCOUNTER3H]
  | true =>
    obtain rfl | rfl | rfl := h <;>
      simp [sbiEmulateCsrRead,emulatedCsr,EmulatedCsr.read,EmulatedCsr.readable,EmulatedCsr.value,hs,
        hf hs,CSR_TIME,CSR_HTIMEDELTA,CSR_CYCLE,CSR_HTIMEDELTAH,CSR_INSTRET,CSR_CYCLEH,CSR_TIMEH,
        CSR_INSTRETH,CSR_FRM,CSR_FFLAGS,CSR_FCSR]

/-- A number of the counter blocks past INSTRET gets to the block cases. -/
theorem read_block {num : Nat} (h : CSR_HPMCOUNTER3 ≤ num)
    (hh : num∉[CSR_CYCLEH,CSR_TIMEH,CSR_INSTRETH]) :
    sbiEmulateCsrRead env s num=
      if csrBlock CSR_HPMCOUNTER3 29 num then readHpm env s CSR_CYCLE CSR_MCYCLE num
      else if x=.rv32 ∧ csrBlock CSR_HPMCOUNTER3H 29 num then readHpm env s CSR_CYCLEH CSR_MCYCLEH num
      else none := by
  have hne : ∀ n,n<CSR_HPMCOUNTER3 → num≠n := fun n hn => (hn.trans_le h).ne'
  simp only [List.mem_cons,List.not_mem_nil,or_false,not_or] at hh
  rw [sbiEmulateCsrRead]
  simp only [hh,hne CSR_HTIMEDELTA (by decide),hne CSR_CYCLE (by decide),hne CSR_TIME (by decide),
    hne CSR_INSTRET (by decide),hne CSR_HTIMEDELTAH (by decide),hne CSR_FRM (by decide),
    hne CSR_FFLAGS (by decide),hne CSR_FCSR (by decide),if_false,and_false]

/-- The counters from CYCLE on, without TIME. -/
theorem read_counter (hb : s.regs.BelowM) {k : Nat} (hk : k<32) (h1 : k≠1) :
    sbiEmulateCsrRead env s (CSR_CYCLE+k)=(EmulatedCsr.counter k false).read env s := by
  by_cases h0 : k=0
  · subst h0
    exact readCounter_eq hb false rfl (Nat.succ_pos _)
  by_cases h2 : k=2
  · subst h2
    exact readCounter_eq hb false rfl (by omega)
  have hk3 : CSR_HPMCOUNTER3=CSR_CYCLE+3 := rfl
  rw [read_block (by omega),if_pos]
  · exact readHpm_eq hb false rfl
  · exact csrBlock_iff.mpr ⟨k-3,by omega,by omega⟩
  · simp [CSR_CYCLE,CSR_CYCLEH,CSR_TIMEH,CSR_INSTRETH]
    omega

theorem read_counterH (hx : x=.rv32) (hb : s.regs.BelowM) {k : Nat} (hk : k<32) (h1 : k≠1) :
    sbiEmulateCsrRead env s (CSR_CYCLEH+k)=(EmulatedCsr.counter k true).read env s := by
  subst hx
  by_cases h0 : k=0
  · subst h0
    exact readCounter_eq hb true rfl (Nat.succ_pos _)
  by_cases h2 : k=2
  · subst h2
    exact readCounter_eq hb true rfl (by omega)
  have hk3 : CSR_HPMCOUNTER3H=CSR_CYCLEH+3 := rfl
  have hlo : csrBlock CSR_HPMCOUNTER3 29 (CSR_CYCLEH+k)=false := Bool.eq_false_iff.mpr fun h => by
    obtain ⟨j,hj,he⟩ := csrBlock_iff.mp h
    have hd : CSR_HPMCOUNTER3+29 ≤ CSR_CYCLEH := by decide
    omega
  rw [read_block (by simp [CSR_HPMCOUNTER3,CSR_CYCLEH]; omega),hlo,if_neg (by simp),if_pos]
  · exact readHpm_eq hb true rfl
  · exact ⟨rfl,csrBlock_iff.mpr ⟨k-3,by omega,by omega⟩⟩
  · simp [CSR_CYCLEH,CSR_TIMEH,CSR_INSTRETH]
    omega

/-- A number outside the map. -/
theorem read_none {num : Nat} (ht : num∉[CSR_HTIMEDELTA,CSR_TIME,CSR_HTIMEDELTAH,CSR_TIMEH])
    (hc : num∉[CSR_FFLAGS,CSR_FRM,CSR_FCSR]) (hl : csrBlock CSR_CYCLE 32 num=false)
    (hh : x=.rv32 → csrBlock CSR_CYCLEH 32 num=false) : sbiEmulateCsrRead env s num=none := by
  simp only [List.mem_cons,List.not_mem_nil,or_false,not_or] at ht hc
  have hn : ∀ {first k},csrBlock first 32 num=false → k<32 → num≠first+k := fun hf hk he =>
    absurd (csrBlock_iff.mpr ⟨_,hk,he⟩) (by rw [hf]; simp)
  have hb : ∀ {first},csrBlock first 32 num=false → csrBlock (first+3) 29 num=false := by
    intro first hf
    by_contra hc
    obtain ⟨k,hk,he⟩ := csrBlock_iff.mp (Bool.of_not_eq_false hc)
    exact hn hf (show 3+k<32 by omega) (by omega)
  have h0 : num≠CSR_CYCLE := hn hl (show 0<32 by omega)
  have h2 : num≠CSR_INSTRET := hn hl (show 2<32 by omega)
  have h3 : csrBlock CSR_HPMCOUNTER3 29 num=false := hb hl
  rw [sbiEmulateCsrRead]
  cases x with
  | rv64 => simp [ht,hc,h0,h2,h3]
  | rv32 =>
    have hl0 : num≠CSR_CYCLEH := hn (hh rfl) (show 0<32 by omega)
    have hl2 : num≠CSR_INSTRETH := hn (hh rfl) (show 2<32 by omega)
    have hl3 : csrBlock CSR_HPMCOUNTER3H 29 num=false := hb (hh rfl)
    simp [ht,hc,h0,h2,h3,hl0,hl2,hl3]

/-- The read switch goes by the address map and the permissions. -/
theorem sbiEmulateCsrRead_eq (env : TrapEnv x) (hb : s.regs.BelowM) (num : Nat)
    (hf : env.softFp=true → s.fsOff → num∉[CSR_FFLAGS,CSR_FRM,CSR_FCSR]) :
    sbiEmulateCsrRead env s num=(emulatedCsr env num).bind (EmulatedCsr.read env s) := by
  by_cases ht : num∈[CSR_HTIMEDELTA,CSR_TIME,CSR_HTIMEDELTAH,CSR_TIMEH]
  · exact read_time num ht
  by_cases hc : num∈[CSR_FFLAGS,CSR_FRM,CSR_FCSR]
  · exact read_fcsr num hc fun hs hoff => hf hs hoff hc
  have hmap : emulatedCsr env num=if csrBlock CSR_CYCLE 32 num then
      some (.counter (num-CSR_CYCLE) false)
    else if csrBlock CSR_CYCLEH 32 num then
      if x=.rv32 then some (.counter (num-CSR_CYCLEH) true) else none
    else none := by
    have ht' := ht
    have hc' := hc
    simp only [List.mem_cons,List.not_mem_nil,or_false,not_or] at ht' hc'
    simp only [emulatedCsr,ht',hc',if_false]
  rw [hmap]
  cases hl : csrBlock CSR_CYCLE 32 num with
  | true =>
    obtain ⟨k,hk,rfl⟩ := csrBlock_iff.mp hl
    rw [read_counter hb hk (fun h1 => ht (by rw [h1]; decide)),Nat.add_sub_cancel_left]
    rfl
  | false =>
    by_cases hh : x=.rv32 ∧ csrBlock CSR_CYCLEH 32 num=true
    · obtain ⟨k,hk,rfl⟩ := csrBlock_iff.mp hh.2
      rw [read_counterH hh.1 hb hk (fun h1 => ht (by rw [h1]; decide)),hh.2,if_pos hh.1,
        Nat.add_sub_cancel_left]
      rfl
    · rw [read_none ht hc hl fun hx => Bool.eq_false_iff.mpr fun h => hh ⟨hx,h⟩]
      by_cases hx : x=.rv32 <;> simp [hx] at hh ⊢
      simp [hh]

/-- The branch of the write switch for a register that may be written. -/
def EmulatedCsr.store (s : TrapState x) (v : Word x) : EmulatedCsr → TrapState x
  | .htimedelta high => if high then timerSetDeltaUpper s v else timerSetDelta s v
  | .fflags => s.setFflags v.toNat
  | .frm => s.setFrm v.toNat
  | .fcsr => s.setFcsr v.toNat
  | _ => s

/-- And so does the write switch. -/
theorem sbiEmulateCsrWrite_eq (env : TrapEnv x) (num : Nat) (v : Word x)
    (hf : env.softFp=true → s.fsOff → num∉[CSR_FFLAGS,CSR_FRM,CSR_FCSR]) :
    sbiEmulateCsrWrite env s num v=
      (emulatedCsr env num).bind fun c => if c.writable s then some (c.store s v) else none := by
  by_cases h1 : num=CSR_HTIMEDELTA
  · subst h1
    simp [sbiEmulateCsrWrite,emulatedCsr,EmulatedCsr.writable,EmulatedCsr.store,fromHs]
  by_cases h2 : num=CSR_HTIMEDELTAH
  · subst h2
    cases x <;>
      simp [sbiEmulateCsrWrite,emulatedCsr,EmulatedCsr.writable,EmulatedCsr.store,fromHs,CSR_HTIMEDELTA,
        CSR_HTIMEDELTAH,CSR_TIME,CSR_FRM,CSR_FFLAGS,CSR_FCSR]
  by_cases hc : num∈[CSR_FFLAGS,CSR_FRM,CSR_FCSR]
  · cases hs : env.softFp with
    | false =>
      simp only [List.mem_cons,List.not_mem_nil,or_false] at hc
      obtain rfl | rfl | rfl := hc <;>
        simp [sbiEmulateCsrWrite,emulatedCsr,hs,CSR_TIME,CSR_HTIMEDELTA,CSR_HTIMEDELTAH,CSR_TIMEH,
          CSR_FRM,CSR_FFLAGS,CSR_FCSR]
    | true =>
      have hon : ¬s.fsOff := fun hoff => hf hs hoff hc
      simp only [List.mem_cons,List.not_mem_nil,or_false] at hc
      obtain rfl | rfl | rfl := hc <;>
        simp [sbiEmulateCsrWrite,emulatedCsr,EmulatedCsr.writable,EmulatedCsr.store,hs,hon,CSR_TIME,
          CSR_HTIMEDELTA,CSR_HTIMEDELTAH,CSR_TIMEH,CSR_FRM,CSR_FFLAGS,CSR_FCSR]
  · -- TIME and the counters have no case here
    simp only [List.mem_cons,List.not_mem_nil,or_false,not_or] at hc
    simp only [sbiEmulateCsrWrite,emulatedCsr,h1,h2,hc,if_false,and_false]
    split_ifs <;> rfl

/-- What no write touches. -/
structure StoreFrame (s t : TrapState x) : Prop where
  regs : t.regs=s.regs
  csrs : ∀ n,n≠CSR_MSTATUS → t.csrs n=s.csrs n
  live : clearMask (t.csrs CSR_MSTATUS) MSTATUS_FS=clearMask (s.csrs CSR_MSTATUS) MSTATUS_FS
  fpr : t.fpr=s.fpr
  mem : t.mem=s.mem
  redirects : t.redirects=s.redirects

theorem clearMask_orMask_self (a : Word x) (m : Nat) : clearMask (orMask a m) m=clearMask a m := by
  apply BitVec.eq_of_getLsbD_eq
  intro i hi
  rw [getLsbD_clearMask,getLsbD_clearMask,getLsbD_orMask]
  cases m.testBit i <;> simp

theorem setFcsr_frame (s : TrapState x) (v : Nat) : StoreFrame s (s.setFcsr v) := by
  refine ⟨rfl,fun n hn => ?_,?_,rfl,rfl,rfl⟩
  · simp [TrapState.setFcsr,TrapState.setFsDirty,TrapState.csrWrite,TrapState.setTp,hn]
  · simp [TrapState.setFcsr,TrapState.setFsDirty,TrapState.csrWrite,TrapState.setTp,
      clearMask_orMask_self]

theorem EmulatedCsr.store_frame (s : TrapState x) (v : Word x) (c : EmulatedCsr) :
    StoreFrame s (c.store s v) := by
  cases c with
  | counter | time => exact ⟨rfl,fun _ _ => rfl,rfl,rfl,rfl,rfl⟩
  | htimedelta high => cases high <;> exact ⟨rfl,fun _ _ => rfl,rfl,rfl,rfl,rfl⟩
  | fflags | frm | fcsr => exact setFcsr_frame s _

theorem getFcsr_setFcsr (s : TrapState x) (v : Nat) : (s.setFcsr v).getFcsr=v%2^8 := by
  have hlt : v%2^8<2^8 := Nat.mod_lt _ (by decide)
  have hx : 2^8 ≤ 2^x.bits := Nat.pow_le_pow_right (by decide) (by cases x <;> decide)
  show (BitVec.ofNat x.bits (v%2^8)).toNat%2^8=v%2^8
  rw [BitVec.toNat_ofNat,Nat.mod_eq_of_lt (hlt.trans_le hx),Nat.mod_eq_of_lt hlt]

/-- Two fields put together with an or. -/
theorem or_shift {f : Nat} (h : f<2^5) (v : Nat) : f ||| v*2^5=2^5*v+f := by
  rw [Nat.or_comm,Nat.mul_comm,Nat.two_pow_add_eq_or_of_lt h]

theorem TrapState.getFflags_lt (s : TrapState x) : s.getFflags<2^5 := Nat.mod_lt _ (by decide)

theorem setFrm_fields (s : TrapState x) (v : Nat) :
    (s.setFrm v).getFrm=v%2^3 ∧ (s.setFrm v).getFflags=s.getFflags := by
  have hf := s.getFflags_lt
  have hv : (s.setFrm v).getFcsr=(2^5*v+s.getFflags)%2^8 := by
    rw [TrapState.setFrm,getFcsr_setFcsr,or_shift hf]
  constructor
  · rw [TrapState.getFrm,hv]
    omega
  · rw [TrapState.getFflags,hv]
    omega

theorem setFflags_fields (s : TrapState x) (v : Nat) :
    (s.setFflags v).getFflags=v%2^5 ∧ (s.setFflags v).getFrm=s.getFrm := by
  have hf : v%2^5<2^5 := Nat.mod_lt _ (by decide)
  have hc : s.getFrm<2^3 := Nat.div_lt_of_lt_mul (Nat.mod_lt _ (by decide))
  have hv : (s.setFflags v).getFcsr=(2^5*s.getFrm+v%2^5)%2^8 := by
    rw [TrapState.setFflags,getFcsr_setFcsr,Nat.or_comm,or_shift hf]
  constructor
  · rw [TrapState.getFflags,hv]
    omega
  · rw [TrapState.getFrm,hv]
    omega

/-- A write to the low half clears the other one. -/
theorem timerSetDelta_eq (s : TrapState x) (v : Word x)
    (h : x=.rv32 → s.timeDelta.extractLsb' 32 32=0) :
    (timerSetDelta s v).timeDelta=withHalf false s.timeDelta v := by
  cases x with
  | rv64 => rfl
  | rv32 =>
    show v.setWidth 64=s.timeDelta.extractLsb' 32 32++v.setWidth 32
    rw [h rfl]
    apply BitVec.eq_of_getLsbD_eq
    intro i hi
    rw [BitVec.getLsbD_append,BitVec.getLsbD_setWidth,BitVec.getLsbD_setWidth,decide_eq_true hi]
    split
    next h => rw [decide_eq_true h]
    next h =>
      have hv : v.getLsbD i=false := BitVec.getLsbD_of_ge v i (not_lt.mp h)
      rw [hv]
      simp

theorem timerSetDeltaUpper_eq (hx : x=.rv32) (s : TrapState x) (v : Word x) :
    (timerSetDeltaUpper s v).timeDelta=withHalf true s.timeDelta v := by
  subst hx
  show s.timeDelta &&& 0xffffffff#64 ||| v.setWidth 64 <<< 32=v.setWidth 32++s.timeDelta.setWidth 32
  have hm : (0xffffffff#64)=BitVec.ofNat 64 (2^32-1) := rfl
  apply BitVec.eq_of_getLsbD_eq
  intro i hi
  rw [BitVec.getLsbD_append,hm,BitVec.getLsbD_or,BitVec.getLsbD_and,BitVec.getLsbD_ofNat,
    Nat.testBit_two_pow_sub_one,BitVec.getLsbD_shiftLeft,BitVec.getLsbD_setWidth,
    BitVec.getLsbD_setWidth,BitVec.getLsbD_setWidth]
  by_cases h : i<32
  · simp [h,hi]
  · have hx : i-32<Xlen.rv32.bits := show i-32<32 by omega
    simp [h,hi,show i-32<64 by omega,show i-32<32 by omega]

/-- The bits of the register take the value written. -/
theorem EmulatedCsr.store_written {v : Word x} {c : EmulatedCsr} (hw : c.writable s=true)
    (hh : c=.htimedelta false → x=.rv32 → s.timeDelta.extractLsb' 32 32=0)
    (hx : c=.htimedelta true → x=.rv32) : c.Written s (c.store s v) v := by
  cases c with
  | counter | time => cases hw
  | htimedelta high =>
    cases high with
    | false => exact ⟨timerSetDelta_eq s v (hh rfl),rfl⟩
    | true => exact ⟨timerSetDeltaUpper_eq (hx rfl) s v,rfl⟩
  | fflags => exact ⟨rfl,setFflags_fields s _⟩
  | frm => exact ⟨rfl,setFrm_fields s _⟩
  | fcsr => exact ⟨rfl,getFcsr_setFcsr s _⟩

end Switches

/-! ## The instruction -/

section Instruction

variable {env : TrapEnv x} {s : TrapState x} {word : Word x}

theorem csrOperation_eq (h0 : s.regs.gpr 0=0) (old : Word x) :
    csrOperation word old (s.getReg (regNum word SH_RS1))=
      (decodeCsrInsn word).map fun i => (i.newValue s old,i.writes) := by
  have hr : decide (rvX word SH_RS1 5≠0)=!decide (regNum word SH_RS1=0) := by
    rw [← decide_not]
    exact decide_eq_decide.mpr (not_congr ⟨fun h => Fin.ext h,fun h => congrArg Fin.val h⟩)
  unfold csrOperation decodeCsrInsn
  dsimp only
  rw [hr]
  generalize getRm word=m
  rcases m with _ | _ | _ | _ | _ | _ | _ | _ | m <;>
    simp [CsrInsn.newValue,CsrInsn.operand,CsrInsn.writes,archGpr_of_zero h0,TrapState.getReg]
  all_goals rfl

theorem decodeCsrInsn_csr {i : CsrInsn} (h : decodeCsrInsn word=some i) :
    i.csr=rvX word 20 12 ∧ i.rd=regNum word SH_RD := by
  unfold decodeCsrInsn at h
  dsimp only at h
  split at h <;> cases h <;> exact ⟨rfl,rfl⟩

theorem emulatedCsr_htimedelta {num : Nat} {high : Bool}
    (h : emulatedCsr env num=some (.htimedelta high)) :
    (high=false → num=CSR_HTIMEDELTA) ∧ (high=true → x=.rv32) := by
  simp only [emulatedCsr,ite_eq_iff,Option.some.injEq,EmulatedCsr.htimedelta.injEq,reduceCtorEq,and_false,
    or_false,false_or] at h
  obtain ⟨hnum,rfl⟩ | ⟨-,-,-,hx,rfl⟩ := h
  · exact ⟨fun _ => hnum,nofun⟩
  · exact ⟨nofun,fun _ => hx⟩

/-- A word sent on is the supervisor's illegal instruction. -/
theorem trulyIllegalInsn_refused (env : TrapEnv x) (word : Word x) (hb : s.regs.BelowM) :
    (trulyIllegalInsn env word s).1=SBI_OK ∧ CsrRefused s (trulyIllegalInsn env word s).2 word := by
  have hi : RedirectedIllegal s (trulyIllegalInsn env word (s.setTp s.tp)).2 word :=
    trulyIllegalInsn_redirected hb rfl
  change RedirectedIllegal s (trulyIllegalInsn env word s).2 word at hi
  have hv : nextVirt env ⟨s.regs.mepc,BitVec.ofNat x.bits CAUSE_ILLEGAL_INSTRUCTION,word,0,0⟩ s.regs=
      false := nextVirt_illegal word _
  rw [trulyIllegalInsn,sbiTrapRedirect_belowM hb]
  refine ⟨rfl,?_,fun n hn => ?_,redirect_sameContext env _ s⟩
  · rw [trulyIllegalInsn,sbiTrapRedirect_belowM hb] at hi
    exact hi
  · simp only [List.mem_cons,List.not_mem_nil,or_false,not_or] at hn
    apply redirect_csrs_of_ne hv
    · simp [hn]
    · simp [hn]

/-- A word carried out, from the state `t` the write left. -/
theorem csrExecuted_of {t : TrapState x} {i : CsrInsn} {c : EmulatedCsr} {old : Word x}
    (hf : StoreFrame s t) (hv : old=c.value env s)
    (hw : i.writes=true → c.Written s t (i.newValue s (c.value env s))) (hk : i.writes=false → t=s) :
    CsrExecuted env s ((t.setReg i.rd old).advance 4) i c := by
  have hr := hf.regs
  refine ⟨?_,?_,?_,fun h => ?_,hf.csrs,hf.live,?_,?_,hf.fpr,hf.mem,hf.redirects⟩
  · rw [← hv,← hr]
    exact archGpr_update _ _ _
  · rw [← hr]
    rfl
  · intro h
    have hc := hw h
    cases c <;> exact hc
  · have ht := hk h
    subst ht
    exact ⟨rfl,rfl,rfl⟩
  · rw [← hr]
    rfl
  · rw [← hr]
    rfl

/-- The write of the switch, where it makes one, carries the word out. -/
theorem csrExecuted_store {i : CsrInsn} {c : EmulatedCsr} (hw : i.writes=true → c.writable s=true)
    (hlow : i.writes=true → c=.htimedelta false → x=.rv32 → s.timeDelta.extractLsb' 32 32=0)
    (hhigh : c=.htimedelta true → x=.rv32) :
    CsrExecuted env s (((if i.writes then c.store s (i.newValue s (c.value env s)) else s).setReg i.rd
      (c.value env s)).advance 4) i c := by
  refine csrExecuted_of ?_ rfl (fun h => ?_) fun h => if_neg (by simp [h])
  · split
    · exact c.store_frame s _
    · exact ⟨rfl,fun _ _ => rfl,rfl,rfl,rfl,rfl⟩
  · rw [if_pos h]
    exact EmulatedCsr.store_written (hw h) (hlow h) hhigh

/-- An instruction the hart refuses is sent on by one of the three ways out. -/
theorem systemOpcodeInsn_refused {i : CsrInsn} (h0 : s.regs.gpr 0=0) (hi : decodeCsrInsn word=some i)
    (h : ∀ v,sbiEmulateCsrRead env s i.csr=some v →
      i.writes=true ∧ sbiEmulateCsrWrite env s i.csr (i.newValue s v)=none) :
    systemOpcodeInsn env s word=trulyIllegalInsn env word s := by
  rw [(decodeCsrInsn_csr hi).1] at h
  unfold systemOpcodeInsn
  dsimp only
  cases hr : sbiEmulateCsrRead env s (rvX word 20 12) with
  | none => rfl
  | some v =>
    obtain ⟨hw,hn⟩ := h v hr
    simp only [csrOperation_eq h0,hi,Option.map_some,hw,if_true,hn]

theorem systemOpcodeInsn_unencoded (h0 : s.regs.gpr 0=0) (hi : decodeCsrInsn word=none) :
    systemOpcodeInsn env s word=trulyIllegalInsn env word s := by
  unfold systemOpcodeInsn
  dsimp only
  cases sbiEmulateCsrRead env s (rvX word 20 12) with
  | none => rfl
  | some v => simp only [csrOperation_eq h0,hi,Option.map_none]

/-- And one it carries out makes its write, if it has one. -/
theorem systemOpcodeInsn_executed {i : CsrInsn} {v : Word x} {t : TrapState x}
    (h0 : s.regs.gpr 0=0) (hi : decodeCsrInsn word=some i)
    (hr : sbiEmulateCsrRead env s i.csr=some v)
    (hw : i.writes=true → sbiEmulateCsrWrite env s i.csr (i.newValue s v)=some t) :
    systemOpcodeInsn env s word=
      (SBI_OK,((if i.writes then t else s).setReg i.rd v).advance 4) := by
  obtain ⟨hcsr,hrd⟩ := decodeCsrInsn_csr hi
  rw [hcsr] at hr hw
  unfold systemOpcodeInsn
  simp only [hr,csrOperation_eq h0,hi,Option.map_some,hrd]
  cases hd : i.writes with
  | false => rfl
  | true => simp only [hw hd,if_true]

/-- Zicsr under the permissions of the interrupted mode, where the FP registers are on and the time
delta is not cut in half. -/
theorem systemOpcodeInsn_zicsr (env : TrapEnv x) (s : TrapState x) (word : Word x)
    (hb : s.regs.BelowM) (h0 : s.regs.gpr 0=0) (hf : ¬FcsrOff env s word) (hd : ¬DeltaHalved s word) :
    (systemOpcodeInsn env s word).1=SBI_OK ∧
      match csrAccess env s word with
      | some (i,c) => CsrExecuted env s (systemOpcodeInsn env s word).2 i c
      | none => CsrRefused s (systemOpcodeInsn env s word).2 word := by
  have hrefused := trulyIllegalInsn_refused env word hb
  cases hi : decodeCsrInsn word with
  | none =>
    rw [systemOpcodeInsn_unencoded h0 hi]
    simp only [csrAccess,hi,Option.bind_eq_bind,Option.bind_none]
    exact hrefused
  | some i =>
    have hon : env.softFp=true → s.fsOff → i.csr∉[CSR_FFLAGS,CSR_FRM,CSR_FCSR] := fun hs hoff hm =>
      hf ⟨hs,hoff,i,hi,by simpa using hm⟩
    have hread := sbiEmulateCsrRead_eq env hb i.csr hon
    have hwrite := fun v => sbiEmulateCsrWrite_eq env i.csr v hon
    cases hc : emulatedCsr env i.csr with
    | none =>
      have hn : sbiEmulateCsrRead env s i.csr=none := by rw [hread,hc]; rfl
      rw [systemOpcodeInsn_refused h0 hi fun v hv => by rw [hn] at hv; cases hv]
      simp only [csrAccess,hi,hc,Option.bind_eq_bind,Option.bind_none,Option.bind_some]
      exact hrefused
    | some c =>
      rw [hc] at hread
      have hacc : csrAccess env s word=
          if c.readable env s && (!i.writes || c.writable s) then some (i,c) else none := by
        simp only [csrAccess,hi,hc,Option.bind_eq_bind,Option.bind_some]
      rw [hacc]
      by_cases hr : c.readable env s=true
      swap
      · have hn : sbiEmulateCsrRead env s i.csr=none := by
          rw [hread,Option.bind_some,EmulatedCsr.read,if_neg hr]
        rw [systemOpcodeInsn_refused h0 hi fun v hv => by rw [hn] at hv; cases hv]
        simp only [hr,Bool.false_and,Bool.false_eq_true,if_false]
        exact hrefused
      have hval : sbiEmulateCsrRead env s i.csr=some (c.value env s) := by
        rw [hread,Option.bind_some,EmulatedCsr.read,if_pos hr]
      by_cases hp : i.writes=true ∧ c.writable s=false
      · rw [systemOpcodeInsn_refused h0 hi fun v hv => ⟨hp.1,by rw [hwrite,hc,Option.bind_some,hp.2]; rfl⟩]
        simp only [hp,Bool.and_false,Bool.not_true,Bool.or_false,Bool.false_eq_true,if_false]
        exact hrefused
      have hp' : i.writes=true → c.writable s=true := fun hw => Bool.of_not_eq_false fun h => hp ⟨hw,h⟩
      have hok : (c.readable env s && (!i.writes || c.writable s))=true := by
        cases hw : i.writes with
        | false => simp [hr]
        | true => simp [hr,hp' hw]
      rw [systemOpcodeInsn_executed h0 hi hval fun hw => by
        rw [hwrite,hc,Option.bind_some,if_pos (hp' hw)],if_pos hok]
      refine ⟨rfl,csrExecuted_store hp' (fun hw he hx => ?_) fun he => ?_⟩
      · subst he
        by_contra hne
        exact hd ⟨hx,hp' hw,hne,i,hi,(emulatedCsr_htimedelta hc).1 rfl,hw⟩
      · subst he
        exact (emulatedCsr_htimedelta hc).2 rfl

/-- `csrrw x5,htimedelta,x6` from S-mode. -/
theorem systemOpcodeInsn_zicsr_csrrw :
    CsrExecuted (TrapEnv.quiet .rv64) (TrapState.idle 0x2800 fun _ => 0)
      (systemOpcodeInsn (TrapEnv.quiet .rv64) (TrapState.idle 0x2800 fun _ => 0) 0x605312f3).2
      ⟨.rw,false,CSR_HTIMEDELTA,5,6⟩ (.htimedelta false) := by
  have h := systemOpcodeInsn_zicsr (TrapEnv.quiet .rv64) (TrapState.idle 0x2800 fun _ => 0) 0x605312f3
    (.inl (by decide)) rfl (fun hf => absurd hf.2.1 (by decide)) (fun hd => absurd hd.1 (by decide))
  have ha : csrAccess (TrapEnv.quiet .rv64) (TrapState.idle 0x2800 fun _ => 0) 0x605312f3=
      some (⟨.rw,false,CSR_HTIMEDELTA,5,6⟩,.htimedelta false) := by decide
  rw [ha] at h
  exact h.2

/-- `rdtime` from U-mode with every counter closed, and `frrm` with FS Off. -/
theorem rdtime_unchecked :
    counterAllowed { TrapEnv.quiet .rv64 with mtime := 7 } (TrapState.idle 0 fun _ => 0) 1=false ∧
    (systemOpcodeInsn { TrapEnv.quiet .rv64 with mtime := 7 } (TrapState.idle 0 fun _ => 0)
      0xc01022f3).2.regs.gpr 5=7 ∧
    (TrapState.idle (0 : Word .rv64) fun _ => 0).fsOff ∧
    (systemOpcodeInsn { TrapEnv.quiet .rv64 with uninitCsr := 9 } (TrapState.idle 0 fun _ => 0)
      0x002022f3).2.regs.gpr 5=9 := by
  decide

end Instruction
end OpenSBI
