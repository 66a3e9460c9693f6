import OpenSBI.Fp.Access

namespace OpenSBI

variable {x : Xlen} {env : TrapEnv x} {s t : TrapState x} {a : FpAccess x}

/-- The high half of the slot is all ones, as for a NaN-boxed single. -/
def Boxed (v : BitVec 64) : Prop := v.extractLsb' 32 32=BitVec.allOnes 32

instance (v : BitVec 64) : Decidable (Boxed v) := inferInstanceAs (Decidable (_=_))

section Memory

theorem firstFault_one (fault : Word x → Nat → Option (Fault x)) (u : Nat) (addr : Word x) :
    firstFault fault u 1 addr=fault addr u := by
  rw [firstFault,firstFault]
  cases fault addr u <;> rfl

theorem sbiLoad_snd (n : Nat) (addr : Word x) : (sbiLoad env n addr s).2=env.loadFault addr n := by
  rw [sbiLoad]
  cases env.loadFault addr n <;> rfl

/-- The bytes after the ones that are written do not matter. -/
theorem writeBytes_mod (mem : Word x → BitVec 8) (addr : Word x) (v n : Nat) :
    writeBytes mem addr (v%2^(8*n)) n=writeBytes mem addr v n := by
  induction n generalizing mem addr v with
  | zero => rfl
  | succ n ih =>
    have hp : 2^(8*(n+1))=2^8*2^(8*n) := by rw [← Nat.pow_add]; congr 1; ring
    have hb : BitVec.ofNat 8 (v%2^(8*(n+1)))=BitVec.ofNat 8 v := by
      apply BitVec.eq_of_toNat_eq
      rw [BitVec.toNat_ofNat,BitVec.toNat_ofNat,hp,Nat.mod_mul_right_mod]
    have hd : v%2^(8*(n+1))/2^8=v/2^8%2^(8*n) := by
      rw [hp,Nat.mod_mul_right_div_self]
    rw [writeBytes,writeBytes,hb,hd,ih]

theorem writeBytes_add (mem : Word x → BitVec 8) (addr : Word x) (v m n : Nat) :
    writeBytes mem addr v (m+n)=
      writeBytes (writeBytes mem addr v m) (addr+BitVec.ofNat x.bits m) (v/2^(8*m)) n := by
  induction m generalizing mem addr v with
  | zero => simp [writeBytes]
  | succ m ih =>
    have hp : 2^(8*(m+1))=2^8*2^(8*m) := by rw [← Nat.pow_add]; congr 1; ring
    rw [Nat.succ_add,writeBytes,ih,writeBytes,succ_address,hp,Nat.div_div_eq_div_mul]

theorem sbiLoadU64_snd (addr : Word x) :
    (sbiLoadU64 env addr s).2=firstFault env.loadFault (ptrBytes x) (8/ptrBytes x) addr := by
  cases x with
  | rv64 => exact (sbiLoad_snd 8 addr).trans (firstFault_one env.loadFault 8 addr).symm
  | rv32 =>
    show _=firstFault env.loadFault 4 2 addr
    rw [sbiLoadU64,firstFault,firstFault_one]
    show _=(env.loadFault addr 4 <|> env.loadFault (addr+4) 4)
    dsimp only
    rw [sbiLoad_snd,sbiLoad_snd]
    cases env.loadFault addr 4 with
    | some f => rfl
    | none => cases env.loadFault (addr+4) 4 <;> rfl

theorem sbiLoadU64_ok {addr : Word x}
    (h : firstFault env.loadFault (ptrBytes x) (8/ptrBytes x) addr=none) :
    (sbiLoadU64 env addr s).1=BitVec.ofNat 64 (readBytes s.mem addr 8) := by
  cases x with
  | rv64 =>
    have h8 : env.loadFault addr 8=none := (firstFault_one env.loadFault 8 addr).symm.trans h
    rw [sbiLoadU64,sbiLoad_none h8]
  | rv32 =>
    have h2 : firstFault env.loadFault 4 2 addr=none := h
    rw [firstFault,firstFault_one] at h2
    cases h4 : env.loadFault addr 4 with
    | some f => rw [h4] at h2; cases h2
    | none =>
      rw [h4] at h2
      have h0 : env.loadFault (addr+4) 4=none := h2
      rw [sbiLoadU64,sbiLoad_none h4,sbiLoad_none h0,readBytes_add s.mem addr 4 4]
      rfl

theorem sbiLoadU64_toNat {addr : Word x}
    (h : firstFault env.loadFault (ptrBytes x) (8/ptrBytes x) addr=none) :
    (sbiLoadU64 env addr s).1.toNat=readBytes s.mem addr 8 := by
  rw [sbiLoadU64_ok h,BitVec.toNat_ofNat]
  exact Nat.mod_eq_of_lt (readBytes_lt s.mem addr 8)

theorem sbiStore_snd (n : Nat) (addr : Word x) (v : Nat) :
    (sbiStore env n addr v s).2=env.storeFault addr n := by
  rw [sbiStore]
  cases env.storeFault addr n <;> rfl

theorem sbiStore_mem (env : TrapEnv x) (s : TrapState x) (n : Nat) (addr : Word x) (v : Nat) :
    ∃ mem,(sbiStore env n addr v s).1={ s with mem := mem } ∧
      (env.storeFault addr n=none → mem=writeBytes s.mem addr v n) := by
  rw [sbiStore]
  cases env.storeFault addr n with
  | some f => exact ⟨s.mem,rfl,fun h => by cases h⟩
  | none => exact ⟨writeBytes s.mem addr v n,rfl,fun _ => rfl⟩

theorem sbiStoreU64_snd (addr : Word x) (v : BitVec 64) :
    (sbiStoreU64 env addr v s).2=firstFault env.storeFault (ptrBytes x) (8/ptrBytes x) addr := by
  cases x with
  | rv64 => exact (sbiStore_snd 8 addr _).trans (firstFault_one env.storeFault 8 addr).symm
  | rv32 =>
    show _=firstFault env.storeFault 4 2 addr
    rw [sbiStoreU64,firstFault,firstFault_one,sbiStore_snd]
    show _=(env.storeFault addr 4 <|> env.storeFault (addr+4) 4)
    cases h : env.storeFault addr 4 with
    | some f => simp [sbiStore_snd,h]
    | none => simp [sbiStore_snd]

theorem sbiStoreU64_mem (env : TrapEnv x) (s : TrapState x) (addr : Word x) (v : BitVec 64) :
    ∃ mem,(sbiStoreU64 env addr v s).1={ s with mem := mem } ∧
      (firstFault env.storeFault (ptrBytes x) (8/ptrBytes x) addr=none →
        mem=writeBytes s.mem addr v.toNat 8) := by
  cases x with
  | rv64 =>
    obtain ⟨mem,hm,hn⟩ := sbiStore_mem env s 8 addr v.toNat
    exact ⟨mem,hm,fun h => hn ((firstFault_one env.storeFault 8 addr).symm.trans h)⟩
  | rv32 =>
    obtain ⟨lo,hlo,hnlo⟩ := sbiStore_mem env s 4 addr (v.toNat%2^32)
    cases h4 : env.storeFault addr 4 with
    | some f =>
      have h2 : ¬firstFault env.storeFault 4 2 addr=none := by
        rw [firstFault,h4]
        simp
      refine ⟨lo,?_,fun h => absurd h h2⟩
      rw [sbiStoreU64,sbiStore_snd,h4]
      exact hlo
    | none =>
      obtain ⟨hi,hhi,hnhi⟩ := sbiStore_mem env { s with mem := lo } 4 (addr+4) (v.toNat/2^32)
      refine ⟨hi,?_,?_⟩
      · rw [sbiStoreU64,sbiStore_snd,h4,hlo]
        exact hhi
      · intro h
        have h2 : firstFault env.storeFault 4 2 addr=none := h
        rw [firstFault,firstFault_one,h4] at h2
        rw [hnhi h2,hnlo h4,writeBytes_add s.mem addr _ 4 4,writeBytes_mod s.mem addr _ 4]
        rfl

end Memory

section Outcomes

/-- What a redirection reads is the same. -/
structure Framed (s t : TrapState x) : Prop where
  regs : t.regs=s.regs
  redirects : t.redirects=s.redirects
  stvec : t.csrs CSR_STVEC=s.csrs CSR_STVEC
  vstvec : t.csrs CSR_VSTVEC=s.csrs CSR_VSTVEC

theorem Framed.csrWrite {n : Nat} (h : Framed s t) (h1 : CSR_STVEC≠n) (h2 : CSR_VSTVEC≠n) (v : Word x) :
    Framed s (t.csrWrite n v) where
  regs := h.regs
  redirects := h.redirects
  stvec := by simp [TrapState.csrWrite,h1,h.stvec]
  vstvec := by simp [TrapState.csrWrite,h2,h.vstvec]

theorem Framed.setF64Rd (h : Framed s t) (r : Fin 32) (v : BitVec 64) : Framed s (t.setF64Rd r v) :=
  have hr : Framed s (t.setF64Reg r v) := ⟨h.regs,h.redirects,h.stvec,h.vstvec⟩
  hr.csrWrite (by decide) (by decide) _

/-- The registers after a redirection come from those before it and the two vectors. -/
theorem Framed.redirected (h : Framed s t) (trap : TrapInfo x) :
    (sbiTrapRedirect env trap t).2.regs=(sbiTrapRedirect env trap s).2.regs := by
  have h1 := h.stvec
  have h2 := h.vstvec
  simp only [CSR_STVEC,CSR_VSTVEC] at h1 h2
  rw [sbiTrapRedirect,sbiTrapRedirect,h.regs]
  by_cases hp : s.regs.prevMode≠PRV_S ∧ s.regs.prevMode≠PRV_U
  · rw [if_pos hp,if_pos hp]
  · rw [if_neg hp,if_neg hp]
    simp only [TrapState.redirect,h.regs]
    split <;> split <;>
      simp [TrapState.toVsMode,TrapState.toSMode,TrapState.csrWrite,TrapState.updateHstatus,h1,h2,
        CSR_STVEC,CSR_VSTVEC,CSR_HSTATUS,CSR_HTVAL,CSR_HTINST,CSR_STVAL,CSR_SEPC,CSR_SCAUSE,
        CSR_VSTVAL,CSR_VSEPC,CSR_VSCAUSE]

theorem Fault.eq_of_info {f g : Fault x} {epc : Word x}
    (h : TrapInfo.mk epc f.cause f.tval f.tval2 f.tinst=⟨epc,g.cause,g.tval,g.tval2,g.tinst⟩) : f=g := by
  cases f
  cases g
  simpa using h

/-- A redirection reports the fault of the access if it is the one that was seen. -/
theorem Framed.reported (h : Framed s t) {f g : Fault x} :
    FpAccess.Reported env f s (redirectFault env g t).2 ↔ g=f ∧ t.fpr=s.fpr := by
  have hred : (redirectFault env g t).2.redirects=
      s.redirects++[⟨s.regs.mepc,g.cause,g.tval,g.tval2,g.tinst⟩] := by
    rw [redirectFault,sbiTrapRedirect_redirects,h.redirects,h.regs]
  have hfpr : (redirectFault env g t).2.fpr=t.fpr := (sbiTrapRedirect_sameContext env _ t).fpr
  constructor
  · intro hr
    have hl := hred.symm.trans hr.redirects
    exact ⟨Fault.eq_of_info (List.head_eq_of_cons_eq (List.append_cancel_left hl)),
      hfpr.symm.trans hr.fpr⟩
  · intro hg
    obtain ⟨rfl,hf⟩ := hg
    refine ⟨hred,?_,hfpr.trans hf⟩
    rw [redirectFault,redirectFault,h.regs]
    exact h.redirected _

/-- What a handler leaves: the redirection of the fault it saw in `t`, or `done`. -/
def outcome (env : TrapEnv x) (g : Option (Fault x)) (t done : TrapState x) : TrapState x :=
  match g with
  | some f => (redirectFault env f t).2
  | none => done

/-- The access is exact if its own fault is the one that was seen, with no register written then. -/
theorem Framed.exact (h : Framed s t) {g : Option (Fault x)} {done : TrapState x}
    (hd : done.redirects=s.redirects) : a.Exact env s (outcome env g t done) ↔
      g=a.fault env ∧ (a.fault env=none → a.Done s done) ∧ (a.fault env≠none → t.fpr=s.fpr) := by
  unfold FpAccess.Exact
  cases a.fault env with
  | none =>
    cases g with
    | none => simp [outcome]
    | some g =>
      have hne : ¬a.Done s (redirectFault env g t).2 := by
        intro hr
        have hl := congrArg List.length hr.redirects
        rw [redirectFault,sbiTrapRedirect_redirects,h.redirects] at hl
        simp at hl
      simp [outcome,hne]
  | some f =>
    cases g with
    | none =>
      have hne : ¬FpAccess.Reported env f s done := by
        intro hr
        have hl := congrArg List.length (hd.symm.trans hr.redirects)
        simp at hl
      simp [outcome,hne]
    | some g => simpa [outcome] using h.reported

end Outcomes

section Effects

theorem ofNat_inj_lt {w m n : Nat} (hm : m<2^w) (hn : n<2^w) :
    BitVec.ofNat w m=BitVec.ofNat w n ↔ m=n := by
  rw [← BitVec.toNat_inj,BitVec.toNat_ofNat,BitVec.toNat_ofNat,Nat.mod_eq_of_lt hm,Nat.mod_eq_of_lt hn]

/-- The write-back of a load. -/
def FpAccess.commit (a : FpAccess x) (v : Nat) (t : TrapState x) : TrapState x :=
  match a.fmt with
  | .S => t.setF32Rd a.reg (BitVec.ofNat 32 v)
  | .D => t.setF64Rd a.reg (BitVec.ofNat 64 v)

/-- The write-back is the load's if the value is, and for a single if the high half is there. -/
theorem FpAccess.commit_loaded (hf : t.fpr=s.fpr) {v : Nat} (hv : v<2^(8*a.fmt.bytes)) :
    (a.commit v t).fpr=Function.update s.fpr a.reg (a.loaded s.mem) ↔
      v=readBytes s.mem a.addr a.fmt.bytes ∧ (a.fmt=.S → Boxed (s.fpr a.reg)) := by
  have hr := readBytes_lt s.mem a.addr a.fmt.bytes
  unfold FpAccess.commit FpAccess.loaded
  cases hfmt : a.fmt with
  | S =>
    rw [hfmt] at hv hr
    have hi : BitVec.ofNat 32 v=BitVec.ofNat 32 (readBytes s.mem a.addr 4) ↔
        v=readBytes s.mem a.addr 4 := ofNat_inj_lt hv hr
    show Function.update t.fpr a.reg _=_ ↔ _
    rw [hf,(Function.update_injective s.fpr a.reg).eq_iff,halves_inj,hi,and_comm]
    simp [Boxed,Fmt.bytes]
  | D =>
    rw [hfmt] at hv hr
    have hi : BitVec.ofNat 64 v=BitVec.ofNat 64 (readBytes s.mem a.addr 8) ↔
        v=readBytes s.mem a.addr 8 := ofNat_inj_lt hv hr
    show Function.update t.fpr a.reg _=_ ↔ _
    rw [hf,(Function.update_injective s.fpr a.reg).eq_iff]
    simpa [Fmt.bytes] using hi

theorem FpAccess.commit_frame (v : Nat) : (a.commit v t).redirects=t.redirects ∧
    (a.commit v t).regs=t.regs ∧ (a.commit v t).mem=t.mem := by
  unfold FpAccess.commit
  cases a.fmt <;> exact ⟨rfl,rfl,rfl⟩

theorem FpAccess.commit_redirects (h : Framed s t) (v : Nat) :
    ((a.commit v t).advance a.len).redirects=s.redirects :=
  (a.commit_frame v).1.trans h.redirects

theorem FpAccess.commit_done (h : Framed s t) (hf : t.fpr=s.fpr) (hm : t.mem=s.mem)
    (hs : a.store=false) {v : Nat} (hv : v<2^(8*a.fmt.bytes)) :
    a.Done s ((a.commit v t).advance a.len) ↔
      v=readBytes s.mem a.addr a.fmt.bytes ∧ (a.fmt=.S → Boxed (s.fpr a.reg)) := by
  obtain ⟨hred,hregs,hmem⟩ := a.commit_frame (t := t) v
  rw [← commit_loaded hf hv]
  constructor
  · intro hd
    have he := hd.fpr
    rw [hs] at he
    exact he
  · intro he
    refine ⟨hred.trans h.redirects,?_,?_,?_⟩
    · rw [TrapState.advance,hregs,h.regs]
    · rw [hs]
      exact he
    · rw [hs]
      exact hmem.trans hm

/-- A store that has written `mem` is the access if these are its bytes. -/
theorem FpAccess.stored_done (h : Framed s t) (hf : t.fpr=s.fpr) (hs : a.store=true)
    (mem : Word x → BitVec 8) :
    a.Done s (({ t with mem := mem } : TrapState x).advance a.len) ↔ mem=a.stored s a.addr := by
  constructor
  · intro hd
    have he := hd.mem
    rw [hs] at he
    exact he
  · intro he
    refine ⟨h.redirects,?_,?_,?_⟩
    · rw [TrapState.advance,h.regs]
    · rw [hs]
      exact hf
    · rw [hs]
      exact he

end Effects

section Misaligned

variable {word insn adr tval2 tinst : Word x}

/-- The load handler on an FP load, with the address it is handed. -/
theorem sbiMisalignedLoadHandler_fp (hw : trappedInsn env tinst t=.ok (word,a.len))
    (hp : loadPlan env word=some ⟨true,0,a.fmt.bytes,insn⟩) (hr : regNum insn SH_RD=a.reg)
    (hs : a.store=false) :
    (sbiMisalignedLoadHandler env adr tval2 tinst t).2=outcome env (a.faultFrom env 1 adr) t
      ((a.commit (readBytes t.mem adr a.fmt.bytes) t).advance a.len) := by
  have hc (v : Nat) : loadCommit ⟨true,0,a.fmt.bytes,insn⟩ v t=a.commit v t := by
    unfold loadCommit FpAccess.commit
    cases a.fmt <;> simp [hr,Fmt.bytes]
  rw [sbiMisalignedLoadHandler,hw]
  dsimp only
  rw [hp]
  dsimp only
  rw [FpAccess.faultFrom,hs,Nat.div_one]
  obtain hn | ⟨f,hf⟩ := noFault_or_firstFault env.loadFault adr a.fmt.bytes
  · have h0 : firstFault env.loadFault 1 a.fmt.bytes adr=none := firstFault_none_iff.mpr hn
    rw [loadLoop_ok hn]
    simp [h0,outcome,hc]
  · have h0 : firstFault env.loadFault 1 a.fmt.bytes adr=some f := firstFault_some_iff.mpr hf
    rw [loadLoop_error hf]
    simp [h0,outcome]

/-- The store handler on an FP store, with the address it is handed. -/
theorem sbiMisalignedStoreHandler_fp (adr tval2 : Word x) (hw : trappedInsn env tinst t=.ok (word,a.len))
    {v : Nat} (hp : storePlan env t word=some ⟨a.fmt.bytes,v⟩) (hs : a.store=true) :
    ∃ mem,(sbiMisalignedStoreHandler env adr tval2 tinst t).2=
      outcome env (a.faultFrom env 1 adr) { t with mem := mem }
        (({ t with mem := mem } : TrapState x).advance a.len) ∧
      (a.faultFrom env 1 adr=none → mem=writeBytes t.mem adr v a.fmt.bytes) := by
  rw [sbiMisalignedStoreHandler,hw]
  dsimp only
  rw [hp]
  dsimp only
  rw [FpAccess.faultFrom,hs,Nat.div_one]
  obtain hn | ⟨f,hf⟩ := noFault_or_firstFault env.storeFault adr a.fmt.bytes
  · have h0 : firstFault env.storeFault 1 a.fmt.bytes adr=none := firstFault_none_iff.mpr hn
    refine ⟨_,?_,fun _ => rfl⟩
    rw [storeLoop_ok _ hn]
    simp [h0,outcome]
  · have h0 : firstFault env.storeFault 1 a.fmt.bytes adr=some f := firstFault_some_iff.mpr hf
    obtain ⟨mem,hm⟩ := storeLoop_error (s := t) v hf
    refine ⟨mem,?_,?_⟩
    · rw [hm]
      simp [h0,outcome]
    · simp [h0]

/-- A load made at `adr` is right if `adr` gives the fault and the bytes of the access. -/
theorem misalignedLoad_exact (h : Framed s t) (hf : t.fpr=s.fpr) (hm : t.mem=s.mem)
    (hw : trappedInsn env tinst t=.ok (word,a.len))
    (hp : loadPlan env word=some ⟨true,0,a.fmt.bytes,insn⟩) (hr : regNum insn SH_RD=a.reg)
    (hs : a.store=false) : a.Exact env s (sbiMisalignedLoadHandler env adr tval2 tinst t).2 ↔
      a.faultFrom env 1 adr=a.fault env ∧ (a.fault env=none →
        readBytes s.mem adr a.fmt.bytes=readBytes s.mem a.addr a.fmt.bytes ∧
          (a.fmt=.S → Boxed (s.fpr a.reg))) := by
  rw [sbiMisalignedLoadHandler_fp hw hp hr hs,h.exact (FpAccess.commit_redirects h _),
    FpAccess.commit_done h hf hm hs (readBytes_lt _ _ _),hm]
  simp [hf]

/-- A store made at `adr` is right if `adr` gives the fault and the memory of the access. -/
theorem misalignedStore_exact (h : Framed s t) (hf : t.fpr=s.fpr) (hm : t.mem=s.mem)
    (hw : trappedInsn env tinst t=.ok (word,a.len))
    (hp : storePlan env t word=some ⟨a.fmt.bytes,(s.fpr a.reg).toNat%2^(8*a.fmt.bytes)⟩)
    (hs : a.store=true) : a.Exact env s (sbiMisalignedStoreHandler env adr tval2 tinst t).2 ↔
      a.faultFrom env 1 adr=a.fault env ∧ (a.fault env=none → a.stored s adr=a.stored s a.addr) := by
  obtain ⟨mem,ho,hn⟩ := sbiMisalignedStoreHandler_fp adr tval2 hw hp hs
  have ht : Framed s ({ t with mem := mem } : TrapState x) := ⟨h.regs,h.redirects,h.stvec,h.vstvec⟩
  have hd : (({ t with mem := mem } : TrapState x).advance a.len).redirects=s.redirects := h.redirects
  rw [ho,ht.exact hd,FpAccess.stored_done h hf hs]
  have hmem (h0 : a.faultFrom env 1 adr=none) : mem=a.stored s adr := by
    rw [hn h0,writeBytes_mod,hm]
    rfl
  constructor
  · intro hx
    refine ⟨hx.1,fun h0 => ?_⟩
    rw [← hmem (hx.1.trans h0)]
    exact hx.2.1 h0
  · intro hx
    refine ⟨hx.1,fun h0 => ?_,fun _ => hf⟩
    rw [hmem (hx.1.trans h0)]
    exact hx.2 h0

end Misaligned

section Aligned

/-- The aligned 32-bit loads write the register and move on, whether or not the load faults. -/
theorem alignedLoad_exact {v : Nat} (hv : v<2^(8*a.fmt.bytes)) (hs : a.store=false)
    (h : a.fault env=none → v=readBytes s.mem a.addr a.fmt.bytes) :
    a.Exact env s ((a.commit v s).advance a.len) ↔
      a.fault env=none ∧ (a.fault env=none → a.fmt=.S → Boxed (s.fpr a.reg)) := by
  have hs' : Framed s s := ⟨rfl,rfl,rfl,rfl⟩
  have ho : outcome env none s ((a.commit v s).advance a.len)=(a.commit v s).advance a.len := rfl
  rw [← ho,hs'.exact (FpAccess.commit_redirects hs' v),FpAccess.commit_done hs' rfl rfl hs hv]
  constructor
  · intro hx
    exact ⟨hx.1.symm,fun h0 => (hx.2.1 h0).2⟩
  · intro hx
    exact ⟨hx.1.symm,fun h0 => ⟨h h0,hx.2 h0⟩,fun _ => rfl⟩

/-- The parts of an aligned double are those of `sbi_load_u64()` and `sbi_store_u64()`. -/
theorem FpAccess.unit_double (hd : a.fmt=.D) : a.unit=ptrBytes x := by
  rw [FpAccess.unit,hd]
  cases x <;> rfl

theorem FpAccess.fault_double (hd : a.fmt=.D) (ha : a.Aligned) :
    a.fault env=firstFault (if a.store then env.storeFault else env.loadFault) (ptrBytes x)
      (8/ptrBytes x) a.addr := by
  rw [FpAccess.fault,if_pos ha,FpAccess.faultFrom,FpAccess.unit_double hd,hd]
  rfl

theorem FpAccess.unit_single (hd : a.fmt=.S) : a.unit=4 := by
  rw [FpAccess.unit,hd]
  cases x <;> rfl

theorem FpAccess.fault_single (hd : a.fmt=.S) (ha : a.Aligned) :
    a.fault env=(if a.store then env.storeFault else env.loadFault) a.addr 4 := by
  rw [FpAccess.fault,if_pos ha,FpAccess.faultFrom,FpAccess.unit_single hd,hd]
  exact firstFault_one _ 4 a.addr

/-- What the aligned load returns, in one access or in the two of `sbi_load_u64()`. -/
def FpAccess.loadParts (a : FpAccess x) (env : TrapEnv x) (t : TrapState x) : Nat :=
  match a.fmt with
  | .S => (sbiLoad env 4 a.addr t).1
  | .D => (sbiLoadU64 env a.addr t).1.toNat

theorem sbiLoad_lt (n : Nat) (addr : Word x) : (sbiLoad env n addr s).1<2^(8*n) := by
  rw [sbiLoad]
  cases env.loadFault addr n with
  | some f => exact Nat.mod_lt _ (Nat.two_pow_pos _)
  | none => exact readBytes_lt s.mem addr n

theorem FpAccess.loadParts_lt (a : FpAccess x) (env : TrapEnv x) (t : TrapState x) :
    a.loadParts env t<2^(8*a.fmt.bytes) := by
  unfold loadParts
  cases a.fmt with
  | S => exact sbiLoad_lt 4 a.addr
  | D => exact (sbiLoadU64 env a.addr t).1.isLt

theorem FpAccess.loadParts_ok (a : FpAccess x) (hs : a.store=false) (ha : a.Aligned)
    (h : a.fault env=none) : a.loadParts env t=readBytes t.mem a.addr a.fmt.bytes := by
  unfold loadParts
  cases hfmt : a.fmt with
  | S =>
    rw [fault_single hfmt ha,hs] at h
    have h4 : env.loadFault a.addr 4=none := h
    rw [sbiLoad_none h4]
    rfl
  | D =>
    rw [fault_double hfmt ha,hs] at h
    exact sbiLoadU64_toNat h

/-- The aligned compressed loads write the register before they look at the fault. -/
theorem rvcLoad64_exact (h : Framed s t) (hf : t.fpr=s.fpr) (hm : t.mem=s.mem) (hs : a.store=false)
    (hd : a.fmt=.D) (hl : a.len=2) (ha : a.Aligned) :
    a.Exact env s (finishRvc env (sbiLoadU64 env a.addr t).2
        (t.setF64Rd a.reg (sbiLoadU64 env a.addr t).1)).2 ↔
      ∀ f,a.fault env=some f → (sbiLoadU64 env a.addr t).1=s.fpr a.reg := by
  have hfault : (sbiLoadU64 env a.addr t).2=a.fault env := by
    rw [sbiLoadU64_snd,FpAccess.fault_double hd ha,hs]
    rfl
  have hc : t.setF64Rd a.reg (sbiLoadU64 env a.addr t).1=
      a.commit (sbiLoadU64 env a.addr t).1.toNat t := by
    rw [FpAccess.commit,hd]
    simp
  have ho (g : Option (Fault x)) (u : TrapState x) :
      (finishRvc env g u).2=outcome env g u (u.advance a.len) := by
    rw [hl]
    cases g <;> rfl
  have hv : (sbiLoadU64 env a.addr t).1.toNat<2^(8*a.fmt.bytes) := by
    rw [hd]
    exact (sbiLoadU64 env a.addr t).1.isLt
  have hu : Framed s (a.commit (sbiLoadU64 env a.addr t).1.toNat t) := by
    rw [← hc]
    exact h.setF64Rd _ _
  have hw : (a.commit (sbiLoadU64 env a.addr t).1.toNat t).fpr=s.fpr ↔
      (sbiLoadU64 env a.addr t).1=s.fpr a.reg := by
    rw [← hc]
    show Function.update t.fpr a.reg _=s.fpr ↔ _
    rw [hf,Function.update_eq_self_iff]
  rw [ho,hc,hu.exact (FpAccess.commit_redirects h _),FpAccess.commit_done h hf hm hs hv,hw,hfault]
  constructor
  · intro hx f he
    exact hx.2.2 (by rw [he]; simp)
  · intro hx
    refine ⟨rfl,fun h0 => ⟨?_,by simp [hd]⟩,fun hne => ?_⟩
    · have h8 : firstFault env.loadFault (ptrBytes x) (8/ptrBytes x) a.addr=none := by
        rw [← sbiLoadU64_snd,hfault,h0]
      rw [sbiLoadU64_toNat h8,hm,hd]
      rfl
    · obtain ⟨f,he⟩ := Option.ne_none_iff_exists'.mp hne
      exact hx f he

/-- The aligned stores report what they see, and write the bytes of the register. -/
theorem alignedStore_exact (h : Framed s t) (hf : t.fpr=s.fpr) (hm : t.mem=s.mem) (hs : a.store=true)
    {r : TrapState x×Option (Fault x)} (hr : r.2=a.fault env) {v : Nat}
    (hv : v%2^(8*a.fmt.bytes)=(s.fpr a.reg).toNat%2^(8*a.fmt.bytes))
    (hw : ∃ mem,r.1={ t with mem := mem } ∧
      (a.fault env=none → mem=writeBytes t.mem a.addr v a.fmt.bytes)) :
    a.Exact env s (outcome env r.2 r.1 (r.1.advance a.len)) := by
  obtain ⟨mem,hr1,hn⟩ := hw
  have ht : Framed s ({ t with mem := mem } : TrapState x) := ⟨h.regs,h.redirects,h.stvec,h.vstvec⟩
  have hd : (({ t with mem := mem } : TrapState x).advance a.len).redirects=s.redirects := h.redirects
  rw [hr1,ht.exact hd,FpAccess.stored_done h hf hs]
  refine ⟨hr,fun h0 => ?_,fun _ => hf⟩
  rw [hn h0,hm,← writeBytes_mod,hv,writeBytes_mod]
  rfl

theorem storeU64_exact (h : Framed s t) (hf : t.fpr=s.fpr) (hm : t.mem=s.mem) (hs : a.store=true)
    (hd : a.fmt=.D) (ha : a.Aligned) {r : TrapState x×Option (Fault x)}
    (hr : r=sbiStoreU64 env a.addr (s.fpr a.reg) t) :
    a.Exact env s (outcome env r.2 r.1 (r.1.advance a.len)) := by
  have hfault : a.fault env=firstFault env.storeFault (ptrBytes x) (8/ptrBytes x) a.addr := by
    rw [FpAccess.fault_double hd ha,hs]
    rfl
  obtain ⟨mem,hm1,hn⟩ := sbiStoreU64_mem env t a.addr (s.fpr a.reg)
  refine alignedStore_exact h hf hm hs (v := (s.fpr a.reg).toNat) ?_ rfl ⟨mem,?_,?_⟩
  · rw [hr,sbiStoreU64_snd,hfault]
  · rw [hr,hm1]
  · rw [hfault,hd]
    exact hn

end Aligned

end OpenSBI
