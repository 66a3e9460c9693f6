import OpenSBI.Riscv.Hartmask
import OpenSBI.Riscv.Xlen

namespace OpenSBI

variable {x : Xlen}

def PAGE_SIZE : Nat := 4096

def SBI_TLB_FLUSH_ALL : Word x := Word.max

/-- The fence instructions of the local flush functions with their register operands; `none` is
the register `x0`. -/
inductive Fence (x : Xlen) where
  | fenceI
  | sfenceVma (va asid : Option (Word x))
  | hfenceVvma (hgatpVmid : Word x) (va asid : Option (Word x))
  | hfenceGvma (gpa vmid : Option (Word x))
  deriving DecidableEq

/-- What a fence orders: instruction fetches, or the cached translations of one page in one
address space. -/
inductive Translation (x : Xlen) where
  | instr
  | stage1 (asid page : Word x)
  | vstage (vmid asid page : Word x)
  | gstage (vmid page : Word x)
  deriving DecidableEq

/-- `HFENCE.GVMA` takes the guest physical address shifted right by two. -/
def Fence.covers : Fence x → Translation x → Bool
  | .fenceI,.instr => true
  | .sfenceVma va asid,.stage1 asid' page =>
      va.all (fun (a : Word x) => decide (a >>> 12=page)) && asid.all (fun a => decide (a=asid'))
  | .hfenceVvma vmid va asid,.vstage vmid' asid' page =>
      decide (vmid=vmid') && va.all (fun (a : Word x) => decide (a >>> 12=page)) &&
        asid.all (fun a => decide (a=asid'))
  | .hfenceGvma gpa vmid,.gstage vmid' page =>
      gpa.all (fun (a : Word x) => decide (a >>> 10=page)) && vmid.all (fun a => decide (a=vmid'))
  | _,_ => false

/-- The local flush functions a request can carry. -/
inductive LocalFn where
  | fenceI
  | sfenceVma
  | sfenceVmaAsid
  | hfenceGvma
  | hfenceGvmaVmid
  | hfenceVvma
  | hfenceVvmaAsid
  deriving DecidableEq,Repr

/-- `struct sbi_tlb_info`. -/
structure TlbInfo (x : Xlen) where
  start : Word x
  size : Word x
  asid : Word x
  vmid : Word x
  localFn : LocalFn
  smask : Hartmask
  deriving DecidableEq

/-- The page loop of the local functions from offset `i` on. With a size above the last page
boundary the counter wraps and the loop of the source visits the same pages again for ever; one
round through the address space is then all it fences. -/
def pageLoop (issue : Word x → Fence x) (size i : Word x) : Nat → List (Fence x)
  | 0 => []
  | fuel+1 =>
      if i < size then issue i::pageLoop issue size (i+BitVec.ofNat x.bits PAGE_SIZE) fuel else []

/-- The shape of the range flushes: two encodings of a full flush, else one fence a page. -/
def rangeFlush (start size : Word x) (everything whole : Fence x) (page : Word x → Fence x) :
    List (Fence x) :=
  if start=0 ∧ size=0 then [everything]
  else if size=SBI_TLB_FLUSH_ALL then [whole]
  else pageLoop page size 0 (2^(x.bits-12))

/-- The VMID field `csr_swap()` puts into `hgatp`. -/
def hgatpVmid (vmid : Word x) : Word x :=
  match x with
  | .rv32 => (((vmid : BitVec 32) <<< 22 &&& 0x1fc00000) >>> 22 : BitVec 32)
  | .rv64 => (((vmid : BitVec 64) <<< 44 &&& 0x03fff00000000000) >>> 44 : BitVec 64)

def sbiTlbLocalFenceI : List (Fence x) := [.fenceI]

def sbiTlbLocalSfenceVma (t : TlbInfo x) : List (Fence x) :=
  rangeFlush t.start t.size (.sfenceVma none none) (.sfenceVma none none)
    (fun i => .sfenceVma (some (t.start+i)) none)

def sbiTlbLocalSfenceVmaAsid (t : TlbInfo x) : List (Fence x) :=
  rangeFlush t.start t.size (.sfenceVma none none) (.sfenceVma none (some t.asid))
    (fun i => .sfenceVma (some (t.start+i)) (some t.asid))

def sbiTlbLocalHfenceGvma (t : TlbInfo x) : List (Fence x) :=
  rangeFlush t.start t.size (.hfenceGvma none none) (.hfenceGvma none none)
    (fun i => .hfenceGvma (some ((t.start+i) >>> 2)) none)

def sbiTlbLocalHfenceGvmaVmid (t : TlbInfo x) : List (Fence x) :=
  rangeFlush t.start t.size (.hfenceGvma none none) (.hfenceGvma none (some t.vmid))
    (fun i => .hfenceGvma (some ((t.start+i) >>> 2)) (some t.vmid))

def sbiTlbLocalHfenceVvma (t : TlbInfo x) : List (Fence x) :=
  rangeFlush t.start t.size (.hfenceVvma (hgatpVmid t.vmid) none none)
    (.hfenceVvma (hgatpVmid t.vmid) none none)
    (fun i => .hfenceVvma (hgatpVmid t.vmid) (some (t.start+i)) none)

def sbiTlbLocalHfenceVvmaAsid (t : TlbInfo x) : List (Fence x) :=
  rangeFlush t.start t.size (.hfenceVvma (hgatpVmid t.vmid) none none)
    (.hfenceVvma (hgatpVmid t.vmid) none (some t.asid))
    (fun i => .hfenceVvma (hgatpVmid t.vmid) (some (t.start+i)) (some t.asid))

namespace TlbInfo

/-- The fences `local_fn` issues for an entry. -/
def fences (t : TlbInfo x) : List (Fence x) :=
  match t.localFn with
  | .fenceI => sbiTlbLocalFenceI
  | .sfenceVma => sbiTlbLocalSfenceVma t
  | .sfenceVmaAsid => sbiTlbLocalSfenceVmaAsid t
  | .hfenceGvma => sbiTlbLocalHfenceGvma t
  | .hfenceGvmaVmid => sbiTlbLocalHfenceGvmaVmid t
  | .hfenceVvma => sbiTlbLocalHfenceVvma t
  | .hfenceVvmaAsid => sbiTlbLocalHfenceVvmaAsid t

/-- Running the entry's `local_fn` fences the translation. -/
def Covers (t : TlbInfo x) (tr : Translation x) : Prop := ∃ f∈t.fences,f.covers tr=true

end TlbInfo

/-- Some entry of the queue fences the translation. -/
def CoveredBy (q : List (TlbInfo x)) (tr : Translation x) : Prop := ∃ e∈q,e.Covers tr

theorem mem_pageLoop {issue : Word x → Fence x} {size i : Word x} {fuel : Nat}
    (hfuel : i.toNat+fuel*PAGE_SIZE≤2^x.bits) (f : Fence x) :
    f∈pageLoop issue size i fuel ↔
      ∃ k,k<fuel ∧ i.toNat+k*PAGE_SIZE < size.toNat ∧
        f=issue (i+BitVec.ofNat x.bits (k*PAGE_SIZE)) := by
  induction fuel generalizing i with
  | zero => simp [pageLoop]
  | succ fuel ih =>
    have hpage : PAGE_SIZE=4096 := rfl
    rw [pageLoop]
    by_cases hi : i < size
    · have hlt : i.toNat < size.toNat := hi
      rw [if_pos hi,List.mem_cons]
      have hstep : ∀ k,i+BitVec.ofNat x.bits PAGE_SIZE+BitVec.ofNat x.bits (k*PAGE_SIZE)=
          i+BitVec.ofNat x.bits ((k+1)*PAGE_SIZE) := by
        intro k
        rw [BitVec.add_assoc,← BitVec.ofNat_add]
        congr 2
        ring
      by_cases hlast : fuel=0
      · subst hlast
        simp only [pageLoop,List.not_mem_nil,or_false]
        constructor
        · rintro rfl
          exact ⟨0,by omega,by omega,by simp⟩
        · rintro ⟨k,hk,-,rfl⟩
          obtain rfl : k=0 := by omega
          simp
      · have hnext : (i+BitVec.ofNat x.bits PAGE_SIZE).toNat=i.toNat+PAGE_SIZE := by
          have hsmall : PAGE_SIZE<2^x.bits := by cases x <;> decide
          have hroom : PAGE_SIZE≤fuel*PAGE_SIZE :=
            Nat.le_mul_of_pos_left _ (Nat.pos_of_ne_zero hlast)
          rw [BitVec.toNat_add,BitVec.toNat_ofNat,Nat.mod_eq_of_lt hsmall]
          exact Nat.mod_eq_of_lt (by rw [Nat.add_mul] at hfuel; omega)
        rw [ih (by rw [hnext]; rw [Nat.add_mul] at hfuel; omega),hnext]
        constructor
        · rintro (rfl | ⟨k,hk,hks,rfl⟩)
          · exact ⟨0,by omega,by omega,by simp⟩
          · exact ⟨k+1,by omega,by rw [Nat.add_mul]; omega,by rw [hstep]⟩
        · rintro ⟨k,hk,hks,rfl⟩
          cases k with
          | zero => left; simp
          | succ k =>
            right
            exact ⟨k,by omega,by rw [Nat.add_mul] at hks; omega,by rw [hstep]⟩
    · have hle : ¬i.toNat < size.toNat := hi
      rw [if_neg hi]
      constructor
      · intro h; exact absurd h List.not_mem_nil
      · rintro ⟨k,-,hk,-⟩; omega

end OpenSBI
