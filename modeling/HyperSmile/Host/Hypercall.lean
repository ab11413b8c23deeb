/-
# Host.Hypercall — what the hypervisor sees of the attested pages: kvm/x86.c

The guest's `ptid`, run on CPU 1 by the IPI of a 0xdd write, raises a hypercall whose
four registers the host's `kvm_emulate_hypercall` takes as three guest virtual
addresses: SSA in rbx, anchor in rcx, worker data in rdx. It copies 0x100, 40 and
0x100 bytes from there into its shadows.

`ptid` puts `pp1` in rcx, but the constant 0xa in rbx and `data_tr`, which the module
never fills, in rdx. So the anchor always arrives, the SSA shadow holds whatever is
mapped at virtual address 0xa, and the data shadow is zero (`attestation_agrees_iff`).

The second copies of the shadows, the comparisons with an empty body and the value
returned in rax reach neither the guest nor the shadows and have no counterpart here.
The cycle counters are in `Host.KvmCount`.
-/
import HyperSmile.Guest.Jxdev

namespace HyperSmile.Host.Hypercall

open HyperSmile.Guest.Jxdev

set_option autoImplicit false

/-! ## The guest: where the buffers are and what `ptid` passes -/

/-- The static buffers of jxdev.c the host can be pointed at. -/
inductive Buffer where
  | pp
  | pp0
  | pp1
  | dataTr
  deriving DecidableEq, Repr

def Buffer.content (dev : Device) : Buffer → Page
  | .pp => dev.pp
  | .pp0 => dev.pp0
  | .pp1 => dev.pp1
  | .dataTr => dev.dataTr

/-- Where the module is loaded: every buffer is `aligned(4096)`, they are different
objects, and none is the page at address 0. -/
structure Layout where
  base : Buffer → BitVec 64
  aligned : ∀ b, (base b).toNat % 4096 = 0
  positive : ∀ b, 0 < (base b).toNat
  distinct : ∀ b c, (base b).toNat = (base c).toNat → b = c

namespace Layout

/-- The buffer an address lies in. -/
def bufferAt (layout : Layout) (a : BitVec 64) : Option Buffer :=
  [Buffer.pp, .pp0, .pp1, .dataTr].find? fun b => a.toNat / 4096 == (layout.base b).toNat / 4096

/-- The guest's memory by virtual address: the module's buffers, and `other` for the
rest. -/
def guestByte (layout : Layout) (dev : Device) (other : BitVec 64 → BitVec 8) (a : BitVec 64) :
    BitVec 8 :=
  match layout.bufferAt a with
  | some b => b.content dev ⟨a.toNat % 4096, Nat.mod_lt _ (by decide)⟩
  | none => other a

end Layout

/-- The operands of `kvm_hypercall4`: rax, rbx, rcx, rdx and rsi. -/
structure Hypercall4 where
  nr : BitVec 32
  p1 : BitVec 64
  p2 : BitVec 64
  p3 : BitVec 64
  p4 : BitVec 64

/-- The IPI handler. `KVM_HC_VAPIC_POLL_IRQ` is 2 in jxdev.c, and `p` is 0xa. -/
def ptid (layout : Layout) : Hypercall4 :=
  ⟨2, 0xa, layout.base .pp1, layout.base .dataTr, 0xbb⟩

/-! ## The host -/

/-- What `kvm_emulate_hypercall` asks of the virtual CPU. -/
structure Vcpu where
  vcpuId : Nat
  xenHypercallEnabled : Bool
  hvHypercallEnabled : Bool
  is64BitMode : Bool
  cpl : Nat

structure Shadows where
  ssa : Fin 0x100 → BitVec 8
  anchor : Fin 40 → BitVec 8
  data : Fin 0x100 → BitVec 8

/-- The part of `kvm_emulate_hypercall` that serves a call, with what it read. -/
inductive Outcome where
  | xen
  | hyperV
  /-- `-KVM_EPERM`: not from ring 0 -/
  | refused
  /-- a number KVM has a case for -/
  | known (nr : BitVec 64)
  /-- default case, vCPU 2: 30 bytes of `tramp_test` are written to the guest -/
  | patch (gva : BitVec 64)
  /-- default case, vCPU 1 -/
  | shadowed (shadows : Shadows)
  /-- default case, vCPU 0: the 800 bytes of `buffer`, read unless `a3` is 0xa -/
  | buffered (buffer : Option (Fin 800 → BitVec 8))
  /-- default case, any other vCPU -/
  | ignored

/-- The numbers with a case of their own: `KVM_HC_VAPIC_POLL_IRQ`, `KICK_CPU`,
`CLOCK_PAIRING`, `SEND_IPI`, `SCHED_YIELD` and `MAP_GPA_RANGE` of the host's header. -/
def knownNumbers : List (BitVec 64) := [1, 5, 9, 10, 11, 12]

/-- `kvm_mmu_gva_to_gpa_system` and `kvm_read_guest`. -/
def readGuest (guest : BitVec 64 → BitVec 8) (gva : BitVec 64) (len : Nat) : Fin len → BitVec 8 :=
  fun i => guest (gva + BitVec.ofNat 64 i)

def kvmEmulateHypercall (vcpu : Vcpu) (call : Hypercall4) (guest : BitVec 64 → BitVec 8) :
    Outcome :=
  if vcpu.xenHypercallEnabled then .xen
  else if vcpu.hvHypercallEnabled then .hyperV
  else
    let low (x : BitVec 64) : BitVec 64 := if vcpu.is64BitMode then x else x &&& 0xFFFFFFFF
    let nr := low (call.nr.setWidth 64)
    let a0 := low call.p1
    let a1 := low call.p2
    let a2 := low call.p3
    let a3 := low call.p4
    if vcpu.cpl ≠ 0 then .refused
    else if nr ∈ knownNumbers then .known nr
    else if vcpu.vcpuId = 2 then .patch a0
    else if vcpu.vcpuId = 1 then
      .shadowed ⟨readGuest guest a0 0x100, readGuest guest a1 40, readGuest guest a2 0x100⟩
    else if vcpu.vcpuId = 0 then
      .buffered (if a3 ≠ 0xa then some (readGuest guest a3 800) else none)
    else .ignored

/-- The virtual CPU the IPI goes to: a 64-bit guest kernel, no Xen or Hyper-V
interface. -/
def vcpu1 : Vcpu := ⟨1, false, false, true, 0⟩

/-! ## Reading a buffer through its address -/

namespace Layout

/-- The addresses of a page do not wrap. -/
theorem toNat_base_add (layout : Layout) (b : Buffer) {i : Nat} (inside : i < 4096) :
    (layout.base b + BitVec.ofNat 64 i).toNat = (layout.base b).toNat + i := by
  have aligned := layout.aligned b
  have small := (layout.base b).isLt
  rw [BitVec.toNat_add, BitVec.toNat_ofNat]
  omega

theorem bufferAt_base (layout : Layout) (b : Buffer) (i : Nat) (inside : i < 4096) :
    layout.bufferAt (layout.base b + BitVec.ofNat 64 i) = some b := by
  have number : (layout.base b + BitVec.ofNat 64 i).toNat / 4096 =
      (layout.base b).toNat / 4096 := by
    have aligned := layout.aligned b
    rw [layout.toNat_base_add b inside]
    omega
  have own : ∀ c, ((layout.base b + BitVec.ofNat 64 i).toNat / 4096 ==
      (layout.base c).toNat / 4096) = (b == c) := by
    intro c
    rw [number, Bool.eq_iff_iff, beq_iff_eq, beq_iff_eq]
    refine ⟨fun same => layout.distinct b c ?_, fun same => by rw [same]⟩
    have := layout.aligned b
    have := layout.aligned c
    omega
  simp only [bufferAt, own]
  cases b <;> rfl

theorem bufferAt_low (layout : Layout) (a : BitVec 64) (low : a.toNat < 4096) :
    layout.bufferAt a = none := by
  rw [bufferAt, List.find?_eq_none]
  intro b _
  have := layout.aligned b
  have := layout.positive b
  simp only [beq_iff_eq]
  omega

theorem guestByte_base (layout : Layout) (dev : Device) (other : BitVec 64 → BitVec 8) (b : Buffer)
    (i : Nat) (inside : i < 4096) :
    layout.guestByte dev other (layout.base b + BitVec.ofNat 64 i) = b.content dev ⟨i, inside⟩ := by
  have offset : (layout.base b + BitVec.ofNat 64 i).toNat % 4096 = i := by
    have aligned := layout.aligned b
    rw [layout.toNat_base_add b inside]
    omega
  simp only [guestByte, layout.bufferAt_base b i inside, offset]

end Layout

/-! ## The three writes of an attestation -/

/-- The application writes an SSA, an anchor and a worker page; the hypercall is
emulated when the last write sends the IPI. -/
def attest (layout : Layout) (other : BitVec 64 → BitVec 8) (dev : Device)
    (ssa anchor worker : Page) : Option Outcome :=
  let dev := (jxdevWrite dev (.page ssa)).1
  let dev := (jxdevWrite dev (.page anchor)).1
  let last := jxdevWrite dev (.page worker)
  if .smpCall ∈ last.2 then
    some (kvmEmulateHypercall vcpu1 (ptid layout) (layout.guestByte last.1 other))
  else none

/-- The shadows hold what the application wrote. -/
def Agrees (outcome : Option Outcome) (ssa anchor worker : Page) : Prop :=
  ∃ shadows, outcome = some (.shadowed shadows) ∧
    (∀ i : Fin 0x100, shadows.ssa i = ssa (i.castLE (by decide))) ∧
    (∀ i : Fin 40, shadows.anchor i = anchor (i.castLE (by decide))) ∧
    ∀ i : Fin 0x100, shadows.data i = worker (i.castLE (by decide))

/-- What the device holds when the third write sends the IPI. -/
theorem attest_device (dev : Device) (ssa : Page) {anchor worker : Page}
    (anchorTag : anchor 700 = 0xbb) (workerTag : worker 700 = 0xdd) :
    let dev' := (jxdevWrite (jxdevWrite (jxdevWrite dev (.page ssa)).1 (.page anchor)).1
      (.page worker))
    dev'.1.pp1 = anchor ∧ dev'.1.dataTr = dev.dataTr ∧ dev'.2 = [.smpCall] := by
  generalize hs : (jxdevWrite dev (.page ssa)).1 = first
  have anchored : (jxdevWrite first (.page anchor)).1.pp1 = anchor := by
    rcases jxdevWrite_page_cases first anchor anchor with ⟨tag, -⟩ | ⟨-, eq⟩ | ⟨untagged, -⟩
    · rw [anchorTag] at tag
      exact absurd tag (by decide)
    · exact congrArg (fun written => written.1.pp1) eq
    · exact absurd (Or.inr anchorTag) untagged
  refine ⟨?_, by simp [← hs], ?_⟩
  · rcases jxdevWrite_page_cases (jxdevWrite first (.page anchor)).1 worker worker with
      ⟨tag, -⟩ | ⟨tag, -⟩ | ⟨-, eq, -⟩
    · rw [workerTag] at tag
      exact absurd tag (by decide)
    · rw [workerTag] at tag
      exact absurd tag (by decide)
    · exact (congrArg Device.pp1 eq).trans anchored
  · rw [jxdevWrite_actions]
    exact requested_worker (by simpa [UserWrite.page] using workerTag)

theorem kvmEmulateHypercall_ptid (layout : Layout) (dev : Device) (other : BitVec 64 → BitVec 8) :
    kvmEmulateHypercall vcpu1 (ptid layout) (layout.guestByte dev other) =
      .shadowed ⟨fun i => other (0xa + BitVec.ofNat 64 i),
        fun i => dev.pp1 (i.castLE (by decide)), fun i => dev.dataTr (i.castLE (by decide))⟩ := by
  have ssa : readGuest (layout.guestByte dev other) 0xa 0x100 =
      fun i : Fin 0x100 => other (0xa + BitVec.ofNat 64 i) := by
    funext i
    have low : (0xa + BitVec.ofNat 64 i : BitVec 64).toNat < 4096 := by
      have := i.isLt
      have ten : (0xa : BitVec 64).toNat = 10 := rfl
      rw [BitVec.toNat_add, BitVec.toNat_ofNat, ten]
      omega
    rw [readGuest, Layout.guestByte, layout.bufferAt_low _ low]
  have anchor : readGuest (layout.guestByte dev other) (layout.base .pp1) 40 =
      fun i : Fin 40 => dev.pp1 (i.castLE (by decide)) := by
    funext i
    exact layout.guestByte_base dev other .pp1 i (by omega)
  have data : readGuest (layout.guestByte dev other) (layout.base .dataTr) 0x100 =
      fun i : Fin 0x100 => dev.dataTr (i.castLE (by decide)) := by
    funext i
    exact layout.guestByte_base dev other .dataTr i (by omega)
  rw [← ssa, ← anchor, ← data]
  rfl

/-- The shadows after the third write. -/
theorem attest_eq (layout : Layout) (other : BitVec 64 → BitVec 8) (history : List UserWrite)
    (ssa : Page) {anchor worker : Page} (anchorTag : anchor 700 = 0xbb)
    (workerTag : worker 700 = 0xdd) :
    attest layout other (after history) ssa anchor worker =
      some (.shadowed ⟨fun i => other (0xa + BitVec.ofNat 64 i),
        fun i => anchor (i.castLE (by decide)), fun _ => 0⟩) := by
  obtain ⟨pp1, dataTr, ipi⟩ := attest_device (after history) ssa anchorTag workerTag
  simp only [attest, ipi, List.mem_singleton, if_true, kvmEmulateHypercall_ptid, pp1, dataTr,
    after_dataTr]

/-- **Guest and host agree exactly when it does not matter**: the guest has the SSA
bytes at virtual address 0xa already, and the worker bytes are all zero. What the
first write brought, tagged as it may be, never reaches the host. -/
theorem attestation_agrees_iff (layout : Layout) (other : BitVec 64 → BitVec 8)
    (history : List UserWrite) (ssa anchor worker : Page) (anchorTag : anchor 700 = 0xbb)
    (workerTag : worker 700 = 0xdd) :
    Agrees (attest layout other (after history) ssa anchor worker) ssa anchor worker ↔
      (∀ i : Fin 0x100, other (0xa + BitVec.ofNat 64 i) = ssa (i.castLE (by decide))) ∧
        ∀ i : Fin 0x100, worker (i.castLE (by decide)) = 0 := by
  rw [attest_eq layout other history ssa anchorTag workerTag]
  constructor
  · rintro ⟨shadows, same, fromSsa, -, fromData⟩
    rw [Option.some.injEq, Outcome.shadowed.injEq] at same
    subst same
    exact ⟨fromSsa, fun i => (fromData i).symm⟩
  · rintro ⟨fromSsa, fromData⟩
    exact ⟨_, rfl, fromSsa, fun _ => rfl, fun i => (fromData i).symm⟩

namespace Example

/-- A load address in the module area of the kernel. -/
def layout : Layout where
  base
    | .pp => 0xffffffffc0a02000
    | .pp0 => 0xffffffffc0a00000
    | .pp1 => 0xffffffffc0a01000
    | .dataTr => 0xffffffffc0a03000
  aligned b := by cases b <;> decide
  positive b := by cases b <;> decide
  distinct b c := by cases b <;> cases c <;> decide

theorem taggedPage_zero (tag : BitVec 8) (i : Fin 0x100) :
    taggedPage 0 tag (i.castLE (by decide)) = 0 := by
  have : ¬ i.castLE (by decide : 0x100 ≤ 4096) = 700 := by
    intro same
    have value := congrArg Fin.val same
    have := i.isLt
    simp at value
    omega
  simp [taggedPage, this]

/-- An SSA page that starts with the byte 1, over a guest with zeros at 0xa. -/
theorem ssa_never_arrives :
    ¬ ∀ (layout : Layout) (other : BitVec 64 → BitVec 8) (history : List UserWrite)
        (ssa anchor worker : Page),
        ssa 700 = 0xaa → anchor 700 = 0xbb → worker 700 = 0xdd →
          Agrees (attest layout other (after history) ssa anchor worker) ssa anchor worker := by
  intro claim
  obtain ⟨shadows, same, fromSsa, -, -⟩ := claim layout (fun _ => 0) [] (taggedPage 1 0xaa)
    (taggedPage 2 0xbb) (taggedPage 0 0xdd) rfl rfl rfl
  rw [attest_eq _ _ _ _ rfl rfl, Option.some.injEq, Outcome.shadowed.injEq] at same
  subst same
  exact absurd (fromSsa 0) (by decide)

/-- A zero SSA page and a zero worker page do get through. -/
theorem zero_pages_agree :
    Agrees (attest layout (fun _ => 0) (after []) (taggedPage 0 0xaa) (taggedPage 2 0xbb)
      (taggedPage 0 0xdd)) (taggedPage 0 0xaa) (taggedPage 2 0xbb) (taggedPage 0 0xdd) :=
  (attestation_agrees_iff layout (fun _ => 0) [] (taggedPage 0 0xaa) (taggedPage 2 0xbb)
    (taggedPage 0 0xdd) rfl rfl).mpr ⟨fun i => (taggedPage_zero 0xaa i).symm, taggedPage_zero 0xdd⟩

end Example

end HyperSmile.Host.Hypercall
