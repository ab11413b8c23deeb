/-
# Host.GuestMemory — one translation for a whole window: kvm/x86.c

`kvm_emulate_hypercall` turns a guest virtual address into a physical one and reads the window from
there with `kvm_read_guest`, which goes on with the next physical page. The other readers of the file
go through `kvm_read_guest_virt_helper`, which translates every page of the window anew.

* `single_translation_iff`: the two agree on every content of the memory exactly if the pages of the
  window are mapped to consecutive frames. A window inside one page always is.
* `ptid_shadows`: of the three windows of `ptid` each is inside one page, so wherever the guest has
  mapped its module the anchor arrives; the address 0xa is in page 0, and as long as the guest has
  nothing there the SSA shadow keeps the zeros it starts with.

`kvm_read_guest` and `kvm_vcpu_read_guest_page` are in kvm_main.c: they are a parameter (`Kvm`), of
which the results assume what is documented of the two (`Documented`).
-/
import HyperSmile.Host.Hypercall
import HyperSmile.Theory.PagedMemory

namespace HyperSmile.Host.GuestMemory

open HyperSmile.Guest.Jxdev
open HyperSmile.Host.Hypercall
open HyperSmile.Theory.PagedMemory

set_option autoImplicit false

/-! ## The guest's memory -/

/-- The memory slots: what is in a frame, by offset, or nothing. -/
abbrev Frames := Nat → Option (Nat → BitVec 8)

/-- `walk_mmu`: the frame a virtual page is mapped to. -/
abbrev Walk := Nat → Option Nat

/-- Why a read stops. -/
inductive Stopped where
  /-- `UNMAPPED_GVA` -/
  | unmapped
  /-- `-EFAULT` -/
  | efault
  deriving DecidableEq, Repr

/-- The readers of kvm_main.c, over the slots of a guest. -/
structure Kvm where
  /-- `kvm_read_guest`, with `gpa` and `len`: an error or none, and the bytes written -/
  readGuest : Frames → Nat → Nat → Option Stopped × List (BitVec 8)
  /-- `kvm_vcpu_read_guest_page`, with `gfn`, `offset` and `len`: an error, or the bytes written -/
  readGuestPage : Frames → Nat → Nat → Nat → Except Stopped (List (BitVec 8))

/-- What is documented of them: both read what is in the slots, and fail at a frame without one; the
first has then written nothing if this frame is its first. -/
structure Documented (kvm : Kvm) : Prop where
  slots : ∀ (frames : Frames) (gpa len : Nat) (content : Nat → Nat → BitVec 8),
    (∀ i < len, frames ((gpa + i) / 2 ^ 12) = some (content ((gpa + i) / 2 ^ 12))) →
      kvm.readGuest frames gpa len =
        (none, (List.range len).map fun i => content ((gpa + i) / 2 ^ 12) ((gpa + i) % 2 ^ 12))
  noSlot : ∀ (frames : Frames) (gpa len : Nat), 0 < len → frames (gpa / 2 ^ 12) = none →
    kvm.readGuest frames gpa len = (some .efault, [])
  page : ∀ (frames : Frames) (gfn offset len : Nat) (frame : Nat → BitVec 8), frames gfn = some frame →
    offset + len ≤ 2 ^ 12 →
      kvm.readGuestPage frames gfn offset len = .ok ((List.range len).map fun i => frame (offset + i))

/-- `UNMAPPED_GVA` -/
def unmappedGva : Nat := 2 ^ 64 - 1

/-- `kvm_mmu_gva_to_gpa_system` -/
def gvaToGpaSystem (walk : Walk) (gva : BitVec 64) : Nat :=
  match walk (gva.toNat / 2 ^ 12) with
  | some gfn => gfn * 2 ^ 12 + gva.toNat % 2 ^ 12
  | none => unmappedGva

/-- A turn of `kvm_read_guest_virt_helper`; virtual addresses wrap. -/
def readVirtPage (kvm : Kvm) (walk : Walk) (frames : Frames) (page offset toread : Nat) :
    Except Stopped (List (BitVec 8)) :=
  match walk (page % 2 ^ 52) with
  | some gfn => kvm.readGuestPage frames gfn offset toread
  | none => .error .unmapped

def kvmReadGuestVirtHelper (kvm : Kvm) (walk : Walk) (frames : Frames) (addr : BitVec 64) (bytes : Nat) :
    Option Stopped × List (BitVec 8) :=
  readPages 12 (readVirtPage kvm walk frames) bytes addr.toNat

/-- How `kvm_emulate_hypercall` reads a window. -/
def readWindow (kvm : Kvm) (walk : Walk) (frames : Frames) (gva : BitVec 64) (len : Nat) :
    Option Stopped × List (BitVec 8) :=
  kvm.readGuest frames (gvaToGpaSystem walk gva) len

/-- A shadow starts with zeros, and keeps them where nothing was copied. -/
def shadowOf (kvm : Kvm) (walk : Walk) (frames : Frames) (gva : BitVec 64) (len : Nat) : Fin len → BitVec 8 :=
  fun i => (readWindow kvm walk frames gva len).2.getD i 0

/-- The shadows of a call from virtual CPU 1. -/
def shadowsOf (kvm : Kvm) (walk : Walk) (frames : Frames) (call : Hypercall4) : Shadows :=
  ⟨shadowOf kvm walk frames call.p1 0x100, shadowOf kvm walk frames call.p2 40,
    shadowOf kvm walk frames call.p3 0x100⟩

/-! ## Two ways to read a window -/

section Windows

variable {kvm : Kvm} {walk : Walk} {gva : BitVec 64} {len gfn : Nat}

theorem gvaToGpa_mapped (mapped : walk (gva.toNat / 2 ^ 12) = some gfn) :
    gvaToGpaSystem walk gva / 2 ^ 12 = gfn ∧
      gvaToGpaSystem walk gva % 2 ^ 12 = gva.toNat % 2 ^ 12 := by
  have value : gvaToGpaSystem walk gva = 2 ^ 12 * gfn + gva.toNat % 2 ^ 12 := by
    rw [gvaToGpaSystem, mapped, Nat.mul_comm]
  rw [value]
  omega

/-- The pages of the window are mapped to consecutive frames. -/
def Consecutive (walk : Walk) (gva : BitVec 64) (len gfn : Nat) : Prop :=
  ∀ k, k * 2 ^ 12 < gva.toNat % 2 ^ 12 + len → walk ((gva.toNat / 2 ^ 12 + k) % 2 ^ 52) = some (gfn + k)

theorem first_page (mapped : walk (gva.toNat / 2 ^ 12) = some gfn) :
    walk ((gva.toNat / 2 ^ 12 + 0) % 2 ^ 52) = some (gfn + 0) := by
  have small : gva.toNat / 2 ^ 12 < 2 ^ 52 := Nat.div_lt_of_lt_mul gva.isLt
  rw [Nat.add_zero, Nat.add_zero, Nat.mod_eq_of_lt small, mapped]

/-- A byte by its address, where every frame has a slot. -/
def physicalByte (content : Nat → Nat → BitVec 8) (gpa : Nat) : BitVec 8 := content (gpa / 2 ^ 12) (gpa % 2 ^ 12)

/-- The byte a virtual address stands for, where the page is mapped. -/
def virtualByte (walk : Walk) (content : Nat → Nat → BitVec 8) (addr : Nat) : BitVec 8 :=
  match walk (addr / 2 ^ 12 % 2 ^ 52) with
  | some gfn => content gfn (addr % 2 ^ 12)
  | none => 0

theorem readWindow_slots (documented : Documented kvm) (walk : Walk) (content : Nat → Nat → BitVec 8)
    (gva : BitVec 64) (len : Nat) :
    readWindow kvm walk (fun gfn => some (content gfn)) gva len =
      (none, (List.range len).map fun i => physicalByte content (gvaToGpaSystem walk gva + i)) :=
  documented.slots _ _ len content fun _ _ => rfl

/-- Where every page of the window is mapped, the helper reads the virtual bytes. -/
theorem readVirt_mapped (documented : Documented kvm) (content : Nat → Nat → BitVec 8)
    (mapped : ∀ i < len, ∃ g, walk ((gva.toNat + i) / 2 ^ 12 % 2 ^ 52) = some g) :
    kvmReadGuestVirtHelper kvm walk (fun gfn => some (content gfn)) gva len =
      (none, (List.range len).map fun i => virtualByte walk content (gva.toNat + i)) := by
  refine readPages_eq fun a n some_ low high inside => ?_
  obtain ⟨g, here⟩ := mapped (a - gva.toNat) (by omega)
  rw [Nat.add_sub_cancel' low] at here
  rw [readVirtPage, here]
  refine (documented.page _ g _ n (content g) rfl inside).trans (congrArg Except.ok ?_)
  refine List.map_congr_left fun i member => ?_
  have below := List.mem_range.mp member
  have page : (a + i) / 2 ^ 12 = a / 2 ^ 12 := by omega
  have offset : (a + i) % 2 ^ 12 = a % 2 ^ 12 + i := by omega
  rw [virtualByte, page, here, offset]

/-- A helper that has read the window has found its pages mapped. -/
theorem readVirt_found {frames : Frames} (done : (kvmReadGuestVirtHelper kvm walk frames gva len).1 = none) :
    ∀ i < len, ∃ g, walk ((gva.toNat + i) / 2 ^ 12 % 2 ^ 52) = some g := by
  intro i inside
  obtain ⟨offset, n, part, fetched⟩ := readPages_found done i inside
  rw [readVirtPage] at fetched
  cases mapped : walk ((gva.toNat + i) / 2 ^ 12 % 2 ^ 52) with
  | none =>
      rw [mapped] at fetched
      cases fetched
  | some g => exact ⟨g, rfl⟩

/-- The bytes of consecutive frames are those of the virtual addresses. -/
theorem physicalByte_consecutive (mapped : walk (gva.toNat / 2 ^ 12) = some gfn)
    (consecutive : Consecutive walk gva len gfn) (content : Nat → Nat → BitVec 8) {i : Nat} (inside : i < len) :
    walk ((gva.toNat + i) / 2 ^ 12 % 2 ^ 52) = some ((gvaToGpaSystem walk gva + i) / 2 ^ 12) ∧
      virtualByte walk content (gva.toNat + i) = physicalByte content (gvaToGpaSystem walk gva + i) := by
  obtain ⟨frame, offset⟩ := gvaToGpa_mapped mapped
  have page := consecutive ((gva.toNat % 2 ^ 12 + i) / 2 ^ 12) (by omega)
  have virtual : gva.toNat / 2 ^ 12 + (gva.toNat % 2 ^ 12 + i) / 2 ^ 12 = (gva.toNat + i) / 2 ^ 12 := by omega
  have physical : gfn + (gva.toNat % 2 ^ 12 + i) / 2 ^ 12 = (gvaToGpaSystem walk gva + i) / 2 ^ 12 := by omega
  have place : (gvaToGpaSystem walk gva + i) % 2 ^ 12 = (gva.toNat + i) % 2 ^ 12 := by omega
  rw [virtual, physical] at page
  refine ⟨page, ?_⟩
  rw [virtualByte, page, physicalByte, place]

/-- **One translation is as good as one for each page exactly if the frames are consecutive**: then, and
only then, both read the whole window and the same bytes, whatever is in the memory. -/
theorem single_translation_iff (kvm : Kvm) (documented : Documented kvm) (walk : Walk) (gva : BitVec 64)
    (len gfn : Nat) (mapped : walk (gva.toNat / 2 ^ 12) = some gfn) :
    (∀ content : Nat → Nat → BitVec 8, ∃ data,
        readWindow kvm walk (fun g => some (content g)) gva len = (none, data) ∧
        kvmReadGuestVirtHelper kvm walk (fun g => some (content g)) gva len = (none, data)) ↔
      Consecutive walk gva len gfn := by
  constructor
  · intro agree k before
    by_cases first : k = 0
    · subst first
      exact first_page mapped
    obtain ⟨frame, offset⟩ := gvaToGpa_mapped mapped
    -- a memory in which only the frame the single translation comes to has ones
    obtain ⟨data, single, each⟩ := agree fun g _ => if g = gfn + k then 1 else 0
    have found := readVirt_found (congrArg Prod.fst each)
    rw [readWindow_slots documented] at single
    rw [readVirt_mapped documented _ found] at each
    have same := (Prod.mk.inj single).2.trans (Prod.mk.inj each).2.symm
    have start : gva.toNat % 2 ^ 12 < 2 ^ 12 := Nat.mod_lt _ (by decide)
    have here := List.map_inj_left.mp same (k * 2 ^ 12 - gva.toNat % 2 ^ 12) (List.mem_range.mpr (by omega))
    have physical : gvaToGpaSystem walk gva + (k * 2 ^ 12 - gva.toNat % 2 ^ 12) = 2 ^ 12 * (gfn + k) := by omega
    have virtual : gva.toNat + (k * 2 ^ 12 - gva.toNat % 2 ^ 12) = 2 ^ 12 * (gva.toNat / 2 ^ 12 + k) := by omega
    simp only [physicalByte, virtualByte, physical, virtual, Nat.mul_div_cancel_left _ (by decide : 0 < 2 ^ 12),
      if_true] at here
    split at here
    · rename_i g found
      by_cases own : g = gfn + k
      · rw [found, own]
      · rw [if_neg own] at here
        exact absurd here (by decide)
    · exact absurd here (by decide)
  · intro consecutive content
    refine ⟨_, readWindow_slots documented walk content gva len, ?_⟩
    rw [readVirt_mapped documented content fun i inside =>
      ⟨_, (physicalByte_consecutive mapped consecutive content inside).1⟩]
    refine congrArg (Prod.mk none) (List.map_congr_left fun i member => ?_)
    exact (physicalByte_consecutive mapped consecutive content (List.mem_range.mp member)).2

/-- A window inside of a page that is there. -/
theorem shadowOf_inside (documented : Documented kvm) {frames : Frames} {frame : Nat → BitVec 8}
    (mapped : walk (gva.toNat / 2 ^ 12) = some gfn) (slot : frames gfn = some frame)
    (inside : gva.toNat % 2 ^ 12 + len ≤ 2 ^ 12) (i : Fin len) :
    shadowOf kvm walk frames gva len i = frame (gva.toNat % 2 ^ 12 + i) := by
  obtain ⟨page, offset⟩ := gvaToGpa_mapped mapped
  have read : readWindow kvm walk frames gva len =
      (none, (List.range len).map fun i => physicalByte (fun _ => frame) (gvaToGpaSystem walk gva + i)) := by
    refine documented.slots _ _ len (fun _ => frame) fun j below => ?_
    have same : (gvaToGpaSystem walk gva + j) / 2 ^ 12 = gfn := by omega
    rw [same, slot]
  have place : (gvaToGpaSystem walk gva + i) % 2 ^ 12 = gva.toNat % 2 ^ 12 + i := by omega
  have element (byte : Nat → BitVec 8) : ((List.range len).map byte).getD i 0 = byte i := by simp
  rw [shadowOf, read, element, physicalByte, place]

/-- Nothing is mapped, and `UNMAPPED_GVA` is no address of a slot. -/
theorem shadowOf_unmapped (documented : Documented kvm) {frames : Frames}
    (unmapped : walk (gva.toNat / 2 ^ 12) = none) (top : frames (2 ^ 52 - 1) = none) (i : Fin len) :
    shadowOf kvm walk frames gva len i = 0 := by
  have nowhere : gvaToGpaSystem walk gva / 2 ^ 12 = 2 ^ 52 - 1 := by
    simp only [gvaToGpaSystem, unmapped]
    decide
  have none := documented.noSlot frames (gvaToGpaSystem walk gva) len (by have := i.isLt; omega)
    (by rw [nowhere, top])
  rw [shadowOf, readWindow, none]
  rfl

end Windows

/-! ## The shadows of `ptid` -/

section Attestation

variable (layout : Layout) (walk : Walk) (frames : Frames)

/-- The guest has mapped the four buffers of the module. -/
structure Maps (dev : Device) : Prop where
  mapped : ∀ b : Buffer, ∃ gfn frame, walk ((layout.base b).toNat / 2 ^ 12) = some gfn ∧
    frames gfn = some frame ∧ ∀ i : Fin 4096, frame i = b.content dev i
  /-- no slot at the address `UNMAPPED_GVA` stands for -/
  top : frames (2 ^ 52 - 1) = none

variable {layout walk frames} {kvm : Kvm}

/-- A window from the start of a buffer on. -/
theorem Maps.shadowOf (documented : Documented kvm) {dev : Device} (maps : Maps layout walk frames dev)
    (b : Buffer) {len : Nat} (inside : len ≤ 4096) (i : Fin len) :
    GuestMemory.shadowOf kvm walk frames (layout.base b) len i = b.content dev (i.castLE inside) := by
  obtain ⟨gfn, frame, mapped, slot, bytes⟩ := maps.mapped b
  have aligned : (layout.base b).toNat % 2 ^ 12 = 0 := layout.aligned b
  rw [shadowOf_inside documented mapped slot (by omega) i, aligned, Nat.zero_add]
  exact bytes (i.castLE inside)

/-- **What the host gets of an attestation**, after any history of writes and wherever the guest has its
pages: the anchor as it is in `pp1`, zeros for the worker, and for the SSA what the guest has at 0xa, or
zeros if it has nothing there. -/
theorem ptid_shadows (kvm : Kvm) (documented : Documented kvm) (layout : Layout) (walk : Walk) (frames : Frames)
    (history : List UserWrite) (maps : Maps layout walk frames (after history)) :
    (∀ i, (shadowsOf kvm walk frames (ptid layout)).anchor i = (after history).pp1 (i.castLE (by decide))) ∧
      (∀ i, (shadowsOf kvm walk frames (ptid layout)).data i = 0) ∧
      (walk 0 = none → ∀ i, (shadowsOf kvm walk frames (ptid layout)).ssa i = 0) ∧
      (∀ gfn frame, walk 0 = some gfn → frames gfn = some frame →
        ∀ i, (shadowsOf kvm walk frames (ptid layout)).ssa i = frame (10 + i)) := by
  refine ⟨fun i => maps.shadowOf documented .pp1 (by decide) i, fun i => ?_, fun unmapped i => ?_,
    fun gfn frame mapped slot i => ?_⟩
  · refine (maps.shadowOf documented .dataTr (by decide) i).trans ?_
    rw [Buffer.content, after_dataTr]
  · have page : walk ((0xa : BitVec 64).toNat / 2 ^ 12) = none := unmapped
    exact shadowOf_unmapped documented page maps.top i
  · have page : walk ((0xa : BitVec 64).toNat / 2 ^ 12) = some gfn := mapped
    exact shadowOf_inside documented page slot (by decide) i

/-- `Host.Hypercall` sees the same shadows through virtual addresses. -/
theorem kvmEmulateHypercall_physical (documented : Documented kvm) {dev : Device}
    (maps : Maps layout walk frames dev)
    {other : BitVec 64 → BitVec 8}
    (low : ∀ i : Fin 0x100, GuestMemory.shadowOf kvm walk frames 0xa 0x100 i = other (0xa + BitVec.ofNat 64 i)) :
    kvmEmulateHypercall vcpu1 (ptid layout) (layout.guestByte dev other) =
      .shadowed (shadowsOf kvm walk frames (ptid layout)) := by
  rw [kvmEmulateHypercall_ptid]
  have anchor : (shadowsOf kvm walk frames (ptid layout)).anchor = fun i => dev.pp1 (i.castLE (by decide)) :=
    funext (maps.shadowOf documented .pp1 (by decide))
  have data : (shadowsOf kvm walk frames (ptid layout)).data = fun i => dev.dataTr (i.castLE (by decide)) :=
    funext (maps.shadowOf documented .dataTr (by decide))
  have ssa : (shadowsOf kvm walk frames (ptid layout)).ssa = fun i : Fin 0x100 => other (0xa + BitVec.ofNat 64 i) :=
    funext low
  rw [← anchor, ← data, ← ssa]

end Attestation

namespace Example

open HyperSmile.Host.Hypercall.Example (layout)

/-- A part of a frame. -/
def part (frames : Frames) (gfn offset len : Nat) : Except Stopped (List (BitVec 8)) :=
  match frames gfn with
  | some frame => .ok ((List.range len).map fun i => frame (offset + i))
  | none => .error .efault

/-- The readers as they are: page by page. -/
def pagewise : Kvm where
  readGuest := fun frames gpa len => readPages 12 (part frames) len gpa
  readGuestPage := part

theorem pagewise_documented : Documented pagewise where
  slots := by
    intro frames gpa len content slots
    show readPages 12 (part frames) len gpa = (none, (List.range len).map fun i => physicalByte content (gpa + i))
    refine readPages_eq fun a n some_ low high inside => ?_
    have slot := slots (a - gpa) (by omega)
    rw [Nat.add_sub_cancel' low] at slot
    rw [part, slot]
    refine congrArg Except.ok (List.map_congr_left fun i member => ?_)
    have below := List.mem_range.mp member
    have page : (a + i) / 2 ^ 12 = a / 2 ^ 12 := by omega
    have offset : (a + i) % 2 ^ 12 = a % 2 ^ 12 + i := by omega
    rw [physicalByte, page, offset]
  noSlot := by
    intro frames gpa len positive missing
    refine readPages_refused (by omega) ?_
    rw [part, missing]
  page := by
    intro frames gfn offset len frame slot _
    show part frames gfn offset len = _
    rw [part, slot]

/-- Pages 1 and 2 of the guest in frames 8 and 3. -/
def scattered : Walk := fun page => if page = 1 then some 8 else if page = 2 then some 3 else none

/-- A window over the border of the two pages is not read as the guest has it. -/
theorem border_misread :
    ¬ ∀ content : Nat → Nat → BitVec 8, ∃ data,
        readWindow pagewise scattered (fun g => some (content g)) 0x1ff0 0x100 = (none, data) ∧
        kvmReadGuestVirtHelper pagewise scattered (fun g => some (content g)) 0x1ff0 0x100 = (none, data) := by
  rw [single_translation_iff pagewise pagewise_documented scattered 0x1ff0 0x100 8 rfl]
  intro consecutive
  exact absurd (consecutive 1 (by decide)) (by decide)

/-- Every page of the kernel in the frame of its number, nothing in page 0. -/
def direct : Walk := fun page => if page = 0 then none else some page

def history : List UserWrite := [.page (taggedPage 2 0xbb)]

/-- The frames below the top hold what the guest has. -/
def slots : Frames := fun gfn =>
  if gfn = 2 ^ 52 - 1 then none
  else some fun offset => layout.guestByte (after history) (fun _ => 0) (BitVec.ofNat 64 (2 ^ 12 * gfn + offset))

theorem slots_maps : Maps layout direct slots (after history) where
  mapped := by
    intro b
    have aligned : (layout.base b).toNat % 2 ^ 12 = 0 := layout.aligned b
    have positive := layout.positive b
    have whole : 2 ^ 12 * ((layout.base b).toNat / 2 ^ 12) = (layout.base b).toNat := by omega
    have below : ¬ (layout.base b).toNat / 2 ^ 12 = 2 ^ 52 - 1 := by cases b <;> decide
    refine ⟨(layout.base b).toNat / 2 ^ 12, _, if_neg (by omega), if_neg below, fun i => ?_⟩
    rw [whole, BitVec.ofNat_add, BitVec.ofNat_toNat, BitVec.setWidth_eq]
    exact layout.guestByte_base (after history) _ b i i.isLt
  top := if_pos rfl

/-- The first byte of the anchor arrives, and the SSA shadow stays zero. -/
theorem anchor_arrives :
    (shadowsOf pagewise direct slots (ptid layout)).anchor 0 = 2 ∧
      ∀ i, (shadowsOf pagewise direct slots (ptid layout)).ssa i = 0 := by
  obtain ⟨anchor, -, unmapped, -⟩ := ptid_shadows pagewise pagewise_documented layout direct slots history slots_maps
  refine ⟨(anchor 0).trans ?_, unmapped rfl⟩
  decide

end Example

end HyperSmile.Host.GuestMemory
