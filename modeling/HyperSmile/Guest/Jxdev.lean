/-
# Guest.Jxdev — the character device: jxdev.c

Everything the application asks of the guest goes through one `write`. The module
copies the page into a static buffer `pp`, looks at its byte 700 and either calls
the trampoline with arguments from the page, or copies the page a second time, from
user space again, into the SSA or the anchor buffer and takes its CRC, or sends the
IPI whose handler raises the hypercall.

The four buffers are static: a write changes the bytes it copies and no others. So
what a write of `size` bytes decides depends on that write alone exactly when it
brings its own tag byte, `701 ≤ size` (`actions_independent_iff`).

A write is modelled up to 4096 bytes, the size of the buffers. The two copies of one
write may see different user bytes, so a write carries both views. The cycle
counters are left out.
-/
import HyperSmile.Guest.Crc
import Mathlib.Tactic.SplitIfs

namespace HyperSmile.Guest.Jxdev

open HyperSmile.Guest.Crc

set_option autoImplicit false

abbrev Page := Fin 4096 → BitVec 8

/-- The static buffers and checksums of the module. -/
structure Device where
  pp : Page
  pp0 : Page
  pp1 : Page
  dataTr : Page
  crcSsa : BitVec 64
  crcAnchor : BitVec 64

/-- The module as it is loaded. -/
def Device.load : Device := ⟨fun _ => 0, fun _ => 0, fun _ => 0, fun _ => 0, 0, 0⟩

/-- What `jxdev_write` does beside filling `pp`. -/
inductive Action where
  | trampoline (pi appBaseaddr appSize : BitVec 64)
  | crcSsa
  | crcAnchor
  /-- `do_smp_call`: run `ptid` on CPU 1 -/
  | smpCall
  deriving DecidableEq, Repr

/-- One `write` on the device: at most a page, and the user buffer as the first and
the second `copy_from_user` find it. -/
structure UserWrite where
  size : Nat
  size_le : size ≤ 4096
  first : Page
  second : Page

/-- `write(fd, page, 4096)` with nobody else touching the page. -/
def UserWrite.page (page : Page) : UserWrite := ⟨4096, le_rfl, page, page⟩

/-- `copy_from_user(dst, buf, size)` -/
def copyFromUser (dst buf : Page) (size : Nat) : Page :=
  fun i => if i.val < size then buf i else dst i

/-- The first `len` bytes of a buffer. -/
def span (page : Page) (len : Nat) : List (BitVec 8) := (List.ofFn page).take len

/-- The first copy. -/
def jxdevFetch (dev : Device) (size : Nat) (buf : Page) : Device :=
  { dev with pp := copyFromUser dev.pp buf size }

/-- Everything after the first copy. The arguments of the trampoline are single
bytes of `pp`, widened to `unsigned long`. -/
def jxdevServe (dev : Device) (size : Nat) (buf : Page) : Device × List Action :=
  if dev.pp 700 = 0xcc then
    let dataPage := (dev.pp 0).setWidth 64
    let appSize := (dev.pp 2).setWidth 64
    let pi := (dev.pp 3).setWidth 64
    (dev, [.trampoline pi dataPage appSize])
  else if dev.pp 700 = 0xaa then
    let pp0 := copyFromUser dev.pp0 buf size
    ({ dev with pp0 := pp0, crcSsa := (crc32 (span pp0 0x100)).setWidth 64 }, [.crcSsa])
  else if dev.pp 700 = 0xbb then
    let pp1 := copyFromUser dev.pp1 buf size
    ({ dev with pp1 := pp1, crcAnchor := (crc32 (span pp1 40)).setWidth 64 }, [.crcAnchor])
  else if dev.pp 700 = 0xdd then (dev, [.smpCall])
  else (dev, [])

/-- `jxdev_write`. It always returns `size`. -/
def jxdevWrite (dev : Device) (w : UserWrite) : Device × List Action :=
  jxdevServe (jxdevFetch dev w.size w.first) w.size w.second

/-- The device after a history of writes. -/
def after (history : List UserWrite) : Device :=
  history.foldl (fun dev w => (jxdevWrite dev w).1) Device.load

/-! ## Serving reads the page only -/

@[simp] theorem copyFromUser_page (dst buf : Page) : copyFromUser dst buf 4096 = buf := by
  funext i
  exact if_pos i.isLt

theorem copyFromUser_lt (dst buf : Page) {size : Nat} {i : Fin 4096} (inside : i.val < size) :
    copyFromUser dst buf size i = buf i := if_pos inside

theorem copyFromUser_ge (dst buf : Page) {size : Nat} {i : Fin 4096} (outside : size ≤ i.val) :
    copyFromUser dst buf size i = dst i := if_neg (by omega)

@[simp] theorem jxdevFetch_pp (dev : Device) (size : Nat) (buf : Page) :
    (jxdevFetch dev size buf).pp = copyFromUser dev.pp buf size := rfl

/-- The actions a page in `pp` asks for. -/
def requested (pp : Page) : List Action :=
  (jxdevServe { Device.load with pp := pp } 0 pp).2

theorem jxdevServe_actions (dev : Device) (size : Nat) (buf : Page) :
    (jxdevServe dev size buf).2 = requested dev.pp := by
  unfold requested jxdevServe
  split_ifs <;> rfl

theorem jxdevWrite_actions (dev : Device) (w : UserWrite) :
    (jxdevWrite dev w).2 = requested (copyFromUser dev.pp w.first w.size) := by
  rw [jxdevWrite, jxdevServe_actions, jxdevFetch_pp]

/-- Four bytes of the page decide. -/
theorem requested_congr {pp pp' : Page} (tag : pp 700 = pp' 700) (dataPage : pp 0 = pp' 0)
    (appSize : pp 2 = pp' 2) (pi : pp 3 = pp' 3) : requested pp = requested pp' := by
  simp only [requested, jxdevServe, tag, dataPage, appSize, pi]
  split_ifs <;> rfl

theorem requested_ssa {pp : Page} (tag : pp 700 = 0xaa) : requested pp = [.crcSsa] := by
  simp [requested, jxdevServe, tag]

theorem requested_worker {pp : Page} (tag : pp 700 = 0xdd) : requested pp = [.smpCall] := by
  simp [requested, jxdevServe, tag]

theorem requested_zero {pp : Page} (tag : pp 700 = 0) : requested pp = [] := by
  simp [requested, jxdevServe, tag]

/-- Everything a write of a whole page can do to the two measured buffers. -/
theorem jxdevWrite_page_cases (dev : Device) (first second : Page) :
    (first 700 = 0xaa ∧ jxdevWrite dev ⟨4096, le_rfl, first, second⟩ =
      ({ dev with pp := first, pp0 := second, crcSsa := (crc32 (span second 0x100)).setWidth 64 },
        [.crcSsa])) ∨
    (first 700 = 0xbb ∧ jxdevWrite dev ⟨4096, le_rfl, first, second⟩ =
      ({ dev with pp := first, pp1 := second, crcAnchor := (crc32 (span second 40)).setWidth 64 },
        [.crcAnchor])) ∨
    (¬ (first 700 = 0xaa ∨ first 700 = 0xbb) ∧
      (jxdevWrite dev ⟨4096, le_rfl, first, second⟩).1 = { dev with pp := first } ∧
      .crcSsa ∉ (jxdevWrite dev ⟨4096, le_rfl, first, second⟩).2 ∧
      .crcAnchor ∉ (jxdevWrite dev ⟨4096, le_rfl, first, second⟩).2) := by
  simp only [jxdevWrite, jxdevServe, jxdevFetch, copyFromUser_page]
  by_cases ssa : first 700 = 0xaa
  · exact Or.inl ⟨ssa, by rw [ssa]; rfl⟩
  by_cases anchor : first 700 = 0xbb
  · exact Or.inr (Or.inl ⟨anchor, by rw [anchor]; rfl⟩)
  refine Or.inr (Or.inr ⟨not_or.mpr ⟨ssa, anchor⟩, ?_⟩)
  rw [if_neg ssa, if_neg anchor]
  split_ifs <;> simp

/-- Nothing in the module ever writes `data_tr`. -/
@[simp] theorem jxdevWrite_dataTr (dev : Device) (w : UserWrite) :
    (jxdevWrite dev w).1.dataTr = dev.dataTr := by
  simp only [jxdevWrite, jxdevServe]
  split_ifs <;> rfl

theorem after_dataTr (history : List UserWrite) : (after history).dataTr = fun _ => 0 := by
  suffices kept : ∀ dev : Device,
      (history.foldl (fun dev w => (jxdevWrite dev w).1) dev).dataTr = dev.dataTr from kept .load
  induction history with
  | nil => intro dev; rfl
  | cons w rest ih => intro dev; rw [List.foldl_cons, ih, jxdevWrite_dataTr]

/-! ## What a write can depend on -/

/-- An SSA page: zero but for its tag. -/
def ssaPage : Page := fun i => if i = 700 then 0xaa else 0

/-- A page of zeros but for its first byte and its tag. -/
def taggedPage (first tag : BitVec 8) : Page :=
  fun i => if i = 700 then tag else if i = 0 then first else 0

/-- **A write decides for itself exactly when it brings its own tag.**  A shorter
write leaves byte 700 of `pp` to the write before it. -/
theorem actions_independent_iff (w : UserWrite) :
    (∀ history history' : List UserWrite,
        (jxdevWrite (after history) w).2 = (jxdevWrite (after history') w).2) ↔
      701 ≤ w.size := by
  constructor
  · intro independent
    by_contra short
    have stale : ∀ dev : Device, copyFromUser dev.pp w.first w.size 700 = dev.pp 700 :=
      fun dev => copyFromUser_ge _ _ (show w.size ≤ 700 by omega)
    have tagged : (after [.page ssaPage]).pp 700 = 0xaa := by decide
    have same := independent [] [.page ssaPage]
    rw [jxdevWrite_actions, jxdevWrite_actions, requested_zero (stale _),
      requested_ssa ((stale _).trans tagged)] at same
    exact absurd same (by simp)
  · intro long history history'
    have own : ∀ (dev dev' : Device) (i : Fin 4096), i.val ≤ 700 →
        copyFromUser dev.pp w.first w.size i = copyFromUser dev'.pp w.first w.size i := by
      intro dev dev' i inside
      rw [copyFromUser_lt _ _ (by omega), copyFromUser_lt _ _ (by omega)]
    rw [jxdevWrite_actions, jxdevWrite_actions]
    exact requested_congr (own _ _ 700 (by decide)) (own _ _ 0 (by decide)) (own _ _ 2 (by decide))
      (own _ _ 3 (by decide))

/-- An empty write repeats what the page before it asked for. -/
theorem empty_write_repeats :
    ¬ ∀ (w : UserWrite) (history history' : List UserWrite),
        (jxdevWrite (after history) w).2 = (jxdevWrite (after history') w).2 := by
  intro independent
  have same := independent ⟨0, by decide, fun _ => 0, fun _ => 0⟩ [] [.page ssaPage]
  exact absurd same (by decide)

end HyperSmile.Guest.Jxdev
