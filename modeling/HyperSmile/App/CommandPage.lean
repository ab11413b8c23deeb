/-
# App.CommandPage — the 0xcc page from main() to the trampoline

`main` writes the arguments of the trampoline into a page of bytes: `pp` is a
`uint8_t` array, so `pp[0]=data_page` keeps the low byte of a pointer, and
`jxdev_write` reads single bytes back (`data_page=pp[0]`). Each field therefore
survives the trip exactly when it is below 256 (`command_page_trip_iff`); the page
size `main` asks for, 0x1000, arrives as 0.
-/
import HyperSmile.Guest.Jxdev

namespace HyperSmile.App.CommandPage

open HyperSmile.Guest.Jxdev

set_option autoImplicit false

/-- An assignment of an `unsigned long` to an element of a `uint8_t` array. -/
def setByte (page : Page) (i : Nat) (value : BitVec 64) : Page :=
  fun k => if k.val = i then value.setWidth 8 else page k

/-- `uint8_t pp[4096] = {0x0}`, filled as `main` fills it. -/
def commandPage (dataPage test1Code psize pi : BitVec 64) : Page :=
  let pp := setByte (fun _ => 0) 700 0xcc
  let pp := setByte pp 0 dataPage
  let pp := setByte pp 1 test1Code
  let pp := setByte pp 2 psize
  setByte pp 3 pi

theorem commandPage_fields (dataPage test1Code psize pi : BitVec 64) :
    commandPage dataPage test1Code psize pi 700 = 0xcc ∧
      commandPage dataPage test1Code psize pi 0 = dataPage.setWidth 8 ∧
      commandPage dataPage test1Code psize pi 2 = psize.setWidth 8 ∧
      commandPage dataPage test1Code psize pi 3 = pi.setWidth 8 := by
  refine ⟨rfl, rfl, rfl, rfl⟩

/-- What the device makes of the page: every argument cut to its low byte. -/
theorem jxdevWrite_commandPage (dev : Device) (dataPage test1Code psize pi : BitVec 64) :
    (jxdevWrite dev (.page (commandPage dataPage test1Code psize pi))).2 =
      [.trampoline ((pi.setWidth 8).setWidth 64) ((dataPage.setWidth 8).setWidth 64)
        ((psize.setWidth 8).setWidth 64)] := by
  obtain ⟨tag, first, third, fourth⟩ := commandPage_fields dataPage test1Code psize pi
  simp only [jxdevWrite, UserWrite.page, jxdevFetch, copyFromUser_page, jxdevServe, tag, first,
    third, fourth, if_true]

theorem byte_trip_iff (x : BitVec 64) : (x.setWidth 8).setWidth 64 = x ↔ x.toNat < 256 := by
  rw [BitVec.toNat_eq, BitVec.toNat_setWidth, BitVec.toNat_setWidth]
  have := x.isLt
  omega

/-- **The command page carries its fields exactly when they are bytes.** -/
theorem command_page_trip_iff (dev : Device) (dataPage test1Code psize pi : BitVec 64) :
    (jxdevWrite dev (.page (commandPage dataPage test1Code psize pi))).2 =
        [.trampoline pi dataPage psize] ↔
      dataPage.toNat < 256 ∧ psize.toNat < 256 ∧ pi.toNat < 256 := by
  rw [jxdevWrite_commandPage]
  simp only [List.cons.injEq, Action.trampoline.injEq, and_true, byte_trip_iff]
  tauto

/-- The page `main` sends for a data page at 0x7f0000201000 and process 1234: its
size, 0x1000 as `main` has it, arrives as 0. -/
theorem page_size_lost :
    ¬ ∀ (dev : Device) (dataPage test1Code psize pi : BitVec 64),
        (jxdevWrite dev (.page (commandPage dataPage test1Code psize pi))).2 =
          [.trampoline pi dataPage psize] := by
  intro claim
  have arrived := claim .load 0x7f0000201000 0x401000 0x1000 1234
  rw [jxdevWrite_commandPage] at arrived
  exact absurd arrived (by decide)

end HyperSmile.App.CommandPage
