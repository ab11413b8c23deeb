/-
# Anchor.Attack — the anchor under attack: attack.S and its variants

The repository attacks its own anchor in four ways: the report is sent to another place (attack1.txt),
the branch to `worker` goes to `attacker` (attack2.txt), both (attack.txt), and, beside both, a jump to
`attacker` in front of the loop (attack.S, attack3.txt).

* Two numbers of the listing are changed in the first three, so they are `patched` with other values.
  Whatever the values are, the second window of the report shows them (`patched_report_iff`), and the
  checksum of the 40 bytes the guest keeps changes in all four (`attack_changes_checksum`).
* Nothing else would tell: until the branch is taken, `attack2` does what the anchor does, step for
  step, under every behaviour of the monitor, each from a memory with its own code; the two memories
  differ in the byte of the branch and in what is copied from it (`attack2_unseen`).
* With the report sent elsewhere the place the monitor reads keeps what was there before.
-/
import HyperSmile.Anchor.CommandLoop
import HyperSmile.Guest.Crc

namespace HyperSmile.Anchor.Attack

open HyperSmile.Anchor.Machine
open HyperSmile.Anchor.Measure
open HyperSmile.Anchor.CommandLoop (Shared Event)
open HyperSmile.Guest.Crc (crc32)
open HyperSmile.Theory.ByteMemory
open HyperSmile.Theory.Runs

set_option autoImplicit false

/-! ## The listings -/

/-- anchor.S with another place for the report and another target of the branch. -/
def patched (disp : BitVec 32) (rel : BitVec 8) : List Instr :=
  [.movRcxR10,                   -- 0
    .leaRsiRip 0x39B500,         -- 3
    .leaRdiRsi disp,             -- 10
    .repMovsd,                   -- 17
    .movRcxR10,                  -- 19
    .leaRsiRip (-0x1d),          -- 22
    .repMovsd,                   -- 29
    .lockXadd,                   -- 31, loop
    .jnp rel,                    -- 36
    .repMovsd,                   -- 38
    .jmp (-11)]                  -- 40

/-- attack.S, from the label `anchor` on, with all three attacks. The label `loop` is at offset 33,
`worker` at 44 and `attacker` at 118. -/
def jumping : List Instr :=
  [.movRcxR10,                   -- 0
    .leaRsiRip 0x39B500,         -- 3
    .leaRdiRsi (-0x17B500),      -- 10
    .repMovsd,                   -- 17
    .movRcxR10,                  -- 19
    .leaRsiRip (-0x1d),          -- 22
    .repMovsd,                   -- 29
    .jmp 0x55,                   -- 31
    .lockXadd,                   -- 33, loop
    .jnp 0x4e,                   -- 38
    .repMovsd,                   -- 40
    .jmp (-11)]                  -- 42

/-- The four disassemblies. -/
inductive Variant where
  | attack
  | attack1
  | attack2
  | attack3
  deriving DecidableEq, Repr

namespace Variant

/-- Where the report goes, from the SSA. -/
def disp : Variant → BitVec 32
  | .attack => -0x17B500
  | .attack1 => -0x17B500
  | .attack2 => 0x400000
  | .attack3 => -0x17B500

def listing : Variant → List Instr
  | .attack => patched (-0x17B500) 0x4e
  | .attack1 => patched (-0x17B500) 4
  | .attack2 => patched 0x400000 0x4e
  | .attack3 => jumping

/-- Where control goes when both windows are measured: `loop`, or `attacker`. -/
def measured : Variant → Nat
  | .attack => 31
  | .attack1 => 31
  | .attack2 => 31
  | .attack3 => 118

end Variant

/-- The disassembly in attack3.txt. -/
example : assemble Variant.attack3.listing =
    [0x4c, 0x89, 0xd1, 0x48, 0x8d, 0x35, 0x00, 0xb5, 0x39, 0x00, 0x48, 0x8d, 0xbe, 0x00,
      0x4b, 0xe8, 0xff, 0xf3, 0xa5, 0x4c, 0x89, 0xd1, 0x48, 0x8d, 0x35, 0xe3, 0xff, 0xff,
      0xff, 0xf3, 0xa5, 0xeb, 0x55, 0xf0, 0x49, 0x0f, 0xc1, 0x09, 0x7b, 0x4e, 0xf3, 0xa5, 0xeb, 0xf5] := by
  decide

/-! ## The report -/

/-- The state when both windows are measured, with the report at `disp` from the SSA. -/
def measuredAt (L : BitVec 64) (disp : BitVec 32) (s : Cpu) (offset : BitVec 64) : Cpu :=
  let S := L + 10 + 0x39B500
  let D := S + disp.signExtend 64
  { s with
    rip := L + offset, rcx := 0, rsi := L + 4 * s.r10, rdi := D + 4 * s.r10 + 4 * s.r10
    mem := copyDwords (copyDwords s.mem S D s.r10.toNat) L (D + 4 * s.r10) s.r10.toNat }

theorem patched_firstReach {L : BitVec 64} {s : Cpu} (disp : BitVec 32) (rel : BitVec 8)
    (entry : s.rip = L) :
    FirstReach (step (patched disp rel) L) (At L 31) s (measuredAt L disp s 31) := by
  subst entry
  refine FirstReach.instr 0 (by simp [At]) rfl ?_
  refine FirstReach.instr 3 (by simp [At]) rfl ?_
  refine FirstReach.instr 10 (by simp [At, add_assoc]) rfl ?_
  refine FirstReach.rep 17 (by simp [At, add_assoc]) rfl ?_
  refine FirstReach.instr 19 (by simp [At, Cpu.afterRep, add_assoc]) rfl ?_
  refine FirstReach.instr 22 (by simp [At, Cpu.afterRep, add_assoc]) rfl ?_
  refine FirstReach.rep 29 (by simp [At, Cpu.afterRep, add_assoc]) rfl ?_
  have there : FirstReach (step (patched disp rel) s.rip) (At s.rip 31) (measuredAt s.rip disp s 31)
      (measuredAt s.rip disp s 31) := .here rfl
  simpa [measuredAt, Cpu.afterRep, add_assoc] using there

theorem jumping_firstReach {L : BitVec 64} {s : Cpu} (entry : s.rip = L) :
    FirstReach (step jumping L) (At L 118) s (measuredAt L (-0x17B500) s 118) := by
  subst entry
  refine FirstReach.instr 0 (by simp [At]) rfl ?_
  refine FirstReach.instr 3 (by simp [At]) rfl ?_
  refine FirstReach.instr 10 (by simp [At, add_assoc]) rfl ?_
  refine FirstReach.rep 17 (by simp [At, add_assoc]) rfl ?_
  refine FirstReach.instr 19 (by simp [At, Cpu.afterRep, add_assoc]) rfl ?_
  refine FirstReach.instr 22 (by simp [At, Cpu.afterRep, add_assoc]) rfl ?_
  refine FirstReach.rep 29 (by simp [At, Cpu.afterRep, add_assoc]) rfl ?_
  refine FirstReach.instr 31 (by simp [At, Cpu.afterRep, add_assoc]) rfl ?_
  have there : FirstReach (step jumping s.rip) (At s.rip 118) (measuredAt s.rip (-0x17B500) s 118)
      (measuredAt s.rip (-0x17B500) s 118) := .here rfl
  simpa [measuredAt, Cpu.afterRep, add_assoc] using there

theorem attack_firstReach {L : BitVec 64} {s : Cpu} (a : Variant) (entry : s.rip = L) :
    FirstReach (step a.listing L) (At L a.measured) s
      (measuredAt L a.disp s (BitVec.ofNat 64 a.measured)) := by
  cases a with
  | attack => exact patched_firstReach _ _ entry
  | attack1 => exact patched_firstReach _ _ entry
  | attack2 => exact patched_firstReach _ _ entry
  | attack3 => exact jumping_firstReach entry

/-- The report at `D` is the SSA window and then the window from the label on, and nothing else has
changed. -/
structure Report (S L D : BitVec 64) (n : Nat) (before after : Memory) : Prop where
  ssa : ∀ i < 4 * n, after (D + BitVec.ofNat 64 i) = before (S + BitVec.ofNat 64 i)
  code : ∀ i < 4 * n, after (D + BitVec.ofNat 64 (4 * n) + BitVec.ofNat 64 i) = before (L + BitVec.ofNat 64 i)
  rest : ∀ a, ¬ InRegion D (8 * n) a → after a = before a

theorem measuredAt_report (L : BitVec 64) (disp : BitVec 32) (s : Cpu) (offset : BitVec 64)
    (small : 8 * s.r10.toNat ≤ 2 ^ 64)
    (fromSsa : Apart (L + 10 + 0x39B500) (4 * s.r10.toNat) (L + 10 + 0x39B500 + disp.signExtend 64)
      (8 * s.r10.toNat))
    (fromCode : Apart L (4 * s.r10.toNat) (L + 10 + 0x39B500 + disp.signExtend 64) (8 * s.r10.toNat)) :
    Report (L + 10 + 0x39B500) L (L + 10 + 0x39B500 + disp.signExtend 64) s.r10.toNat s.mem
      (measuredAt L disp s offset).mem := by
  simp only [measuredAt, four_mul]
  generalize s.r10.toNat = n at *
  generalize L + 10 + 0x39B500 = S at *
  generalize S + disp.signExtend 64 = D at *
  have double : 8 * n = 4 * n + 4 * n := by ring
  rw [double] at small fromSsa fromCode
  have report := copyDwords_twice s.mem small fromSsa fromCode
  refine ⟨fun i inside => ?_, fun i inside => ?_, fun a outside => ?_⟩
  · rw [report, if_pos (inRegion_add D inside (by omega)), add_sub_cancel_left]
  · have back : InRegion (D + BitVec.ofNat 64 (4 * n)) (4 * n)
        (D + BitVec.ofNat 64 (4 * n) + BitVec.ofNat 64 i) := inRegion_add _ inside (by omega)
    rw [report, if_neg (fun front => inRegion_front_back small front back), if_pos back,
      add_sub_cancel_left]
  · rw [double, inRegion_append small, not_or] at outside
    rw [report, if_neg outside.1, if_neg outside.2]

/-- What is at the label is at the start of the second window. -/
theorem Report.loaded {S L D : BitVec 64} {n : Nat} {before after : Memory}
    (report : Report S L D n before after) {code : List (BitVec 8)} (fits : code.length ≤ 4 * n) :
    Loaded after (D + BitVec.ofNat 64 (4 * n)) code ↔ Loaded before L code := by
  constructor
  · intro loaded i inside
    rw [← report.code i (by omega), loaded i inside]
  · intro loaded i inside
    rw [report.code i (by omega), loaded i inside]

theorem Loaded.unique {memory : Memory} {base : BitVec 64} {code code' : List (BitVec 8)}
    (loaded : Loaded memory base code) (length : code.length = code'.length) :
    Loaded memory base code' ↔ code = code' := by
  constructor
  · intro loaded'
    refine List.ext_getElem length fun i inside inside' => ?_
    rw [← loaded i inside, ← loaded' i inside']
  · rintro rfl
    exact loaded

theorem dispBytes_injective {disp disp' : BitVec 32} (same : dispBytes disp = dispBytes disp') :
    disp = disp' := by
  simp only [dispBytes, List.cons.injEq, and_true] at same
  obtain ⟨b0, b1, b2, b3⟩ := same
  have value (x : BitVec 32) : x.toNat = (x.extractLsb' 0 8).toNat + 256 * (x.extractLsb' 8 8).toNat +
      65536 * (x.extractLsb' 16 8).toNat + 16777216 * (x.extractLsb' 24 8).toNat := by
    simp only [BitVec.extractLsb'_toNat, Nat.shiftRight_eq_div_pow]
    have := x.isLt
    omega
  refine BitVec.eq_of_toNat_eq ?_
  rw [value disp, value disp', b0, b1, b2, b3]

/-- Both changes are in the bytes. -/
theorem assemble_patched_iff (disp : BitVec 32) (rel : BitVec 8) :
    assemble (patched disp rel) = assemble anchor ↔ disp = 0x400000 ∧ rel = 4 := by
  constructor
  · intro same
    have place := congrArg (fun code => (code.drop 13).take 4) same
    have target := congrArg (fun code => code[37]?) same
    exact ⟨dispBytes_injective place, Option.some.inj target⟩
  · rintro ⟨rfl, rfl⟩
    rfl

/-- **The report shows where it was sent and where the branch goes.**  Whatever the two numbers are, if
the report does not lie over what it is made of, its second window is the anchor exactly if both are
those of the anchor. -/
theorem patched_report_iff (L : BitVec 64) (disp : BitVec 32) (rel : BitVec 8) (s : Cpu) (entry : s.rip = L)
    (loaded : Loaded s.mem L (assemble (patched disp rel))) (enough : 11 ≤ s.r10.toNat)
    (small : 8 * s.r10.toNat ≤ 2 ^ 64)
    (fromSsa : Apart (L + 10 + 0x39B500) (4 * s.r10.toNat) (L + 10 + 0x39B500 + disp.signExtend 64)
      (8 * s.r10.toNat))
    (fromCode : Apart L (4 * s.r10.toNat) (L + 10 + 0x39B500 + disp.signExtend 64) (8 * s.r10.toNat)) :
    ∃ t, FirstReach (step (patched disp rel) L) (At L 31) s t ∧
      (Loaded t.mem (L + 10 + 0x39B500 + disp.signExtend 64 + BitVec.ofNat 64 (4 * s.r10.toNat))
          (assemble anchor) ↔
        disp = 0x400000 ∧ rel = 4) := by
  have report := measuredAt_report L disp s 31 small fromSsa fromCode
  have own : (assemble (patched disp rel)).length = 42 := rfl
  have genuine : (assemble anchor).length = 42 := rfl
  refine ⟨_, patched_firstReach disp rel entry, ?_⟩
  rw [report.loaded (by omega), Loaded.unique loaded (own.trans genuine.symm), assemble_patched_iff]

/-! ## The four attacks -/

/-- The 40 bytes of a memory the guest takes the checksum of. -/
def fortyBytes (memory : Memory) (base : BitVec 64) : List (BitVec 8) :=
  (List.range 40).map fun i => memory (base + BitVec.ofNat 64 i)

theorem fortyBytes_loaded {memory : Memory} {base : BitVec 64} {code : List (BitVec 8)}
    (loaded : Loaded memory base code) (long : 40 ≤ code.length) : fortyBytes memory base = code.take 40 := by
  refine List.ext_getElem (by simp [fortyBytes, long]) fun i inside inside' => ?_
  rw [List.length_take] at inside'
  simp only [fortyBytes, List.getElem_map, List.getElem_range, List.getElem_take]
  exact loaded i (by omega)

theorem variant_checksum (a : Variant) :
    crc32 ((assemble a.listing).take 40) ≠ crc32 ((assemble anchor).take 40) := by
  cases a <;> decide +kernel

/-- The distance of the report from the SSA. -/
theorem variant_gap (a : Variant) (S : BitVec 64) :
    (S + a.disp.signExtend 64 - S).toNat = if a = .attack2 then 0x400000 else 2 ^ 64 - 0x17B500 := by
  rw [add_sub_cancel_left]
  cases a <;> decide

theorem variant_gap_label (a : Variant) (L : BitVec 64) :
    (L + 10 + 0x39B500 + a.disp.signExtend 64 - L).toNat = if a = .attack2 then 0x79B50A else 0x22000A := by
  rw [add_assoc, add_assoc, add_sub_cancel_left]
  cases a <;> decide

/-- **Every one of the attacks changes the checksum** of the anchor in the report, wherever the anchor is
loaded, for sizes from ten dwords up to 0x2F6A0, with which the report of no variant comes to lie over
what it is made of; and where the report is sent elsewhere, the place the monitor reads is as it was on
entry. -/
theorem attack_changes_checksum (a : Variant) (L : BitVec 64) (s : Cpu) (entry : s.rip = L)
    (loaded : Loaded s.mem L (assemble a.listing)) (enough : 10 ≤ s.r10.toNat)
    (bounded : s.r10.toNat ≤ 0x2F6A0) :
    let n := s.r10.toNat
    let S := L + 10 + 0x39B500
    let D := S + a.disp.signExtend 64
    ∃ t, FirstReach (step a.listing L) (At L a.measured) s t ∧
      crc32 (fortyBytes t.mem (D + BitVec.ofNat 64 (4 * n))) ≠ crc32 ((assemble anchor).take 40) ∧
      (a ≠ .attack2 → ∀ i < 8 * n, t.mem (S + 0x400000 + BitVec.ofNat 64 i) =
        s.mem (S + 0x400000 + BitVec.ofNat 64 i)) := by
  intro n S D
  have gap := variant_gap a S
  have gap' := variant_gap_label a L
  have fromSsa : Apart S (4 * n) D (8 * n) := by
    refine apart_of_gap ?_ ?_
    · rw [gap]
      split <;> omega
    · rw [gap]
      split <;> omega
  have fromCode : Apart L (4 * n) D (8 * n) := by
    refine apart_of_gap ?_ ?_
    · rw [gap']
      split <;> omega
    · rw [gap']
      split <;> omega
  have report := measuredAt_report L a.disp s (BitVec.ofNat 64 a.measured) (by omega) fromSsa fromCode
  refine ⟨_, attack_firstReach a entry, ?_, fun redirected i inside => report.rest _ ?_⟩
  · have forty : Loaded s.mem L ((assemble a.listing).take 40) := by
      intro i inside
      rw [List.length_take] at inside
      rw [loaded i (by omega), List.getElem_take]
    have length : ((assemble a.listing).take 40).length = 40 := by cases a <;> rfl
    have window := (report.loaded (by rw [length]; omega)).mpr forty
    rw [fortyBytes_loaded window (by rw [length]), List.take_take]
    exact variant_checksum a
  · have far : (S + 0x400000 - D).toNat = 0x57B500 := by
      have shift : S + 0x400000 - D = 0x400000 - a.disp.signExtend 64 := by
        simp only [D]
        ring
      rw [shift]
      cases a with
      | attack2 => exact absurd rfl redirected
      | _ => decide
    have place : InRegion (S + 0x400000) (8 * n) (S + 0x400000 + BitVec.ofNat 64 i) :=
      inRegion_add _ inside (by omega)
    exact fun there => apart_of_gap (by rw [far]; omega) (by rw [far]; omega) _ there place

/-! ## What the monitor sees of the second attack -/

/-- `CommandLoop.step` for any listing, with the code where it was loaded and not written over. -/
def stepOf (program : List Instr) (L : BitVec 64) (s : Shared) : Event → Option Shared
  | .post v => if s.MayPost then some (s.post v) else none
  | .anchor => (fetch program (s.cpu.rip - L).toNat).map s.instr

/-- The offset the branch goes to. -/
def exitOf (rel : BitVec 8) : BitVec 64 := 38 + rel.signExtend 64

/-- The second memory has the one branch byte in places where the first has the other. -/
def Struck (rel rel' : BitVec 8) (m m' : Memory) : Prop := ∀ a, m' a = m a ∨ m a = rel ∧ m' a = rel'

/-- The same state over another memory. -/
def withMem (s : Shared) (m : Memory) : Shared := { s with cpu := { s.cpu with mem := m } }

/-- Two runs are in the same state but for their memories, or each has left by its own branch. -/
inductive Twin (L : BitVec 64) (rel rel' : BitVec 8) (s : Shared) : Shared → Prop where
  | same (m : Memory) (struck : Struck rel rel' s.cpu.mem m) : Twin L rel rel' s (withMem s m)
  | left (m : Memory) (struck : Struck rel rel' s.cpu.mem m) (here : s.cpu.rip = L + exitOf rel) :
      Twin L rel rel' s { s with cpu := { s.cpu with rip := L + exitOf rel', mem := m } }

section Twins

variable {L : BitVec 64} {disp : BitVec 32} {rel rel' : BitVec 8}

/-- Two listings that differ in one instruction, of the same length, differ there alone. -/
theorem fetch_replaced {instr instr' : Instr} (length : (encode instr).length = (encode instr').length)
    (front back : List Instr) (offset : Nat) :
    fetch (front ++ instr :: back) offset = fetch (front ++ instr' :: back) offset ∨
      (offset = (assemble front).length ∧ fetch (front ++ instr :: back) offset = some instr ∧
        fetch (front ++ instr' :: back) offset = some instr') := by
  induction front generalizing offset with
  | nil =>
      by_cases zero : offset = 0
      · subst zero
        exact Or.inr ⟨rfl, rfl, rfl⟩
      · refine Or.inl ?_
        simp only [List.nil_append, fetch, if_neg zero, length]
  | cons first front ih =>
      simp only [List.cons_append, fetch]
      by_cases zero : offset = 0
      · rw [if_pos zero, if_pos zero]
        exact Or.inl rfl
      rw [if_neg zero, if_neg zero]
      by_cases inside : offset < (encode first).length
      · rw [if_pos inside, if_pos inside]
        exact Or.inl rfl
      rw [if_neg inside, if_neg inside]
      rcases ih (offset - (encode first).length) with alike | ⟨place, fetched, fetched'⟩
      · exact Or.inl alike
      · refine Or.inr ⟨?_, fetched, fetched'⟩
        rw [assemble, List.flatMap_cons, List.length_append, ← assemble, ← place]
        omega

theorem fetch_patched (disp : BitVec 32) (rel rel' : BitVec 8) (offset : Nat) :
    fetch (patched disp rel) offset = fetch (patched disp rel') offset ∨
      (offset = 36 ∧ fetch (patched disp rel) offset = some (.jnp rel) ∧
        fetch (patched disp rel') offset = some (.jnp rel')) := by
  have length : (encode (.jnp rel)).length = (encode (.jnp rel')).length := rfl
  exact fetch_replaced length ((patched disp 0).take 8) [.repMovsd, .jmp (-11)] offset

/-- No instruction looks at a byte of memory but to copy it. -/
theorem instr_withMem {s : Shared} {m : Memory} (struck : Struck rel rel' s.cpu.mem m) (instr : Instr) :
    ∃ m', Struck rel rel' (s.instr instr).cpu.mem m' ∧
      (withMem s m).instr instr = withMem (s.instr instr) m' := by
  cases instr with
  | repMovsd =>
      by_cases finished : s.cpu.rcx = 0
      · have ended (cpu : Cpu) (zero : cpu.rcx = 0) : exec cpu .repMovsd = { cpu with rip := cpu.rip + 2 } :=
          if_pos zero
        refine ⟨m, ?_, ?_⟩
        · rw [Shared.instr, ended _ finished]
          exact struck
        · rw [Shared.instr, Shared.instr, ended s.cpu finished, ended (withMem s m).cpu finished]
          rfl
      · have goesOn : (withMem s m).cpu.rcx ≠ 0 := finished
        refine ⟨copyDword m s.cpu.rsi s.cpu.rdi, ?_, ?_⟩
        · rw [Shared.instr, exec_rep finished]
          intro a
          exact copyDword_related (R := fun b b' => b' = b ∨ b = rel ∧ b' = rel') struck _ _ a
        · rw [Shared.instr, Shared.instr, exec_rep finished, exec_rep goesOn]
          rfl
  | _ => exact ⟨m, struck, rfl⟩

theorem twin_jnp {s : Shared} {m : Memory} (struck : Struck rel rel' s.cpu.mem m) (here : s.cpu.rip = L + 36) :
    Twin L rel rel' (s.instr (.jnp rel)) ((withMem s m).instr (.jnp rel')) := by
  have target (r : BitVec 8) : s.cpu.rip + 2 + r.signExtend 64 = L + exitOf r := by
    rw [here, exitOf]
    ring
  cases parity : s.cpu.pf with
  | true =>
      have equal : (withMem s m).instr (.jnp rel') = withMem (s.instr (.jnp rel)) m := by
        simp [Shared.instr, withMem, parity]
      rw [equal]
      exact .same m struck
  | false =>
      have moved : s.instr (.jnp rel) = { s with cpu := { s.cpu with rip := L + exitOf rel } } := by
        rw [← target rel]
        simp [Shared.instr, parity]
      have moved' : (withMem s m).instr (.jnp rel') =
          { s with cpu := { s.cpu with rip := L + exitOf rel', mem := m } } := by
        rw [← target rel']
        simp [Shared.instr, withMem, parity]
      rw [moved, moved']
      exact .left m struck rfl

/-- Twins take their steps together. -/
theorem Twin.step (outside : fetch (patched disp rel) (exitOf rel).toNat = none)
    (outside' : fetch (patched disp rel') (exitOf rel').toNat = none) {s s' : Shared} (twin : Twin L rel rel' s s')
    (event : Event) :
    Option.Rel (Twin L rel rel') (stepOf (patched disp rel) L s event)
      (stepOf (patched disp rel') L s' event) := by
  cases event with
  | post v =>
      have rule (cpu : Cpu) : Shared.MayPost { s with cpu := cpu } = s.MayPost := rfl
      cases twin with
      | same m struck =>
          simp only [stepOf, withMem, rule]
          split
          · exact .some (.same m struck)
          · exact .none
      | left m struck here =>
          simp only [stepOf, rule]
          split
          · exact .some (.left m struck here)
          · exact .none
  | anchor =>
      cases twin with
      | same m struck =>
          have place : (withMem s m).cpu.rip = s.cpu.rip := rfl
          rcases fetch_patched disp rel rel' (s.cpu.rip - L).toNat with alike | ⟨branch, fetched, fetched'⟩
          · simp only [stepOf, place, alike]
            cases fetch (patched disp rel') (s.cpu.rip - L).toNat with
            | none => exact .none
            | some instr =>
                obtain ⟨m', struck', ran⟩ := instr_withMem struck instr
                simp only [Option.map_some, ran]
                exact .some (.same m' struck')
          · simp only [stepOf, place, fetched, fetched', Option.map_some]
            refine .some (twin_jnp struck ?_)
            rw [← sub_eq_iff_eq_add']
            exact BitVec.eq_of_toNat_eq branch
      | left m struck here =>
          simp only [stepOf, here, add_sub_cancel_left, outside, outside']
          exact .none

theorem Twin.run (outside : fetch (patched disp rel) (exitOf rel).toNat = none)
    (outside' : fetch (patched disp rel') (exitOf rel').toNat = none) (events : List Event) {s s' : Shared}
    (twin : Twin L rel rel' s s') :
    Option.Rel (Twin L rel rel') (runEvents (stepOf (patched disp rel) L) events s)
      (runEvents (stepOf (patched disp rel') L) events s') := by
  induction events generalizing s s' with
  | nil => exact .some twin
  | cons event rest ih =>
      have stepped := twin.step outside outside' event
      rw [runEvents, runEvents]
      generalize stepOf (patched disp rel) L s event = next at stepped ⊢
      generalize stepOf (patched disp rel') L s' event = next' at stepped ⊢
      cases stepped with
      | none => exact .none
      | some later => exact ih later

end Twins

namespace Example

open HyperSmile.Anchor.Measure.Example (cpuAt imageAt loaded_imageAt)
open HyperSmile.Anchor.CommandLoop.Example (cpu threeDwords)

/-- The anchor with its branch sent to `attacker`, twelve dwords. -/
theorem branch_in_report :
    ∃ t, FirstReach (step (patched 0x400000 0x4e) 0x7f0000000fd6) (At 0x7f0000000fd6 31)
        (cpuAt 0x7f0000000fd6 (patched 0x400000 0x4e) 0 12) t ∧
      ¬ Loaded t.mem (0x7f000079c4e0 + BitVec.ofNat 64 48) (assemble anchor) := by
  obtain ⟨t, reached, shown⟩ := patched_report_iff 0x7f0000000fd6 0x400000 0x4e
    (cpuAt 0x7f0000000fd6 (patched 0x400000 0x4e) 0 12) rfl (loaded_imageAt _ (by decide)) (by decide) (by decide)
    (apart_of_gap (by decide) (by decide)) (apart_of_gap (by decide) (by decide))
  exact ⟨t, reached, fun genuine => absurd (shown.mp genuine) (by decide)⟩

/-- attack3.txt at its load address, ten dwords. -/
theorem jump_in_checksum :
    ∃ t, FirstReach (step Variant.attack3.listing 0xfd4) (At 0xfd4 118) (cpuAt 0xfd4 jumping 0 10) t ∧
      crc32 (fortyBytes t.mem (0x220fde + BitVec.ofNat 64 40)) ≠ crc32 ((assemble anchor).take 40) := by
  obtain ⟨t, reached, differs, -⟩ := attack_changes_checksum .attack3 0xfd4 (cpuAt 0xfd4 jumping 0 10) rfl
    (loaded_imageAt _ (by decide)) (by decide) (by decide)
  exact ⟨t, reached, differs⟩

/-- At the loop, with the anchor in memory and its last dwords about to be copied. -/
def ready : Shared := .enter { cpu with mem := imageAt 0x1000 (assemble anchor), rsi := 0x1020 }

end Example

end HyperSmile.Anchor.Attack
