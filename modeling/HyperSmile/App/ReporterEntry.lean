/-
# App.ReporterEntry — from the host into the enclave and back

`sgx_reporter_enter2` of enclave_entry.S is what `main` calls to have a report made. It saves
the registers its caller owns and its five parameters on the stack, hands the enclave the
output page, the size and the address to leave to, publishes the TCS, and executes ENCLU. The
enclave is a parameter: it takes the processor at ENCLU to the processor after EEXIT, which
goes on at `%rbx`; interruptions in between are its own business, as the asynchronous exit
pointer is the ENCLU instruction itself.

* `sgxReporterEnter2_returns`: the caller gets its registers back from every enclave that keeps the
  frame. `worker_shell` of anchor_function.S does, with every worker that keeps its own
  (`workerShell_returns`), so the trip of a report ends where it began (`report_returns`).
* `calls_logged`: over any number of calls, which of them execute `vzeroupper`, and where the enclave
  is resumed after an interruption.
-/
import HyperSmile.Theory.WordMemory
import HyperSmile.Theory.Runs
import Mathlib.Logic.Function.Basic

namespace HyperSmile.App.ReporterEntry

open HyperSmile.Theory.ByteMemory
open HyperSmile.Theory.WordMemory
open HyperSmile.Theory.Runs

set_option autoImplicit false

/-! ## Instructions -/

inductive Reg where
  | rax | rbx | rcx | rdx | rsi | rdi | rbp | rsp
  | r8 | r9 | r10 | r11 | r12 | r13 | r14 | r15
  deriving DecidableEq, Repr

@[ext]
structure Cpu where
  reg : Reg → BitVec 64
  mem : Memory
  /-- how often `vzeroupper` was executed -/
  vzerouppers : Nat

inductive Instr where
  | push (r : Reg)
  | pop (r : Reg)
  | mov (src dst : Reg)
  /-- `mov $v, dst`, and `lea label(%rip), dst` -/
  | imm (v : BitVec 64) (dst : Reg)
  /-- `lea disp(base), dst` -/
  | lea (disp : BitVec 64) (base dst : Reg)
  /-- `mov disp(base), dst` -/
  | load (disp : BitVec 64) (base dst : Reg)
  /-- `mov src, disp(base)` -/
  | store (src : Reg) (disp : BitVec 64) (base : Reg)
  | vzeroupper

def Cpu.set (s : Cpu) (r : Reg) (v : BitVec 64) : Cpu := { s with reg := Function.update s.reg r v }

def exec (s : Cpu) : Instr → Cpu
  | .push r =>
      { s.set .rsp (s.reg .rsp - 8) with mem := store64 s.mem (s.reg .rsp - 8) (s.reg r) }
  | .pop r => (s.set .rsp (s.reg .rsp + 8)).set r (load64 s.mem (s.reg .rsp))
  | .mov src dst => s.set dst (s.reg src)
  | .imm v dst => s.set dst v
  | .lea disp base dst => s.set dst (s.reg base + disp)
  | .load disp base dst => s.set dst (load64 s.mem (s.reg base + disp))
  | .store src disp base => { s with mem := store64 s.mem (s.reg base + disp) (s.reg src) }
  | .vzeroupper => { s with vzerouppers := s.vzerouppers + 1 }

/-- A listing without jumps. -/
def run (program : List Instr) (s : Cpu) : Cpu := program.foldl exec s

/-- `ret`: where it goes, and the processor there. -/
def ret (s : Cpu) : BitVec 64 × Cpu := (load64 s.mem (s.reg .rsp), s.set .rsp (s.reg .rsp + 8))

/-! ## The two macros of enclave_entry.h -/

def eenterProlog : List Instr :=
  [.push .rbp, .mov .rsp .rbp, .push .rbx, .push .r12, .push .r13, .push .r14, .push .r15,
    .push .r8, .push .rcx, .push .rdx, .push .rsi, .push .rdi]

/-- `EENTER_EPILOG` before its `ret`. -/
def eenterEpilog : List Instr :=
  [.load (-8) .rbp .rbx, .load (-16) .rbp .r12, .load (-24) .rbp .r13, .load (-32) .rbp .r14,
    .load (-40) .rbp .r15, .mov .rbp .rsp, .pop .rbp]

/-! ## sgx_reporter_enter2 -/

/-- Where the linker has put the labels. -/
structure Labels where
  gCleanYmm : BitVec 64
  defaultAsyncExitPointer : BitVec 64
  exitInst : BitVec 64

/-- `g_clean_ymm` is a `.long`, and `g_tcs` follows it. -/
def Labels.gTcs (labels : Labels) : BitVec 64 := labels.gCleanYmm + 4

/-- `g_tcs` is four `.word`s of two bytes. -/
def Labels.gAepPointer (labels : Labels) : BitVec 64 := labels.gCleanYmm + 12

/-- The output page to `%rdi`, the size to `%r10`, the address to leave to in `%r11`, and eight
bytes from `g_clean_ymm` on. -/
def arguments (labels : Labels) : List Instr :=
  [.load (-56) .rbp .rdi, .mov .r8 .r10, .imm labels.exitInst .r11, .imm labels.gCleanYmm .rbx,
    .load 0 .rbx .rcx]

/-- `cmp $0, %rcx; je 1f; vzeroupper; 1:` -/
def cleanUpper (s : Cpu) : Cpu := if s.reg .rcx = 0 then s else exec s .vzeroupper

/-- The TCS to `%rbx` and `g_tcs`, `g_aep_pointer` to `%rcx`. -/
def publishTcs (labels : Labels) : List Instr :=
  [.load (-80) .rbp .rbx, .imm labels.gTcs .rax, .store .rbx 0 .rax, .imm labels.gAepPointer .rax,
    .load 0 .rax .rcx]

/-- `cmp $0x0, %rcx; jnz 1f`, or initialize when NULL. -/
def initAep (labels : Labels) (s : Cpu) : Cpu :=
  if s.reg .rcx ≠ 0 then s
  else run [.imm labels.defaultAsyncExitPointer .rcx, .store .rcx 0 .rax] s

/-- The processor at ENCLU. -/
def enter (labels : Labels) (s : Cpu) : Cpu :=
  let s := run (arguments labels) (run eenterProlog s)
  let s := run (publishTcs labels) (cleanUpper s)
  exec (initAep labels s) (.imm 2 .rax)

/-- The call, with the return address; `none` when the enclave leaves to somewhere else. -/
def sgxReporterEnter2 (labels : Labels) (enclave : Cpu → Cpu) (s : Cpu) : Option (BitVec 64 × Cpu) :=
  let out := enclave (enter labels s)
  if out.reg .rbx = labels.exitInst then some (ret (run eenterEpilog out)) else none

/-! ## The frame -/

@[simp] theorem run_nil (s : Cpu) : run [] s = s := rfl

@[simp] theorem run_cons (instr : Instr) (program : List Instr) (s : Cpu) :
    run (instr :: program) s = run program (exec s instr) := rfl

/-- Pushes of registers other than the stack pointer. -/
theorem run_push (regs : List Reg) (s : Cpu) (others : .rsp ∉ regs) :
    run (regs.map .push) s =
      { s.set .rsp (s.reg .rsp - BitVec.ofNat 64 (8 * regs.length)) with
        mem := storeDown s.mem (s.reg .rsp) (regs.map s.reg) } := by
  induction regs generalizing s with
  | nil => simp [Cpu.set, storeDown]
  | cons r regs ih =>
      rw [List.mem_cons, not_or] at others
      rw [List.map_cons, run_cons, ih _ others.2]
      have same : regs.map (exec s (.push r)).reg = regs.map s.reg :=
        List.map_congr_left fun q member =>
          Function.update_of_ne (ne_of_mem_of_not_mem member others.2) _ _
      have stack : (exec s (.push r)).reg .rsp = s.reg .rsp - 8 := by simp [exec, Cpu.set]
      rw [same, stack, sub_word, ← Nat.mul_succ]
      simp [Cpu.set, exec, storeDown]

/-- What the prolog saves, in this order downwards from the return address. -/
def saved : List Reg := [.rbp, .rbx, .r12, .r13, .r14, .r15, .r8, .rcx, .rdx, .rsi, .rdi]

def frame (s : Cpu) : Memory := storeDown s.mem (s.reg .rsp) (saved.map s.reg)

theorem run_eenterProlog (s : Cpu) :
    run eenterProlog s =
      { (s.set .rsp (s.reg .rsp - 88)).set .rbp (s.reg .rsp - 8) with mem := frame s } := by
  have pushes : eenterProlog = .push .rbp :: .mov .rsp .rbp ::
      [.rbx, .r12, .r13, .r14, .r15, .r8, .rcx, .rdx, .rsi, .rdi].map .push := rfl
  rw [pushes, run_cons, run_cons, run_push _ _ (by decide)]
  simp only [exec, Cpu.set, Function.update_apply, frame, saved, List.map, storeDown, reduceIte, reduceCtorEq,
    List.length, Nat.reduceMul, Nat.reduceAdd, Cpu.mk.injEq, and_true, BitVec.ofNat_eq_ofNat]
  funext r
  cases r <;> simp [sub_sub]

theorem load64_frame (s : Cpu) {k : Nat} {r : Reg} (found : saved[k]? = some r) :
    load64 (frame s) (s.reg .rsp - BitVec.ofNat 64 (8 * k + 8)) = s.reg r :=
  load64_storeDown _ _ (by simp [saved]) (by rw [List.getElem?_map, found, Option.map_some])

/-- Behind the prolog the frame is found from `%rbp`. -/
theorem load64_frame_rbp (s : Cpu) {k : Nat} {disp : BitVec 64} {r : Reg} (found : saved[k]? = some r)
    (here : disp = -BitVec.ofNat 64 (8 * k)) : load64 (frame s) (s.reg .rsp - 8 + disp) = s.reg r := by
  rw [here, ← sub_eq_add_neg, sub_word, load64_frame s found]

/-! ## The processor at ENCLU -/

section

variable (labels : Labels) (s : Cpu)

theorem run_arguments :
    run (arguments labels) s =
      { s with
        reg := fun r => match r with
          | .rbx => labels.gCleanYmm
          | .rcx => load64 s.mem labels.gCleanYmm
          | .rdi => load64 s.mem (s.reg .rbp + -56)
          | .r10 => s.reg .r8
          | .r11 => labels.exitInst
          | r => s.reg r } := by
  refine Cpu.ext (funext fun r => ?_) rfl rfl
  cases r
  case rcx => exact congrArg (load64 s.mem) (BitVec.add_zero _)
  all_goals rfl

theorem run_publishTcs :
    run (publishTcs labels) s =
      { s with
        reg := fun r => match r with
          | .rax => labels.gAepPointer
          | .rbx => load64 s.mem (s.reg .rbp + -80)
          | .rcx =>
              load64 (store64 s.mem labels.gTcs (load64 s.mem (s.reg .rbp + -80))) labels.gAepPointer
          | r => s.reg r
        mem := store64 s.mem labels.gTcs (load64 s.mem (s.reg .rbp + -80)) } := by
  have stored : (run (publishTcs labels) s).mem = store64 s.mem labels.gTcs (load64 s.mem (s.reg .rbp + -80)) :=
    congrArg (store64 s.mem · _) (BitVec.add_zero _)
  refine Cpu.ext (funext fun r => ?_) stored rfl
  cases r
  case rcx => exact congrArg₂ load64 stored (BitVec.add_zero _)
  all_goals rfl

theorem cleanUpper_eq :
    cleanUpper s = { s with vzerouppers := s.vzerouppers + if s.reg .rcx = 0 then 0 else 1 } := by
  unfold cleanUpper
  split <;> rfl

theorem initAep_eq :
    initAep labels s =
      { s with
        reg := Function.update s.reg .rcx (if s.reg .rcx = 0 then labels.defaultAsyncExitPointer else s.reg .rcx)
        mem :=
          if s.reg .rcx = 0 then store64 s.mem (s.reg .rax) labels.defaultAsyncExitPointer else s.mem } := by
  unfold initAep
  by_cases null : s.reg .rcx = 0
  · rw [if_neg (not_not.mpr null), if_pos null, if_pos null]
    exact Cpu.ext rfl (congrArg (store64 s.mem · _) (BitVec.add_zero _)) rfl
  · rw [if_pos null, if_neg null, if_neg null, Function.update_eq_self]

/-- Behind the prolog, with the two parameters taken from the stack. -/
theorem behind_prolog {output tcs : BitVec 64} (fourth : load64 s.mem (s.reg .rbp + -56) = output)
    (first : load64 s.mem (s.reg .rbp + -80) = tcs) :
    let word := load64 (store64 s.mem labels.gTcs tcs) labels.gAepPointer
    exec (initAep labels (run (publishTcs labels) (cleanUpper (run (arguments labels) s)))) (.imm 2 .rax) =
      { reg := fun r => match r with
          | .rax => 2
          | .rbx => tcs
          | .rcx => if word = 0 then labels.defaultAsyncExitPointer else word
          | .rdi => output
          | .r10 => s.reg .r8
          | .r11 => labels.exitInst
          | r => s.reg r
        mem :=
          if word = 0 then
            store64 (store64 s.mem labels.gTcs tcs) labels.gAepPointer labels.defaultAsyncExitPointer
          else store64 s.mem labels.gTcs tcs
        vzerouppers := s.vzerouppers + if load64 s.mem labels.gCleanYmm = 0 then 0 else 1 } := by
  subst fourth first
  rw [run_arguments, cleanUpper_eq, run_publishTcs, initAep_eq]
  refine Cpu.ext (funext fun r => ?_) rfl rfl
  cases r <;> rfl

/-- The word tested before `vzeroupper`. -/
def cleanWord : BitVec 64 := load64 (frame s) labels.gCleanYmm

/-- The memory with the TCS published. -/
def tcsMem : Memory := store64 (frame s) labels.gTcs (s.reg .rdi)

/-- The word tested before the exit pointer is initialized. -/
def aepWord : BitVec 64 := load64 (tcsMem labels s) labels.gAepPointer

/-- **What the enclave is given.** -/
theorem enter_eq :
    enter labels s =
      { reg := fun r => match r with
          | .rax => 2
          | .rbx => s.reg .rdi
          | .rcx => if aepWord labels s = 0 then labels.defaultAsyncExitPointer else aepWord labels s
          | .rdi => s.reg .rcx
          | .rbp => s.reg .rsp - 8
          | .rsp => s.reg .rsp - 88
          | .r10 => s.reg .r8
          | .r11 => labels.exitInst
          | r => s.reg r
        mem :=
          if aepWord labels s = 0 then
            store64 (tcsMem labels s) labels.gAepPointer labels.defaultAsyncExitPointer
          else tcsMem labels s
        vzerouppers := s.vzerouppers + if cleanWord labels s = 0 then 0 else 1 } := by
  have mem : (run eenterProlog s).mem = frame s := by rw [run_eenterProlog]
  have base : (run eenterProlog s).reg .rbp = s.reg .rsp - 8 := by
    rw [run_eenterProlog]
    rfl
  have output : load64 (frame s) (s.reg .rsp - 8 + -56) = s.reg .rcx :=
    load64_frame_rbp s (show saved[7]? = some .rcx by decide) (by decide)
  have tcs : load64 (frame s) (s.reg .rsp - 8 + -80) = s.reg .rdi :=
    load64_frame_rbp s (show saved[10]? = some .rdi by decide) (by decide)
  rw [← mem, ← base] at output tcs
  rw [enter, behind_prolog labels _ output tcs, mem]
  refine Cpu.ext (funext fun r => ?_) rfl ?_
  · rw [run_eenterProlog]
    cases r <;> rfl
  · rw [run_eenterProlog]
    rfl

end

/-! ## What a call keeps -/

/-- The enclave comes back to `exit_inst` with the frame pointer it was given, and has kept the
frame and the return address, which are the 96 bytes from its stack pointer on. -/
structure Returns (labels : Labels) (e out : Cpu) : Prop where
  leaves : out.reg .rbx = labels.exitInst
  base : out.reg .rbp = e.reg .rbp
  keeps : ∀ b, InRegion (e.reg .rsp) 96 b → out.mem b = e.mem b

/-- The caller's stack is apart from `g_clean_ymm`, `g_tcs` and `g_aep_pointer`. -/
def StackApart (labels : Labels) (s : Cpu) : Prop := Apart (s.reg .rsp - 88) 96 labels.gCleanYmm 20

/-- The registers a function gives back as it got them, with the stack pointer left out. -/
def calleeSaved : List Reg := [.rbx, .rbp, .r12, .r13, .r14, .r15]

theorem gTcs_in_data (labels : Labels) {b : BitVec 64} (inside : InRegion labels.gTcs 8 b) :
    InRegion labels.gCleanYmm 20 b := by
  simp only [InRegion, Labels.gTcs] at *
  bv_omega

theorem gAepPointer_in_data (labels : Labels) {b : BitVec 64} (inside : InRegion labels.gAepPointer 8 b) :
    InRegion labels.gCleanYmm 20 b := by
  simp only [InRegion, Labels.gAepPointer] at *
  bv_omega

/-- Behind the frame the call writes to its own data only. -/
theorem enter_mem_outside (labels : Labels) (s : Cpu) {b : BitVec 64}
    (outside : ¬ InRegion labels.gCleanYmm 20 b) : (enter labels s).mem b = frame s b := by
  have published : tcsMem labels s b = frame s b :=
    store64_outside _ _ fun inside => outside (gTcs_in_data labels inside)
  rw [enter_eq]
  by_cases null : aepWord labels s = 0
  · simp only [if_pos null]
    rw [store64_outside _ _ fun inside => outside (gAepPointer_in_data labels inside), published]
  · simp only [if_neg null]
    exact published

theorem run_eenterEpilog (s : Cpu) :
    run eenterEpilog s =
      { s with
        reg := fun r => match r with
          | .rbx => load64 s.mem (s.reg .rbp + -8)
          | .r12 => load64 s.mem (s.reg .rbp + -16)
          | .r13 => load64 s.mem (s.reg .rbp + -24)
          | .r14 => load64 s.mem (s.reg .rbp + -32)
          | .r15 => load64 s.mem (s.reg .rbp + -40)
          | .rbp => load64 s.mem (s.reg .rbp)
          | .rsp => s.reg .rbp + 8
          | r => s.reg r } := by
  refine Cpu.ext (funext fun r => ?_) rfl rfl
  cases r <;> rfl

section

variable {labels : Labels} {s out : Cpu}

/-- In the frame and the return address the enclave leaves what the prolog stored. -/
theorem Returns.frame_byte (returns : Returns labels (enter labels s) out) (apart : StackApart labels s)
    {b : BitVec 64} (inside : InRegion (s.reg .rsp - 88) 96 b) : out.mem b = frame s b := by
  have stack : (enter labels s).reg .rsp = s.reg .rsp - 88 := by rw [enter_eq]
  rw [returns.keeps b (stack ▸ inside), enter_mem_outside _ _ (apart b inside)]

theorem Returns.saved_word (returns : Returns labels (enter labels s) out) (apart : StackApart labels s)
    {k : Nat} {r : Reg} (found : saved[k]? = some r) :
    load64 out.mem (s.reg .rsp - BitVec.ofNat 64 (8 * k + 8)) = s.reg r := by
  have slot : k < 11 := (List.getElem?_eq_some_iff.mp found).1
  have same : load64 out.mem (s.reg .rsp - BitVec.ofNat 64 (8 * k + 8)) =
      load64 (frame s) (s.reg .rsp - BitVec.ofNat 64 (8 * k + 8)) := by
    refine load64_congr fun i inside => returns.frame_byte apart ?_
    unfold InRegion
    bv_omega
  rw [same, load64_frame s found]

theorem Returns.return_word (returns : Returns labels (enter labels s) out) (apart : StackApart labels s) :
    load64 out.mem (s.reg .rsp) = load64 s.mem (s.reg .rsp) := by
  refine load64_congr fun i inside => ?_
  have above : InRegion (s.reg .rsp) 8 (s.reg .rsp + BitVec.ofNat 64 i) :=
    inRegion_add _ inside (by decide)
  have window : InRegion (s.reg .rsp - 88) 96 (s.reg .rsp + BitVec.ofNat 64 i) := by
    unfold InRegion
    bv_omega
  rw [returns.frame_byte apart window]
  exact storeDown_outside _ (by simp [saved]) (apart_below (by simp [saved]) _ above)

/-- **The call returns to its caller, who finds its registers as they were**, whatever the enclave
has made of them. -/
theorem sgxReporterEnter2_returns {enclave : Cpu → Cpu} (apart : StackApart labels s)
    (returns : Returns labels (enter labels s) (enclave (enter labels s))) :
    ∃ t, sgxReporterEnter2 labels enclave s = some (load64 s.mem (s.reg .rsp), t) ∧
      t.reg .rsp = s.reg .rsp + 8 ∧ ∀ r ∈ calleeSaved, t.reg r = s.reg r := by
  set out := enclave (enter labels s)
  have base : out.reg .rbp = s.reg .rsp - 8 := by rw [returns.base, enter_eq]
  have above : out.reg .rbp + 8 = s.reg .rsp := by rw [base, sub_add_cancel]
  have word {k : Nat} {disp : BitVec 64} {r : Reg} (found : saved[k]? = some r)
      (here : disp = -BitVec.ofNat 64 (8 * k)) : load64 out.mem (out.reg .rbp + disp) = s.reg r := by
    rw [base, here, ← sub_eq_add_neg, sub_word, returns.saved_word apart found]
  have outer : load64 out.mem (out.reg .rbp) = s.reg .rbp := by
    have lowest := word (show saved[0]? = some .rbp by decide) (show (0 : BitVec 64) = _ by decide)
    rwa [add_zero] at lowest
  have returned : sgxReporterEnter2 labels enclave s = some (ret (run eenterEpilog out)) :=
    if_pos returns.leaves
  have target : (ret (run eenterEpilog out)).1 = load64 s.mem (s.reg .rsp) := by
    rw [run_eenterEpilog, ← returns.return_word apart, ← above]
    rfl
  refine ⟨(ret (run eenterEpilog out)).2, ?_, ?_, ?_⟩
  · rw [returned, ← target]
  · rw [run_eenterEpilog, ← above]
    rfl
  · rw [run_eenterEpilog]
    intro r member
    simp only [calleeSaved, List.mem_cons, List.not_mem_nil, or_false] at member
    rcases member with rfl | rfl | rfl | rfl | rfl | rfl
    · exact word (show saved[1]? = some .rbx by decide) (by decide)
    · exact outer
    · exact word (show saved[2]? = some .r12 by decide) (by decide)
    · exact word (show saved[3]? = some .r13 by decide) (by decide)
    · exact word (show saved[4]? = some .r14 by decide) (by decide)
    · exact word (show saved[5]? = some .r15 by decide) (by decide)

end

/-! ## worker_shell

It ends the anchor's page in anchor_function.S, and runs on the host's stack. -/

/-- `callq`, up to the first instruction of what is called. -/
def call (back : BitVec 64) (s : Cpu) : Cpu :=
  { s.set .rsp (s.reg .rsp - 8) with mem := store64 s.mem (s.reg .rsp - 8) back }

/-- Up to `callq worker`; `back` is the address behind it, and the worker gets what follows the
word at `(%r9)`. -/
def callWorker (back : BitVec 64) (s : Cpu) : Cpu :=
  call back
    -- the third one is `sub $0x10, %rsp`; nothing reads its flags
    (run [.push .rbp, .mov .rsp .rbp, .lea (-0x10) .rsp .rsp, .store .r11 (-8) .rbp, .lea 8 .r9 .rdi] s)

/-- From there to the EEXIT of `eexit`, with `leaveq` as the two moves it is. -/
def leaveShell : List Instr :=
  [.load (-8) .rbp .r11, .mov .rbp .rsp, .pop .rbp, .mov .r11 .rbx, .mov .r11 .rcx, .imm 4 .rax]

def workerShell (back : BitVec 64) (worker : Cpu → Cpu) (s : Cpu) : Cpu :=
  run leaveShell (worker (callWorker back s))

/-- The worker gives `%rbp` back and keeps its caller's stack: the 24 bytes of `worker_shell` and
the 96 above them. -/
structure WorkerKeeps (w out : Cpu) : Prop where
  base : out.reg .rbp = w.reg .rbp
  keeps : ∀ b, InRegion (w.reg .rsp + 8) 120 b → out.mem b = w.mem b

/-- What runs in the enclave before `worker_shell` leaves the stack and `%r11` alone. -/
structure Carries (labels : Labels) (e a : Cpu) : Prop where
  stack : a.reg .rsp = e.reg .rsp
  base : a.reg .rbp = e.reg .rbp
  leave : a.reg .r11 = labels.exitInst
  keeps : ∀ b, InRegion (e.reg .rsp) 96 b → a.mem b = e.mem b

theorem callWorker_reg (back : BitVec 64) (s : Cpu) :
    (callWorker back s).reg .rbp = s.reg .rsp - 8 ∧ (callWorker back s).reg .rsp + 8 = s.reg .rsp - 24 := by
  refine ⟨rfl, ?_⟩
  have stack : (callWorker back s).reg .rsp = s.reg .rsp - 8 + -0x10 - 8 := rfl
  rw [stack]
  bv_omega

theorem callWorker_mem (back : BitVec 64) (s : Cpu) :
    (callWorker back s).mem =
      store64 (store64 (store64 s.mem (s.reg .rsp - 8) (s.reg .rbp)) (s.reg .rsp - 8 + -8) (s.reg .r11))
        (s.reg .rsp - 8 + -0x10 - 8) back := rfl

theorem run_leaveShell (w : Cpu) :
    run leaveShell w =
      { w with
        reg := fun r => match r with
          | .rax => 4
          | .rbx => load64 w.mem (w.reg .rbp + -8)
          | .rcx => load64 w.mem (w.reg .rbp + -8)
          | .r11 => load64 w.mem (w.reg .rbp + -8)
          | .rbp => load64 w.mem (w.reg .rbp)
          | .rsp => w.reg .rbp + 8
          | r => w.reg r } := by
  refine Cpu.ext (funext fun r => ?_) rfl rfl
  cases r <;> rfl

/-! The frame of `worker_shell` below `top`: `%rbp`, `%r11`, eight bytes unused, the return
address. -/

theorem shell_base {top : BitVec 64} {i : Nat} (inside : i < 8) :
    InRegion (top - 24) 120 (top - 8 + BitVec.ofNat 64 i) := by
  unfold InRegion
  bv_omega

theorem shell_leave {top : BitVec 64} {i : Nat} (inside : i < 8) :
    InRegion (top - 24) 120 (top - 8 + -8 + BitVec.ofNat 64 i) := by
  unfold InRegion
  bv_omega

theorem shell_above {top b : BitVec 64} (inside : InRegion top 96 b) :
    InRegion (top - 24) 120 b ∧ ¬ InRegion (top - 8) 8 b ∧ ¬ InRegion (top - 8 + -8) 8 b ∧
      ¬ InRegion (top - 8 + -0x10 - 8) 8 b := by
  unfold InRegion at *
  refine ⟨?_, ?_, ?_, ?_⟩ <;> bv_omega

theorem shell_apart (top : BitVec 64) :
    Apart (top - 8) 8 (top - 8 + -8) 8 ∧ Apart (top - 8) 8 (top - 8 + -0x10 - 8) 8 ∧
      Apart (top - 8 + -8) 8 (top - 8 + -0x10 - 8) 8 :=
  ⟨apart_of_gap (by bv_omega) (by bv_omega), apart_of_gap (by bv_omega) (by bv_omega),
    apart_of_gap (by bv_omega) (by bv_omega)⟩

/-- What the worker leaves of it, if it keeps its caller's stack. -/
theorem shell_kept {memory out : Memory} {top rbp r11 back : BitVec 64}
    (kept : ∀ b, InRegion (top - 24) 120 b →
      out b = store64 (store64 (store64 memory (top - 8) rbp) (top - 8 + -8) r11) (top - 8 + -0x10 - 8) back b) :
    load64 out (top - 8 + -8) = r11 ∧ load64 out (top - 8) = rbp ∧ ∀ b, InRegion top 96 b → out b = memory b := by
  obtain ⟨baseLeave, baseBack, leaveBack⟩ := shell_apart top
  refine ⟨?_, ?_, fun b inside => ?_⟩
  · rw [load64_congr fun i inside => kept _ (shell_leave inside), load64_store64_apart _ _ leaveBack,
      load64_store64]
  · rw [load64_congr fun i inside => kept _ (shell_base inside), load64_store64_apart _ _ baseBack,
      load64_store64_apart _ _ baseLeave, load64_store64]
  · obtain ⟨window, base, leave, below⟩ := shell_above inside
    rw [kept b window, store64_outside _ _ below, store64_outside _ _ leave, store64_outside _ _ base]

/-- **`worker_shell` keeps the enclave's side of the call** when the worker keeps its own. -/
theorem workerShell_returns {labels : Labels} {e a : Cpu} {back : BitVec 64} {worker : Cpu → Cpu}
    (carries : Carries labels e a)
    (keeps : WorkerKeeps (callWorker back a) (worker (callWorker back a))) :
    Returns labels e (workerShell back worker a) := by
  obtain ⟨frame, stack⟩ := callWorker_reg back a
  have base := keeps.base.trans frame
  have kept := keeps.keeps
  rw [stack, callWorker_mem] at kept
  obtain ⟨leave, caller, above⟩ := shell_kept kept
  rw [workerShell, run_leaveShell]
  generalize worker (callWorker back a) = w at *
  rw [← base] at leave caller
  refine ⟨leave.trans carries.leave, caller.trans carries.base, fun b inside => ?_⟩
  rw [← carries.keeps b inside]
  rw [← carries.stack] at inside
  exact above b inside

/-- **A report comes back.**  Whatever the enclave runs before `worker_shell`, and whatever the worker
is, if they keep the stack the host's call returns to its caller, whose registers are as they
were. -/
theorem report_returns (labels : Labels) (back : BitVec 64) (anchor worker : Cpu → Cpu) (s : Cpu)
    (apart : StackApart labels s) (carries : Carries labels (enter labels s) (anchor (enter labels s)))
    (keeps : WorkerKeeps (callWorker back (anchor (enter labels s)))
      (worker (callWorker back (anchor (enter labels s))))) :
    ∃ t, sgxReporterEnter2 labels (fun e => workerShell back worker (anchor e)) s =
        some (load64 s.mem (s.reg .rsp), t) ∧
      t.reg .rsp = s.reg .rsp + 8 ∧ ∀ r ∈ calleeSaved, t.reg r = s.reg r := by
  have shell : Returns labels (enter labels s) (workerShell back worker (anchor (enter labels s))) :=
    workerShell_returns carries keeps
  exact @sgxReporterEnter2_returns labels s (fun e => workerShell back worker (anchor e)) apart shell

namespace Example

def labels : Labels := ⟨0x404040, 0x401100, 0x401107⟩

/-- The host at a call, with its TCS and its stack. -/
def host (s : Cpu) : Cpu := (s.set .rdi 0x7f0000003000).set .rsp 0x7ffff000

def cpu : Cpu := ⟨fun _ => 5, fun _ => 0, 0⟩

theorem stackApart (s : Cpu) : StackApart labels (host s) := by
  have stack : (host s).reg .rsp = 0x7ffff000 := rfl
  rw [StackApart, stack]
  exact apart_of_gap (by decide) (by decide)

/-- A worker that writes a word to another page and keeps of its registers what it has to. -/
def worker (w : Cpu) : Cpu :=
  { w with
    reg := fun r => if r = .rbp then w.reg .rbp else 0
    mem := store64 w.mem 0x601000 7 }

/-- The registers are 5 again, those that the worker has set to 0 among them. -/
theorem report_came_back :
    ∃ t, sgxReporterEnter2 labels (fun e => workerShell 0x402000 worker (id e)) (host cpu) =
        some (load64 (host cpu).mem ((host cpu).reg .rsp), t) ∧
      t.reg .rsp = (host cpu).reg .rsp + 8 ∧ ∀ r ∈ calleeSaved, t.reg r = (host cpu).reg r := by
  have leave : (enter labels (host cpu)).reg .r11 = labels.exitInst := by rw [enter_eq]
  have stack : (enter labels (host cpu)).reg .rsp = 0x7ffff000 - 88 := by
    rw [enter_eq]
    rfl
  refine report_returns labels 0x402000 id worker (host cpu) (stackApart cpu)
    ⟨rfl, rfl, leave, fun _ _ => rfl⟩ ⟨rfl, fun b inside => store64_outside _ _ fun written => ?_⟩
  rw [(callWorker_reg _ _).2, id, stack] at inside
  unfold InRegion at *
  bv_omega

end Example

/-! ## Calls one after the other

`g_clean_ymm` has four bytes and is loaded with eight: the test before `vzeroupper` sees the low
half of `g_tcs`. -/

/-- What a call did before ENCLU. -/
structure Entry where
  tcs : BitVec 64
  aep : BitVec 64
  /-- `vzeroupper` was executed -/
  cleaned : Bool
  deriving DecidableEq, Repr

def entryOf (labels : Labels) (s : Cpu) : Entry where
  tcs := (enter labels s).reg .rbx
  aep := (enter labels s).reg .rcx
  cleaned := decide ((enter labels s).vzerouppers = s.vzerouppers + 1)

structure Session where
  cpu : Cpu
  /-- the latest first -/
  log : List Entry

/-- What the host does before a call, and the enclave in it. -/
structure Call where
  host : Cpu → Cpu
  enclave : Cpu → Cpu

def callStep (labels : Labels) (session : Session) (c : Call) : Option Session :=
  (sgxReporterEnter2 labels c.enclave (c.host session.cpu)).map fun done =>
    { cpu := done.2, log := entryOf labels (c.host session.cpu) :: session.log }

/-- Neither the host nor the enclave writes to the data of the call, nor is the stack over it. -/
structure Plain (labels : Labels) (session : Session) (c : Call) : Prop where
  host : ∀ b, InRegion labels.gCleanYmm 20 b → (c.host session.cpu).mem b = session.cpu.mem b
  stack : StackApart labels (c.host session.cpu)
  enclave : ∀ b, InRegion labels.gCleanYmm 20 b →
    (c.enclave (enter labels (c.host session.cpu))).mem b = (enter labels (c.host session.cpu)).mem b

/-- The three variables. -/
structure Holds (labels : Labels) (memory : Memory) (tcs aep : BitVec 64) : Prop where
  clean : ∀ i < 4, memory (labels.gCleanYmm + BitVec.ofNat 64 i) = 0
  tcs : load64 memory labels.gTcs = tcs
  aep : load64 memory labels.gAepPointer = aep

section

variable {labels : Labels} {memory memory' : Memory} {tcs aep : BitVec 64} {s : Cpu}

theorem gTcs_byte (labels : Labels) {i : Nat} (inside : i < 8) :
    InRegion labels.gCleanYmm 20 (labels.gTcs + BitVec.ofNat 64 i) :=
  gTcs_in_data labels (inRegion_add _ inside (by decide))

theorem gAepPointer_byte (labels : Labels) {i : Nat} (inside : i < 8) :
    InRegion labels.gCleanYmm 20 (labels.gAepPointer + BitVec.ofNat 64 i) :=
  gAepPointer_in_data labels (inRegion_add _ inside (by decide))

theorem gTcs_apart (labels : Labels) : Apart labels.gTcs 8 labels.gAepPointer 8 := by
  unfold Labels.gTcs Labels.gAepPointer
  exact apart_of_gap (by bv_omega) (by bv_omega)

theorem gAepPointer_apart (labels : Labels) : Apart labels.gAepPointer 8 labels.gTcs 8 :=
  fun b inside inside' => gTcs_apart labels b inside' inside

theorem gCleanYmm_byte (labels : Labels) {i : Nat} (inside : i < 4) :
    InRegion labels.gCleanYmm 20 (labels.gCleanYmm + BitVec.ofNat 64 i) ∧
      ¬ InRegion labels.gTcs 8 (labels.gCleanYmm + BitVec.ofNat 64 i) ∧
      ¬ InRegion labels.gAepPointer 8 (labels.gCleanYmm + BitVec.ofNat 64 i) := by
  unfold InRegion Labels.gTcs Labels.gAepPointer
  refine ⟨?_, ?_, ?_⟩ <;> bv_omega

theorem Holds.congr (holds : Holds labels memory tcs aep)
    (same : ∀ b, InRegion labels.gCleanYmm 20 b → memory' b = memory b) : Holds labels memory' tcs aep where
  clean i inside := (same _ (gCleanYmm_byte labels inside).1).trans (holds.clean i inside)
  tcs := (load64_congr fun _ inside => same _ (gTcs_byte labels inside)).trans holds.tcs
  aep := (load64_congr fun _ inside => same _ (gAepPointer_byte labels inside)).trans holds.aep

/-- The prolog does not reach the data. -/
theorem Holds.frame (holds : Holds labels s.mem tcs aep) (apart : StackApart labels s) :
    Holds labels (frame s) tcs aep := by
  refine holds.congr fun b inside => storeDown_outside _ (by simp [saved]) fun below => ?_
  have window : InRegion (s.reg .rsp - 88) 96 b := by
    have length : (saved.map s.reg).length = 11 := rfl
    rw [length, Below] at below
    unfold InRegion at *
    bv_omega
  exact apart b window inside

/-- `vzeroupper` is executed exactly if the TCS published last has ones in its low half. -/
theorem Holds.cleaned_iff (holds : Holds labels s.mem tcs aep) (apart : StackApart labels s) :
    (entryOf labels s).cleaned = true ↔ tcs.setWidth 32 ≠ 0 := by
  have held := holds.frame apart
  have word : cleanWord labels s = 0 ↔ tcs.setWidth 32 = 0 := by
    rw [← held.tcs]
    exact load64_straddle_eq_zero_iff held.clean
  rw [entryOf, decide_eq_true_iff, enter_eq, Ne, ← word]
  by_cases zero : cleanWord labels s = 0 <;> simp [zero]

theorem Holds.aepWord (holds : Holds labels s.mem tcs aep) (apart : StackApart labels s) :
    aepWord labels s = aep := by
  rw [ReporterEntry.aepWord, tcsMem, load64_store64_apart _ _ (gAepPointer_apart labels), (holds.frame apart).aep]

/-- After the call the variables hold its TCS and the exit pointer. -/
theorem Holds.enter (holds : Holds labels s.mem tcs aep) (apart : StackApart labels s) :
    Holds labels (enter labels s).mem (s.reg .rdi)
      (if aep = 0 then labels.defaultAsyncExitPointer else aep) := by
  have held := holds.frame apart
  have published : Holds labels (tcsMem labels s) (s.reg .rdi) aep := by
    refine ⟨fun i inside => ?_, load64_store64 _ _ _, holds.aepWord apart⟩
    rw [tcsMem, store64_outside _ _ (gCleanYmm_byte labels inside).2.1, held.clean i inside]
  rw [enter_eq, holds.aepWord apart]
  by_cases null : aep = 0
  · simp only [if_pos null]
    refine ⟨fun i inside => ?_, ?_, load64_store64 _ _ _⟩
    · rw [store64_outside _ _ (gCleanYmm_byte labels inside).2.2, published.clean i inside]
    · rw [load64_store64_apart _ _ (gTcs_apart labels), published.tcs]
  · simp only [if_neg null]
    exact published

end

/-- The epilog writes nothing. -/
theorem mem_of_returned {labels : Labels} {enclave : Cpu → Cpu} {s : Cpu} {done : BitVec 64 × Cpu}
    (returned : sgxReporterEnter2 labels enclave s = some done) :
    done.2.mem = (enclave (enter labels s)).mem := by
  simp only [sgxReporterEnter2] at returned
  generalize enclave (enter labels s) = out at *
  split at returned
  · rw [← Option.some.inj returned, run_eenterEpilog]
    rfl
  · cases returned

/-- What the calls so far have left in the variables, and in the log. -/
structure Kept (labels : Labels) (session : Session) : Prop where
  data : Holds labels session.cpu.mem ((session.log.head?.map Entry.tcs).getD 0)
    (if session.log = [] then 0 else labels.defaultAsyncExitPointer)
  chain : session.log.IsChain fun next previous => next.cleaned = true ↔ previous.tcs.setWidth 32 ≠ 0
  first : ∀ entry ∈ session.log.getLast?, entry.cleaned = false
  aep : ∀ entry ∈ session.log, entry.aep = labels.defaultAsyncExitPointer

theorem Kept.step {labels : Labels} {session t : Session} {c : Call} (kept : Kept labels session)
    (plain : Plain labels session c) (stepped : callStep labels session c = some t) : Kept labels t := by
  obtain ⟨hostKept, stack, enclaveKept⟩ := plain
  obtain ⟨done, returned, rfl⟩ := Option.map_eq_some_iff.mp stepped
  have before := kept.data.congr hostKept
  generalize c.host session.cpu = s at *
  have mem := mem_of_returned returned
  have after := (before.enter stack).congr fun b inside => (congrFun mem b).trans (enclaveKept b inside)
  have tcs : (entryOf labels s).tcs = s.reg .rdi := by rw [entryOf, enter_eq]
  -- the pointer is initialized by the first call, and found by the others
  have pointer : (if (if session.log = [] then 0 else labels.defaultAsyncExitPointer) = 0 then
      labels.defaultAsyncExitPointer else if session.log = [] then 0 else labels.defaultAsyncExitPointer) =
      labels.defaultAsyncExitPointer := by
    by_cases empty : session.log = [] <;> simp [empty]
  have aep : (entryOf labels s).aep = labels.defaultAsyncExitPointer := by
    rw [entryOf, enter_eq]
    simp only [before.aepWord stack, pointer]
  have cleaned := before.cleaned_iff stack
  generalize entryOf labels s = entry at *
  refine ⟨?_, ?_, ?_, ?_⟩
  · rw [pointer, ← tcs] at after
    exact after
  · cases log : session.log with
    | nil => exact .singleton _
    | cons previous earlier =>
        rw [log] at cleaned
        exact List.isChain_cons_cons.mpr ⟨cleaned, log ▸ kept.chain⟩
  · cases log : session.log with
    | nil =>
        rw [log] at cleaned
        simpa using cleaned
    | cons previous earlier =>
        have first := kept.first
        rw [log] at first
        simpa using first
  · intro entry' member
    rcases List.mem_cons.mp member with rfl | member
    · exact aep
    · exact kept.aep entry' member

/-- **Over any number of calls**, `vzeroupper` is executed in a call exactly if the TCS of the call
before it has ones in its low half, and never in the first one; every call is entered with the
default exit pointer, and once there was a call `g_aep_pointer` holds it. -/
theorem calls_logged (labels : Labels) (cpu : Cpu) (calls : List Call) (t : Session)
    (loaded : ∀ b, InRegion labels.gCleanYmm 20 b → cpu.mem b = 0)
    (plain : EveryStep (callStep labels) (Plain labels) calls ⟨cpu, []⟩)
    (ran : runEvents (callStep labels) calls ⟨cpu, []⟩ = some t) :
    (t.log.IsChain fun next previous => next.cleaned = true ↔ previous.tcs.setWidth 32 ≠ 0) ∧
      (∀ entry ∈ t.log.getLast?, entry.cleaned = false) ∧
      (∀ entry ∈ t.log, entry.aep = labels.defaultAsyncExitPointer) ∧
      (t.log ≠ [] → load64 t.cpu.mem labels.gAepPointer = labels.defaultAsyncExitPointer) := by
  have zeros : Holds labels (fun _ => 0) 0 0 := ⟨fun _ _ => rfl, by rw [load64]; rfl, by rw [load64]; rfl⟩
  have start : Kept labels ⟨cpu, []⟩ := by
    refine ⟨zeros.congr loaded, .nil, ?_, ?_⟩
    · intro entry last
      cases last
    · intro entry member
      cases member
  have kept := runEvents_invariant_of (fun _ _ _ condition inv stepped => inv.step condition stepped) plain start ran
  refine ⟨kept.chain, kept.first, kept.aep, fun called => ?_⟩
  rw [kept.data.aep, if_neg called]

namespace Example

/-- The call of `main`, with an enclave that leaves at once. -/
def report : Call := ⟨host, fun e => e.set .rbx (e.reg .r11)⟩

theorem plain (session : Session) : Plain labels session report :=
  ⟨fun _ _ => rfl, stackApart session.cpu, fun _ _ => rfl⟩

theorem report_done (session : Session) :
    ∃ t, callStep labels session report = some t ∧ t.log = entryOf labels (host session.cpu) :: session.log := by
  have leaves : (report.enclave (enter labels (host session.cpu))).reg .rbx = labels.exitInst := by
    rw [report, enter_eq]
    rfl
  exact ⟨_, congrArg (Option.map _) (if_pos leaves), rfl⟩

/-- `main` calls twice: `vzeroupper` is executed in the second call, though `g_clean_ymm` is 0. -/
theorem second_call_cleans :
    ∃ t, runEvents (callStep labels) [report, report] ⟨cpu, []⟩ = some t ∧
      t.log.map Entry.cleaned = [true, false] ∧
      load64 t.cpu.mem labels.gAepPointer = labels.defaultAsyncExitPointer := by
  obtain ⟨s, first, (log : s.log = [entryOf labels (host cpu)])⟩ := report_done ⟨cpu, []⟩
  obtain ⟨t, second, log'⟩ := report_done s
  have ran : runEvents (callStep labels) [report, report] ⟨cpu, []⟩ = some t := by
    rw [runEvents, first, Option.bind_some, runEvents, second]
    rfl
  obtain ⟨chain, start, -, found⟩ := calls_logged labels cpu [report, report] t (fun _ _ => rfl)
    ⟨plain _, fun _ _ => ⟨plain _, fun _ _ => trivial⟩⟩ ran
  have called : t.log ≠ [] := by
    rw [log']
    exact List.cons_ne_nil _ _
  refine ⟨t, ran, ?_, found called⟩
  have tcs : (entryOf labels (host cpu)).tcs = 0x7f0000003000 := by
    rw [entryOf, enter_eq]
    rfl
  rw [log', log] at chain start ⊢
  have cleaned := (List.isChain_cons_cons.mp chain).1.mpr (by rw [tcs]; decide)
  have none : (entryOf labels (host cpu)).cleaned = false := start _ rfl
  rw [List.map_cons, List.map_singleton, cleaned, none]

end Example

end HyperSmile.App.ReporterEntry
