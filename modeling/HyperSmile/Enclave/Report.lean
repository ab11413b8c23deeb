/-
# Enclave.Report — sgx_create_report_define and do_ereport_define.S

The wrapper gives EREPORT aligned temporaries and copies the report out; the stub sets up the
registers, executes `enclu` and returns a status. Two things are missing. The arguments are never
copied into the temporaries, which are zero: every call gives EREPORT the same zero target and zero
report data (`sgxCreateReportDefine_eq`). And the stub's `setb %al` is commented out: it returns the
zero it put in `rax` to select the leaf, so the wrapper sees no failure, and reports success over a
zero structure.

So a call is bound to its challenge exactly if target and challenge are zero and EREPORT succeeds on
zeros (`sgxCreateReportDefine_bound_iff`).

EREPORT is any function of its two buffers. The stub's `push` and `pop` are commented out as well:
it does not keep `rbx`, as the calling convention requires. The wrapper is modelled as C, with
variables that a call does not change.
-/
import HyperSmile.Theory.BlockCipher

namespace HyperSmile.Enclave.Report

open HyperSmile.Theory.BlockCipher

set_option autoImplicit false

abbrev Memory := Nat → BitVec 8

/-- `sgx_target_info_t` -/
abbrev TargetInfo := Fin 512 → BitVec 8

/-- `sgx_report_data_t` -/
abbrev ReportData := Fin 64 → BitVec 8

/-- `sgx_report_t` -/
abbrev SgxReport := Fin 432 → BitVec 8

/-- The values of `sgx_status_t` that the wrapper returns. -/
inductive SgxStatus where
  | success
  | errorUnexpected
  deriving DecidableEq, Repr

/-! ## The processor -/

structure Cpu where
  rax : Nat
  rbx : Nat
  rcx : Nat
  rdx : Nat
  rdi : Nat
  rsi : Nat
  carry : Bool
  memory : Memory

section Ereport

variable (ereport : TargetInfo → ReportData → Option SgxReport)

/-- EREPORT: a report is written to `rdx`, a failure is told in the carry flag. -/
def ereportLeaf (cpu : Cpu) : Cpu :=
  match ereport (readBlock 512 cpu.memory cpu.rbx) (readBlock 64 cpu.memory cpu.rcx) with
  | some report => { cpu with memory := writeBlock cpu.memory cpu.rdx report, carry := false }
  | none => { cpu with carry := true }

/-- `enclu`, and what EREPORT read. Leaf 0 is EREPORT, which faults on a misaligned buffer; no other
leaf is used here. -/
def enclu (cpu : Cpu) : Option (Cpu × TargetInfo × ReportData) :=
  if cpu.rax = 0 ∧ 512 ∣ cpu.rbx ∧ 128 ∣ cpu.rcx ∧ 512 ∣ cpu.rdx then
    some (ereportLeaf ereport cpu, readBlock 512 cpu.memory cpu.rbx, readBlock 64 cpu.memory cpu.rcx)
  else none

/-- `do_ereport_define` -/
def doEreportDefine (cpu : Cpu) : Option (Cpu × TargetInfo × ReportData) :=
  let cpu := { cpu with rbx := cpu.rdi }
  let cpu := { cpu with rcx := cpu.rsi }
  let cpu := { cpu with rdx := cpu.rdx }
  let cpu := { cpu with rax := 0 }
  enclu ereport cpu

/-! ## The wrapper -/

/-- The windows have no byte in common. -/
def Apart (a size b size' : Nat) : Prop := a + size ≤ b ∨ b + size' ≤ a

instance (a size b size' : Nat) : Decidable (Apart a size b size') :=
  inferInstanceAs (Decidable (_ ∨ _))

/-- A call: the three arguments, and where the three temporaries are. They are aligned as declared
and overlap neither each other nor the caller's report. -/
structure Call where
  targetInfo : Nat
  reportData : Nat
  report : Nat
  tmpReportData : Nat
  tmpTargetInfo : Nat
  tmpReport : Nat
  nonNull : targetInfo ≠ 0 ∧ reportData ≠ 0 ∧ report ≠ 0
  aligned : 128 ∣ tmpReportData ∧ 512 ∣ tmpTargetInfo ∧ 512 ∣ tmpReport
  targetInfo_apart : Apart tmpTargetInfo 512 tmpReport 512
  reportData_apart : Apart tmpReportData 128 tmpTargetInfo 512 ∧ Apart tmpReportData 128 tmpReport 512
  report_apart : Apart report 432 tmpReportData 128 ∧ Apart report 432 tmpTargetInfo 512 ∧
    Apart report 432 tmpReport 512

/-- What a call returns, what EREPORT read in it, and the memory it leaves. -/
structure Outcome where
  status : SgxStatus
  executed : TargetInfo × ReportData
  memory : Memory

/-- `unsigned long tmp[size / 8] = {0}` -/
def cleared (memory : Memory) (tmp size : Nat) : Memory := writeBlock memory tmp fun _ : Fin size => 0

/-- `sgx_create_report_define` -/
def sgxCreateReportDefine (call : Call) (before : Cpu) : Option Outcome := do
  let memory := cleared before.memory call.tmpReportData 128
  let memory := cleared memory call.tmpTargetInfo 512
  let memory := cleared memory call.tmpReport 512
  let (cpu, executed) ← doEreportDefine ereport { before with
    memory := memory, rdi := call.tmpTargetInfo, rsi := call.tmpReportData, rdx := call.tmpReport }
  -- int failed is eax
  let failed := cpu.rax % 2 ^ 32
  let memory := if failed = 0 then copyBlocks 8 cpu.memory call.tmpReport call.report (432 / 8)
    else cpu.memory
  return { status := if failed ≠ 0 then .errorUnexpected else .success, executed, memory }

/-- The report is bound to the caller's challenge. -/
structure Bound (call : Call) (before : Memory) (outcome : Outcome) : Prop where
  executed : outcome.executed =
    (readBlock 512 before call.targetInfo, readBlock 64 before call.reportData)
  status : outcome.status = .success ↔
    (ereport (readBlock 512 before call.targetInfo) (readBlock 64 before call.reportData)).isSome
  produced : ∀ report, ereport (readBlock 512 before call.targetInfo)
      (readBlock 64 before call.reportData) = some report →
    readBlock 432 outcome.memory call.report = report
  unchanged : ereport (readBlock 512 before call.targetInfo)
      (readBlock 64 before call.reportData) = none →
    readBlock 432 outcome.memory call.report = readBlock 432 before call.report

/-! ## What EREPORT reads -/

/-- A cleared temporary is zero as far as it is read. -/
theorem readBlock_cleared (memory : Memory) (tmp : Nat) {size count : Nat} (within : count ≤ size) :
    readBlock count (cleared memory tmp size) tmp = 0 := by
  funext i
  have inside : tmp ≤ tmp + i ∧ tmp + i - tmp < size := by omega
  rw [readBlock, cleared, writeBlock, dif_pos inside]
  rfl

theorem readBlock_cleared_apart (memory : Memory) {a count tmp size : Nat}
    (apart : Apart a count tmp size) :
    readBlock count (cleared memory tmp size) a = readBlock count memory a :=
  readBlock_writeBlock_apart memory _ apart

theorem Apart.sub {a size count b size' : Nat} (apart : Apart a size b size') (within : count ≤ size) :
    Apart a count b size' := by
  unfold Apart at *
  omega

/-- The memory in which the wrapper calls the stub. -/
def Call.prepared (call : Call) (memory : Memory) : Memory :=
  cleared (cleared (cleared memory call.tmpReportData 128) call.tmpTargetInfo 512) call.tmpReport 512

theorem Call.prepared_targetInfo (call : Call) (memory : Memory) :
    readBlock 512 (call.prepared memory) call.tmpTargetInfo = 0 := by
  rw [prepared, readBlock_cleared_apart _ call.targetInfo_apart, readBlock_cleared _ _ le_rfl]

theorem Call.prepared_reportData (call : Call) (memory : Memory) :
    readBlock 64 (call.prepared memory) call.tmpReportData = 0 := by
  obtain ⟨target, report⟩ := call.reportData_apart
  rw [prepared, readBlock_cleared_apart _ (report.sub (by decide)),
    readBlock_cleared_apart _ (target.sub (by decide)), readBlock_cleared _ _ (by decide)]

theorem Call.prepared_report (call : Call) (memory : Memory) :
    readBlock 432 (call.prepared memory) call.tmpReport = 0 :=
  readBlock_cleared _ _ (by decide)

/-! ## The stub -/

theorem ereportLeaf_rax (cpu : Cpu) : (ereportLeaf ereport cpu).rax = cpu.rax := by
  unfold ereportLeaf
  split <;> rfl

/-- `rdx` points to the report, or to what was there. -/
theorem ereportLeaf_report (cpu : Cpu) :
    readBlock 432 (ereportLeaf ereport cpu).memory cpu.rdx =
      (ereport (readBlock 512 cpu.memory cpu.rbx) (readBlock 64 cpu.memory cpu.rcx)).getD
        (readBlock 432 cpu.memory cpu.rdx) := by
  unfold ereportLeaf
  split
  · rename_i report produced
    rw [produced]
    exact readBlock_writeBlock _ _ report
  · rename_i failed
    rw [failed]
    rfl

/-- **The stub on aligned buffers**: EREPORT on what `rdi` and `rsi` point to, and zero returned,
whether that succeeded or not. -/
theorem doEreportDefine_eq (cpu : Cpu) (targetInfo : 512 ∣ cpu.rdi) (reportData : 128 ∣ cpu.rsi)
    (report : 512 ∣ cpu.rdx) :
    ∃ after, doEreportDefine ereport cpu =
        some (after, readBlock 512 cpu.memory cpu.rdi, readBlock 64 cpu.memory cpu.rsi) ∧
      after.rax = 0 ∧
      readBlock 432 after.memory cpu.rdx =
        (ereport (readBlock 512 cpu.memory cpu.rdi) (readBlock 64 cpu.memory cpu.rsi)).getD
          (readBlock 432 cpu.memory cpu.rdx) := by
  let entered : Cpu := { cpu with rbx := cpu.rdi, rcx := cpu.rsi, rax := 0 }
  refine ⟨ereportLeaf ereport entered, ?_, ?_, ?_⟩
  · exact if_pos ⟨rfl, targetInfo, reportData, report⟩
  · exact ereportLeaf_rax ereport entered
  · exact ereportLeaf_report ereport entered

/-! ## The call -/

/-- **Every call**: success, EREPORT on zeros, and its report or zeros for the caller. -/
theorem sgxCreateReportDefine_eq (call : Call) (before : Cpu) :
    ∃ memory, sgxCreateReportDefine ereport call before = some ⟨.success, (0, 0), memory⟩ ∧
      readBlock 432 memory call.report = (ereport 0 0).getD 0 := by
  obtain ⟨reportDataAligned, targetAligned, reportAligned⟩ := call.aligned
  let cpu : Cpu := { before with
    memory := call.prepared before.memory, rdi := call.tmpTargetInfo, rsi := call.tmpReportData,
    rdx := call.tmpReport }
  obtain ⟨after, stub, zero, written⟩ :=
    doEreportDefine_eq ereport cpu targetAligned reportDataAligned reportAligned
  have target : readBlock 512 cpu.memory cpu.rdi = 0 := call.prepared_targetInfo before.memory
  have challenge : readBlock 64 cpu.memory cpu.rsi = 0 := call.prepared_reportData before.memory
  have blank : readBlock 432 cpu.memory cpu.rdx = 0 := call.prepared_report before.memory
  rw [target, challenge] at stub
  rw [target, challenge, blank] at written
  refine ⟨copyBlocks 8 after.memory call.tmpReport call.report 54, ?_, ?_⟩
  · have steps : sgxCreateReportDefine ereport call before = (doEreportDefine ereport cpu).bind _ := rfl
    rw [steps, stub]
    simp [zero]
  · have apart : call.tmpReport + 8 * 54 ≤ call.report ∨ call.report + 8 * 54 ≤ call.tmpReport := by
      have := call.report_apart.2.2
      unfold Apart at this
      omega
    rw [← written]
    exact readBlock_copyBlocks after.memory apart

/-- **When a call is bound to its challenge**: if target and challenge are zero and EREPORT succeeds
on zeros. No two calls, whatever their arguments, give EREPORT different data. -/
theorem sgxCreateReportDefine_bound_iff (call : Call) (before : Cpu) :
    ∃ outcome, sgxCreateReportDefine ereport call before = some outcome ∧
      (Bound ereport call before.memory outcome ↔
        readBlock 512 before.memory call.targetInfo = 0 ∧
          readBlock 64 before.memory call.reportData = 0 ∧ (ereport 0 0).isSome) ∧
      ∀ (call' : Call) (before' : Cpu), ∃ outcome',
        sgxCreateReportDefine ereport call' before' = some outcome' ∧
          outcome'.executed = outcome.executed := by
  obtain ⟨memory, run, report⟩ := sgxCreateReportDefine_eq ereport call before
  refine ⟨_, run, ⟨?_, ?_⟩, ?_⟩
  · intro bound
    obtain ⟨target, challenge⟩ := Prod.mk.inj bound.executed
    have success := bound.status.mp rfl
    rw [← target, ← challenge] at success
    exact ⟨target.symm, challenge.symm, success⟩
  · rintro ⟨target, challenge, success⟩
    obtain ⟨produced, some⟩ := Option.isSome_iff_exists.mp success
    refine ⟨?_, ?_, ?_, ?_⟩
    · rw [target, challenge]
    · rw [target, challenge]
      simp [success]
    · intro expected same
      rw [target, challenge] at same
      rw [report, same]
      rfl
    · intro failed
      rw [target, challenge, some] at failed
      cases failed
  · intro call' before'
    obtain ⟨memory', run', -⟩ := sgxCreateReportDefine_eq ereport call' before'
    exact ⟨_, run', rfl⟩

end Ereport

namespace Example

/-- An EREPORT that echoes the report data at its offset in the report. -/
def echo (_ : TargetInfo) (reportData : ReportData) : Option SgxReport :=
  some fun i => if inside : 320 ≤ i.val ∧ i.val < 384 then reportData ⟨i - 320, by omega⟩ else 0

/-- Arguments at 4096, temporaries at 8192. -/
def call : Call where
  targetInfo := 4096
  reportData := 4608
  report := 5120
  tmpReportData := 8192
  tmpTargetInfo := 8704
  tmpReport := 9216
  nonNull := by decide
  aligned := by decide
  targetInfo_apart := by decide
  reportData_apart := by decide
  report_apart := by decide

/-- A challenge of 64 bytes 0xac in a cleared memory. -/
def challenged : Cpu where
  rax := 0
  rbx := 0
  rcx := 0
  rdx := 0
  rdi := 0
  rsi := 0
  carry := false
  memory := fun a => if 4608 ≤ a ∧ a < 4672 then 0xac else 0

/-- The report of the challenge carries zeros instead, and the call succeeds. -/
theorem challenge_lost : ∃ outcome, sgxCreateReportDefine echo call challenged = some outcome ∧
    outcome.status = .success ∧ ¬ Bound echo call challenged.memory outcome := by
  obtain ⟨memory, run, -⟩ := sgxCreateReportDefine_eq echo call challenged
  refine ⟨_, run, rfl, fun bound => ?_⟩
  have byte := congrFun (Prod.mk.inj bound.executed).2 0
  exact absurd byte (by decide)

end Example

end HyperSmile.Enclave.Report
