import Tnix.Mem.UserBytes
import Tnix.Task.ExecArguments

/-! # The user stack from one `sys_exec` to the next

`task_mm_init` sets `t->ustack` to the end of the page of the stack, `sys_exec` lowers it by the
size of an option, and `first_sched` takes its value for a sign that there is one. -/

namespace Tnix.Vm

open Mem
variable {Task : Type}

/-- A call of `sys_exec` that succeeds: its option, the page table of the task, in which the page
of the stack is mapped, and the memory at the time. -/
structure ExecCall (Task : Type) where
  option : Option (List UInt8)
  short : ∀ given, option = some given → given.length ≤ 63
  pages : Pages Task Words
  pagetable : Nat
  mapped : ∃ paddr pte, vaToPa pagetable (BitVec.ofNat 64 USTACK) pages =
    .ok ((paddr, some pte), pages)
  memory : Nat → UInt8

/-- `va_to_pa(t->pagetable, va, NULL)` -/
def ExecCall.vaToPa (call : ExecCall Task) (va : U64) : Nat :=
  match Vm.vaToPa call.pagetable va call.pages with
  | .ok ((paddr, _), _) => paddr.toNat
  | .error _ => 0

/-- `t->ustack` and the memory after a call. The segments go to other pages than the stack. -/
def sysExec (ustack : U64) (call : ExecCall Task) : U64 × (Nat → UInt8) :=
  match call.option with
  | none => (ustack, call.memory)
  | some option =>
    let opsize := option.length + 1
    let ustack := ustack - BitVec.ofNat 64 (alignUp opsize 16)
    (ustack, store call.memory ((List.range opsize).map (call.vaToPa ustack + ·)) (option ++ [0]))

section
variable {ustack : U64} {call : ExecCall Task}
  (inPage : USTACK < ustack.toNat ∧ ustack.toNat ≤ USTACK + PGSIZE) (aligned : ustack.toNat % 16 = 0)
include inPage aligned

end

/-- A call that loads a program leaves `t->ustack` as the model of its arguments does. -/
theorem sysExec_arguments {Image : Type} {image : Image} {exec : Exec.Call Image}
    {task : Exec.Task Image} {call : ExecCall Task} (sameOption : exec.option = call.option)
    (loads : exec.readElfhdr (Exec.bufferText ((Tnix.argstr exec.path).getD []) exec.behindPath) =
      some image) (inPage : USTACK < task.ustack ∧ task.ustack ≤ USTACK + PGSIZE) :
    (Exec.sysExec exec task).returned = none ∧
      (sysExec (BitVec.ofNat 64 task.ustack) call).1 =
        BitVec.ofNat 64 (Exec.sysExec exec task).task.ustack := by
  simp only [Exec.sysExec, loads, sameOption, sysExec]
  cases isOption : call.option with
  | none => exact ⟨rfl, rfl⟩
  | some given =>
    have short := call.short given isOption
    have copied : Tnix.argstr given = some given := if_neg (by rw [MAX_PATH_LENGTH]; omega)
    have text : Exec.bufferText given exec.behindOption = given :=
      if_pos (by rw [Exec.bufferSize, MAX_PATH_LENGTH]; omega)
    have size : alignUp (given.length + 1) 16 ≤ 64 := by
      rw [alignUp]
      omega
    simp only [copied, Option.getD_some, text, true_and]
    generalize alignUp (given.length + 1) 16 = lowered at size ⊢
    apply BitVec.eq_of_toNat_eq
    simp only [USTACK, TRAPFRAME, TRAMPOLINE, VA_TOP, PGSIZE] at inPage
    rw [BitVec.toNat_sub, BitVec.toNat_ofNat, BitVec.toNat_ofNat, BitVec.toNat_ofNat]
    omega

end Tnix.Vm
