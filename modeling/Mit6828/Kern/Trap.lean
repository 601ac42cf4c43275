import Mit6828.Kern.Syscall

namespace Mit6828.Kern.Trap

open Mmu AddressSpace Environment Syscall

def tDebug : Word := 1
def tBrkpt : Word := 3
def tPgflt : Word := 14
def tSyscall : Word := 48
def irqTimer : Word := 32
def irqKbd : Word := 33
def irqSerial : Word := 36
def irqSpurious : Word := 39

def utrapframeSize : Word := 52

def utrapframe (faultVa : Word) (tf : Trapframe) : List Word :=
  [faultVa, tf.tfErr, tf.regEdi, tf.regEsi, tf.regEbp, tf.regOesp, tf.regEbx, tf.regEdx,
    tf.regEcx, tf.regEax, tf.tfEip, tf.tfEflags, tf.tfEsp]

/-- Where `page_fault_handler` puts the frame: below the trap-time stack pointer, one word
apart, if that is on the exception stack, and at the top of the exception stack otherwise. -/
def utfAddr (esp : Word) : Word :=
  if esp ≥ uxstacktop - pgsize ∧ esp ≤ uxstacktop - 1 then esp - utrapframeSize - 4
  else uxstacktop - utrapframeSize

/-- The part of `page_fault_handler` that runs the upcall of `cur`. -/
def pgfaultUpcall (c cur : Nat) (faultVa : Word) (tf : Trapframe) (k : Kernel) : Exit Unit :=
  let utf := utfAddr tf.tfEsp
  (userMemAssert c cur utf utrapframeSize pteW k).andThen fun _ k =>
    if utf > uxstacktop - pgsize then
      match (k.envs cur).envPgdir with
      | none => .stop
      | some pgdir =>
        match storeBytes pgdir k.mem utf ((utrapframe faultVa tf).flatMap bytesOf) with
        | none => .stop
        | some m =>
          let k := { k with mem := m }
          let k := k.setEnv cur { k.envs cur with
            envTf := { (k.envs cur).envTf with
              tfEsp := utf, tfEip := (k.envs cur).envPgfaultUpcall } }
          .leave (envRun c cur k)
    else envDestroy c cur k

/-- `page_fault_handler`, for a fault in user mode. -/
def pageFaultHandler (c cur : Nat) (faultVa : Word) (tf : Trapframe) (k : Kernel) : Exit Unit :=
  if (k.envs cur).envPgfaultUpcall ≠ 0 then pgfaultUpcall c cur faultVa tf k
  else envDestroy c cur k

/-- `time_tick`; `none` is its panic. -/
def timeTick (k : Kernel) : Option Kernel :=
  let ticks := k.ticks + 1
  if ticks * 10 < ticks then none else some { k with ticks := ticks }

/-- `trap_dispatch` for a trap from user mode.  The monitor and the keyboard and serial
handlers return without touching the modelled state. -/
def trapDispatchUser (c cur : Nat) (hw : Hw) (tf : Trapframe) (k : Kernel) : Exit Unit :=
  if tf.tfTrapno = tPgflt then pageFaultHandler c cur hw.cr2 tf k
  else if tf.tfTrapno = tBrkpt ∨ tf.tfTrapno = tDebug then .ret () k
  else if tf.tfTrapno = tSyscall then
    (syscall c cur hw tf.regEax tf.regEdx tf.regEcx tf.regEbx tf.regEdi tf.regEsi k).andThen
      fun r k => .ret () (k.setEnv cur { k.envs cur with
        envTf := { (k.envs cur).envTf with regEax := r } })
  else if tf.tfTrapno = irqSpurious then .ret () k
  else if tf.tfTrapno = irqTimer then .leave ((timeTick k).bind (schedYield c))
  else if tf.tfTrapno = irqKbd ∨ tf.tfTrapno = irqSerial then .ret () k
  else envDestroy c cur k

/-- `trap_dispatch` for an interrupt that wakes a halted CPU; anything else in kernel mode
is a panic. -/
def trapDispatchKernel (c : Nat) (tf : Trapframe) (k : Kernel) : Exit Unit :=
  if tf.tfTrapno = irqSpurious ∨ tf.tfTrapno = irqKbd ∨ tf.tfTrapno = irqSerial then .ret () k
  else if tf.tfTrapno = irqTimer then .leave ((timeTick k).bind (schedYield c))
  else .stop

def trapReturn (c : Nat) (k : Kernel) : Exit Unit :=
  match k.curenv c with
  | some cur =>
    if (k.envs cur).envStatus = .running then .leave (envRun c cur k)
    else .leave (schedYield c k)
  | none => .leave (schedYield c k)

def cpuStarted (c : Nat) (k : Kernel) : Kernel :=
  { k with cpus := Function.update k.cpus c { k.cpus c with cpuStatus := .started } }

def trap (c : Nat) (hw : Hw) (tf : Trapframe) (k : Kernel) : Exit Unit :=
  let k := cpuStarted c k
  if tf.tfCs &&& 3 = 3 then
    match k.curenv c with
    | none => .stop
    | some cur =>
      if (k.envs cur).envStatus = .dying then
        match envFree cur k with
        | none => .stop
        | some k => .leave (schedYield c (k.setCurenv c none))
      else
        let k := k.setEnv cur { k.envs cur with envTf := tf }
        (trapDispatchUser c cur hw tf k).andThen fun _ k => trapReturn c k
  else (trapDispatchKernel c tf k).andThen fun _ k => trapReturn c k

theorem cpuStarted_curenv (c c' : Nat) (k : Kernel) : (cpuStarted c k).curenv c' = k.curenv c' := by
  by_cases hc : c' = c
  · subst hc
    simp [Kernel.curenv, cpuStarted]
  · simp [Kernel.curenv, cpuStarted, hc]

/-- The mode in which a trap finds CPU `c`: running its environment, or halted. -/
def TrapsFrom (c : Nat) (tf : Trapframe) (k : Kernel) : Prop :=
  (∃ e, k.curenv c = some e) ∧ tf.tfCs &&& 3 = 3 ∨
    k.cpus c = { cpuStatus := .halted, cpuEnv := none } ∧ tf.tfCs = gdKt

end Mit6828.Kern.Trap
