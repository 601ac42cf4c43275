import Mit6828.Library.Simulation
import Mit6828.Kern.UserMap

/-!
The copy-on-write fork of `lib/fork.c`, run by any number of environments at once.

A process is where an environment stands in `fork` and in `pgfault`.  Its system calls are
those of the kernel; between them it stores to memory as it likes, since even inside `fork`
its stack is written.  A store that faults goes to `pgfault`, which itself writes nothing but
its exception stack and `PFTEMP`.
-/

namespace Mit6828.Lib.Fork

open Kern.Mmu Kern.Pmap Kern.AddressSpace Kern.Environment Kern.Syscall Kern.UserMap Library
open Function

def pteCow : Word := 0x800
def pteShare : Word := 0x400
def utext : Word := 0x800000
def pftemp : Word := 0x7FF000

def puw : Word := pteP ||| pteU ||| pteW

theorem puw_ok : ¬ badPerm puw := by decide

def puc : Word := pteP ||| pteU ||| pteCow

def vaOf (pn : Nat) : Word := BitVec.ofNat 32 pn * pgsize

/-- Where an environment is in `pgfault`. -/
inductive Handler where
  | alloc (addr : Word)
  /-- In `memmove(PFTEMP, addr, PGSIZE)`, with `i` words copied. -/
  | copy (addr : Word) (i : Nat)
  | map (addr : Word)
  | unmap
  deriving DecidableEq

/-- Where an environment is in `fork`. -/
inductive ForkPc where
  /-- The two calls of `set_pgfault_handler`. -/
  | newStack
  | newUpcall
  | exofork
  /-- At the head of the loop. -/
  | loop (envid : Word) (pn : Nat)
  /-- In `duppage`, about to map the page into the child with `perm`; `again` says whether the
  page of the parent is to be mapped again as well. -/
  | child (envid : Word) (pn : Nat) (perm : Word) (again : Bool)
  | parent (envid : Word) (pn : Nat)
  | stack (envid : Word)
  | upcall (envid : Word)
  | start (envid : Word)
  deriving DecidableEq

/-- `handler` says whether `_pgfault_handler` is set. -/
structure Process where
  handler : Bool
  fork : Option ForkPc
  fault : Option Handler
  deriving DecidableEq

/-- The test at the start of `pgfault`, for a write fault. -/
def Cow (k : Kernel) (e : Nat) (addr : Word) : Prop :=
  pdeOf k e (pdx addr) &&& pteP ≠ 0 ∧ pteOf k e (pdx addr) (ptx addr) &&& pteCow ≠ 0
deriving Decidable

def Present (k : Kernel) (e pn : Nat) : Prop :=
  pdeOf k e (pn / 1024) &&& pteP ≠ 0 ∧ pteOf k e (pn / 1024) (pn % 1024) &&& pteP ≠ 0
deriving Decidable

/-- The branches of `duppage` on the entry `uvpt[pn]`. -/
def duppage (envid : Word) (pn : Nat) (pte : Word) : ForkPc :=
  if pte &&& pteShare ≠ 0 then .child envid pn (pte &&& pteSyscall) false
  else if pte &&& pteW ≠ 0 ∨ pte &&& pteCow ≠ 0 then .child envid pn puc true
  else .child envid pn (pteP ||| pteU) false

/-- The test and the body of the loop, up to the first system call. -/
def loopStep (k : Kernel) (e : Nat) (envid : Word) (pn : Nat) : ForkPc :=
  if pn < pgnum ustacktop then
    if Present k e pn then duppage envid pn (pteOf k e (pn / 1024) (pn % 1024))
    else .loop envid (pn + 1)
  else .stack envid

/-- The address of `_pgfault_upcall`, which the kernel only stores. -/
def pgfaultUpcall : Word := 0x800100

def envRunnable : Word := 2

def Handler.call (id : Word) : Handler → Option Call
  | .alloc _ => some (.pageAlloc id pftemp puw)
  | .copy _ _ => none
  | .map addr => some (.pageMap id pftemp id addr puw)
  | .unmap => some (.pageUnmap id pftemp)

def ForkPc.call (id : Word) : ForkPc → Option Call
  | .newStack => some (.pageAlloc id (uxstacktop - pgsize) puw)
  | .newUpcall => some (.envSetPgfaultUpcall id pgfaultUpcall)
  | .exofork => some .exofork
  | .loop _ _ => none
  | .child envid pn perm _ => some (.pageMap id (vaOf pn) envid (vaOf pn) perm)
  | .parent _ pn => some (.pageMap id (vaOf pn) id (vaOf pn) puc)
  | .stack envid => some (.pageAlloc envid (uxstacktop - pgsize) puw)
  | .upcall envid => some (.envSetPgfaultUpcall envid pgfaultUpcall)
  | .start envid => some (.envSetStatus envid envRunnable)

def Process.call (id : Word) (P : Process) : Option Call :=
  match P.fault with
  | some f => f.call id
  | none => P.fork.bind (ForkPc.call id)

/-- `pgfault` after a system call that has not failed. -/
def Handler.next : Handler → Option Handler
  | .alloc addr => some (.copy (rounddown addr) 0)
  | .copy addr i => some (.copy addr i)
  | .map _ => some .unmap
  | .unmap => none

/-- `fork` after a system call that has returned `r`; `none` is its return.  The result of
`sys_exofork` is not checked, and those of `set_pgfault_handler` neither. -/
def ForkPc.next (r : Word) : ForkPc → Option ForkPc
  | .newStack => some .newUpcall
  | .newUpcall => some .exofork
  | .exofork => if r = 0 then none else some (.loop r (pgnum utext))
  | .loop envid pn => some (.loop envid pn)
  | .child envid pn _ again =>
    if isNeg r then none
    else if again then some (.parent envid pn) else some (.loop envid (pn + 1))
  | .parent envid pn => if isNeg r then none else some (.loop envid (pn + 1))
  | .stack envid => if isNeg r then none else some (.upcall envid)
  | .upcall envid => if isNeg r then none else some (.start envid)
  | .start _ => none

/-- The process after its system call has returned `r`; `none` is a panic of `pgfault`. -/
def Process.next (r : Word) (P : Process) : Option Process :=
  match P.fault with
  | some f => if isNeg r then none else some { P with fault := f.next }
  | none => some { P with
      handler := P.handler || P.fork = some .newUpcall
      fork := P.fork.bind (ForkPc.next r) }

def copyWord (pgdir : Nat) (m : Mem) (dst src : Word) : Option Mem := do
  let (_, s) ← translate pgdir src m
  let (pde, d) ← translate pgdir dst m
  if pde &&& pteW ≠ 0 ∧ d &&& pteW ≠ 0 then
    return m.setWord (wordAt d dst) (m.word (wordAt s src))
  else none

inductive Event where
  | store (e : Nat) (va : Word) (b : Byte)
  /-- A store that `pgfault` refuses. -/
  | refuse (e : Nat) (va : Word)
  /-- `fork` of `e` has made `child` runnable. -/
  | fork (e child : Nat)

structure Machine where
  kernel : Kernel
  proc : Nat → Option Process

namespace Machine

def setProc (s : Machine) (e : Nat) (P : Option Process) : Machine :=
  { s with proc := update s.proc e P }

def setKernel (s : Machine) (k : Kernel) : Machine := { s with kernel := k }

end Machine

def newProcess : Process := { handler := true, fork := none, fault := none }

/-- The processes after `e` has gone on as `P'`: the last system call of `fork`, if it
succeeds, makes the child a process. -/
def started (proc : Nat → Option Process) (e : Nat) (P : Process) (P' : Option Process) (r : Word) :
    (Nat → Option Process) × Option Event :=
  match P.fault, P.fork with
  | none, some (.start envid) =>
    if isNeg r then (update proc e P', none)
    else (update (update proc e P') (envx envid) (some newProcess), some (.fork e (envx envid)))
  | _, _ => (update proc e P', none)

/-- One step of environment `e`.  No reference count wraps. -/
inductive Step (s : Machine) : Option Event → Machine → Prop
  | store {P : Process} {m : Mem} (e d : Nat) (va : Word) (b : Byte) (hP : s.proc e = some P)
      (hidle : P.fault = none ∨ pgnum va = pgnum (uxstacktop - pgsize))
      (hd : (s.kernel.envs e).envPgdir = some d)
      (hmay : userMay d ⟨va, true⟩ s.kernel.mem) (hm : storeByte d s.kernel.mem va b = some m) :
      Step s (some (.store e va b)) (s.setKernel { s.kernel with mem := m })
  | fault {P : Process} (e d : Nat) (va : Word) (hP : s.proc e = some P) (hidle : P.fault = none)
      (hd : (s.kernel.envs e).envPgdir = some d) (hmay : ¬ userMay d ⟨va, true⟩ s.kernel.mem)
      (hcow : Cow s.kernel e va) :
      Step s none (s.setProc e (some { P with fault := some (.alloc va) }))
  | refuse {P : Process} (e d : Nat) (va : Word) (hP : s.proc e = some P) (hidle : P.fault = none)
      (hd : (s.kernel.envs e).envPgdir = some d) (hmay : ¬ userMay d ⟨va, true⟩ s.kernel.mem)
      (hcow : ¬ Cow s.kernel e va) : Step s (some (.refuse e va)) (s.setProc e none)
  | copy {P : Process} {m : Mem} (e d : Nat) (addr : Word) (i : Nat) (hP : s.proc e = some P)
      (hfault : P.fault = some (.copy addr i)) (hi : i < 1024)
      (hd : (s.kernel.envs e).envPgdir = some d)
      (hm : copyWord d s.kernel.mem (pftemp + BitVec.ofNat 32 (4 * i))
        (addr + BitVec.ofNat 32 (4 * i)) = some m) :
      Step s none ((s.setKernel { s.kernel with mem := m }).setProc e
        (some { P with fault := some (.copy addr (i + 1)) }))
  | copied {P : Process} (e : Nat) (addr : Word) (hP : s.proc e = some P)
      (hfault : P.fault = some (.copy addr 1024)) :
      Step s none (s.setProc e (some { P with fault := some (.map addr) }))
  | fork {P : Process} (e : Nat) (hP : s.proc e = some P) (hidle : P.fault = none)
      (hfork : P.fork = none) :
      Step s none (s.setProc e (some { P with
        fork := some (if P.handler then .exofork else .newStack) }))
  | loop {P : Process} (e : Nat) (envid : Word) (pn : Nat) (hP : s.proc e = some P)
      (hidle : P.fault = none) (hfork : P.fork = some (.loop envid pn)) :
      Step s none (s.setProc e (some { P with fork := some (loopStep s.kernel e envid pn) }))
  | call {P : Process} {k : Kernel} {r : Word} (e : Nat) (hw : Hw) (call : Call)
      (hP : s.proc e = some P) (hcall : P.call (s.kernel.envs e).envId = some call)
      (hres : (exec 0 e hw s.kernel call).2 = .ret r k) (hsafe : k.mem.wrapped = false) :
      Step s (started s.proc e P (P.next r) r).2
        ⟨k, (started s.proc e P (P.next r) r).1⟩

abbrev Run := Simulation.Run Step

def alone (k : Kernel) (e : Nat) (handler : Bool) : Machine :=
  ⟨k, update (fun _ => none) e
    (some { handler := handler, fork := none, fault := none })⟩

end Mit6828.Lib.Fork
