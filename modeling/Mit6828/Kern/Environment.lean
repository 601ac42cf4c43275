import Mit6828.Kern.Pmap

/-!
Environments and scheduling: `kern/env.c` and `kern/sched.c`, with the kernel state they
work on.  An `struct Env *` is an index into `envs`.
-/

namespace Mit6828.Kern.Environment

open Mmu Pmap Function

structure Trapframe where
  regEdi : Word
  regEsi : Word
  regEbp : Word
  regOesp : Word
  regEbx : Word
  regEdx : Word
  regEcx : Word
  regEax : Word
  tfEs : BitVec 16
  tfDs : BitVec 16
  tfTrapno : Word
  tfErr : Word
  tfEip : Word
  tfCs : BitVec 16
  tfEflags : Word
  tfEsp : Word
  tfSs : BitVec 16
  deriving DecidableEq

/-- The values of `env_status`, in the order of the source. -/
inductive EnvStatus where
  | free
  | dying
  | runnable
  | running
  | notRunnable
  deriving DecidableEq

inductive EnvType where
  | user
  | fs
  | ns
  deriving DecidableEq

structure Env where
  envTf : Trapframe
  envLink : Option Nat
  envId : Word
  envParentId : Word
  envType : EnvType
  envStatus : EnvStatus
  envRuns : Word
  envCpunum : Nat
  envPgdir : Option Nat
  envPgfaultUpcall : Word
  envIpcRecving : Bool
  envIpcDstva : Word
  envIpcValue : Word
  envIpcFrom : Word
  envIpcPerm : Word
  deriving DecidableEq

inductive CpuStatus where
  | unused
  | started
  | halted
  deriving DecidableEq

/-- `struct CpuInfo`, as far as the scheduler uses it. -/
structure CpuInfo where
  cpuStatus : CpuStatus
  cpuEnv : Option Nat
  deriving DecidableEq

/-- The network card as the driver of `kern/e1000.c` sees it: the `DD` bits and lengths of
the two descriptor rings, the packet buffers (each ring's as one array), the two tail
registers and the driver's `next`. -/
structure Nic where
  txDd : Nat → Bool
  txLength : Nat → BitVec 16
  txBuf : Nat → Byte
  tdt : Nat
  rxDd : Nat → Bool
  rxLength : Nat → BitVec 16
  rxBuf : Nat → Byte
  rdt : Nat
  next : Nat

structure Kernel where
  mem : Mem
  kernPgdir : Nat
  envs : Nat → Env
  envFreeList : Option Nat
  ncpu : Nat
  cpus : Nat → CpuInfo
  nic : Nic
  ticks : Word

@[grind unfold]
def nenv : Nat := 1024

def envx (envid : Word) : Nat := (envid &&& 1023).toNat

def gdUd : BitVec 16 := 0x20
def gdUt : BitVec 16 := 0x18
def gdKt : BitVec 16 := 0x08
def flIf : Word := 0x00000200
def flIoplMask : Word := 0x00003000

namespace Kernel

def curenv (k : Kernel) (c : Nat) : Option Nat := (k.cpus c).cpuEnv

def setEnv (k : Kernel) (e : Nat) (env : Env) : Kernel :=
  { k with envs := update k.envs e env }

def setCurenv (k : Kernel) (c : Nat) (e : Option Nat) : Kernel :=
  { k with cpus := update k.cpus c { k.cpus c with cpuEnv := e } }

def setStatus (k : Kernel) (e : Nat) (status : EnvStatus) : Kernel :=
  k.setEnv e { k.envs e with envStatus := status }

variable {k : Kernel} {e e' c c' : Nat} {env : Env} {o : Option Nat}

@[simp] theorem setEnv_envs_self : (k.setEnv e env).envs e = env := update_self _ _ _

theorem setEnv_envs_of_ne (h : e' ≠ e) : (k.setEnv e env).envs e' = k.envs e' :=
  update_of_ne h _ _

@[simp] theorem setEnv_curenv : (k.setEnv e env).curenv c = k.curenv c := rfl

@[simp] theorem setCurenv_curenv_self : (k.setCurenv c o).curenv c = o := by
  simp [curenv, setCurenv]

theorem setCurenv_curenv_of_ne (h : c' ≠ c) : (k.setCurenv c o).curenv c' = k.curenv c' := by
  simp [curenv, setCurenv, h]

@[simp] theorem setCurenv_envs : (k.setCurenv c o).envs = k.envs := rfl

end Kernel

/-- `envid2env`; `none` is `-E_BAD_ENV`.  `cur` is `curenv`, which every caller has. -/
def envid2env (cur : Nat) (envid : Word) (checkperm : Bool) (k : Kernel) : Option Nat :=
  if envid = 0 then some cur
  else
    let e := envx envid
    if (k.envs e).envStatus = .free ∨ (k.envs e).envId ≠ envid then none
    else if checkperm = true ∧ e ≠ cur ∧ (k.envs e).envParentId ≠ (k.envs cur).envId then none
    else some e

theorem envid2env_cases {cur : Nat} {envid : Word} {checkperm : Bool}
    (h : envid2env cur envid checkperm k = some e) : envid = 0 ∧ e = cur ∨
      envid ≠ 0 ∧ envx envid = e ∧ (k.envs e).envStatus ≠ .free ∧ (k.envs e).envId = envid ∧
      (checkperm = true → e = cur ∨ (k.envs e).envParentId = (k.envs cur).envId) := by
  simp only [envid2env] at h
  split at h
  · rename_i hzero
    exact .inl ⟨hzero, (Option.some.inj h).symm⟩
  rename_i hne
  split at h
  · cases h
  rename_i hlive
  split at h
  · cases h
  rename_i hcheck
  cases h
  rw [not_or, not_not] at hlive
  refine .inr ⟨hne, rfl, hlive.1, hlive.2, fun hperm => ?_⟩
  by_contra hnot
  exact hcheck ⟨hperm, not_or.mp hnot⟩

/-- The loop of `env_init`, from the last slot down to the first. -/
def envInitSlots : Nat → Kernel → Kernel
  | 0, k => k
  | i + 1, k =>
    let k := k.setEnv i { k.envs i with envId := 0, envLink := k.envFreeList }
    envInitSlots i { k with envFreeList := some i }

def envInit (k : Kernel) : Kernel := envInitSlots nenv k

def envSetupVm (e : Nat) (k : Kernel) : Word × Kernel :=
  match pageAlloc true k.mem with
  | (none, m) => (-eNoMem, { k with mem := m })
  | (some p, m) =>
    let m := m.incref p
    let m := m.copyPage p k.kernPgdir
    let m := m.setWord (p, pdx uvpt) (page2pa p ||| pteP ||| pteU)
    let k := { k with mem := m }
    (0, k.setEnv e { k.envs e with envPgdir := some p })

/-- The frame of a new environment: `memset` to 0, then the segment registers, the stack
pointer and the interrupt flag. -/
def initTf : Trapframe :=
  { regEdi := 0, regEsi := 0, regEbp := 0, regOesp := 0, regEbx := 0, regEdx := 0,
    regEcx := 0, regEax := 0, tfEs := gdUd ||| 3, tfDs := gdUd ||| 3, tfTrapno := 0,
    tfErr := 0, tfEip := 0, tfCs := gdUt ||| 3, tfEflags := flIf, tfEsp := ustacktop,
    tfSs := gdUd ||| 3 }

/-- The `env_id` that `env_alloc` gives to slot `e` after the id `old`. -/
def nextEnvId (old : Word) (e : Nat) : Word :=
  let generation := (old + (1 <<< 12)) &&& ~~~1023
  let generation : Word := if generation.toInt ≤ 0 then 1 <<< 12 else generation
  generation ||| BitVec.ofNat 32 e

def envAlloc (parentId : Word) (k : Kernel) : Except Word Nat × Kernel :=
  match k.envFreeList with
  | none => (.error (-eNoFreeEnv), k)
  | some e =>
    let (r, k) := envSetupVm e k
    if isNeg r then (.error r, k)
    else
      let k := k.setEnv e { k.envs e with
        envId := nextEnvId (k.envs e).envId e
        envParentId := parentId
        envType := .user
        envStatus := .runnable
        envRuns := 0
        envTf := initTf
        envPgfaultUpcall := 0
        envIpcRecving := false }
      (.ok e, { k with envFreeList := (k.envs e).envLink })

def envFreePtes (pgdir pdeno pt : Nat) (m : Mem) : Option Mem :=
  (List.range nptentries).foldlM (fun m pteno =>
    if m.phys pt pteno &&& pteP ≠ 0 then pageRemove pgdir (pgaddr pdeno pteno 0) m
    else some m) m

def envFreePde (pgdir : Nat) (m : Mem) (pdeno : Nat) : Option Mem :=
  if m.phys pgdir pdeno &&& pteP = 0 then some m
  else do
    let pa := pteAddr (m.phys pgdir pdeno)
    let pt ← kaddr pa m
    let m ← envFreePtes pgdir pdeno pt m
    let m := m.setWord (pgdir, pdeno) 0
    pageDecref (← pa2page pa m) m

/-- `env_free`.  A null `env_pgdir` is a fault in the kernel. -/
def envFree (e : Nat) (k : Kernel) : Option Kernel := do
  let pgdir ← (k.envs e).envPgdir
  let m ← (List.range pdxUtop).foldlM (envFreePde pgdir) k.mem
  let m ← pageDecref pgdir m
  let k := { k with mem := m }
  let k := k.setEnv e { k.envs e with
    envPgdir := none, envStatus := .free, envLink := k.envFreeList }
  return { k with envFreeList := some e }

/-- The first step of `env_run`: a running `curenv` goes back to `ENV_RUNNABLE`. -/
def putBack (c : Nat) (k : Kernel) : Kernel :=
  match k.curenv c with
  | some cur => if (k.envs cur).envStatus = .running then k.setStatus cur .runnable else k
  | none => k

/-- `env_run`, to the point where CPU `c` is back in user mode.  `PADDR` panics on a null
`env_pgdir`. -/
def envRun (c e : Nat) (k : Kernel) : Option Kernel :=
  let k := putBack c k
  let k := k.setCurenv c (some e)
  let k := k.setEnv e { k.envs e with
    envStatus := .running, envRuns := (k.envs e).envRuns + 1 }
  match (k.envs e).envPgdir with
  | none => none
  | some _ => some (k.setEnv e { k.envs e with envCpunum := c })

abbrev Kernel.halted (k : Kernel) (c : Nat) : Kernel :=
  { k with cpus := update k.cpus c { cpuStatus := .halted, cpuEnv := none } }

/-- `sched_halt`.  With nothing left to run the kernel stays in the monitor, and with it
every other CPU that wants the kernel lock: the result is `none` as for a panic. -/
def schedHalt (c : Nat) (k : Kernel) : Option Kernel :=
  if (List.range nenv).any (fun i => (k.envs i).envStatus = .runnable ∨
      (k.envs i).envStatus = .running ∨ (k.envs i).envStatus = .dying) then
    some (k.halted c)
  else none

def startidx (idle : Option Nat) (k : Kernel) : Nat :=
  match idle with
  | some cur => (envx (k.envs cur).envId + 1) % nenv
  | none => 0

/-- The first `ENV_RUNNABLE` slot in circular order after the environment `idle`. -/
@[irreducible] def schedPick (idle : Option Nat) (k : Kernel) : Option Nat :=
  ((List.range nenv).map fun i => (startidx idle k + i) % nenv).find? fun workidx =>
    (k.envs workidx).envStatus = .runnable

/-- `sched_yield`, to the point where CPU `c` has left the kernel. -/
def schedYield (c : Nat) (k : Kernel) : Option Kernel :=
  let idle := k.curenv c
  match schedPick idle k with
  | some workidx => envRun c workidx k
  | none =>
    match idle with
    | some cur => if (k.envs cur).envStatus = .running then envRun c cur k else schedHalt c k
    | none => schedHalt c k

/-- How a kernel path ends: it returns a value, it has left the kernel through `env_run` or
`sched_halt`, the machine has stopped (a panic, or the monitor), or the kernel has written
through a pointer that user mode may not write, after which the model does not follow it. -/
inductive Exit (α : Type) where
  | ret (a : α) (k : Kernel)
  | left (k : Kernel)
  | stop
  | corrupt

namespace Exit

def leave {α : Type} : Option Kernel → Exit α
  | some k => .left k
  | none => .stop

def andThen {α β : Type} : Exit α → (α → Kernel → Exit β) → Exit β
  | .ret a k, f => f a k
  | .left k, _ => .left k
  | .stop, _ => .stop
  | .corrupt, _ => .corrupt

theorem leave_eq_left {α : Type} {o : Option Kernel} :
    (leave o : Exit α) = .left k ↔ o = some k := by
  cases o <;> simp [leave]

end Exit

def envDestroy (c e : Nat) (k : Kernel) : Exit Unit :=
  if (k.envs e).envStatus = .running ∧ k.curenv c ≠ some e then
    .ret () (k.setStatus e .dying)
  else
    match envFree e k with
    | none => .stop
    | some k =>
      if k.curenv c = some e then .leave (schedYield c (k.setCurenv c none))
      else .ret () k

end Mit6828.Kern.Environment
