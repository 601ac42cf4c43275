import Mit6828.Kern.BootSpec
import Mit6828.Kern.TrapSpec

/-!
The runs of the machine after boot, and the invariant along them.

Between two kernel entries user mode stores to memory through the page tables of the
environment that the kernel has put on the CPU.  The model has no TLB and no `%cr3`: a CPU
whose environment another CPU has freed makes no more stores.
-/

namespace Mit6828.Kern.Execution

open Mmu Pmap AddressSpace Environment Syscall Trap RefInvariant KernelInvariant EnvSpec
open AddressSpaceSpec TrapSpec Boot BootMemory BootSpec

/-- What the network card does by itself: it sends the packets it was given and receives new
ones. -/
structure DeviceStep (nic nic' : Nic) : Prop where
  driver : nic' = { nic with
    txDd := nic'.txDd, rxDd := nic'.rxDd, rxLength := nic'.rxLength, rxBuf := nic'.rxBuf }
  sent : ∀ i, nic.txDd i = true → nic'.txDd i = true
  waiting : ∀ i, nic.rxDd i = true → nic'.rxDd i = true ∧ nic'.rxLength i = nic.rxLength i

/-- One step of the machine whose trap is in `T` and whose store is made by an environment of `S`,
with the CPU that enters the kernel.  Kernel entries are atomic: the kernel lock is held. -/
inductive StepOf (T : Nat → Trapframe → Prop) (S : Nat → Prop) (k : Kernel) :
    Option Nat → Kernel → Prop
  | trap {k' : Kernel} (c : Nat) (hw : Hw) (tf : Trapframe) (hc : c < k.ncpu)
      (hmode : TrapsFrom c tf k) (hT : T c tf) (htrap : trap c hw tf k = .left k') :
      StepOf T S k (some c) k'
  | start {k' : Kernel} (c : Nat) (hc : c < k.ncpu)
      (hcpu : k.cpus c = { cpuStatus := .started, cpuEnv := none })
      (hyield : schedYield c k = some k') : StepOf T S k (some c) k'
  | store {m : Mem} (c e d : Nat) (va : Word) (b : Byte) (hc : k.curenv c = some e) (hS : S e)
      (hd : (k.envs e).envPgdir = some d) (hmay : userMay d ⟨va, true⟩ k.mem)
      (hstore : storeByte d k.mem va b = some m) : StepOf T S k none { k with mem := m }
  | device {nic : Nic} (hnic : DeviceStep k.nic nic) : StepOf T S k none { k with nic := nic }

def Step (k k' : Kernel) : Prop := ∃ cpu, StepOf (fun _ _ => True) (fun _ => True) k cpu k'

def Live (k : Kernel) (e : Nat) : Prop := e < nenv ∧ (k.envs e).envStatus ≠ .free

/-- A live environment of `S`, on any CPU, makes a system call, and the call has come to its
end. -/
def IssueOf (S : Nat → Prop) (k k' : Kernel) : Prop :=
  ∃ c e hw call, Live k e ∧ S e ∧
    ((∃ r, (exec c e hw (k.setCurenv c (some e)) call).2 = .ret r k') ∨
      (exec c e hw (k.setCurenv c (some e)) call).2 = .left k')

abbrev Issue : Kernel → Kernel → Prop := IssueOf fun _ => True

/-- Steps of the machine, and system calls of live environments in any order. -/
def Event (k k' : Kernel) : Prop := Step k k' ∨ Issue k k'

inductive Reachable (h : Machine) (R : Kernel → Kernel → Prop) : Kernel → Prop
  | boot {k : Kernel} (hk : i386Init h = some k) : Reachable h R k
  | step {k k' : Kernel} (hk : Reachable h R k) (hR : R k k') : Reachable h R k'

def NoWrap (k k' : Kernel) : Prop := Event k k' ∧ k'.mem.wrapped = false

variable {h : Machine} {K : KernelMap} {k k' : Kernel} {free : List Nat}

theorem Reachable.mono {R R' : Kernel → Kernel → Prop} (hk : Reachable h R k)
    (hR : ∀ k k', R k k' → R' k k') : Reachable h R' k := by
  induction hk with
  | boot hk => exact .boot hk
  | step _ hstep ih => exact ih.step (hR _ _ hstep)

theorem kept_step (hinv : Inv K k free) (hw : k.mem.wrapped = false) (hstep : Step k k') :
    Kept K k' := by
  obtain ⟨cpu, hstep⟩ := hstep
  cases hstep with
  | trap c hw' tf _ _ _ htrap =>
    have hends := kept_trap c hw' tf hinv hw
    rwa [htrap] at hends
  | start c _ _ hyield =>
    exact (kept_of_inv hinv).harmless (harmless_schedYield (hinv.env.curenv_lt c) hyield)
  | store c e d va b hc _ hd hmay hstore =>
    have he := hinv.env.curenv_lt c e hc
    exact kept_of_inv (storeByte_stored hinv he hd (lt_utop_of_userMay hinv he hd hmay) hstore).inv
  | device hnic =>
    exact (kept_of_inv hinv).harmless ⟨rfl, rfl, rfl, fun _ => rfl, fun _ => rfl,
      fun _ => .inl rfl, fun _ _ hc => .inl hc⟩

theorem kept_issue (hinv : Inv K k free) (hw : k.mem.wrapped = false) (hissue : Issue k k') :
    Kept K k' := by
  obtain ⟨c, e, hw', call, he, -, hres⟩ := hissue
  have hcur : Inv K (k.setCurenv c (some e)) free :=
    hinv.harmless (harmless_setCurenv k c _ fun e' he' => Option.some.inj he' ▸ he.1)
  have hends := kept_exec hcur hw' hw Kernel.setCurenv_curenv_self call
  rcases hres with ⟨r, hres⟩ | hres
  · rwa [hres] at hends
  · rwa [hres] at hends

/-- The two states agree but for trap frames and the fields that only record what ran
where. -/
structure Alike (k k' : Kernel) : Prop where
  mem : k'.mem = k.mem
  kern : k'.kernPgdir = k.kernPgdir
  envFreeList : k'.envFreeList = k.envFreeList
  ncpu : k'.ncpu = k.ncpu
  nic : k'.nic = k.nic
  curenv : ∀ c, k'.curenv c = k.curenv c
  env : ∀ e, ∃ tf runs cpu,
    k'.envs e = { k.envs e with envTf := tf, envRuns := runs, envCpunum := cpu }

namespace Alike

section

variable (hk : Alike k k')
include hk

theorem trans {k'' : Kernel} (hk' : Alike k' k'') : Alike k k'' where
  mem := hk'.mem.trans hk.mem
  kern := hk'.kern.trans hk.kern
  envFreeList := hk'.envFreeList.trans hk.envFreeList
  ncpu := hk'.ncpu.trans hk.ncpu
  nic := hk'.nic.trans hk.nic
  curenv c := (hk'.curenv c).trans (hk.curenv c)
  env e := by
    obtain ⟨tf, runs, cpu, heq⟩ := hk.env e
    obtain ⟨tf', runs', cpu', heq'⟩ := hk'.env e
    exact ⟨tf', runs', cpu', by rw [heq', heq]⟩

theorem harmless : Harmless k k' where
  mem := hk.mem
  kern := hk.kern
  envFreeList := hk.envFreeList
  pgdir e := by
    obtain ⟨tf, runs, cpu, heq⟩ := hk.env e
    rw [heq]
  link e := by
    obtain ⟨tf, runs, cpu, heq⟩ := hk.env e
    rw [heq]
  dstva e := by
    obtain ⟨tf, runs, cpu, heq⟩ := hk.env e
    exact .inl (by rw [heq])
  curenv c e he := .inl (hk.curenv c ▸ he)

theorem setMem (m : Mem) : Alike { k with mem := m } { k' with mem := m } :=
  { hk with mem := rfl }

theorem status_eq (e : Nat) : (k'.envs e).envStatus = (k.envs e).envStatus := by
  obtain ⟨tf, runs, cpu, heq⟩ := hk.env e
  rw [heq]

theorem envid2env_eq (cur : Nat) (envid : Word) (checkperm : Bool) :
    envid2env cur envid checkperm k' = envid2env cur envid checkperm k := by
  obtain ⟨tf, runs, cpu, heq⟩ := hk.env (envx envid)
  obtain ⟨tf', runs', cpu', heq'⟩ := hk.env cur
  simp only [envid2env, heq, heq']

end

end Alike

theorem alike_setEnv {e : Nat} {env : Env} (henv : ∃ tf runs cpu,
    env = { k.envs e with envTf := tf, envRuns := runs, envCpunum := cpu }) :
    Alike k (k.setEnv e env) := by
  refine ⟨rfl, rfl, rfl, rfl, rfl, fun _ => rfl, fun e' => ?_⟩
  by_cases heq : e' = e
  · subst heq
    obtain ⟨tf, runs, cpu, rfl⟩ := henv
    exact ⟨tf, runs, cpu, Kernel.setEnv_envs_self⟩
  · exact ⟨_, _, _, Kernel.setEnv_envs_of_ne heq⟩

theorem alike_ran {c e : Nat} (hran : Ran c e k k') (hcur : k.curenv c = some e)
    (hstatus : (k.envs e).envStatus = .running) : Alike k k' := by
  have hstate := hran.state
  refine ⟨by rw [hstate], by rw [hstate], by rw [hstate], by rw [hstate], by rw [hstate],
    fun c' => ?_, fun e' => ?_⟩
  · by_cases hc : c' = c
    · rw [hc, hran.curenv, hcur]
    · exact hran.others c' hc
  obtain ⟨runs, cpu, heq⟩ := hran.env e'
  refine ⟨(k.envs e').envTf, runs, cpu, heq.trans ?_⟩
  have hsame : statusAfter c e k e' = (k.envs e').envStatus := by
    by_cases hself : e' = e
    · rw [hself, statusAfter, if_pos rfl, hstatus]
    · rw [statusAfter, if_neg hself, if_neg]
      rw [hcur]
      exact fun hcur' => hself (Option.some.inj hcur'.1).symm
  rw [hsame]

def syscallFrame (num a1 a2 a3 a4 a5 : Word) : Trapframe :=
  { initTf with tfTrapno := tSyscall, regEax := num, regEdx := a1, regEcx := a2, regEbx := a3,
                regEdi := a4, regEsi := a5 }

def entered (c e : Nat) (tf : Trapframe) (k : Kernel) : Kernel :=
  (cpuStarted c k).setEnv e { k.envs e with envTf := tf }

theorem alike_entered (c e : Nat) (tf : Trapframe) (k : Kernel) : Alike k (entered c e tf k) := by
  have hstarted : Alike k (cpuStarted c k) :=
    ⟨rfl, rfl, rfl, rfl, rfl, fun c' => cpuStarted_curenv c c' k, fun _ => ⟨_, _, _, rfl⟩⟩
  exact hstarted.trans (alike_setEnv ⟨tf, _, _, rfl⟩)

section SystemCall

variable {c e : Nat} (hw : Hw)

/-- The system call that the registers of a trap frame ask for. -/
def callOf (tf : Trapframe) : Call :=
  Call.ofRegs tf.regEax tf.regEdx tf.regEcx tf.regEbx tf.regEdi tf.regEsi

theorem trap_syscall (tf : Trapframe) (hcur : k.curenv c = some e)
    (hstatus : (k.envs e).envStatus ≠ .dying) (htrapno : tf.tfTrapno = tSyscall)
    (hmode : tf.tfCs &&& 3 = 3) :
    trap c hw tf k = (exec c e hw (entered c e tf k) (callOf tf)).2.andThen fun r k =>
      trapReturn c (k.setEnv e { k.envs e with
        envTf := { (k.envs e).envTf with regEax := r } }) := by
  have hcur' : (cpuStarted c k).curenv c = some e := (cpuStarted_curenv c c k).trans hcur
  have hstatus' : ((cpuStarted c k).envs e).envStatus ≠ .dying := hstatus
  simp only [trap, if_pos hmode, hcur', if_neg hstatus', trapDispatchUser, htrapno,
    if_neg (show tSyscall ≠ tPgflt by decide), if_pos,
    if_neg (show ¬ (tSyscall = tBrkpt ∨ tSyscall = tDebug) by decide), syscall]
  change ((exec c e hw (entered c e tf k) (callOf tf)).2.andThen _).andThen _ = _
  cases (exec c e hw (entered c e tf k) (callOf tf)).2 <;> rfl

theorem trap_returns {tf : Trapframe} {r : Word} {k1 : Kernel} (hcur : k.curenv c = some e)
    (hstatus : (k.envs e).envStatus = .running) (htrapno : tf.tfTrapno = tSyscall)
    (hmode : tf.tfCs &&& 3 = 3) (hres : (exec c e hw (entered c e tf k) (callOf tf)).2 = .ret r k1)
    (hcur1 : k1.curenv c = some e) (hstatus1 : (k1.envs e).envStatus = .running)
    (hd : ∃ d, (k1.envs e).envPgdir = some d) : ∃ k', trap c hw tf k = .left k' ∧ Alike k1 k' ∧
      ∀ e', e' ≠ e → (k'.envs e').envTf = (k1.envs e').envTf := by
  obtain ⟨d, hd⟩ := hd
  let k2 := k1.setEnv e { k1.envs e with envTf := { (k1.envs e).envTf with regEax := r } }
  have hset : Alike k1 k2 := alike_setEnv ⟨_, _, _, rfl⟩
  have henv : k2.envs e = _ := Kernel.setEnv_envs_self
  have hstatus2 : (k2.envs e).envStatus = .running := by rw [henv]; exact hstatus1
  have hcur2 : k2.curenv c = some e := hcur1
  obtain ⟨k', hrun⟩ := envRun_returns (c := c) (show (k2.envs e).envPgdir = some d by
    rw [henv]; exact hd)
  have hran := envRun_ran hrun
  refine ⟨k', ?_, hset.trans (alike_ran hran hcur1 hstatus2), fun e' hne => ?_⟩
  · rw [trap_syscall hw tf hcur (hstatus.trans_ne (by decide)) htrapno hmode, hres]
    change trapReturn c k2 = .left k'
    rw [trapReturn, hcur2]
    simp only [if_pos hstatus2, hrun, Exit.leave]
  · obtain ⟨runs, cpu, heq⟩ := hran.env e'
    rw [heq, show k2.envs e' = k1.envs e' from Kernel.setEnv_envs_of_ne hne]

theorem step_syscall {P : Kernel → Prop} (num a1 a2 a3 a4 a5 : Word) (hc : c < k.ncpu)
    (hcur : k.curenv c = some e) (hstatus : (k.envs e).envStatus = .running)
    (hexec : ∀ k0, Alike k k0 → ∃ r k1,
      (exec c e hw k0 (Call.ofRegs num a1 a2 a3 a4 a5)).2 = .ret r k1 ∧ k1.curenv c = some e ∧
        (k1.envs e).envStatus = .running ∧ (∃ d, (k1.envs e).envPgdir = some d) ∧ P k1) :
    ∃ k1 k', Step k k' ∧ P k1 ∧ Alike k1 k' := by
  have hmode : (gdUt ||| 3) &&& 3 = 3 := by decide
  obtain ⟨r, k1, hres, hcur1, hstatus1, hd, hP⟩ :=
    hexec _ (alike_entered c e (syscallFrame num a1 a2 a3 a4 a5) k)
  obtain ⟨k', htrap, halike, -⟩ := trap_returns hw hcur hstatus rfl hmode hres hcur1 hstatus1 hd
  exact ⟨k1, k', ⟨_, .trap c hw _ hc (.inl ⟨⟨e, hcur⟩, hmode⟩) trivial htrap⟩, hP, halike⟩

end SystemCall

def SafeStep (k k' : Kernel) : Prop := Step k k' ∧ k'.mem.wrapped = false

theorem SafeStep.noWrap (hstep : SafeStep k k') : NoWrap k k' := ⟨.inl hstep.1, hstep.2⟩

theorem yield_first (hs : Started h K 3 k free) (hcpu : 0 < h.ncpu) :
    k.cpus 0 = { cpuStatus := .started, cpuEnv := none } ∧
      ∃ k', schedYield 0 k = some k' ∧ Ran 0 0 k k' := by
  have hmade := hs.made 0 (by decide)
  obtain ⟨d, hd⟩ := hmade.pgdir
  have hcur : k.curenv 0 = none := by
    rw [Kernel.curenv, hs.cpus]
    rfl
  have hpick : schedPick none k = some 0 :=
    schedPick_of_first 0 (by decide) hmade.status (by simp)
  obtain ⟨k', hrun⟩ := envRun_returns (c := 0) hd
  refine ⟨?_, k', by simp only [schedYield, hcur, hpick, hrun], envRun_ran hrun⟩
  rw [hs.cpus]
  simp [initKernel, hcpu]

/-- The small machine, with environment 0 on the boot CPU and the other two ready to run. -/
structure FirstRunning (K : KernelMap) (k : Kernel) (free : List Nat) : Prop where
  reach : Reachable smallMachine SafeStep k
  inv : Inv K k free
  wrapped : k.mem.wrapped = false
  room : 14000 ≤ free.length
  ncpu : k.ncpu = 2
  curenv : k.curenv 0 = some 0
  idle : ∀ c, c ≠ 0 → k.curenv c = none
  running : (k.envs 0).envStatus = .running
  ready : ∀ e, 0 < e → e < 3 → (k.envs e).envStatus = .runnable
  made : ∀ e < 3, Made e { k.envs e with envStatus := .runnable }
  blank : ∀ e, 3 ≤ e → (k.envs e).envStatus = .free
  head : k.envFreeList = some 3
  next : (k.envs 3).envLink = some 4
  nic : k.nic = smallMachine.nic

/-- The boot CPU starts environment 0. -/
theorem smallMachine_first : ∃ K k0 k free, i386Init smallMachine = some k0 ∧
    Started smallMachine K 3 k0 free ∧ k0.cpus 0 = { cpuStatus := .started, cpuEnv := none } ∧
    schedYield 0 k0 = some k ∧ Ran 0 0 k0 k ∧ FirstRunning K k free := by
  obtain ⟨k0, K, free, hk0, hs, hlen⟩ := smallMachine_boots
  obtain ⟨hcpu, k, hyield, hran⟩ := yield_first hs (by decide)
  have hstep : SafeStep k0 k :=
    ⟨⟨_, .start 0 (hs.ncpu ▸ by decide) hcpu hyield⟩, schedYield_mem hyield ▸ hs.wrapped⟩
  have hstate := hran.state
  have hother : ∀ e, e ≠ 0 → (k.envs e).envStatus = (k0.envs e).envStatus := fun e he => by
    have hidle : k0.curenv 0 = none := by
      rw [Kernel.curenv, hs.cpus]
      rfl
    rw [hran.status_eq, statusAfter, if_neg he, if_neg (by simp [hidle])]
  refine ⟨K, k0, k, free, hk0, hs, hcpu, hyield, hran, (Reachable.boot hk0).step hstep,
    hs.inv.harmless (harmless_schedYield (hs.inv.env.curenv_lt 0) hyield), hstep.2, hlen, ?_,
    hran.curenv,
    fun c hc => ?_, hran.running, fun e he hlt => ?_, fun e he => ?_, fun e he => ?_, ?_, ?_, ?_⟩
  · rw [hstate]
    exact hs.ncpu
  · rw [hran.others c hc, Kernel.curenv, hs.cpus]
    rfl
  · rw [hother e (by omega)]
    exact (hs.made e hlt).status
  · obtain ⟨runs, cpu, henv⟩ := hran.env e
    have hmade := hs.made e he
    rw [henv]
    exact { hmade with status := rfl }
  · obtain ⟨link, hblank⟩ := hs.blank e he
    rw [hother e (by omega), hblank]
    rfl
  · rw [hstate]
    exact hs.chain.1
  · obtain ⟨runs, cpu, henv⟩ := hran.env 3
    rw [henv]
    exact hs.chain.2.1
  · rw [hstate]
    exact hs.nic

theorem smallMachine_runs : ∃ K k free, FirstRunning K k free :=
  let ⟨K, _, k, free, _, _, _, _, _, hk⟩ := smallMachine_first
  ⟨K, k, free, hk⟩

theorem FirstRunning.unknown {K : KernelMap} {free : List Nat} (hk : FirstRunning K k free) :
    envid2env 0 5 true k = none ∧
      (exec 0 0 ⟨0, 0⟩ k (.pageUnmap 5 0)).2 = .ret (-eBadEnv) k := by
  have hnone : envid2env 0 5 true k = none :=
    PageCallSpec.envid2env_free (by decide) (hk.blank _ (by decide)) true
  refine ⟨hnone, ?_⟩
  simp only [exec, sysPageUnmap, if_neg (show ¬ badVa 0 by decide), hnone]

theorem reachable_inv (hk : Reachable h NoWrap k) : ∃ K free, Inv K k free ∧
    K.pool = freePool h.npagesBasemem (firstFree h) h.npages ∧ k.mem.wrapped = false := by
  induction hk with
  | boot hk =>
    obtain ⟨K, free, hs, -⟩ := (i386Init_outcome h).holds _ hk
    exact ⟨K, free, hs.inv, hs.pool, hs.wrapped⟩
  | step _ hR ih =>
    obtain ⟨K, free, hinv, hpool, hw⟩ := ih
    obtain ⟨hevent, hw'⟩ := hR
    have hkept : Kept K _ := hevent.elim (kept_step hinv hw) (kept_issue hinv hw)
    obtain ⟨free', hinv'⟩ := hkept hw'
    exact ⟨K, free', hinv', hpool, hw'⟩

end Mit6828.Kern.Execution
