import Mit6828.Kern.TrapSpec

namespace Mit6828.Kern.EnvTable

open Mmu Pmap Environment Syscall Trap DirectorySpec EnvSpec TrapSpec Function

/-- The fields of an environment that say whether it exists, where it is linked and where it
wants a page, and its name. -/
def entry (env : Env) : EnvStatus × Option Nat × Option Nat × Word × Word :=
  (env.envStatus, env.envPgdir, env.envLink, env.envIpcDstva, env.envId)

/-- The two states have the same environment table and the same current environments. -/
structure SameTable (k k' : Kernel) : Prop where
  envFreeList : k'.envFreeList = k.envFreeList
  ncpu : k'.ncpu = k.ncpu
  curenv : ∀ c, k'.curenv c = k.curenv c
  entry : ∀ e, entry (k'.envs e) = entry (k.envs e)

structure SameLinks (k k' : Kernel) : Prop where
  envFreeList : k'.envFreeList = k.envFreeList
  ncpu : k'.ncpu = k.ncpu
  curenv : ∀ c, k'.curenv c = k.curenv c
  status : ∀ e, (k'.envs e).envStatus = (k.envs e).envStatus
  pgdir : ∀ e, (k'.envs e).envPgdir = (k.envs e).envPgdir
  link : ∀ e, (k'.envs e).envLink = (k.envs e).envLink

variable {α β : Type} {P Q : Kernel → Prop} {k k' : Kernel} {c cur e : Nat}
  {r envid perm srcva va value : Word} {tf : Trapframe} {call : Call} {x : Exit α} {hw : Hw}

namespace SameTable

theorem links (h : SameTable k k') : SameLinks k k' :=
  ⟨h.envFreeList, h.ncpu, h.curenv, fun e => congrArg Prod.fst (h.entry e),
    fun e => congrArg (fun x => x.2.1) (h.entry e),
    fun e => congrArg (fun x => x.2.2.1) (h.entry e)⟩

theorem dstva (h : SameTable k k') (e : Nat) : (k'.envs e).envIpcDstva = (k.envs e).envIpcDstva :=
  congrArg (fun x => x.2.2.2.1) (h.entry e)

theorem setMem (k : Kernel) (m : Mem) : SameTable k { k with mem := m } :=
  ⟨rfl, rfl, fun _ => rfl, fun _ => rfl⟩

theorem setEnv {env : Env} (h : EnvTable.entry env = EnvTable.entry (k.envs e)) :
    SameTable k (k.setEnv e env) :=
  ⟨rfl, rfl, fun _ => rfl, update_field _ h⟩

end SameTable

theorem sameTable_setEnv_setEnv {env env' : Env} (h : entry env' = entry env) :
    SameTable (k.setEnv e env) (k.setEnv e env') := by
  refine ⟨rfl, rfl, fun _ => rfl, fun e' => ?_⟩
  by_cases heq : e' = e
  · rw [heq, Kernel.setEnv_envs_self, Kernel.setEnv_envs_self, h]
  · rw [Kernel.setEnv_envs_of_ne heq, Kernel.setEnv_envs_of_ne heq]

theorem sameLinks_block (k : Kernel) (e : Nat) (dstva : Word) :
    SameLinks (k.setStatus e .notRunnable) (k.setEnv e { k.envs e with
      envStatus := .notRunnable, envIpcDstva := dstva }) := by
  refine ⟨rfl, rfl, fun _ => rfl, fun e' => ?_, fun e' => ?_, fun e' => ?_⟩ <;>
  · by_cases heq : e' = e
    · rw [heq, Kernel.setStatus, Kernel.setEnv_envs_self, Kernel.setEnv_envs_self]
    · rw [Kernel.setStatus, Kernel.setEnv_envs_of_ne heq, Kernel.setEnv_envs_of_ne heq]

/-- The path returns in a state that satisfies `P` or leaves the kernel in one that satisfies
`Q`. -/
def Exits {α : Type} (P Q : Kernel → Prop) : Exit α → Prop
  | .ret _ k => P k
  | .left k => Q k
  | .stop => True
  | .corrupt => True

theorem Exits.andThen {f : α → Kernel → Exit β} (hx : Exits P Q x)
    (hf : ∀ a k, P k → Exits P Q (f a k)) : Exits P Q (x.andThen f) := by
  cases x with
  | ret a k => exact hf a k hx
  | left k => exact hx
  | stop => trivial
  | corrupt => trivial

theorem Exits.leave {o : Option Kernel} (h : ∀ k, o = some k → Q k) :
    Exits P Q (Exit.leave o : Exit α) := by
  cases o with
  | none => trivial
  | some k => exact h k rfl

theorem Exits.of_returns (hx : Returns x) (h : ∀ a k, x = .ret a k → P k) : Exits P Q x := by
  cases x with
  | ret a k => exact h a k rfl
  | left k => exact hx.elim
  | stop => trivial
  | corrupt => trivial

theorem sysPageAlloc_mem
    (h : sysPageAlloc cur envid va perm k = .ret r k') : ∃ m, k' = { k with mem := m } := by
  simp only [sysPageAlloc] at h
  repeat' split at h
  all_goals first | cases h; exact ⟨_, rfl⟩ | cases h

theorem sysPageMap_mem {srcenvid dstenvid dstva : Word}
    (h : sysPageMap cur srcenvid srcva dstenvid dstva perm k = .ret r k') :
    ∃ m, k' = { k with mem := m } := by
  unfold sysPageMap at h
  repeat' split at h
  all_goals first | cases h; exact ⟨_, rfl⟩ | cases h

theorem sysPageUnmap_mem (h : sysPageUnmap cur envid va k = .ret r k') :
    ∃ m, k' = { k with mem := m } := by
  unfold sysPageUnmap at h
  repeat' split at h
  all_goals first | cases h; exact ⟨_, rfl⟩ | cases h

theorem sysIpcTrySend_table (h : sysIpcTrySend cur envid value srcva perm k = .ret r k') :
    (r ≠ 0 ∧ ∃ m, k' = { k with mem := m }) ∨
    r = 0 ∧ ∃ dst p m, envid2env cur envid false k = some dst ∧
      (k.envs dst).envIpcRecving = true ∧ (k.envs dst).envIpcFrom = 0 ∧
      k' = ipcDeliver cur dst value p { k with mem := m } := by
  have hneg : ∀ r : Word, isNeg r → r ≠ 0 := by
    rintro r hr rfl
    exact absurd hr (by decide)
  unfold sysIpcTrySend at h
  split at h
  · cases h
    exact .inl ⟨by decide, _, rfl⟩
  rename_i dst hdst
  split at h
  · cases h
    exact .inl ⟨by decide, _, rfl⟩
  rename_i hrecving
  push Not at hrecving
  have hready : (k.envs dst).envIpcRecving = true := by simpa using hrecving.1
  repeat' split at h
  all_goals first
    | cases h; exact .inr ⟨rfl, dst, _, k.mem, hdst, hready, hrecving.2, rfl⟩
    | cases h; exact .inr ⟨rfl, dst, _, _, hdst, hready, hrecving.2, rfl⟩
    | cases h; exact .inl ⟨by decide, _, rfl⟩
    | cases h; exact .inl ⟨hneg _ (by assumption), _, rfl⟩
    | cases h

theorem envAlloc_table (parentId : Word) (k : Kernel) :
    (∃ r m, envAlloc parentId k = (.error r, { k with mem := m })) ∨
    ∃ e p m, k.envFreeList = some e ∧
      envAlloc parentId k = (.ok e, allocated parentId e p m k) := by
  rcases Option.eq_none_or_eq_some k.envFreeList with hhead | ⟨e, hhead⟩
  · refine .inl ⟨-eNoFreeEnv, k.mem, ?_⟩
    simp only [envAlloc, hhead]
    rw [← hhead]
  cases hp : pageAlloc true k.mem with
  | mk page m =>
    cases page with
    | none =>
      refine .inl ⟨-eNoMem, m, ?_⟩
      rw [envAlloc, hhead]
      simp only [envSetupVm, hp, if_pos (show isNeg (-eNoMem) by decide), ← hhead]
    | some p =>
      refine .inr ⟨e, p, setupVm p k.kernPgdir m, hhead, ?_⟩
      rw [envAlloc, hhead]
      simp only [envSetupVm, hp, if_neg (show ¬ isNeg 0 by decide)]
      simp [freshEnv, Kernel.setEnv, setupVm]

structure SameEnvs (k k' : Kernel) : Prop where
  envs : k'.envs = k.envs
  envFreeList : k'.envFreeList = k.envFreeList
  ncpu : k'.ncpu = k.ncpu
  curenv : ∀ c, k'.curenv c = k.curenv c

theorem SameEnvs.table (h : SameEnvs k k') : SameTable k k' :=
  ⟨h.envFreeList, h.ncpu, h.curenv, fun e => by rw [h.envs]⟩

theorem sameEnvs_setMem (k : Kernel) (m : Mem) : SameEnvs k { k with mem := m } :=
  ⟨rfl, rfl, rfl, fun _ => rfl⟩

/-- `P` holds in the kernel on CPU `c`, `W` when it is about to leave through `sched_yield` and
`Q` once it has left: what the changes that do not depend on the arguments of a call must
preserve. -/
structure Respects (c : Nat) (P W Q : Kernel → Prop) : Prop where
  same : ∀ {k k'}, P k → SameEnvs k k' → P k'
  leave : ∀ {k}, P k → W k
  run : ∀ {k k' e}, W k → (k.envs e).envStatus = .runnable ∨
    k.curenv c = some e ∧ (k.envs e).envStatus = .running →
    (k.envs e).envPgdir ≠ none → Ran c e k k' → Q k'
  resume : ∀ {k k' e}, P k → k.curenv c = some e → (k.envs e).envPgdir ≠ none → Ran c e k k' → Q k'
  halt : ∀ {k}, W k → (∀ e, k.curenv c = some e → (k.envs e).envStatus ≠ .running) → Q (k.halted c)
  gone : ∀ {k k' e}, P k → k.curenv c = some e → envFree e k = some k' → W (k'.setCurenv c none)
  block : ∀ {k k' e} (dstva : Word), P k → k.curenv c = some e →
    ipcRecvBlock e dstva k = some k' → W k'
  frame : ∀ {k e tf}, P k → tf.tfCs = (k.envs e).envTf.tfCs →
    tf.tfEflags = (k.envs e).envTf.tfEflags → P (k.setEnv e { k.envs e with envTf := tf })
  handler : ∀ {k} (e : Nat) (func : Word), P k →
    P (k.setEnv e { k.envs e with envPgfaultUpcall := func })

structure AllowsStatus (cur : Nat) (P : Kernel → Prop) (k : Kernel) (call : Call) : Prop where
  status : ∀ envid status e st, call = .envSetStatus envid status →
    envid2env cur envid true k = some e → statusOf status = some st → P (k.setStatus e st)
  dying : ∀ envid e, call = .envDestroy envid → envid2env cur envid true k = some e → e ≠ cur →
    (k.envs e).envStatus = .running → P (k.setStatus e .dying)
  free : ∀ envid e k', call = .envDestroy envid → envid2env cur envid true k = some e →
    e ≠ cur → (k.envs e).envStatus ≠ .running → envFree e k = some k' → P k'

/-- The changes that depend on the arguments of a call of `cur` keep `P`. -/
structure Allows (cur : Nat) (P : Kernel → Prop) (k : Kernel) (call : Call) : Prop
    extends AllowsStatus cur P k call where
  fork : ∀ e p m, call = .exofork → k.envFreeList = some e →
    P (forked cur e (allocated (k.envs cur).envId e p m k))
  trapframe : ∀ envid tf e (frame : Trapframe), call = .envSetTrapframe envid tf →
    envid2env cur envid true k = some e → P (k.setEnv e { k.envs e with envTf := sanitized frame })
  send : ∀ envid value srcva perm dst p m, call = .ipcTrySend envid value srcva perm →
    envid2env cur envid false k = some dst → (k.envs dst).envIpcRecving = true →
    (k.envs dst).envIpcFrom = 0 → P (ipcDeliver cur dst value p { k with mem := m })

theorem exits_sysEnvSetTrapframe {tf : Word} (hk : P k)
    (hcall : Allows cur P k (.envSetTrapframe envid tf)) :
    Exits P Q (sysEnvSetTrapframe cur envid tf k).2 := by
  rw [sysEnvSetTrapframe]
  split
  · exact hk
  rename_i e he
  split
  · split
    · trivial
    · exact hk
    · dsimp only
      split
      · trivial
      · exact hcall.trapframe envid tf e _ rfl he
  · trivial

namespace Respects

variable {W : Kernel → Prop} (hR : Respects c P W Q)
include hR

theorem envRun_of_resume (hk : P k) (hcur : k.curenv c = some e) (hrun : envRun c e k = some k') :
    Q k' :=
  hR.resume hk hcur (envRun_pgdir hrun) (envRun_ran hrun)

theorem schedYield (hk : W k) (hyield : schedYield c k = some k') : Q k' := by
  obtain ⟨e, he, hres⟩ | ⟨hidle, hhalt⟩ := schedYield_cases hyield
  · exact hR.run hk (he.imp_left And.right) (envRun_pgdir hres) (envRun_ran hres)
  · rw [schedHalt_eq_some hhalt]
    exact hR.halt hk hidle

theorem envDestroy_self (hk : P k) (hcur : k.curenv c = some cur) :
    Exits P Q (envDestroy c cur k) := by
  obtain ⟨-, hne, -⟩ | hres | ⟨k1, hfree, ⟨hne, -⟩ | ⟨-, hres⟩⟩ := envDestroy_cases c cur k
  · exact absurd hcur hne
  · rw [hres]
    trivial
  · exact absurd hcur hne
  · rw [hres]
    exact Exits.leave fun k' hk' => hR.schedYield (hR.gone hk hcur hfree) hk'

theorem userMemAssert (hk : P k) (hcur : k.curenv c = some cur) (va len perm : Word) :
    Exits P Q (userMemAssert c cur va len perm k) := by
  rw [Syscall.userMemAssert]
  split
  · trivial
  · split
    · trivial
    · exact hk
    · exact hR.envDestroy_self hk hcur

theorem sysExofork (hk : P k) (hcall : Allows cur P k .exofork) : Exits P Q (sysExofork cur k) := by
  rw [Syscall.sysExofork]
  obtain ⟨r, m, hres⟩ | ⟨e, p, m, hhead, hres⟩ := envAlloc_table (k.envs cur).envId k
  · rw [hres]
    exact hR.same hk (sameEnvs_setMem k m)
  · rw [hres]
    exact hcall.fork e p m rfl hhead

theorem sysIpcRecv (hk : P k) (hcur : k.curenv c = some cur) (dstva : Word) :
    Exits P Q (sysIpcRecv c cur dstva k) := by
  rw [Syscall.sysIpcRecv]
  split
  · exact hk
  · rename_i k1 hblock
    exact Exits.leave fun k' hk' => hR.schedYield (hR.block dstva hk hcur hblock) hk'

theorem sysEnvDestroy (hk : P k) (hcur : k.curenv c = some cur)
    (hcall : Allows cur P k (.envDestroy envid)) : Exits P Q (sysEnvDestroy c cur envid k) := by
  rw [Syscall.sysEnvDestroy]
  split
  · exact hk
  rename_i e he
  refine Exits.andThen ?_ fun _ _ hk => hk
  by_cases heq : e = cur
  · subst heq
    exact hR.envDestroy_self hk hcur
  obtain ⟨hrun, -, hres⟩ | hres | ⟨k1, hfree, ⟨-, hrun, hres⟩ | ⟨hself, -⟩⟩ :=
    envDestroy_cases c e k
  · rw [hres]
    exact hcall.dying envid e rfl he heq hrun
  · rw [hres]
    trivial
  · rw [hres]
    exact hcall.free envid e k1 rfl he heq hrun hfree
  · exact absurd (Option.mem_unique hself hcur) heq

theorem sysIpcTrySend (hk : P k) (hcall : Allows cur P k (.ipcTrySend envid value srcva perm)) :
    Exits P Q (sysIpcTrySend cur envid value srcva perm k) := by
  refine Exits.of_returns returns_sysIpcTrySend fun r k' hres => ?_
  obtain ⟨-, m, rfl⟩ | ⟨-, dst, p, m, hdst, hrecving, hfrom, rfl⟩ := sysIpcTrySend_table hres
  · exact hR.same hk (sameEnvs_setMem k m)
  · exact hcall.send envid value srcva perm dst p m rfl hdst hrecving hfrom

theorem exec (hw : Hw) (hk : P k) (hcur : k.curenv c = some cur)
    (hcall : Allows cur P k call) : Exits P Q (exec c cur hw k call).2 := by
  cases call with
  | cputs s len =>
    have hassert := hR.userMemAssert hk hcur s len pteU
    simp only [Syscall.exec, sysCputs]
    cases hres : Syscall.userMemAssert c cur s len pteU k with
    | ret u k' =>
      obtain rfl := userMemAssert_ret hcur hres
      dsimp only
      split
      · trivial
      · dsimp only
        split
        · exact hk
        · trivial
    | left k' =>
      rw [hres] at hassert
      exact hassert
    | stop => trivial
    | corrupt => trivial
  | cgetc => exact hk
  | getenvid => exact hk
  | envDestroy envid => exact hR.sysEnvDestroy hk hcur hcall
  | pageAlloc envid va perm =>
    refine Exits.of_returns returns_sysPageAlloc fun r k' hres => ?_
    obtain ⟨m, rfl⟩ := sysPageAlloc_mem hres
    exact hR.same hk (sameEnvs_setMem k m)
  | pageMap srcenvid srcva dstenvid dstva perm =>
    refine Exits.of_returns returns_sysPageMap fun r k' hres => ?_
    obtain ⟨m, rfl⟩ := sysPageMap_mem hres
    exact hR.same hk (sameEnvs_setMem k m)
  | pageUnmap envid va =>
    refine Exits.of_returns returns_sysPageUnmap fun r k' hres => ?_
    obtain ⟨m, rfl⟩ := sysPageUnmap_mem hres
    exact hR.same hk (sameEnvs_setMem k m)
  | exofork => exact hR.sysExofork hk hcall
  | envSetStatus envid status =>
    simp only [Syscall.exec, sysEnvSetStatus]
    split
    · exact hk
    rename_i e he
    split
    · exact hk
    · rename_i st hst
      exact hcall.status envid status e st rfl he hst
  | envSetTrapframe envid tf =>
    rw [Syscall.exec]
    exact exits_sysEnvSetTrapframe hk hcall
  | envSetPgfaultUpcall envid func =>
    simp only [Syscall.exec, sysEnvSetPgfaultUpcall]
    split
    · exact hk
    · rename_i e _
      exact hR.handler e func hk
  | yield => exact Exits.leave fun k' hk' => hR.schedYield (hR.leave hk) hk'
  | ipcTrySend envid value srcva perm => exact hR.sysIpcTrySend hk hcall
  | ipcRecv dstva => exact hR.sysIpcRecv hk hcur dstva
  | timeMsec => exact hk
  | pktTrySend buf len =>
    have hassert := hR.userMemAssert hk hcur buf len pteU
    simp only [Syscall.exec, sysPktTrySend]
    cases hres : Syscall.userMemAssert c cur buf len pteU k with
    | ret u k' =>
      obtain rfl := userMemAssert_ret hcur hres
      dsimp only
      split
      · trivial
      · simp only [e1000Transmit]
        repeat' split
        all_goals first | trivial | exact hk | exact hR.same hk ⟨rfl, rfl, rfl, fun _ => rfl⟩
    | left k' =>
      rw [hres] at hassert
      exact hassert
    | stop => trivial
    | corrupt => trivial
  | pktTryRecv buf len =>
    simp only [Syscall.exec, sysPktTryRecv]
    split
    · trivial
    · simp only [e1000Receive]
      repeat' split
      all_goals first | trivial | exact hk | exact hR.same hk ⟨rfl, rfl, rfl, fun _ => rfl⟩
  | invalid => exact hk

theorem trapReturn (hk : P k) : Exits P Q (trapReturn c k) := by
  have hyield : Exits P Q (Exit.leave (Environment.schedYield c k) : Exit Unit) :=
    Exits.leave fun _ hk' => hR.schedYield (hR.leave hk) hk'
  rw [Trap.trapReturn]
  split
  · rename_i cur hcur
    split
    · exact Exits.leave fun _ hk' => hR.envRun_of_resume hk hcur hk'
    · exact hyield
  · exact hyield

theorem envRun_upcall {m : Mem} (hk : P k) (hcur : k.curenv c = some cur)
    (hk' : envRun c cur (({ k with mem := m } : Kernel).setEnv cur
      { k.envs cur with envTf := tf }) = some k')
    (hcs : tf.tfCs = (k.envs cur).envTf.tfCs) (hflags : tf.tfEflags = (k.envs cur).envTf.tfEflags) :
    Q k' := by
  have hmem : P { k with mem := m } := hR.same hk (sameEnvs_setMem k m)
  have hin : P (({ k with mem := m } : Kernel).setEnv cur { k.envs cur with envTf := tf }) :=
    hR.frame hmem hcs hflags
  exact hR.envRun_of_resume hin hcur hk'

theorem pageFaultHandler {faultVa : Word} (hk : P k)
    (hcur : k.curenv c = some cur) : Exits P Q (pageFaultHandler c cur faultVa tf k) := by
  have hdestroy := hR.envDestroy_self hk hcur
  rw [Trap.pageFaultHandler]
  split
  · rw [pgfaultUpcall]
    cases hassert : Syscall.userMemAssert c cur (utfAddr tf.tfEsp) utrapframeSize pteW k with
    | ret u k1 =>
      obtain rfl := userMemAssert_ret hcur hassert
      simp only [Exit.andThen]
      split
      · split
        · trivial
        · split
          · trivial
          · exact Exits.leave fun k' hk' => hR.envRun_upcall hk hcur hk' rfl rfl
      · exact hdestroy
    | left k1 =>
      have hexits := hR.userMemAssert hk hcur (utfAddr tf.tfEsp) utrapframeSize pteW
      rw [hassert] at hexits
      exact hexits
    | stop => trivial
    | corrupt => trivial
  · exact hdestroy

theorem timer (hk : P k) :
    Exits P Q (Exit.leave ((timeTick k).bind (Environment.schedYield c)) : Exit Unit) := by
  refine Exits.leave fun k' hk' => ?_
  obtain ⟨k1, htick, hyield⟩ := Option.bind_eq_some_iff.mp hk'
  refine hR.schedYield (hR.leave (hR.same hk ?_)) hyield
  simp only [timeTick] at htick
  split at htick
  · cases htick
  · cases htick
    exact ⟨rfl, rfl, rfl, fun _ => rfl⟩

theorem trapDispatchUser (hk : P k)
    (hcur : k.curenv c = some cur) (hcall : tf.tfTrapno = tSyscall → Allows cur P k
      (Call.ofRegs tf.regEax tf.regEdx tf.regEcx tf.regEbx tf.regEdi tf.regEsi)) :
    Exits P Q (trapDispatchUser c cur hw tf k) := by
  rw [Trap.trapDispatchUser]
  split
  · exact hR.pageFaultHandler hk hcur
  split
  · exact hk
  split
  · rename_i hsys
    refine Exits.andThen (hR.exec hw hk hcur (hcall hsys)) fun r k' hk' => ?_
    exact hR.frame hk' rfl rfl
  split
  · exact hk
  split
  · exact hR.timer hk
  · split
    · exact hk
    · exact hR.envDestroy_self hk hcur

theorem trapDispatchKernel (hk : P k) : Exits P Q (trapDispatchKernel c tf k) := by
  rw [Trap.trapDispatchKernel]
  split
  · exact hk
  · split
    · exact hR.timer hk
    · trivial

theorem trap_user (hcur : k.curenv c = some cur) (hmode : tf.tfCs &&& 3 = 3)
    (hdying : (k.envs cur).envStatus = .dying → ∀ k', envFree cur (cpuStarted c k) = some k' →
      W (k'.setCurenv c none)) (hin : (k.envs cur).envStatus ≠ .dying →
      P ((cpuStarted c k).setEnv cur { k.envs cur with envTf := tf }))
    (hcall : P ((cpuStarted c k).setEnv cur { k.envs cur with envTf := tf }) →
      tf.tfTrapno = tSyscall →
      Allows cur P ((cpuStarted c k).setEnv cur { k.envs cur with envTf := tf })
        (Call.ofRegs tf.regEax tf.regEdx tf.regEcx tf.regEbx tf.regEdi tf.regEsi)) :
    Exits P Q (trap c hw tf k) := by
  have hcur1 : (cpuStarted c k).curenv c = some cur := (cpuStarted_curenv c c k).trans hcur
  rw [trap]
  simp only [if_pos hmode, hcur1]
  by_cases hst : (k.envs cur).envStatus = .dying
  · rw [if_pos (show ((cpuStarted c k).envs cur).envStatus = .dying from hst)]
    split
    · trivial
    · rename_i k1 hfree
      exact Exits.leave fun k' hk' => hR.schedYield (hdying hst k1 hfree) hk'
  · rw [if_neg (show ((cpuStarted c k).envs cur).envStatus ≠ .dying from hst)]
    exact (hR.trapDispatchUser (hin hst) hcur1 (hcall (hin hst))).andThen
      fun _ k' hk' => hR.trapReturn hk'

theorem trap_kernel (hmode : tf.tfCs = gdKt)
    (hin : P (cpuStarted c k)) : Exits P Q (trap c hw tf k) := by
  rw [trap, if_neg (by rw [hmode]; decide)]
  exact (hR.trapDispatchKernel hin).andThen fun _ k' hk' => hR.trapReturn hk'

end Respects

/-- `P` holds in the kernel on CPU `c` and `Q` once it has left: what the changes that need
no permission must preserve. -/
structure Keeps (c : Nat) (P Q : Kernel → Prop) : Prop where
  same : ∀ {k k'}, P k → SameTable k k' → P k'
  run : ∀ {k k' e}, P k → (k.envs e).envStatus = .runnable ∨ k.curenv c = some e →
    (k.envs e).envPgdir ≠ none → Ran c e k k' → Q k'
  halt : ∀ {k}, P k → (∀ e, k.curenv c = some e → (k.envs e).envStatus ≠ .running) → Q (k.halted c)
  gone : ∀ {k k' e}, P k → k.curenv c = some e → envFree e k = some k' → P (k'.setCurenv c none)
  block : ∀ {k e} (dstva : Word), P k → k.curenv c = some e → P (k.setEnv e { k.envs e with
    envStatus := .notRunnable, envIpcDstva := dstva })
  fork : ∀ {k e} (p : Nat) (env : Env), P k → k.envFreeList = some e →
    entry env = (.notRunnable, some p, (k.envs e).envLink, (k.envs e).envIpcDstva,
      nextEnvId (k.envs e).envId e) →
    P { k.setEnv e env with envFreeList := (k.envs e).envLink }

structure Permits (cur : Nat) (P : Kernel → Prop) (k : Kernel) (call : Call) : Prop
    extends AllowsStatus cur P k call where
  send : ∀ envid value srcva perm dst, call = .ipcTrySend envid value srcva perm →
    envid2env cur envid false k = some dst → (k.envs dst).envIpcRecving = true →
    (k.envs dst).envIpcFrom = 0 → P (k.setStatus dst .runnable)

theorem Keeps.respects (hK : Keeps c P Q) : Respects c P P Q where
  same hk hsame := hK.same hk hsame.table
  leave := id
  run hk he hpgdir hran := hK.run hk (he.imp_right And.left) hpgdir hran
  resume hk hcur hpgdir hran := hK.run hk (.inr hcur) hpgdir hran
  halt := hK.halt
  gone := hK.gone
  block := by
    intro k k' e dstva hk hcur hblock
    simp only [ipcRecvBlock] at hblock
    split at hblock
    · cases hblock
    · cases hblock
      exact hK.same (hK.block _ hk hcur) (sameTable_setEnv_setEnv rfl)
  frame hk _ _ := hK.same hk (.setEnv rfl)
  handler _ _ hk := hK.same hk (.setEnv rfl)

theorem Permits.allows (hK : Keeps c P Q) (hk : P k) (hcall : Permits cur P k call) :
    Allows cur P k call where
  fork e p m _ hhead := by
    refine hK.same (hK.fork p { freshEnv (k.envs cur).envId e p (k.envs e) with
      envStatus := .notRunnable } hk hhead rfl) ?_
    refine ⟨rfl, rfl, fun _ => rfl, fun e' => ?_⟩
    by_cases heq : e' = e
    · subst heq
      simp [forked, Kernel.setEnv, entry]
    · simp [forked, Kernel.setEnv, heq]
  trapframe _ _ _ _ _ _ := hK.same hk (.setEnv rfl)
  toAllowsStatus := hcall.toAllowsStatus
  send envid value srcva perm dst p m heq hdst hrecving hfrom := by
    refine hK.same (hcall.send envid value srcva perm dst heq hdst hrecving hfrom) ?_
    have hdeliver : SameTable (k.setStatus dst .runnable) (ipcDeliver cur dst value p k) :=
      sameTable_setEnv_setEnv rfl
    exact ⟨rfl, rfl, fun _ => rfl, hdeliver.entry⟩

theorem exits_exec (hK : Keeps c P Q) (hw : Hw) (hk : P k) (hcur : k.curenv c = some cur)
    (hcall : Permits cur P k call) : Exits P Q (exec c cur hw k call).2 :=
  hK.respects.exec hw hk hcur (hcall.allows hK hk)

theorem Keeps.trap {tf : Trapframe} (hK : Keeps c P Q) (hw : Hw) (hk : P (cpuStarted c k))
    (hmode : TrapsFrom c tf k) (hcall : ∀ {k} cur call, P k → Permits cur P k call) :
    Exits P Q (Trap.trap c hw tf k) := by
  rcases hmode with ⟨⟨cur, hcur⟩, hcs⟩ | ⟨-, hcs⟩
  · exact hK.respects.trap_user hcur hcs
      (fun _ k' hfree => hK.gone hk ((cpuStarted_curenv c c k).trans hcur) hfree)
      (fun _ => hK.same hk (.setEnv rfl)) fun hin _ => (hcall cur _ hin).allows hK hin
  · exact hK.respects.trap_kernel hcs hk

end Mit6828.Kern.EnvTable
