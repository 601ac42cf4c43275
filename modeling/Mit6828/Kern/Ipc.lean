import Mit6828.Kern.EnvTable
import Mit6828.Kern.BootSpec

namespace Mit6828.Kern.Ipc

open Mmu Environment Syscall EnvSpec EnvTable Boot BootSpec Function

abbrev Message := Word × Word

/-- The kernel with the history of messages: what was sent to each environment by calls that
returned 0, what its receives have read when they resumed, and whether it is in a receive. -/
structure Traffic where
  kernel : Kernel
  sent : Nat → List Message
  got : Nat → List Message
  receiving : Nat → Bool

def stored (env : Env) : Message := (env.envIpcValue, env.envIpcFrom)

/-- The sends to `dst` after one more that returned `r`. -/
def logSend (s : Traffic) (cur : Nat) (envid value r : Word) : Nat → List Message :=
  match envid2env cur envid false s.kernel with
  | some dst => if r = 0 then update s.sent dst (s.sent dst ++
      [(value, (s.kernel.envs cur).envId)]) else s.sent
  | none => s.sent

/-- The steps of the environments: a running one blocks in `sys_ipc_recv` or calls
`sys_ipc_try_send`, and a CPU resumes one that is `ENV_RUNNABLE` or halts. -/
inductive Step (s : Traffic) : Traffic → Prop
  | recv {k' : Kernel} (c cur : Nat) (dstva : Word) (hcur : s.kernel.curenv c = some cur)
      (hrun : (s.kernel.envs cur).envStatus = .running)
      (hblock : ipcRecvBlock cur dstva s.kernel = some k') :
      Step s { s with kernel := k', receiving := update s.receiving cur true }
  | send {k' : Kernel} {r : Word} (c cur : Nat) (envid value srcva perm : Word)
      (hcur : s.kernel.curenv c = some cur) (hrun : (s.kernel.envs cur).envStatus = .running)
      (hres : sysIpcTrySend cur envid value srcva perm s.kernel = .ret r k') :
      Step s { s with kernel := k', sent := logSend s cur envid value r }
  | resume {k' : Kernel} (c e : Nat) (hready : (s.kernel.envs e).envStatus = .runnable)
      (hrun : envRun c e s.kernel = some k') :
      Step s { s with
        kernel := k'
        got := if s.receiving e then
          update s.got e (s.got e ++ [stored (k'.envs e)]) else s.got
        receiving := update s.receiving e false }
  | halt {k' : Kernel} (c : Nat) (hhalt : schedHalt c s.kernel = some k') :
      Step s { s with kernel := k' }

structure Quiet (s : Traffic) : Prop where
  recving : ∀ e, (s.kernel.envs e).envIpcRecving = false
  sent : ∀ e, s.sent e = []
  got : ∀ e, s.got e = []
  receiving : ∀ e, s.receiving e = false

def Blocked (s : Traffic) (e : Nat) : Prop := s.receiving e = true ∧ s.sent e = s.got e

/-- Where an environment stands: outside any receive, blocked in one, or with a message that
it has not read yet. -/
inductive Phase (env : Env) (sent got : List Message) : Bool → Prop
  | idle (hrecving : env.envIpcRecving = false) (hsent : sent = got) : Phase env sent got false
  | blocked (hrecving : env.envIpcRecving = true) (hstatus : env.envStatus = .notRunnable)
      (hsent : sent = got) : Phase env sent got true
  | delivered (hrecving : env.envIpcRecving = false) (hstatus : env.envStatus = .runnable)
      (hsent : sent = got ++ [stored env]) : Phase env sent got true

def Phased (s : Traffic) : Prop :=
  ∀ e, Phase (s.kernel.envs e) (s.sent e) (s.got e) (s.receiving e)

variable {s s' s0 : Traffic} {k k' : Kernel} {c cur e : Nat} {env env' : Env}
  {sent got : List Message} {b : Bool} {r dstva envid perm srcva value : Word}

theorem Phase.congr (h : Phase env sent got b) (hrecving : env'.envIpcRecving = env.envIpcRecving)
    (hstatus : env'.envStatus = env.envStatus) (hstored : stored env' = stored env) :
    Phase env' sent got b := by
  cases h with
  | idle hr hs => exact .idle (hrecving.trans hr) hs
  | blocked hr hst hs => exact .blocked (hrecving.trans hr) (hstatus.trans hst) hs
  | delivered hr hst hs =>
    exact .delivered (hrecving.trans hr) (hstatus.trans hst) (by rw [hstored]; exact hs)

theorem Phase.of_running (h : Phase env sent got b) (hrun : env.envStatus = .running) :
    b = false ∧ env.envIpcRecving = false ∧ sent = got := by
  cases h with
  | idle hr hs => exact ⟨rfl, hr, hs⟩
  | blocked _ hst _ =>
    rw [hrun] at hst
    cases hst
  | delivered _ hst _ =>
    rw [hrun] at hst
    cases hst

theorem phased_quiet (h : Quiet s) : Phased s := by
  intro e
  rw [h.sent e, h.got e, h.receiving e]
  exact .idle (h.recving e) rfl

theorem ipcRecvBlock_env (h : ipcRecvBlock cur dstva k = some k') :
    (k'.envs cur).envIpcRecving = true ∧ (k'.envs cur).envStatus = .notRunnable ∧
      ∀ e, e ≠ cur → k'.envs e = k.envs e := by
  rw [ipcRecvBlock] at h
  split at h
  · cases h
  · cases h
    refine ⟨?_, ?_, fun e he => Kernel.setEnv_envs_of_ne he⟩ <;> rw [Kernel.setEnv_envs_self]

theorem phased_recv (h : Phased s) (hrun : (s.kernel.envs cur).envStatus = .running)
    (hblock : ipcRecvBlock cur dstva s.kernel = some k') :
    Phased { s with kernel := k', receiving := update s.receiving cur true } := by
  obtain ⟨hrecving, hstatus, hother⟩ := ipcRecvBlock_env hblock
  intro e
  by_cases heq : e = cur
  · subst heq
    simp only [update_self]
    exact .blocked hrecving hstatus ((h e).of_running hrun).2.2
  · simp only [update_of_ne heq, hother e heq]
    exact h e

theorem phased_send (h : Phased s)
    (hres : sysIpcTrySend cur envid value srcva perm s.kernel = .ret r k') :
    Phased { s with kernel := k', sent := logSend s cur envid value r } := by
  obtain ⟨hr, m, rfl⟩ | ⟨rfl, dst, p, m, hdst, hrecving, -, rfl⟩ := sysIpcTrySend_table hres
  · have hlog : logSend s cur envid value r = s.sent := by
      rw [logSend]
      split
      · rw [if_neg hr]
      · rfl
    intro e
    rw [hlog]
    exact h e
  intro e
  simp only [logSend, hdst, if_true, ipcDeliver]
  by_cases heq : e = dst
  · subst heq
    have hphase := h e
    rw [update_self, Kernel.setEnv_envs_self]
    cases hb : s.receiving e with
    | false =>
      rw [hb] at hphase
      cases hphase with
      | idle hr _ =>
        rw [hr] at hrecving
        cases hrecving
    | true =>
      rw [hb] at hphase
      cases hphase with
      | blocked _ _ hsent =>
        refine .delivered rfl rfl ?_
        rw [hsent]
        rfl
      | delivered hr _ _ =>
        rw [hr] at hrecving
        cases hrecving
  · rw [update_of_ne heq, Kernel.setEnv_envs_of_ne heq]
    exact h e

theorem phased_resume (h : Phased s) (hready : (s.kernel.envs e).envStatus = .runnable)
    (hrun : envRun c e s.kernel = some k') : Phased { s with
      kernel := k'
      got := if s.receiving e then
        update s.got e (s.got e ++ [stored (k'.envs e)]) else s.got
      receiving := update s.receiving e false } := by
  have hran := envRun_ran hrun
  intro e'
  obtain ⟨runs, cpu, henv⟩ := hran.env e'
  have hphase := h e'
  by_cases heq : e' = e
  · subst heq
    simp only [update_self]
    cases hb : s.receiving e' with
    | false =>
      rw [hb] at hphase
      cases hphase with
      | idle hr hs =>
        rw [if_neg (by simp)]
        exact .idle (by rw [henv]; exact hr) hs
    | true =>
      rw [hb] at hphase
      rw [if_pos rfl, update_self]
      cases hphase with
      | blocked _ hst _ =>
        rw [hready] at hst
        cases hst
      | delivered hr _ hs =>
        refine .idle (by rw [henv]; exact hr) (hs.trans ?_)
        rw [henv]
        rfl
  · have hgot : (if s.receiving e then update s.got e (s.got e ++ [stored (k'.envs e)])
        else s.got) e' = s.got e' := by
      split
      · rw [update_of_ne heq]
      · rfl
    simp only [update_of_ne heq, hgot]
    by_cases hput : s.kernel.curenv c = some e' ∧ (s.kernel.envs e').envStatus = .running
    · -- the environment that had the CPU goes back to `ENV_RUNNABLE`; it is in no receive
      obtain ⟨hb, hr, hs⟩ := hphase.of_running hput.2
      rw [hb]
      exact .idle (by rw [henv]; exact hr) hs
    · refine hphase.congr (by rw [henv]) ?_ (by rw [henv]; rfl)
      rw [hran.status_eq, statusAfter, if_neg heq, if_neg hput]

theorem phased_step (h : Phased s) (hstep : Step s s') : Phased s' := by
  cases hstep with
  | recv c cur dstva _ hrun hblock => exact phased_recv h hrun hblock
  | send c cur envid value srcva perm _ _ hres => exact phased_send h hres
  | resume c e hready hrun => exact phased_resume h hready hrun
  | halt c hhalt =>
    rw [schedHalt_eq_some hhalt]
    exact h

/-- A call of `sys_ipc_recv` that leaves the kernel is two steps: the receive blocks the caller,
and then another environment that is `ENV_RUNNABLE` is resumed or the CPU halts. -/
theorem sysIpcRecv_steps (hcur : s.kernel.curenv c = some cur)
    (hrun : (s.kernel.envs cur).envStatus = .running)
    (hres : sysIpcRecv c cur dstva s.kernel = .left k') :
    ∃ s1 s2, Step s s1 ∧ Step s1 s2 ∧ ipcRecvBlock cur dstva s.kernel = some s1.kernel ∧
      s1.receiving = update s.receiving cur true ∧ s2.kernel = k' ∧ s2.sent = s.sent ∧
      ((∃ e, e ≠ cur ∧ (s1.kernel.envs e).envStatus = .runnable ∧ envRun c e s1.kernel = some k') ∨
        schedHalt c s1.kernel = some k') := by
  rw [sysIpcRecv] at hres
  cases hblock : ipcRecvBlock cur dstva s.kernel with
  | none =>
    rw [hblock] at hres
    cases hres
  | some k1 =>
    rw [hblock] at hres
    have hyield : schedYield c k1 = some k' := Exit.leave_eq_left.mp hres
    have hfirst := Step.recv (s := s) c cur dstva hcur hrun hblock
    obtain ⟨-, hstatus, -⟩ := ipcRecvBlock_env hblock
    obtain ⟨e, ⟨-, hready⟩ | ⟨hcur1, hbusy⟩, hrun1⟩ | ⟨-, hhalt⟩ := schedYield_cases hyield
    · refine ⟨_, _, hfirst, .resume c e hready hrun1, rfl, rfl, rfl, rfl,
        .inl ⟨e, ?_, hready, hrun1⟩⟩
      rintro rfl
      rw [hready] at hstatus
      cases hstatus
    · have hsame : k1.curenv c = s.kernel.curenv c := by
        rw [ipcRecvBlock] at hblock
        split at hblock
        · cases hblock
        · cases hblock
          rfl
      rw [hsame, hcur] at hcur1
      rw [Option.some.inj hcur1, hbusy] at hstatus
      cases hstatus
    · exact ⟨_, _, hfirst, .halt c hhalt, rfl, rfl, rfl, rfl, .inr hhalt⟩

theorem send_not_blocked {dst : Nat} (h : Phased s)
    (hdst : envid2env cur envid false s.kernel = some dst) (hfree : ¬ Blocked s dst) :
    sysIpcTrySend cur envid value srcva perm s.kernel = .ret (-eIpcNotRecv) s.kernel := by
  have hphase := h dst
  have hrecving : (s.kernel.envs dst).envIpcRecving = false := by
    cases hb : s.receiving dst with
    | false =>
      rw [hb] at hphase
      cases hphase with
      | idle hr _ => exact hr
    | true =>
      rw [hb] at hphase
      cases hphase with
      | blocked _ _ hs => exact absurd ⟨hb, hs⟩ hfree
      | delivered hr _ _ => exact hr
  rw [sysIpcTrySend, hdst]
  simp only [hrecving, true_or, if_true]

/-- The receives of every environment have read the messages that were sent to it, in order,
except for at most one message that waits in its `struct Env`; a send to an environment that
is not blocked in a receive returns `-E_IPC_NOT_RECV` and changes nothing. -/
theorem sends_match_receives (h0 : Quiet s0) (hrun : Relation.ReflTransGen Step s0 s) :
    (∀ e, s.sent e = s.got e ∨
      s.receiving e = true ∧ s.sent e = s.got e ++ [stored (s.kernel.envs e)]) ∧
    ∀ cur envid value srcva perm dst, envid2env cur envid false s.kernel = some dst →
      ¬ Blocked s dst →
        sysIpcTrySend cur envid value srcva perm s.kernel = .ret (-eIpcNotRecv) s.kernel := by
  have hphased : Phased s := by
    induction hrun with
    | refl => exact phased_quiet h0
    | tail _ hstep ih => exact phased_step ih hstep
  refine ⟨fun e => ?_, fun _ _ _ _ _ _ hdst hfree => send_not_blocked hphased hdst hfree⟩
  have hphase := hphased e
  generalize s.receiving e = b at hphase
  cases hphase with
  | idle _ hs => exact .inl hs
  | blocked _ _ hs => exact .inl hs
  | delivered _ _ hs => exact .inr ⟨rfl, hs⟩

/-- Environment 0 runs on CPU 0 and the others wait for a CPU. -/
def waiting : Traffic where
  kernel := { initKernel smallMachine 0 ⟨0, fun _ => ⟨none, 0⟩, none, fun _ _ => 0, false⟩ with
    envs := fun e => { zeroEnv with
      envId := nextEnvId 0 e, envPgdir := some e, envStatus := if e = 0 then .running
        else .runnable }
    cpus := fun c => ⟨.started, if c = 0 then some 0 else none⟩ }
  sent := fun _ => []
  got := fun _ => []
  receiving := fun _ => false

theorem sysIpcRecv_steps_waiting : ∃ s1 s2, Step waiting s1 ∧ Step s1 s2 ∧
    sysIpcRecv 0 0 utop waiting.kernel = .left s2.kernel ∧ s1.receiving 0 = true := by
  have hrun : (ipcRecvBlock 0 utop waiting.kernel >>= schedYield 0).isSome := by decide +kernel
  obtain ⟨k, hk⟩ := Option.isSome_iff_exists.mp hrun
  have hres : sysIpcRecv 0 0 utop waiting.kernel = .left k := Exit.leave_eq_left.mpr hk
  obtain ⟨s1, s2, hstep1, hstep2, -, hreceiving, hs2, -⟩ := sysIpcRecv_steps rfl rfl hres
  exact ⟨s1, s2, hstep1, hstep2, hs2 ▸ hres, by rw [hreceiving, update_self]⟩

/-- Environment 0 receives the number 42 from environment 1. -/
theorem sends_match_receives_small : ∃ s0 s, Quiet s0 ∧ Relation.ReflTransGen Step s0 s ∧
    s.got 0 = [(42, nextEnvId 0 1)] ∧
      (s.sent 0 = s.got 0 ∨ s.receiving 0 = true ∧
      s.sent 0 = s.got 0 ++ [stored (s.kernel.envs 0)]) := by
  have hquiet : Quiet waiting := ⟨fun _ => rfl, fun _ => rfl, fun _ => rfl, fun _ => rfl⟩
  have hrecv := Step.recv (s := waiting) 0 0 utop rfl rfl rfl
  have hsteps := (((Relation.ReflTransGen.single hrecv).tail (.resume 0 1 rfl rfl)).tail
    (.send 0 1 (nextEnvId 0 0) 42 utop 0 rfl rfl rfl)).tail (.resume 0 0 rfl rfl)
  exact ⟨waiting, _, hquiet, hsteps, rfl, (sends_match_receives hquiet hsteps).1 0⟩

end Mit6828.Kern.Ipc
