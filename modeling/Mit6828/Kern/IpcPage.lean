import Mit6828.Kern.EnvTable
import Mit6828.Kern.UserMap

namespace Mit6828.Kern.IpcPage

open Mmu Pmap AddressSpace Environment Syscall Trap Separation PageTableSpec RefInvariant
open KernelInvariant PageCallSpec EnvSpec EnvTable Boot BootSpec Execution UserMap

/-- A step of the machine, or a system call, by anyone but environment `B`. -/
def Elsewhere (B : Nat) (k k' : Kernel) : Prop :=
  (∃ cpu, StepOf (fun c _ => k.curenv c ≠ some B) (· ≠ B) k cpu k') ∨ IssueOf (· ≠ B) k k'

/-- Environment `B` blocks in `sys_ipc_recv(d)`, others work on, and `A` sends a message to it
with success; no reference count wraps on the way. -/
structure Transfer (h : Machine) (A B : Nat) (d srcva perm : Word) (k0 k2 k3 : Kernel) :
    Prop where
  reach : Reachable h NoWrap k0
  receiver : Live k0 B
  recv : ∃ c k1, sysIpcRecv c B d (k0.setCurenv c (some B)) = .left k1 ∧
    Relation.ReflTransGen (fun k k' => Elsewhere B k k' ∧ k'.mem.wrapped = false) k1 k2
  sender : Live k2 A
  send : ∃ envid value, envid2env A envid false k2 = some B ∧
    sysIpcTrySend A envid value srcva perm k2 = .ret 0 k3

/-- The law of the transfer: the sender's page appears at `d` with `perm` if both sides ask
for one, and otherwise nothing does. -/
def PageLaw (A B : Nat) (d srcva perm : Word) (k k' : Kernel) : Prop :=
  if srcva < utop ∧ d < utop then
    (k'.envs B).envIpcPerm = perm ∧ ∃ p, frameOf (pteOf k A (pdx srcva) (ptx srcva)) = some p ∧
      ∀ i < pdxUtop, ∀ j < nptentries, pteOf k' B i j =
        if i = pdx d ∧ j = ptx d then page2pa p ||| perm ||| pteP else pteOf k B i j
  else
    (k'.envs B).envIpcPerm = 0 ∧
      ∀ i < pdxUtop, ∀ j < nptentries, pteOf k' B i j = pteOf k B i j

variable {h : Machine} {A B c e : Nat} {d srcva perm x envid : Word} {k k' k0 k2 k3 : Kernel}

theorem Elsewhere.event (hstep : Elsewhere B k k') : Event k k' := by
  rcases hstep with ⟨cpu, hstep⟩ | ⟨c, e, hw, call, he, -, hres⟩
  · refine .inl ⟨cpu, ?_⟩
    cases hstep with
    | trap c hw tf hc hmode _ htrap => exact .trap c hw tf hc hmode trivial htrap
    | start c hc hcpu hyield => exact .start c hc hcpu hyield
    | store c e d va b hc _ hd hmay hstore => exact .store c e d va b hc trivial hd hmay hstore
    | device hnic => exact .device hnic
  · exact .inr ⟨c, e, hw, call, he, trivial, hres⟩

/-- The address of `B` is `x`, and CPU `c` is at work for another environment. -/
def KeptBy (B c : Nat) (x : Word) (k : Kernel) : Prop :=
  (k.envs B).envIpcDstva = x ∧ k.curenv c ≠ some B

theorem setStatus_dstva (k : Kernel) (e B : Nat) (st : EnvStatus) :
    ((k.setStatus e st).envs B).envIpcDstva = (k.envs B).envIpcDstva :=
  update_field _ (by rfl) B

theorem envFree_dstva (hfree : envFree e k = some k') :
    (k'.envs B).envIpcDstva = (k.envs B).envIpcDstva ∧ k'.cpus = k.cpus := by
  obtain ⟨d, m, -, rfl⟩ := envFree_eq_some hfree
  exact ⟨update_field _ (by rfl) B, rfl⟩

theorem keeps_dstva (B c : Nat) (x : Word) :
    Keeps c (KeptBy B c x) fun k => (k.envs B).envIpcDstva = x where
  same hk hsame := ⟨(hsame.dstva B).trans hk.1, by rw [hsame.curenv]; exact hk.2⟩
  run hk _ _ hran := (hran.field Env.envIpcDstva (fun _ _ _ _ => rfl) B).trans hk.1
  halt hk _ := hk.1
  gone hk _ hfree := by
    refine ⟨(envFree_dstva hfree).1.trans hk.1, ?_⟩
    rw [Kernel.setCurenv_curenv_self]
    simp
  block dstva hk hcur := by
    have hne : B ≠ _ := fun heq => hk.2 (heq ▸ hcur)
    refine ⟨?_, hk.2⟩
    rw [Kernel.setEnv_envs_of_ne hne]
    exact hk.1
  fork {k e} p env hk hhead henv := by
    have hsame : env.envIpcDstva = (k.envs e).envIpcDstva := congrArg (fun x => x.2.2.2.1) henv
    exact ⟨(update_field _ hsame B).trans hk.1, hk.2⟩

theorem permits_dstva {cur : Nat} (hk : KeptBy B c x k) (call : Call) :
    Permits cur (KeptBy B c x) k call := by
  have hset : ∀ e st, KeptBy B c x (k.setStatus e st) := fun e st =>
    ⟨(setStatus_dstva k e B st).trans hk.1, hk.2⟩
  refine ⟨⟨fun _ _ e st _ _ _ => hset e st, fun _ e _ _ _ _ => hset e _,
    fun _ e k' _ _ _ _ hfree => ?_⟩, fun _ _ _ _ dst _ _ _ _ => hset dst _⟩
  obtain ⟨hdstva, hcpus⟩ := envFree_dstva (B := B) hfree
  refine ⟨hdstva.trans hk.1, ?_⟩
  rw [Kernel.curenv, hcpus]
  exact hk.2

theorem elsewhere_dstva (hstep : Elsewhere B k k') :
    (k'.envs B).envIpcDstva = (k.envs B).envIpcDstva := by
  rcases hstep with ⟨cpu, hstep⟩ | ⟨c, e, hw, call, he, hne, hres⟩
  · cases hstep with
    | trap c hw tf hc hmode hne htrap =>
      have hstarted : KeptBy B c (k.envs B).envIpcDstva (cpuStarted c k) :=
        ⟨rfl, by rw [cpuStarted_curenv]; exact hne⟩
      have hexits := (keeps_dstva B c _).trap hw hstarted hmode fun _ call hk =>
        permits_dstva hk call
      rw [htrap] at hexits
      exact hexits
    | start c hc hcpu hyield =>
      have hin : KeptBy B c (k.envs B).envIpcDstva k := by
        refine ⟨rfl, ?_⟩
        rw [Kernel.curenv, hcpu]
        simp
      exact (keeps_dstva B c _).respects.schedYield hin hyield
    | store => rfl
    | device => rfl
  · have hin : KeptBy B c (k.envs B).envIpcDstva (k.setCurenv c (some e)) := by
      refine ⟨rfl, ?_⟩
      rw [Kernel.setCurenv_curenv_self]
      exact fun heq => hne (Option.some.inj heq)
    have hexits := exits_exec (keeps_dstva B c _) hw hin Kernel.setCurenv_curenv_self
      (permits_dstva hin call)
    rcases hres with ⟨r, hres⟩ | hres
    · rw [hres] at hexits
      exact hexits.1
    · rw [hres] at hexits
      exact hexits

theorem sysIpcRecv_dstva (hres : sysIpcRecv c B d (k.setCurenv c (some B)) = .left k') :
    (k'.envs B).envIpcDstva = if d < utop then d else (k.envs B).envIpcDstva := by
  rw [sysIpcRecv, ipcRecvBlock] at hres
  split at hres
  · cases hres
  rename_i k1 hblock
  split at hblock
  · cases hblock
  cases hblock
  have hdst : ∀ k2, schedYield c k2 = some k' →
      (k'.envs B).envIpcDstva = (k2.envs B).envIpcDstva := fun k2 hyield => by
    obtain ⟨e, -, hrun⟩ | ⟨-, hhalt⟩ := schedYield_cases hyield
    · exact (envRun_ran hrun).field Env.envIpcDstva (fun _ _ _ _ => rfl) B
    · rw [schedHalt_eq_some hhalt]
  rw [hdst _ (Exit.leave_eq_left.mp hres), Kernel.setEnv_envs_self]
  rfl

theorem transfer_dstva (ht : Transfer h A B d srcva perm k0 k2 k3) :
    (k2.envs B).envIpcDstva = if d < utop then d else (k0.envs B).envIpcDstva := by
  obtain ⟨c, k1, hrecv, hwait⟩ := ht.recv
  rw [← sysIpcRecv_dstva hrecv]
  clear ht
  induction hwait with
  | refl => rfl
  | tail _ hstep ih => exact (elsewhere_dstva hstep.1).trans ih

theorem transfer_reachable (ht : Transfer h A B d srcva perm k0 k2 k3) : Reachable h NoWrap k2 := by
  obtain ⟨c, k1, hrecv, hwait⟩ := ht.recv
  have hk1 : Reachable h NoWrap k1 := by
    obtain ⟨K, free, hinv, -, hw⟩ := reachable_inv ht.reach
    refine ht.reach.step ⟨.inr ⟨c, B, ⟨0, 0⟩, .ipcRecv d, ht.receiver, trivial, .inr hrecv⟩, ?_⟩
    rw [sysIpcRecv] at hrecv
    split at hrecv
    · cases hrecv
    · rename_i k' hblock
      rw [schedYield_mem (Exit.leave_eq_left.mp hrecv), (TrapSpec.harmless_ipcRecvBlock hblock).mem]
      exact hw
  clear ht
  induction hwait with
  | refl => exact hk1
  | tail _ hstep ih => exact ih.step ⟨hstep.1.event, hstep.2⟩

theorem perm_of_send {value : Word} (hsrcva : srcva < utop)
    (hsend : sysIpcTrySend A envid value srcva perm k = .ret 0 k') : ¬ badPerm perm := by
  simp only [sysIpcTrySend, if_pos hsrcva] at hsend
  repeat' split at hsend
  all_goals first
    | assumption
    | cases hsend

/-- The law holds exactly if no page is sent, or one is asked for at an address other than 0,
or none is asked for and no earlier receive in this slot has left an address behind. -/
theorem ipc_page_law_iff (ht : Transfer h A B d srcva perm k0 k2 k3) :
    PageLaw A B d srcva perm k2 k3 ↔
      utop ≤ srcva ∨ d < utop ∧ d ≠ 0 ∨ utop ≤ d ∧ (k0.envs B).envIpcDstva = 0 := by
  obtain ⟨K, free, hinv, -, -⟩ := reachable_inv (transfer_reachable ht)
  have hdstva := transfer_dstva ht
  obtain ⟨envid, value, htarget, hsend⟩ := ht.send
  obtain ⟨hneg, -⟩ | ⟨dst, -, hB, hfound, -, -, hcase⟩ := sysIpcTrySend_maps hinv ht.sender.1 hsend
  · exact absurd hneg (by decide)
  obtain rfl := Option.mem_unique htarget hfound
  have hperm0 : srcva < utop → perm ≠ 0 := by
    rintro hlt rfl
    exact perm_of_send hlt hsend (by decide)
  have hle : ∀ v : Word, utop ≤ v ↔ ¬ v < utop := fun v => BitVec.not_lt.symm
  rcases hcase with ⟨hno, hsame, rfl⟩ | ⟨p, m, hsrcva, -, hne, -, hp, -, hmap, rfl⟩
  · have hipc : ((ipcDeliver A B value 0 k2).envs B).envIpcPerm = 0 := by
      rw [ipcDeliver, Kernel.setEnv_envs_self]
    by_cases hboth : srcva < utop ∧ d < utop
    · refine iff_of_false (fun hlaw => ?_) ?_
      · rw [PageLaw, if_pos hboth, hipc] at hlaw
        exact hperm0 hboth.1 hlaw.1.symm
      · have hzero : d = 0 := by
          rw [if_pos hboth.2] at hdstva
          exact hdstva.symm.trans (hno.resolve_left fun hge => (hle _).mp hge hboth.1)
        rintro (hge | ⟨-, hd⟩ | ⟨hge, -⟩)
        · exact (hle _).mp hge hboth.1
        · exact hd hzero
        · exact (hle _).mp hge hboth.2
    · refine iff_of_true ?_ ?_
      · rw [PageLaw, if_neg hboth]
        exact ⟨hipc, hsame B hB⟩
      · by_cases hsrcva : srcva < utop
        · have hge : ¬ d < utop := fun hd => hboth ⟨hsrcva, hd⟩
          rw [if_neg hge] at hdstva
          exact .inr (.inr ⟨(hle _).mpr hge,
            hdstva.symm.trans (hno.resolve_left fun hge => (hle _).mp hge hsrcva)⟩)
        · exact .inl ((hle _).mpr hsrcva)
  · have hipc : ((ipcDeliver A B value perm { k2 with mem := m }).envs B).envIpcPerm = perm := by
      rw [ipcDeliver, Kernel.setEnv_envs_self]
    by_cases hd : d < utop
    · rw [if_pos hd] at hdstva
      rw [hdstva] at hmap hne
      refine iff_of_true ?_ (.inr (.inl ⟨hd, hne⟩))
      rw [PageLaw, if_pos ⟨hsrcva, hd⟩]
      refine ⟨hipc, p, hp, fun i hi j hj => ?_⟩
      rw [hmap B hB i hi j hj]
      simp
    · rw [if_neg hd] at hdstva
      refine iff_of_false (fun hlaw => ?_) ?_
      · rw [PageLaw, if_neg fun hboth => hd hboth.2, hipc] at hlaw
        exact hperm0 hsrcva hlaw.1
      · rintro (hge | ⟨hlt, -⟩ | ⟨-, hzero⟩)
        · exact (hle _).mp hge hsrcva
        · exact hd hlt
        · exact hne (hdstva.trans hzero)

theorem sysIpcTrySend_drops {K : KernelMap} {free : List Nat} {p : Nat} (value : Word)
    (hinv : Inv K k free) (hA : A < nenv) (he : (k.envs A).envPgdir = some e)
    (htarget : envid2env A envid false k = some B) (hrecving : (k.envs B).envIpcRecving = true)
    (hfrom : (k.envs B).envIpcFrom = 0) (hdstva : (k.envs B).envIpcDstva = 0)
    (hsrcva : srcva < utop) (hoff : pgoff srcva = 0) (hperm : ¬ badPerm perm)
    (hW : perm &&& pteW = 0) (hp : frameOf (pteOf k A (pdx srcva) (ptx srcva)) = some p) :
    sysIpcTrySend A envid value srcva perm k = .ret 0 (ipcDeliver A B value 0 k) := by
  have href : (world k free).ref (pteSlot A srcva) = some p := by
    rw [ref_eq, ← pteOf_eq_view free hinv.env hA]
    exact hp
  obtain ⟨t, hlookup⟩ : ∃ t, pageLookup e srcva k.mem = some (some (p, t, ptx srcva)) := by
    obtain ⟨hnone, -⟩ | ⟨q, t, hq, -, hlookup⟩ := pageLookup_spec hinv.mem.counted.separated
      (walkable_of_env free hinv.env hA he hsrcva)
    · rw [href] at hnone
      cases hnone
    · obtain rfl := Option.mem_unique href hq
      exact ⟨t, hlookup⟩
  rw [sysIpcTrySend, htarget]
  simp [hrecving, hfrom, hdstva, hsrcva, hoff, hperm, he, hlookup, hW]

theorem small_transfer (hd : d = 0 ∨ utop ≤ d) : ∃ k0 k2 k3,
    Transfer smallMachine 0 1 d 4096 5 k0 k2 k3 ∧ (k0.envs 1).envIpcDstva = 0 ∧
      (k3.envs 1).envIpcPerm = 0 := by
  obtain ⟨K, k, free, hk⟩ := smallMachine_runs
  obtain ⟨pd2, hpd2⟩ := (hk.made 2 (by decide)).pgdir
  obtain ⟨pd, p, k0, free0, hpd, hstep, hinv, halike, ⟨hfree, hp⟩, hmap, -⟩ :=
    FirstRunning.pageAlloc hk (show ¬ badVa 4096 by decide) (show ¬ badPerm 5 by decide)
  have hpage : frameOf (pteOf k0 0 (pdx 4096) (ptx 4096)) = some p := by
    rw [hmap.self (by decide) (by decide)]
    exact frameOf_entry hp (by decide)
  have hreach : Reachable smallMachine NoWrap k0 :=
    (hk.reach.step hstep).mono fun _ _ hs => hs.noWrap
  obtain ⟨tf, runs, cpu, henv⟩ := halike.env 1
  have hmade := hk.made 1 (by decide)
  have hid : (k0.envs 1).envId = nextEnvId 0 1 := by
    rw [henv]
    exact hmade.id
  have hdst : (k0.envs 1).envIpcDstva = 0 := by
    rw [henv]
    exact hmade.dstva
  let kc := k0.setCurenv 1 (some 1)
  let kb := kc.setEnv 1 { kc.envs 1 with
    envIpcDstva := if d < utop then d else (kc.envs 1).envIpcDstva
    envIpcRecving := true, envStatus := .notRunnable, envIpcFrom := 0 }
  have hblock : ipcRecvBlock 1 d kc = some kb := by
    rw [ipcRecvBlock, if_neg]
    rintro ⟨hlt, hoff⟩
    rcases hd with rfl | hge
    · exact hoff (by decide)
    · exact BitVec.not_lt.mpr hge hlt
  obtain ⟨k1, hyield, hran⟩ := schedYield_next (show kb.curenv 1 = some 1 from
    Kernel.setCurenv_curenv_self) (by rw [show (kb.envs 1).envId = _ from hid]; decide) (by decide)
    ((halike.status_eq 2).trans (hk.ready 2 (by decide) (by decide)))
    ((halike.harmless.pgdir 2).trans hpd2)
  have hrecv : sysIpcRecv 1 1 d kc = .left k1 := by
    rw [sysIpcRecv, hblock]
    exact Exit.leave_eq_left.mpr hyield
  have hmem : k1.mem = k0.mem := show k1.mem = kb.mem from schedYield_mem hyield
  have hlive : Live k0 1 := ⟨by decide,
    ((halike.status_eq 1).trans (hk.ready 1 (by decide) (by decide))).trans_ne (by decide)⟩
  obtain ⟨K', free', hinv', -, -⟩ := reachable_inv (hreach.step ⟨.inr ⟨1, 1, ⟨0, 0⟩, .ipcRecv d,
    hlive, trivial, .inr hrecv⟩, by rw [hmem]; exact hstep.2⟩)
  have hpgdir := hran.field Env.envPgdir fun _ _ _ _ => rfl
  have hstatus0 : (k1.envs 0).envStatus = .running := by
    rw [hran.status_eq, statusAfter, if_neg (by decide), if_neg]
    · exact (halike.status_eq 0).trans hk.running
    · rintro ⟨hcur, -⟩
      rw [show kb.curenv 1 = some 1 from Kernel.setCurenv_curenv_self] at hcur
      cases hcur
  have hpte : pteOf k1 0 (pdx 4096) (ptx 4096) = pteOf k0 0 (pdx 4096) (ptx 4096) := by
    simp only [pteOf, pdeOf, hpgdir 0, hmem]
    rfl
  have htarget : envid2env 0 (nextEnvId 0 1) false k1 = some 1 := by
    refine envid2env_live (by decide) (by decide) ?_
      ((hran.field Env.envId (fun _ _ _ _ => rfl) 1).trans hid)
    rw [hran.status_eq, statusAfter, if_neg (by decide)]
    simp [kb]
  have hsend := sysIpcTrySend_drops 42 hinv' (by decide)
    ((hpgdir 0).trans ((halike.harmless.pgdir 0).trans hpd)) htarget
    (hran.field Env.envIpcRecving (fun _ _ _ _ => rfl) 1)
    (hran.field Env.envIpcFrom (fun _ _ _ _ => rfl) 1) (by
      rw [hran.field Env.envIpcDstva fun _ _ _ _ => rfl]
      change (if d < utop then d else (k0.envs 1).envIpcDstva) = 0
      split
      · rename_i hlt
        exact hd.resolve_right fun hge => BitVec.not_lt.mpr hge hlt
      · exact hdst)
    (show (4096 : Word) < utop by decide) (by decide) (show ¬ badPerm 5 by decide) (by decide)
    (hpte ▸ hpage)
  exact ⟨k0, k1, _, ⟨hreach, hlive, ⟨1, k1, hrecv, .refl⟩, ⟨by decide, by rw [hstatus0]; decide⟩,
    nextEnvId 0 1, 42, htarget, hsend⟩, hdst, by rw [ipcDeliver, Kernel.setEnv_envs_self]⟩

theorem ipc_page_law_small : ∃ k0 k2 k3, Transfer smallMachine 0 1 utop 4096 5 k0 k2 k3 ∧
    PageLaw 0 1 utop 4096 5 k2 k3 := by
  have hutop : utop ≤ utop := BitVec.le_refl utop
  obtain ⟨k0, k2, k3, ht, hstale, -⟩ := small_transfer (.inr hutop)
  exact ⟨k0, k2, k3, ht, (ipc_page_law_iff ht).mpr (.inr (.inr ⟨hutop, hstale⟩))⟩

/-- A page sent to an environment that waits for one at address 0 does not arrive. -/
theorem page_at_zero_is_lost : ∃ k0 k2 k3, Transfer smallMachine 0 1 0 4096 5 k0 k2 k3 ∧
    ¬ PageLaw 0 1 0 4096 5 k2 k3 := by
  obtain ⟨k0, k2, k3, ht, -, hperm⟩ := small_transfer (d := 0) (.inl rfl)
  refine ⟨k0, k2, k3, ht, fun hlaw => ?_⟩
  rw [PageLaw, if_pos (by decide), hperm] at hlaw
  exact absurd hlaw.1 (by decide)

end Mit6828.Kern.IpcPage
