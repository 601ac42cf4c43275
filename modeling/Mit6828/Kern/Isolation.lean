import Mit6828.Kern.UserMap

namespace Mit6828.Kern.Isolation

open Mmu Pmap Environment Syscall RefInvariant KernelInvariant PageCallSpec
open EnvSpec TrapSpec UserMap Boot BootSpec Execution Function

def Manages : Call → Prop
  | .exofork => True
  | .envDestroy _ => True
  | .envSetStatus _ _ => True
  | .envSetTrapframe _ _ => True
  | .envSetPgfaultUpcall _ _ => True
  | .pageAlloc _ _ _ => True
  | .pageMap _ _ _ _ _ => True
  | .pageUnmap _ _ => True
  | .ipcTrySend _ _ _ _ => True
  | _ => False

def SameMap (k k' : Kernel) (e : Nat) : Prop :=
  ∀ i < pdxUtop, ∀ j < nptentries, pteOf k' e i j = pteOf k e i j

/-- Address space, trap frame, page fault upcall and type of environment `e` are the same, and
its status is what `status` says. -/
structure Spared (status : EnvStatus) (k k' : Kernel) (e : Nat) : Prop where
  map : SameMap k k' e
  tf : (k'.envs e).envTf = (k.envs e).envTf
  upcall : (k'.envs e).envPgfaultUpcall = (k.envs e).envPgfaultUpcall
  type : (k'.envs e).envType = (k.envs e).envType
  status : (k'.envs e).envStatus = status

def Unaffected (k k' : Kernel) (e : Nat) : Prop := Spared (k.envs e).envStatus k k' e

/-- A message has been delivered to environment `e`: it has its `ipc` fields set, returns 0
from its system call, and at most the entry for `env_ipc_dstva` has changed. -/
structure Received (k k' : Kernel) (e : Nat) : Prop where
  env : ∃ sender value perm, k'.envs e = { k.envs e with
    envIpcRecving := false
    envIpcFrom := sender
    envIpcValue := value
    envIpcPerm := perm
    envStatus := .runnable
    envTf := { (k.envs e).envTf with regEax := 0 } }
  map : ∀ i < pdxUtop, ∀ j < nptentries,
    ¬ (i = pdx (k.envs e).envIpcDstva ∧ j = ptx (k.envs e).envIpcDstva) →
      pteOf k' e i j = pteOf k e i j

variable {h : Machine} {K : KernelMap} {k k' k1 : Kernel} {free : List Nat} {c A B e : Nat}
  {hw : Hw} {r envid va w : Word} {call : Call}

theorem envid2env_own (hfound : envid2env A envid true k = some e) :
    e = A ∨ (k.envs e).envParentId = (k.envs A).envId := by
  rcases envid2env_cases hfound with ⟨-, hself⟩ | ⟨-, -, -, -, hown⟩
  · exact .inl hself
  · exact hown rfl

theorem ne_of_envid2env (hfound : envid2env A envid true k = some e) (hne : B ≠ A)
    (hparent : (k.envs B).envParentId ≠ (k.envs A).envId) : B ≠ e := by
  rintro rfl
  exact (envid2env_own hfound).elim hne hparent

theorem unaffected_of_env (hmap : SameMap k k' B) (henv : k'.envs B = k.envs B) :
    Unaffected k k' B :=
  ⟨hmap, by rw [henv], by rw [henv], by rw [henv], by rw [henv]⟩

theorem sameMap_of_remapped (hmap : Remapped e va w k k') (hB : B < nenv) (hne : B ≠ e) :
    SameMap k k' B := by
  intro i hi j hj
  rw [hmap B hB i hi j hj, if_neg fun hslot => hne hslot.1]

theorem unaffected_of_freed {free' : List Nat} (hinv : Inv K k free)
    (hfreed : EnvFreed K k free e k' free') (hB : B < nenv) (hne : B ≠ e) : Unaffected k k' B := by
  refine unaffected_of_env (fun i hi j hj => ?_) ?_
  · rw [pteOf_eq_view free' hfreed.inv.env hB, pteOf_eq_view free hinv.env hB]
    exact hfreed.others (.pte B i j) (pte_viewed.mpr ⟨.inl ⟨hB, hi⟩, hj⟩) hne
  · rw [hfreed.state]
    exact update_of_ne hne ..

theorem schedYield_spares (hinv : Inv K k free) (hcur : k.curenv c = none) (hB : B < nenv)
    (hyield : schedYield c k = some k') :
    Unaffected k k' B ∨ k'.curenv c = some B ∧ (k.envs B).envStatus = .runnable ∧
      Spared .running k k' B := by
  have hmap : SameMap k k' B := sameMaps_of_harmless hinv.env
    (harmless_schedYield (hinv.env.curenv_lt c) hyield) B hB
  obtain ⟨e, ⟨-, hrunnable⟩ | ⟨he, -⟩, hrun⟩ | ⟨-, hhalt⟩ := schedYield_cases hyield
  · have hran := envRun_ran hrun
    obtain ⟨runs, cpu, henv⟩ := hran.env B
    by_cases heq : B = e
    · refine .inr ⟨heq ▸ hran.curenv, heq ▸ hrunnable, hmap, ?_, ?_, ?_, ?_⟩
      all_goals rw [henv]
      rw [statusAfter, if_pos heq]
    · refine .inl ⟨hmap, ?_, ?_, ?_, ?_⟩
      all_goals rw [henv]
      rw [statusAfter, if_neg heq, if_neg (by simp [hcur])]
  · exact absurd (hcur.symm.trans he) (by simp)
  · exact .inl (unaffected_of_env hmap (by rw [schedHalt_eq_some hhalt]))

theorem Spared.trans {status1 status : EnvStatus} (h : Spared status1 k k1 B)
    (h' : Spared status k1 k' B) : Spared status k k' B where
  map i hi j hj := (h'.map i hi j hj).trans (h.map i hi j hj)
  tf := h'.tf.trans h.tf
  upcall := h'.upcall.trans h.upcall
  type := h'.type.trans h.type
  status := h'.status

section

variable (hinv : Inv K k free)
include hinv

theorem envDestroy_spares (hwrap : k.mem.wrapped = false) (he : e < nenv)
    (hB : B < nenv) (hne : B ≠ e) :
    Ends (fun k' => Unaffected k k' B ∨ k.curenv c = some e ∧ k'.curenv c = some B ∧
      (k.envs B).envStatus = .runnable ∧ Spared .running k k' B) (envDestroy c e k) := by
  obtain ⟨-, -, hres⟩ | hres | ⟨k1, hfree, hret⟩ := envDestroy_cases c e k
  · rw [hres]
    refine .inl (unaffected_of_env ?_ (Kernel.setEnv_envs_of_ne hne))
    exact sameMaps_of_harmless hinv.env (harmless_setStatus k e _) B hB
  · rw [hres]
    trivial
  obtain ⟨d, m, hd, -⟩ := envFree_eq_some hfree
  obtain ⟨k2, free', hfreed⟩ := envFree_spec hinv hwrap he hd
  obtain rfl := Option.mem_unique hfreed.result hfree
  have hspared := unaffected_of_freed hinv hfreed hB hne
  obtain ⟨-, -, hres⟩ | ⟨hcur, hres⟩ := hret
  · rw [hres]
    exact .inl hspared
  rw [hres]
  have hharm := harmless_setCurenv k2 c none (by simp)
  have hspared' : Unaffected k (k2.setCurenv c none) B :=
    { hspared with }
  refine Ends.leave fun k' hyield => ?_
  obtain hsame | ⟨hnext, hrunnable, hrun⟩ := schedYield_spares (hfreed.inv.harmless hharm)
    Kernel.setCurenv_curenv_self hB hyield
  · rw [Unaffected, hspared'.status] at hsame
    exact .inl (hspared'.trans hsame)
  · rw [hspared'.status] at hrunnable
    exact .inr ⟨hcur, hnext, hrunnable, hspared'.trans hrun⟩

theorem unaffected_of_allocated {p : Nat} {l : List Nat}
    (halloc : EnvAllocated K (k.envs A).envId k free e p l k1) (hB : B < nenv) (hne : B ≠ e) :
    Unaffected k (forked A e k1) B := by
  refine unaffected_of_env (sameMaps_of_allocated hinv halloc B hB) ?_
  rw [forked, Kernel.setEnv_envs_of_ne hne, halloc.envs, update_of_ne hne]

theorem unaffected_setEnv {env : Env} (hharm : Harmless k (k.setEnv e env))
    (hB : B < nenv) (hne : B ≠ e) : Unaffected k (k.setEnv e env) B :=
  unaffected_of_env (sameMaps_of_harmless hinv.env hharm B hB) (Kernel.setEnv_envs_of_ne hne)

theorem sysEnvSetTrapframe_spares {tf : Word} (hB : B < nenv)
    (hown : ∀ e, envid2env A envid true k = some e → B ≠ e) :
    Ends (Unaffected k · B) (sysEnvSetTrapframe A envid tf k).2 := by
  have hsame : Unaffected k k B := unaffected_of_env (fun _ _ _ _ => rfl) rfl
  rw [sysEnvSetTrapframe]
  split
  · exact hsame
  rename_i e he
  split
  · split
    · trivial
    · exact hsame
    · dsimp only
      split
      · trivial
      · exact unaffected_setEnv hinv (harmless_setEnv rfl rfl (.inl rfl)) hB (hown e he)
  · trivial

theorem sysIpcTrySend_spares {value srcva perm : Word} (hA : A < nenv)
    (hB : B < nenv) (hres : sysIpcTrySend A envid value srcva perm k = .ret r k') :
    Unaffected k k' B ∨ r = 0 ∧ envid2env A envid false k = some B ∧ Received k k' B := by
  obtain ⟨-, rfl⟩ | ⟨dst, rfl, -, hfound, -, -, hmsg⟩ := sysIpcTrySend_maps hinv hA hres
  · exact .inl (unaffected_of_env (fun _ _ _ _ => rfl) rfl)
  have henv : ∃ m rp, k' = ipcDeliver A dst value rp { k with mem := m } := by
    obtain ⟨-, -, rfl⟩ | ⟨p, m, -, -, -, -, -, -, -, rfl⟩ := hmsg
    · exact ⟨k.mem, 0, rfl⟩
    · exact ⟨m, perm, rfl⟩
  have hmap : ∀ i < pdxUtop, ∀ j < nptentries, ¬ (B = dst ∧
      i = pdx (k.envs dst).envIpcDstva ∧ j = ptx (k.envs dst).envIpcDstva) →
        pteOf k' B i j = pteOf k B i j := by
    intro i hi j hj hslot
    obtain ⟨-, hsame, -⟩ | ⟨p, m, -, -, -, -, -, -, hremap, -⟩ := hmsg
    · exact hsame B hB i hi j hj
    · rw [hremap B hB i hi j hj, if_neg hslot]
  obtain ⟨m, rp, rfl⟩ := henv
  by_cases heq : B = dst
  · subst heq
    refine .inr ⟨rfl, hfound, ⟨_, _, _, Kernel.setEnv_envs_self⟩, fun i hi j hj hslot => ?_⟩
    exact hmap i hi j hj fun hslot' => hslot hslot'.2
  · refine .inl (unaffected_of_env (fun i hi j hj => hmap i hi j hj fun hslot => heq hslot.1) ?_)
    exact Kernel.setEnv_envs_of_ne heq

end

/-- A system call does nothing to an environment that is neither the caller nor its child;
except that a message may be delivered to it, and that it may be the one to run next once the
caller has destroyed itself. -/
theorem call_spares_others (hk : Reachable h NoWrap k) (hcur : k.curenv c = some A)
    (hcall : Manages call)
    (hres : (exec c A hw k call).2 = .ret r k' ∨ (exec c A hw k call).2 = .left k')
    (hlive : Live k B) (hpgdir : (k.envs B).envPgdir ≠ none) (hne : B ≠ A)
    (hparent : (k.envs B).envParentId ≠ (k.envs A).envId) :
    Unaffected k k' B ∨
    (∃ envid value srcva perm, call = .ipcTrySend envid value srcva perm ∧
      (exec c A hw k call).2 = .ret 0 k' ∧ envid2env A envid false k = some B ∧
      Received k k' B) ∨
    ∃ envid, call = .envDestroy envid ∧ envid2env A envid true k = some A ∧
      k'.curenv c = some B ∧ (k.envs B).envStatus = .runnable ∧ Spared .running k k' B := by
  obtain ⟨K, free, hinv, -, hwrap⟩ := reachable_inv hk
  have hA := hinv.env.curenv_lt c A hcur
  have hB := hlive.1
  have hsame : Unaffected k k B := unaffected_of_env (fun _ _ _ _ => rfl) rfl
  have hown : ∀ envid e, envid2env A envid true k = some e → B ≠ e := fun _ _ hfound =>
    ne_of_envid2env hfound hne hparent
  apply Ends.of_eq _ hres
  clear hres
  cases call with
  | exofork =>
    obtain ⟨r', -, -, hres⟩ | ⟨e, p, l, k1, halloc, hres⟩ := sysExofork_cases A hinv
    all_goals rw [show (exec c A hw k .exofork).2 = _ from hres]
    · exact .inl hsame
    · exact .inl (unaffected_of_allocated hinv halloc hB fun heq => hpgdir (heq ▸ halloc.unused))
  | envDestroy envid =>
    simp only [exec, sysEnvDestroy]
    split
    · exact .inl hsame
    rename_i e hfound
    have hends := envDestroy_spares (c := c) hinv hwrap (envid2env_lt hA hfound) hB
      (hown envid e hfound)
    refine (hends.mono fun k' hk' => ?_).andThen fun (_ : Unit) k1 _ hk1 => hk1
    obtain hk' | ⟨hself, hnext, hrunnable, hspared⟩ := hk'
    · exact .inl hk'
    refine .inr (.inr ⟨envid, rfl, ?_, hnext, hrunnable, hspared⟩)
    rw [hfound, ← hself, hcur]
  | envSetStatus envid status =>
    simp only [exec, sysEnvSetStatus]
    split
    · exact .inl hsame
    · rename_i e hfound
      split
      · exact .inl hsame
      · exact .inl (unaffected_setEnv hinv (harmless_setStatus k e _) hB (hown _ e hfound))
  | envSetTrapframe envid tf =>
    simp only [exec]
    exact (sysEnvSetTrapframe_spares hinv hB (hown envid)).mono fun _ hk' => .inl hk'
  | envSetPgfaultUpcall envid func =>
    simp only [exec, sysEnvSetPgfaultUpcall]
    split
    · exact .inl hsame
    · rename_i e hfound
      exact .inl (unaffected_setEnv hinv (harmless_setEnv rfl rfl (.inl rfl)) hB (hown _ e hfound))
  | pageAlloc envid va perm =>
    refine returns_sysPageAlloc.ends fun r k' hres => .inl ?_
    obtain ⟨-, hmaps, hk'⟩ | ⟨e, p, -, -, -, -, hfound, -, hmap, hk'⟩ :=
      sysPageAlloc_maps hinv hA hres
    · exact unaffected_of_env (hmaps B hB) (by rw [hk'])
    · exact unaffected_of_env (sameMap_of_remapped hmap hB (hown _ e hfound)) (by rw [hk'])
  | pageMap srcenvid srcva dstenvid dstva perm =>
    refine returns_sysPageMap.ends fun r k' hres => .inl ?_
    obtain ⟨-, rfl⟩ | ⟨src, dst, p, -, -, -, -, -, -, -, hfound, -, hmap, hk'⟩ :=
      sysPageMap_maps hinv hA hres
    · exact hsame
    · exact unaffected_of_env (sameMap_of_remapped hmap hB (hown _ dst hfound)) (by rw [hk'])
  | pageUnmap envid va =>
    refine returns_sysPageUnmap.ends fun r k' hres => .inl ?_
    obtain ⟨-, rfl⟩ | ⟨e, -, -, -, hfound, hmap, hk'⟩ := sysPageUnmap_maps hinv hA hres
    · exact hsame
    · exact unaffected_of_env (sameMap_of_remapped hmap hB (hown _ e hfound)) (by rw [hk'])
  | ipcTrySend envid value srcva perm =>
    refine returns_sysIpcTrySend.ends fun r k' hres => ?_
    obtain hspared | ⟨rfl, hfound, hrecv⟩ := sysIpcTrySend_spares hinv hA hB hres
    · exact .inl hspared
    · exact .inr (.inl ⟨envid, value, srcva, perm, rfl, hres, hfound, hrecv⟩)
  | cputs | cgetc | getenvid | yield | ipcRecv | timeMsec | pktTrySend | pktTryRecv | invalid =>
    exact hcall.elim

theorem stranger {K : KernelMap} {k : Kernel} {free : List Nat} (hk : FirstRunning K k free) :
    Live k 1 ∧
    (k.envs 1).envPgdir ≠ none ∧ (k.envs 1).envParentId ≠ (k.envs 0).envId := by
  have hmade := hk.made 1 (by decide)
  obtain ⟨d, hd⟩ := hmade.pgdir
  refine ⟨⟨by decide, (hk.ready 1 (by decide) (by decide)).trans_ne (by decide)⟩,
    hd.trans_ne (by simp), ?_⟩
  rw [show (k.envs 1).envParentId = 0 from hmade.parent,
    show (k.envs 0).envId = nextEnvId 0 0 from (hk.made 0 (by decide)).id]
  decide

theorem destroy_self {K : KernelMap} {k : Kernel} {free : List Nat} (hk : FirstRunning K k free) :
    ∃ k', (exec 0 0 ⟨0, 0⟩ k (.envDestroy 0)).2 = .left k' ∧
      (k'.envs 1).envStatus = .running := by
  obtain ⟨d, hd⟩ := (hk.made 0 (by decide)).pgdir
  obtain ⟨d1, hd1⟩ := (hk.made 1 (by decide)).pgdir
  have hd1 : (k.envs 1).envPgdir = some d1 := hd1
  have hready := hk.ready 1 (by decide) (by decide)
  obtain ⟨k1, free', hfreed⟩ := envFree_spec hk.inv hk.wrapped (by decide) hd
  have hcur1 : k1.curenv 0 = some 0 := by
    rw [hfreed.state]
    exact hk.curenv
  have henv : k1.envs 1 = k.envs 1 := by
    rw [hfreed.state]
    rfl
  have hzero : (k1.envs 0).envStatus = .free := by
    rw [hfreed.state]
    rfl
  let k2 := k1.setCurenv 0 none
  have hpick : schedPick (k2.curenv 0) k2 = some 1 := by
    rw [Kernel.setCurenv_curenv_self]
    refine schedPick_of_first 1 (by decide) ?_ fun m hm => ?_
    · exact (congrArg Env.envStatus henv).trans hready
    · obtain rfl : m = 0 := by omega
      rw [show (k2.envs ((startidx none k2 + 0) % nenv)).envStatus = .free from hzero]
      decide
  have hpgdir2 : (k2.envs 1).envPgdir = some d1 := (congrArg Env.envPgdir henv).trans hd1
  obtain ⟨k', hrun⟩ := envRun_returns (c := 0) hpgdir2
  refine ⟨k', ?_, (envRun_ran hrun).running⟩
  simp only [exec, sysEnvDestroy, show envid2env 0 0 true k = some 0 from rfl, envDestroy,
    if_neg (show ¬ ((k.envs 0).envStatus = .running ∧ k.curenv 0 ≠ some 0) from
      fun hne => hne.2 hk.curenv), hfreed.result, if_pos hcur1]
  rw [show schedYield 0 (k1.setCurenv 0 none) = some k' by
    simp only [schedYield, hpick, hrun, k2]]
  rfl

/-- Environment 0 destroys itself: environment 1 is the next to run, and is spared. -/
theorem call_spares_others_small : ∃ k k', Reachable smallMachine NoWrap k ∧
    (exec 0 0 ⟨0, 0⟩ k (.envDestroy 0)).2 = .left k' ∧ Live k 1 ∧ k'.curenv 0 = some 1 ∧
      Spared .running k k' 1 := by
  obtain ⟨K, k, free, hk⟩ := smallMachine_runs
  have hreach := hk.reach.mono fun _ _ hstep => hstep.noWrap
  obtain ⟨k', hres, hrunning⟩ := destroy_self hk
  obtain ⟨hlive, hpgdir, hparent⟩ := stranger hk
  refine ⟨k, k', hreach, hres, hlive, ?_⟩
  obtain hsame | ⟨envid, value, srcva, perm, hcall, -⟩ | ⟨envid, -, -, hnext, -, hspared⟩ :=
    call_spares_others (r := 0) hreach hk.curenv (show Manages (.envDestroy 0) from trivial)
      (.inr hres) hlive hpgdir (by decide) hparent
  · have hstatus := hsame.status
    rw [hrunning, hk.ready 1 (by decide) (by decide)] at hstatus
    cases hstatus
  · cases hcall
  · exact ⟨hnext, hspared⟩

/-- Environment 0 destroys itself, and `sched_yield` makes environment 1 `ENV_RUNNING`. -/
theorem destroy_self_runs_another : ∃ k k', Reachable smallMachine SafeStep k ∧
    k.curenv 0 = some 0 ∧ (exec 0 0 ⟨0, 0⟩ k (.envDestroy 0)).2 = .left k' ∧ Live k 1 ∧
      (k.envs 1).envPgdir ≠ none ∧ (k.envs 1).envParentId ≠ (k.envs 0).envId ∧
      (k'.envs 1).envStatus ≠ (k.envs 1).envStatus := by
  obtain ⟨K, k, free, hk⟩ := smallMachine_runs
  obtain ⟨k', hres, hrunning⟩ := destroy_self hk
  obtain ⟨hlive, hpgdir, hparent⟩ := stranger hk
  refine ⟨k, k', hk.reach, hk.curenv, hres, hlive, hpgdir, hparent, ?_⟩
  rw [hrunning, hk.ready 1 (by decide) (by decide)]
  decide

end Mit6828.Kern.Isolation
