import Mit6828.Kern.PageCallSpec

namespace Mit6828.Kern.EnvSpec

open Mmu PageAllocator Environment Syscall Separation RefInvariant
open KernelInvariant DirectorySpec PageCallSpec Library Function

variable {K : KernelMap} {k k' : Kernel} {free l : List Nat} {c e d p : Nat} {parentId : Word}
  {idle : Option Nat}

/-- The environment that `env_alloc` makes in slot `e` with page directory `p`. -/
def freshEnv (parentId : Word) (e p : Nat) (old : Env) : Env :=
  { old with
    envPgdir := some p
    envId := nextEnvId old.envId e
    envParentId := parentId
    envType := .user
    envStatus := .runnable
    envRuns := 0
    envTf := initTf
    envPgfaultUpcall := 0
    envIpcRecving := false }

abbrev allocated (parentId : Word) (e p : Nat) (m : Pmap.Mem) (k : Kernel) : Kernel := { k with
  mem := m
  envs := update k.envs e (freshEnv parentId e p (k.envs e))
  envFreeList := (k.envs e).envLink }

abbrev freed (e : Nat) (m : Pmap.Mem) (k : Kernel) : Kernel := { k with
  mem := m
  envs := update k.envs e { k.envs e with
    envPgdir := none, envStatus := .free, envLink := k.envFreeList }
  envFreeList := some e }

structure EnvAllocated (K : KernelMap) (parentId : Word) (k : Kernel) (free : List Nat)
    (e p : Nat) (l : List Nat) (k' : Kernel) : Prop where
  head : k.envFreeList = some e
  lt : e < nenv
  unused : (k.envs e).envPgdir = none
  freeList : free = p :: l
  envs : k'.envs = update k.envs e (freshEnv parentId e p (k.envs e))
  state : k' = { k with mem := k'.mem, envs := k'.envs, envFreeList := (k.envs e).envLink }
  change : Change K.layout (.dir e) (world k free) (world k' l)
  wrapped : k'.mem.wrapped = k.mem.wrapped
  inv : Inv K k' l

theorem rootOf_update (k k' : Kernel) (hroot : ∀ e', e' ≠ e → k'.envs e' = k.envs e')
    (hkern : k'.kernPgdir = k.kernPgdir) (he : e < nenv) :
    rootOf k' = update (rootOf k) e (rootWord (k'.envs e).envPgdir) := by
  funext e'
  by_cases heq : e' = e
  · subst heq
    rw [update_self, rootOf, if_pos he]
  · rw [update_of_ne heq, rootOf, rootOf, hkern]
    by_cases hlt : e' < nenv
    · rw [if_pos hlt, if_pos hlt, hroot e' heq]
    · rw [if_neg hlt, if_neg hlt]

theorem envAlloc_cases (parentId : Word) (h : Inv K k free) :
    (∃ r, isNeg r ∧ (k.envFreeList = none ∨ free = []) ∧ envAlloc parentId k = (.error r, k)) ∨
    ∃ e p l k', envAlloc parentId k = (.ok e, k') ∧ EnvAllocated K parentId k free e p l k' := by
  cases hhead : k.envFreeList with
  | none => exact .inl ⟨-eNoFreeEnv, by decide, .inl rfl, by simp [envAlloc, hhead]⟩
  | some e =>
    obtain ⟨⟨he, hnone⟩, hpop⟩ := h.env.freeEnvs.pop hhead
    have hl : FreeList k.mem free := h.mem.counted.separated.freeList
    cases free with
    | nil =>
      refine .inl ⟨-eNoMem, by decide, .inr rfl, ?_⟩
      rw [envAlloc, hhead]
      simp only [envSetupVm, pageAlloc_nil hl, if_pos (show isNeg (-eNoMem) by decide)]
    | cons p l =>
      obtain ⟨m, hm⟩ := pageAlloc_cons hl true
      have hroot : (world k (p :: l)).root e = 0 := by
        change rootOf k e = 0
        rw [rootOf, if_pos he, hnone]
        rfl
      obtain ⟨b, hmem, hfree, hbroot, hchange, hinv⟩ :=
        change_new_dir h.mem he hroot (show (world k (p :: l)).free = p :: l from rfl) hm
      let k' := allocated parentId e p (setupVm p K.kern m) k
      have hself : k'.envs e = freshEnv parentId e p (k.envs e) :=
        update_self _ _ _
      have hother : ∀ e', e' ≠ e → k'.envs e' = k.envs e' := fun e' hne =>
        update_of_ne hne _ _
      have hworld : world k' l = b := by
        have hr : rootOf k' = b.root := by
          rw [hbroot, rootOf_update k k' hother rfl he, hself]
          rfl
        rw [world, hr, show k'.mem = b.mem from hmem.symm, ← hfree]
      have henv : EnvInv K k' := by
        refine ⟨h.env.kern, ?_, hpop k' rfl hother, ?_, h.env.curenv_lt⟩
        · intro e' he' d hd
          by_cases heq : e' = e
          · subst heq
            rw [hself] at hd
            obtain rfl : p = d := Option.some.inj hd
            exact K.pool_lt p (h.mem.counted.separated.free_pool p (by simp [world]))
          · exact h.env.pgdir_lt e' he' d (hother e' heq ▸ hd)
        · intro e' he'
          by_cases heq : e' = e
          · subst heq
            rw [hself]
            exact h.env.dstva e' he'
          · rw [hother e' heq]
            exact h.env.dstva e' he'
      refine .inr ⟨e, p, l, k', ?_, hhead, he, hnone, rfl, rfl, rfl, hworld ▸ hchange, ?_,
        ⟨hworld ▸ hinv, henv⟩⟩
      · rw [envAlloc, hhead]
        simp only [envSetupVm, hm.result, if_neg (show ¬ isNeg 0 by decide), h.env.kern]
        simp [k', freshEnv, Kernel.setEnv, setupVm, h.env.kern]
      · have hzero : (m.pages p).ppRef = 0 :=
          (hm.ppRef p).trans (ppRef_of_free h.mem (by simp [world]))
        exact (incref_wrapped_of_ne (by rw [hzero]; decide)).trans hm.wrapped

theorem nextEnvId_spec (old : Word) (he : e < nenv) :
    envx (nextEnvId old e) = e ∧ nextEnvId old e ≠ 0 ∧ ¬ isNeg (nextEnvId old e) := by
  have hslot : (BitVec.ofNat 32 e).toNat = e := by
    rw [BitVec.toNat_ofNat, Nat.mod_eq_of_lt]
    exact lt_trans he (by decide)
  have hgen : ∃ gen : Word, nextEnvId old e = gen ||| BitVec.ofNat 32 e ∧ gen &&& 1023 = 0 ∧
      0 < gen.toInt := by
    unfold nextEnvId
    refine ⟨_, rfl, ?_⟩
    split
    · decide
    · rename_i hpos
      refine ⟨?_, by omega⟩
      rw [BitVec.and_assoc, show (~~~1023 : Word) &&& 1023 = 0 from rfl]
      exact BitVec.and_zero
  obtain ⟨gen, heq, hlow, hpos⟩ := hgen
  rw [heq]
  refine ⟨?_, fun hzero => ?_, ?_⟩
  · rw [envx, BitVec.and_comm, BitVec.and_or_distrib_left, BitVec.and_comm, hlow,
      BitVec.and_comm, BitVec.toNat_or, show (0 : Word).toNat = 0 from rfl, Nat.zero_or,
      BitVec.toNat_and, hslot, show (1023 : Word).toNat = 2 ^ 10 - 1 from rfl,
      Nat.and_two_pow_sub_one_eq_mod]
    exact Nat.mod_eq_of_lt he
  · rw [(BitVec.or_eq_zero_iff.mp hzero).1] at hpos
    exact absurd hpos (by decide)
  · have hmsb : (gen ||| BitVec.ofNat 32 e).msb = false := by
      rw [BitVec.msb_or, BitVec.msb_eq_toInt, decide_eq_false (by omega), Bool.false_or,
        BitVec.msb_eq_false_iff_two_mul_lt, hslot]
      exact lt_trans (Nat.mul_lt_mul_of_pos_left he (by decide)) (by decide)
    rw [BitVec.msb_eq_toInt] at hmsb
    exact of_decide_eq_false hmsb

def forked (cur e : Nat) (k : Kernel) : Kernel :=
  k.setEnv e { k.envs e with
    envStatus := .notRunnable
    envTf := { (k.envs cur).envTf with regEax := 0 } }

theorem sysExofork_cases (cur : Nat) (h : Inv K k free) :
    (∃ r, isNeg r ∧ (k.envFreeList = none ∨ free = []) ∧ sysExofork cur k = .ret r k) ∨
    ∃ e p l k', EnvAllocated K (k.envs cur).envId k free e p l k' ∧
      sysExofork cur k = .ret (nextEnvId (k.envs e).envId e) (forked cur e k') := by
  obtain ⟨r, hr, hreason, hres⟩ | ⟨e, p, l, k', hres, halloc⟩ :=
    envAlloc_cases (k.envs cur).envId h
  · refine .inl ⟨r, hr, hreason, ?_⟩
    rw [sysExofork, hres]
  · refine .inr ⟨e, p, l, k', halloc, ?_⟩
    rw [sysExofork, hres]
    simp only [forked, Kernel.setEnv_envs_self, halloc.envs, update_self]
    rfl

structure EnvFreed (K : KernelMap) (k : Kernel) (free : List Nat) (e : Nat) (k' : Kernel)
    (free' : List Nat) : Prop where
  result : envFree e k = some k'
  state : k' = freed e k'.mem k
  wrapped : k'.mem.wrapped = false
  inv : Inv K k' free'
  others : ∀ t ∈ viewedSlots, t.owner ≠ e → (world k' free').view t = (world k free).view t

/-- `env_free` gives back everything that the environment has and leaves the address spaces
of the others alone. -/
theorem envFree_spec (h : Inv K k free) (hw : k.mem.wrapped = false) (he : e < nenv)
    (hd : (k.envs e).envPgdir = some d) : ∃ k' free', EnvFreed K k free e k' free' := by
  have hroot : frameOf ((world k free).root e) = some d := frameOf_rootOf h.env he hd
  obtain ⟨b, hloops, hfreeing, hempty⟩ := envFree_loops h.mem hw he hroot
  obtain ⟨c, hdecref, hcroot, hchange, hinv, hcw⟩ :=
    change_drop_dir hfreeing.inv he (hfreeing.root ▸ hroot) hfreeing.wrapped hempty
  let k' := freed e c.mem k
  have hself : (k'.envs e).envPgdir = none ∧ (k'.envs e).envLink = k.envFreeList ∧
      (k'.envs e).envIpcDstva = (k.envs e).envIpcDstva := by simp [k']
  have hother : ∀ e', e' ≠ e → k'.envs e' = k.envs e' := fun e' hne =>
    update_of_ne hne _ _
  have hworld : world k' c.free = c := by
    have hr : rootOf k' = c.root := by
      rw [hcroot, hfreeing.root, rootOf_update k k' hother rfl he, hself.1]
      rfl
    rw [world, hr]
  have henv : EnvInv K k' := by
    refine ⟨h.env.kern, ?_,
      h.env.freeEnvs.push rfl hself.2.1 hother (by simp [hd]) ⟨he, hself.1⟩, ?_, h.env.curenv_lt⟩
    · intro e' he' d' hd'
      by_cases heq : e' = e
      · rw [heq, hself.1] at hd'
        exact absurd hd' (by simp)
      · exact h.env.pgdir_lt e' he' d' (hother e' heq ▸ hd')
    · intro e' he'
      by_cases heq : e' = e
      · rw [heq, hself.2.2]
        exact h.env.dstva e he
      · rw [hother e' heq]
        exact h.env.dstva e' he'
  refine ⟨k', c.free, ?_, rfl, hcw, ⟨hworld.symm ▸ hinv, henv⟩, ?_⟩
  · simp only [envFree, hd, show k.mem = (world k free).mem from rfl, hloops, hdecref,
      Option.bind_eq_bind, Option.bind_some]
    simp [k', Kernel.setEnv]
  intro t ht hne
  rw [hworld, hchange.rest t ht (by rintro rfl; exact hne rfl) (.inr ?_)]
  · refine hfreeing.run.view_eq ht fun x s y hstep => ⟨?_, .inr ?_⟩
    · rintro rfl
      exact hne hstep.owner
    · rintro rfl
      exact hne hstep.owner
  · intro heq
    simp only [PageTable.Slot.dir.injEq] at heq
    exact hne heq.symm

theorem envFree_eq_some (h : envFree e k = some k') :
    ∃ d m, (k.envs e).envPgdir = some d ∧ k' = freed e m k := by
  simp only [envFree, Option.bind_eq_bind, Option.bind_eq_some_iff] at h
  obtain ⟨d, hd, m, -, m', -, heq⟩ := h
  cases heq
  exact ⟨d, m', hd, rfl⟩

theorem envDestroy_curenv (hcur : k.curenv c = some e) : envDestroy c e k =
    .leave ((envFree e k).bind fun k1 => schedYield c (k1.setCurenv c none)) := by
  rw [envDestroy, if_neg (fun hrun => hrun.2 hcur)]
  cases hfree : envFree e k with
  | none => rfl
  | some k1 =>
    obtain ⟨-, m, -, rfl⟩ := envFree_eq_some hfree
    exact if_pos hcur

theorem envDestroy_cases (c e : Nat) (k : Kernel) :
    ((k.envs e).envStatus = .running ∧ k.curenv c ≠ some e ∧
      envDestroy c e k = .ret () (k.setStatus e .dying)) ∨
    envDestroy c e k = .stop ∨
    ∃ k1, envFree e k = some k1 ∧
      (k.curenv c ≠ some e ∧ (k.envs e).envStatus ≠ .running ∧ envDestroy c e k = .ret () k1 ∨
        k.curenv c = some e ∧
          envDestroy c e k = .leave (schedYield c (k1.setCurenv c none))) := by
  rw [envDestroy]
  split
  · rename_i hrun
    exact .inl ⟨hrun.1, hrun.2, rfl⟩
  rename_i hrun
  split
  · exact .inr (.inl rfl)
  rename_i k1 hfree
  have hcur : k1.curenv c = k.curenv c := by
    obtain ⟨d, m, -, rfl⟩ := envFree_eq_some hfree
    rfl
  refine .inr (.inr ⟨k1, hfree, ?_⟩)
  rw [hcur]
  by_cases heq : k.curenv c = some e
  · exact .inr ⟨heq, if_pos heq⟩
  · exact .inl ⟨heq, fun hs => hrun ⟨hs, heq⟩, if_neg heq⟩

/-- The status of environment `e'` once CPU `c` runs `e`. -/
def statusAfter (c e : Nat) (k : Kernel) (e' : Nat) : EnvStatus :=
  if e' = e then .running
  else if k.curenv c = some e' ∧ (k.envs e').envStatus = .running then .runnable
  else (k.envs e').envStatus

structure Ran (c e : Nat) (k k' : Kernel) : Prop where
  state : k' = { k with envs := k'.envs, cpus := k'.cpus }
  curenv : k'.curenv c = some e
  others : ∀ c', c' ≠ c → k'.curenv c' = k.curenv c'
  env : ∀ e', ∃ runs cpu, k'.envs e' = { k.envs e' with
    envStatus := statusAfter c e k e', envRuns := runs, envCpunum := cpu }

theorem Ran.status_eq (h : Ran c e k k') (e' : Nat) :
    (k'.envs e').envStatus = statusAfter c e k e' := by
  obtain ⟨runs, cpu, heq⟩ := h.env e'
  rw [heq]

theorem Ran.field {α : Type} (h : Ran c e k k') (f : Env → α) (hf : ∀ env st runs cpu,
    f { env with envStatus := st, envRuns := runs, envCpunum := cpu } = f env) (e' : Nat) :
    f (k'.envs e') = f (k.envs e') := by
  obtain ⟨runs, cpu, heq⟩ := h.env e'
  rw [heq, hf]

theorem Ran.curenv_iff {c' e' : Nat} (h : Ran c e k k') : k'.curenv c' = some e' ↔
    c' = c ∧ e' = e ∨ c' ≠ c ∧ k.curenv c' = some e' := by
  by_cases hc : c' = c
  · subst hc
    rw [h.curenv]
    simp [eq_comm]
  · rw [h.others c' hc]
    simp [hc]

theorem Ran.apart {c1 c2 e' : Nat} (h : Ran c e k k')
    (honly : e' = e → ∀ c', k.curenv c' = some e' → c' = c)
    (hapart : k.curenv c1 = some e' → k.curenv c2 = some e' → c1 = c2)
    (h1 : k'.curenv c1 = some e') (h2 : k'.curenv c2 = some e') : c1 = c2 := by
  rcases h.curenv_iff.mp h1 with ⟨rfl, heq⟩ | ⟨hne1, hc1⟩
  · rcases h.curenv_iff.mp h2 with ⟨rfl, -⟩ | ⟨hne2, hc2⟩
    · rfl
    · exact absurd (honly heq c2 hc2) hne2
  · rcases h.curenv_iff.mp h2 with ⟨rfl, heq⟩ | ⟨-, hc2⟩
    · exact absurd (honly heq c1 hc1) hne1
    · exact hapart hc1 hc2

theorem Ran.running (h : Ran c e k k') : (k'.envs e).envStatus = .running :=
  (h.status_eq e).trans (if_pos rfl)

theorem putBack_env (c : Nat) (k : Kernel) (e : Nat) : (putBack c k).envs e = { k.envs e with
    envStatus := if k.curenv c = some e ∧ (k.envs e).envStatus = .running then .runnable
      else (k.envs e).envStatus } := by
  rw [putBack]
  cases hcur : k.curenv c with
  | none => simp
  | some cur =>
    by_cases hrun : (k.envs cur).envStatus = .running
    · by_cases heq : e = cur
      · subst heq
        simp [hrun, Kernel.setStatus]
      · simp [hrun, Kernel.setStatus, Kernel.setEnv, heq, Ne.symm heq]
    · by_cases heq : e = cur
      · subst heq
        simp [hrun]
      · simp [hrun, Ne.symm heq]

theorem putBack_state (c : Nat) (k : Kernel) :
    putBack c k = { k with envs := (putBack c k).envs } := by
  rw [putBack]
  split
  · split <;> rfl
  · rfl

theorem envRun_ran (h : envRun c e k = some k') : Ran c e k k' := by
  have hput := putBack_state c k
  have henv := putBack_env c k
  simp only [envRun] at h
  generalize putBack c k = k1 at h hput henv
  split at h
  · cases h
  cases h
  have hcpus : k1.cpus = k.cpus := by rw [hput]
  refine ⟨by rw [hput]; rfl, ?_, fun c' hc => ?_, fun e' => ?_⟩
  · exact Kernel.setCurenv_curenv_self
  · simp only [Kernel.setEnv_curenv]
    rw [Kernel.setCurenv_curenv_of_ne hc, Kernel.curenv, hcpus]
    rfl
  · by_cases heq : e' = e
    · subst heq
      refine ⟨(k.envs e').envRuns + 1, c, ?_⟩
      simp only [Kernel.setEnv_envs_self, Kernel.setCurenv_envs, henv, statusAfter, if_true]
    · refine ⟨(k.envs e').envRuns, (k.envs e').envCpunum, ?_⟩
      rw [Kernel.setEnv_envs_of_ne heq, Kernel.setEnv_envs_of_ne heq, Kernel.setCurenv_envs,
        henv, statusAfter, if_neg heq]

theorem envRun_returns (hd : (k.envs e).envPgdir = some d) : ∃ k', envRun c e k = some k' := by
  have henv := putBack_env c k e
  simp only [envRun, Kernel.setEnv_envs_self, Kernel.setCurenv_envs]
  rw [henv, hd]
  exact ⟨_, rfl⟩

theorem envRun_pgdir (h : envRun c e k = some k') : (k.envs e).envPgdir ≠ none := by
  intro hnone
  have henv := putBack_env c k e
  simp only [envRun, Kernel.setEnv_envs_self, Kernel.setCurenv_envs, henv, hnone] at h
  cases h

theorem harmless_putBack (c : Nat) (k : Kernel) : Harmless k (putBack c k) := by
  rw [putBack]
  split
  · split
    · exact harmless_setStatus k _ _
    · exact .refl k
  · exact .refl k

theorem harmless_envRun (he : e < nenv) (h : envRun c e k = some k') : Harmless k k' := by
  simp only [envRun] at h
  split at h
  · cases h
  cases h
  refine (harmless_putBack c k).trans ((harmless_setCurenv _ c _ ?_).trans
    ((harmless_setEnv ?_ ?_ ?_).trans (harmless_setEnv ?_ ?_ ?_)))
  · intro e' he'
    exact Option.some.inj he' ▸ he
  all_goals first | rfl | exact .inl rfl

theorem schedHalt_eq_some (h : schedHalt c k = some k') : k' = k.halted c := by
  rw [schedHalt] at h
  split at h
  · exact (Option.some.inj h).symm
  · cases h

theorem harmless_schedHalt (h : schedHalt c k = some k') : Harmless k k' := by
  rw [schedHalt_eq_some h]
  refine ⟨rfl, rfl, rfl, fun _ => rfl, fun _ => rfl, fun _ => .inl rfl, fun c' e he => ?_⟩
  by_cases hc : c' = c
  · subst hc
    simp [Kernel.curenv] at he
  · simp only [Kernel.curenv, update_of_ne hc] at he
    exact .inl he

theorem schedPick_some (h : schedPick idle k = some e) :
    e < nenv ∧ (k.envs e).envStatus = .runnable := by
  unfold schedPick at h
  obtain ⟨i, -, hi⟩ := List.mem_map.mp (List.mem_of_find?_eq_some h)
  refine ⟨hi ▸ Nat.mod_lt _ (by decide), ?_⟩
  simpa using List.find?_some h

theorem schedPick_of_first (n : Nat) (hn : n < nenv)
    (hrun : (k.envs ((startidx idle k + n) % nenv)).envStatus = .runnable)
    (hpass : ∀ m < n, (k.envs ((startidx idle k + m) % nenv)).envStatus ≠ .runnable) :
    schedPick idle k = some ((startidx idle k + n) % nenv) := by
  unfold schedPick
  rw [List.find?_map, List.find?_range_eq_some.mpr ⟨by simpa using hrun, List.mem_range.mpr hn, ?_⟩]
  · rfl
  · simpa using hpass

theorem schedYield_cases (h : schedYield c k = some k') :
    (∃ e, (e < nenv ∧ (k.envs e).envStatus = .runnable ∨
      k.curenv c = some e ∧ (k.envs e).envStatus = .running) ∧ envRun c e k = some k') ∨
    (∀ e, k.curenv c = some e → (k.envs e).envStatus ≠ .running) ∧ schedHalt c k = some k' := by
  unfold schedYield at h
  dsimp only at h
  split at h
  · rename_i e hpick
    exact .inl ⟨e, .inl (schedPick_some hpick), h⟩
  split at h
  · rename_i cur hidle
    split at h
    · rename_i hrun
      exact .inl ⟨cur, .inr ⟨hidle, hrun⟩, h⟩
    · rename_i hrun
      exact .inr ⟨fun e hcur => Option.mem_unique hidle hcur ▸ hrun, h⟩
  · rename_i hidle
    exact .inr ⟨fun e hcur => absurd (hidle.symm.trans hcur) (by simp), h⟩

theorem harmless_schedYield (hcur : ∀ e, k.curenv c = some e → e < nenv)
    (h : schedYield c k = some k') : Harmless k k' := by
  obtain ⟨e, he, hrun⟩ | ⟨-, hhalt⟩ := schedYield_cases h
  · exact harmless_envRun (he.elim And.left fun he => hcur e he.1) hrun
  · exact harmless_schedHalt hhalt

theorem schedYield_next (hcur : k.curenv c = some e) (hid : envx (k.envs e).envId = e)
    (hlt : e + 1 < nenv) (hrun : (k.envs (e + 1)).envStatus = .runnable)
    (hd : (k.envs (e + 1)).envPgdir = some d) :
    ∃ k', schedYield c k = some k' ∧ Ran c (e + 1) k k' := by
  have hstart : (startidx (some e) k + 0) % nenv = e + 1 := by
    rw [startidx, hid, Nat.add_zero, Nat.mod_mod, Nat.mod_eq_of_lt hlt]
  have hpick : schedPick (some e) k = some (e + 1) := by
    rw [schedPick_of_first 0 (by decide) (by rw [hstart]; exact hrun)
      (fun m hm => absurd hm (by omega)), hstart]
  obtain ⟨k', hk'⟩ := envRun_returns (c := c) hd
  exact ⟨k', by simp only [schedYield, hcur, hpick, hk'], envRun_ran hk'⟩

theorem envRun_mem (h : envRun c e k = some k') : k'.mem = k.mem := by
  rw [(envRun_ran h).state]

theorem schedYield_mem (h : schedYield c k = some k') : k'.mem = k.mem := by
  obtain ⟨e, -, hrun⟩ | ⟨-, hhalt⟩ := schedYield_cases h
  · exact envRun_mem hrun
  · exact (harmless_schedHalt hhalt).mem

end Mit6828.Kern.EnvSpec
