import Mit6828.Kern.BootSpec
import Mit6828.Kern.EnvTable

namespace Mit6828.Kern.EnvFreeList

open Mmu Pmap Environment Syscall PageCallSpec EnvSpec EnvTable Boot BootSpec Library.IntrusiveList
open Function

variable {k k' k0 : Kernel} {c cur e : Nat} {l : List Nat} {st : EnvStatus}

/-- `env_free_list` links every environment with status `ENV_FREE` once, and no other. -/
def FreeListExact (k : Kernel) : Prop :=
  ∃ l, Chain (fun e => (k.envs e).envLink) k.envFreeList l ∧ l.Nodup ∧
    ∀ e, e ∈ l ↔ e < nenv ∧ (k.envs e).envStatus = .free

theorem FreeListExact.congr (h : FreeListExact k) (hhead : k'.envFreeList = k.envFreeList)
    (hlink : ∀ e, (k'.envs e).envLink = (k.envs e).envLink)
    (hstatus : ∀ e, (k'.envs e).envStatus = .free ↔ (k.envs e).envStatus = .free) :
    FreeListExact k' := by
  obtain ⟨l, hchain, hnodup, hmem⟩ := h
  refine ⟨l, ?_, hnodup, fun e => ?_⟩
  · rw [hhead]
    exact hchain.congr fun e _ => hlink e
  · rw [hmem e, hstatus e]

theorem FreeListExact.setStatus (h : FreeListExact k) (he : (k.envs e).envStatus ≠ .free)
    (hst : st ≠ .free) : FreeListExact (k.setStatus e st) := by
  refine h.congr rfl (update_field Env.envLink rfl) fun e' => ?_
  by_cases heq : e' = e
  · subst heq
    rw [Kernel.setStatus, Kernel.setEnv_envs_self]
    exact iff_of_false hst he
  · rw [Kernel.setStatus, Kernel.setEnv_envs_of_ne heq]

theorem FreeListExact.envFree (h : FreeListExact k) (he : e < nenv)
    (hstatus : (k.envs e).envStatus ≠ .free) (hfree : envFree e k = some k') :
    FreeListExact k' := by
  obtain ⟨d, m, -, rfl⟩ := envFree_eq_some hfree
  obtain ⟨l, hchain, hnodup, hmem⟩ := h
  have hnot : e ∉ l := fun hin => hstatus ((hmem e).mp hin).2
  refine ⟨e :: l, ⟨rfl, ?_⟩, List.nodup_cons.mpr ⟨hnot, hnodup⟩, fun e' => ?_⟩
  · simp only [update_self]
    refine hchain.congr fun e' he' => ?_
    have hne : e' ≠ e := fun heq => hnot (heq ▸ he')
    rw [update_of_ne hne]
  · by_cases heq : e' = e
    · subst heq
      simp [he]
    · simp only [List.mem_cons, heq, false_or, hmem e', update_of_ne heq]

theorem FreeListExact.take {env : Env} (h : FreeListExact k) (hhead : k.envFreeList = some e)
    (hstatus : env.envStatus ≠ .free) :
    FreeListExact { k.setEnv e env with envFreeList := (k.envs e).envLink } := by
  obtain ⟨l, hchain, hnodup, hmem⟩ := h
  rw [hhead] at hchain
  obtain ⟨l', rfl, hchain'⟩ := chain_some hchain
  obtain ⟨hnot, hnodup'⟩ := List.nodup_cons.mp hnodup
  refine ⟨l', ?_, hnodup', fun e' => ?_⟩
  · refine hchain'.congr fun e' he' => ?_
    have hne : e' ≠ e := fun heq => hnot (heq ▸ he')
    change ((k.setEnv e env).envs e').envLink = _
    rw [Kernel.setEnv_envs_of_ne hne]
  change e' ∈ l' ↔ e' < nenv ∧ ((k.setEnv e env).envs e').envStatus = .free
  by_cases heq : e' = e
  · subst heq
    rw [Kernel.setEnv_envs_self]
    exact iff_of_false hnot fun hfree => hstatus hfree.2
  · rw [Kernel.setEnv_envs_of_ne heq, ← hmem e', List.mem_cons]
    simp [heq]

def ExactIn (c : Nat) (k : Kernel) : Prop :=
  FreeListExact k ∧ ∀ e, k.curenv c = some e → e < nenv ∧ (k.envs e).envStatus ≠ .free

theorem ExactIn.setStatus (h : ExactIn c k) (he : (k.envs e).envStatus ≠ .free)
    (hst : st ≠ .free) : ExactIn c (k.setStatus e st) := by
  refine ⟨h.1.setStatus he hst, fun e' he' => ⟨(h.2 e' he').1, ?_⟩⟩
  by_cases heq : e' = e
  · rw [heq, Kernel.setStatus, Kernel.setEnv_envs_self]
    exact hst
  · rw [Kernel.setStatus, Kernel.setEnv_envs_of_ne heq]
    exact (h.2 e' he').2

theorem ExactIn.curenv_ne_head (h : ExactIn c k) (hhead : k.envFreeList = some e) :
    k.curenv c ≠ some e := by
  intro hcur
  obtain ⟨l, hchain, -, hmem⟩ := h.1
  rw [hhead] at hchain
  obtain ⟨l', rfl, -⟩ := chain_some hchain
  exact (h.2 e hcur).2 ((hmem e).mp (by simp)).2

theorem ExactIn.same (h : ExactIn c k) (hk : SameLinks k k') : ExactIn c k' := by
  refine ⟨h.1.congr hk.envFreeList hk.link fun e => by rw [hk.status], fun e he => ?_⟩
  rw [hk.status]
  exact h.2 e (hk.curenv c ▸ he)

theorem keeps_exact (c : Nat) : Keeps c (ExactIn c) FreeListExact where
  same h hk := h.same hk.links
  run {k k' e} h he _ hran := by
    have hstate := hran.state
    refine h.1.congr (by rw [hstate]) (hran.field Env.envLink fun _ _ _ _ => rfl) fun e' => ?_
    rw [hran.status_eq e', statusAfter]
    split
    · rename_i heq
      subst heq
      refine iff_of_false (by decide) ?_
      rcases he with hrun | hcur
      · rw [hrun]
        decide
      · exact (h.2 _ hcur).2
    · split
      · rename_i hrun
        rw [hrun.2]
        decide
      · rfl
  halt h _ := h.1
  gone {k k' e} h hcur hfree := by
    refine ⟨(h.1.envFree (h.2 e hcur).1 (h.2 e hcur).2 hfree).congr rfl (fun _ => rfl)
      fun _ => Iff.rfl, fun e' he' => ?_⟩
    rw [Kernel.setCurenv_curenv_self] at he'
    cases he'
  block dstva h hcur :=
    (h.setStatus (h.2 _ hcur).2 (by decide)).same (sameLinks_block _ _ dstva)
  fork {k e} p env h hhead henv := by
    have hstatus : env.envStatus = .notRunnable := congrArg Prod.fst henv
    refine ⟨h.1.take hhead (by rw [hstatus]; decide), fun e' he' => ?_⟩
    have hne : e' ≠ e := fun heq => h.curenv_ne_head hhead (heq ▸ he')
    change e' < nenv ∧ ((k.setEnv e env).envs e').envStatus ≠ .free
    rw [Kernel.setEnv_envs_of_ne hne]
    exact h.2 e' he'

/-- The operations on the table: the two functions of `kern/env.c`, and any system call that
environment `e` makes on CPU `c`. -/
inductive Op where
  | envAlloc (parentId : Word)
  | envFree (e : Nat)
  | syscall (c e : Nat) (hw : Hw) (call : Call)

def Op.Runs (k : Kernel) : Op → Kernel → Prop
  | .envAlloc parentId, k' => (Environment.envAlloc parentId k).2 = k'
  | .envFree e, k' => e < nenv ∧ Environment.envFree e k = some k'
  | .syscall c e hw call, k' => e < nenv ∧
      ((∃ r, (exec c e hw (k.setCurenv c (some e)) call).2 = .ret r k') ∨
        (exec c e hw (k.setCurenv c (some e)) call).2 = .left k')

/-- Only environments that exist are freed and make calls, and no call sets a status to
`ENV_FREE`, which is 0. -/
def Op.Proper (k : Kernel) : Op → Prop
  | .envAlloc _ => True
  | .envFree e => (k.envs e).envStatus ≠ .free
  | .syscall _ e _ call =>
    (k.envs e).envStatus ≠ .free ∧ ∀ envid, call ≠ .envSetStatus envid 0

/-- The states that operations of the given kind reach after `env_init`. -/
inductive History (k0 : Kernel) (allowed : Kernel → Op → Prop) : Kernel → Prop
  | init : History k0 allowed (envInit k0)
  | op {k k' : Kernel} (hk : History k0 allowed k) (op : Op) (hop : allowed k op)
      (hrun : op.Runs k k') : History k0 allowed k'

theorem envInit_linked (h : k0.envFreeList = none) :
    ∃ l, EnvsLinked k0 (envInit k0) 0 l ∧ ∀ e, e ∈ l ↔ e < nenv := by
  have hstart : EnvsLinked k0 k0 nenv [] :=
    ⟨rfl, fun e => ⟨_, _, rfl, .inr rfl⟩, h, List.nodup_nil, fun _ he => absurd he (by simp)⟩
  refine ⟨List.range nenv ++ [], envInitSlots_linked le_rfl hstart, fun e => ?_⟩
  rw [List.append_nil, List.mem_range]

theorem envInit_status (h : k0.envFreeList = none) (e : Nat) :
    ((envInit k0).envs e).envStatus = (k0.envs e).envStatus := by
  obtain ⟨l, hlinked, -⟩ := envInit_linked h
  obtain ⟨id, link, heq, -⟩ := hlinked.fields e
  rw [heq]

theorem freeListExact_envInit_iff (h : k0.envFreeList = none) :
    FreeListExact (envInit k0) ↔ ∀ e < nenv, (k0.envs e).envStatus = .free := by
  obtain ⟨l, hlinked, hl⟩ := envInit_linked h
  constructor
  · rintro ⟨l', hchain, -, hmem⟩ e he
    rw [← envInit_status h]
    refine ((hmem e).mp ?_).2
    rw [hchain.unique hlinked.chain]
    exact (hl e).mpr he
  · intro hfree
    refine ⟨l, hlinked.chain, hlinked.nodup, fun e => ?_⟩
    rw [envInit_status h, hl e]
    exact ⟨fun he => ⟨he, hfree e he⟩, And.left⟩

theorem envid2env_ne_free {envid : Word} {checkperm : Bool} (hcur : (k.envs cur).envStatus ≠ .free)
    (h : envid2env cur envid checkperm k = some e) : (k.envs e).envStatus ≠ .free := by
  rcases envid2env_cases h with ⟨-, rfl⟩ | ⟨-, -, hlive, -⟩
  · exact hcur
  · exact hlive

theorem statusOf_eq_free {status : Word} (h : statusOf status = some .free) : status = 0 := by
  rw [statusOf] at h
  split at h
  · cases h
  rename_i hrange
  push Not at hrange
  have hsmall : status.toNat < 5 := by
    have := BitVec.toInt_eq_toNat_cond status
    split at this <;> omega
  have hcases : status.toNat = 0 ∨ status.toNat = 1 ∨ status.toNat = 2 ∨ status.toNat = 3 ∨
    status.toNat = 4 := by omega
  rcases hcases with hn | hn | hn | hn | hn
  · exact BitVec.eq_of_toNat_eq hn
  all_goals
    rw [hn] at h
    cases h

theorem permits_exact {call : Call} (h : ExactIn c k) (hcur : k.curenv c = some cur)
    (hcall : ∀ envid, call ≠ .envSetStatus envid 0) : Permits cur (ExactIn c) k call := by
  have hlive := (h.2 cur hcur).2
  have hlt := (h.2 cur hcur).1
  refine ⟨⟨fun envid status e st heq he hst => ?_, fun envid e _ he _ _ => ?_,
    fun envid e k' _ he hne _ hfree => ?_⟩, fun envid value srcva perm dst _ hdst _ _ => ?_⟩
  · refine h.setStatus (envid2env_ne_free hlive he) fun hfree => ?_
    subst hfree
    exact hcall envid (statusOf_eq_free hst ▸ heq)
  · exact h.setStatus (envid2env_ne_free hlive he) (by decide)
  · refine ⟨h.1.envFree (envid2env_lt hlt he) (envid2env_ne_free hlive he) hfree, ?_⟩
    obtain ⟨d, m, -, rfl⟩ := envFree_eq_some hfree
    intro e' he'
    obtain rfl := Option.mem_unique hcur he'
    simp only [update_of_ne (Ne.symm hne)]
    exact h.2 cur hcur
  · exact h.setStatus (envid2env_ne_free hlive hdst) (by decide)

theorem freeListExact_step {op : Op} (h : FreeListExact k) (hop : op.Proper k)
    (hrun : op.Runs k k') : FreeListExact k' := by
  cases op with
  | envAlloc parentId =>
    obtain ⟨r, m, hres⟩ | ⟨e, p, m, hhead, hres⟩ := envAlloc_table parentId k
    · simp only [Op.Runs, hres] at hrun
      subst hrun
      exact h.congr rfl (fun _ => rfl) fun _ => Iff.rfl
    · simp only [Op.Runs, hres] at hrun
      subst hrun
      exact (h.take hhead (show (freshEnv parentId e p (k.envs e)).envStatus ≠ .free by
        simp [freshEnv])).congr rfl (fun _ => rfl) fun _ => Iff.rfl
  | envFree e => exact h.envFree hrun.1 hop hrun.2
  | syscall c e hw call =>
    obtain ⟨he, hres⟩ := hrun
    have hin : ExactIn c (k.setCurenv c (some e)) := by
      refine ⟨h.congr rfl (fun _ => rfl) fun _ => Iff.rfl, fun e' he' => ?_⟩
      rw [Kernel.setCurenv_curenv_self] at he'
      exact Option.some.inj he' ▸ ⟨he, hop.1⟩
    have hcur : (k.setCurenv c (some e)).curenv c = some e := Kernel.setCurenv_curenv_self
    have hexits := exits_exec (keeps_exact c) hw hin hcur (permits_exact hin hcur hop.2)
    rcases hres with ⟨r, hret⟩ | hleft
    · rw [hret] at hexits
      exact hexits.1
    · rw [hleft] at hexits
      exact hexits

/-- If the memory of `envs` holds only `ENV_FREE` statuses at first, the free list is exact
after every sequence of proper operations. -/
theorem free_list_exact (h : k0.envFreeList = none)
    (hzero : ∀ e < nenv, (k0.envs e).envStatus = .free) (hrun : History k0 Op.Proper k) :
    FreeListExact k := by
  induction hrun with
  | init => exact (freeListExact_envInit_iff h).mpr hzero
  | op _ op hop hrun ih => exact freeListExact_step ih hop hrun

def fewPages : Mem where
  npages := 16
  pages := fun p => { ppLink := if p < 15 then some (p + 1) else none, ppRef := 0 }
  pageFreeList := some 7
  phys := fun _ _ => 0
  wrapped := false

def zeroed : Kernel := initKernel smallMachine 0 fewPages

/-- The same with the number of `ENV_RUNNABLE` in every `env_status`. -/
def littered : Kernel := { zeroed with envs := fun _ => { zeroEnv with envStatus := .runnable } }

theorem envInitSlots_head (i : Nat) (k : Kernel) : (envInitSlots (i + 2) k).envFreeList = some 0 ∧
      ((envInitSlots (i + 2) k).envs 0).envLink = some 1 ∧
      (envInitSlots (i + 2) k).mem = k.mem := by
  induction i generalizing k with
  | zero => exact ⟨rfl, rfl, rfl⟩
  | succ i ih =>
    rw [envInitSlots]
    exact ih _

theorem envAlloc_ok {p : Nat} (parentId : Word) (hhead : k.envFreeList = some e)
    (hpage : k.mem.pageFreeList = some p) : ∃ k', envAlloc parentId k = (.ok e, k') ∧
      (k'.envs e).envStatus = .runnable ∧ k'.envFreeList = (k.envs e).envLink ∧
      k'.mem.pageFreeList = (k.mem.pages p).ppLink := by
  rw [envAlloc, hhead]
  simp only [envSetupVm, pageAlloc, hpage, if_neg (show ¬ isNeg 0 by decide)]
  exact ⟨_, rfl, by simp, by simp, rfl⟩

theorem zeroed_alloc : ∃ k, envAlloc 0 (envInit zeroed) = (.ok 0, k) ∧
    (k.envs 0).envStatus = .runnable ∧ k.envFreeList = some 1 ∧ k.mem.pageFreeList = some 8 := by
  obtain ⟨hhead, hlink, hmem⟩ := envInitSlots_head 1022 zeroed
  obtain ⟨k, hres, hstatus, hhead', hpage⟩ := envAlloc_ok (p := 7) 0 hhead (by rw [hmem]; rfl)
  exact ⟨k, hres, hstatus, hhead'.trans hlink, hpage.trans (by rw [hmem]; rfl)⟩

theorem setOwnStatus_runs (hw : Hw) (status : Word) (hst : statusOf status = some st) :
    (Op.syscall 0 0 hw (.envSetStatus 0 status)).Runs k
      ((k.setCurenv 0 (some 0)).setStatus 0 st) := by
  refine ⟨by decide, .inl ⟨0, ?_⟩⟩
  simp only [exec, sysEnvSetStatus, envid2env, if_pos, hst]

theorem free_list_exact_zeroed : ∃ k, History zeroed Op.Proper k ∧
    (k.envs 0).envStatus = .notRunnable ∧ FreeListExact k := by
  obtain ⟨k1, hres, hstatus, -⟩ := zeroed_alloc
  have hrun : (Op.envAlloc 0).Runs (envInit zeroed) k1 := by rw [Op.Runs, hres]
  have hk1 : History zeroed Op.Proper k1 := .op .init (.envAlloc 0) trivial hrun
  have hproper : (Op.syscall 0 0 ⟨0, 0⟩ (.envSetStatus 0 4)).Proper k1 := by
    refine ⟨by rw [hstatus]; decide, fun envid heq => ?_⟩
    injection heq with _ hzero
    exact absurd hzero (by decide)
  have hk2 := hk1.op _ hproper (setOwnStatus_runs ⟨0, 0⟩ 4
    (show statusOf 4 = some .notRunnable by decide))
  refine ⟨_, hk2, ?_, free_list_exact rfl (fun _ _ => rfl) hk2⟩
  rw [Kernel.setStatus, Kernel.setEnv_envs_self]

theorem not_freeListExact_setStatus (h : FreeListExact k) (he : e < nenv)
    (hstatus : (k.envs e).envStatus ≠ .free) : ¬ FreeListExact (k.setStatus e .free) := by
  rintro ⟨l', hchain', -, hmem'⟩
  obtain ⟨l, hchain, -, hmem⟩ := h
  have hsame : ∀ e', ((k.setStatus e .free).envs e').envLink = (k.envs e').envLink :=
    update_field _ rfl
  have hlink : Chain (fun e => (k.envs e).envLink) k.envFreeList l' :=
    hchain'.congr fun e' _ => (hsame e').symm
  have hin : e ∈ l' := (hmem' e).mpr ⟨he, by rw [Kernel.setStatus, Kernel.setEnv_envs_self]⟩
  rw [hlink.unique hchain] at hin
  exact hstatus ((hmem e).mp hin).2

/-- Statuses left in memory survive `env_init`, and an environment can give itself the
status `ENV_FREE`. -/
theorem env_free_list_inexact : (littered.envFreeList = none ∧ ¬ FreeListExact (envInit littered)) ∧
      ∃ k, History zeroed (fun _ _ => True) k ∧ ¬ FreeListExact k := by
  refine ⟨⟨rfl, fun h => ?_⟩, ?_⟩
  · have hfree := (freeListExact_envInit_iff rfl).mp h 0 (by decide)
    exact absurd hfree (by decide)
  obtain ⟨k1, hres, hstatus, -⟩ := zeroed_alloc
  have hrun : (Op.envAlloc 0).Runs (envInit zeroed) k1 := by rw [Op.Runs, hres]
  have hexact : FreeListExact k1 :=
    freeListExact_step ((freeListExact_envInit_iff rfl).mpr fun _ _ => rfl)
      (show (Op.envAlloc 0).Proper _ from trivial) hrun
  have hk1 : History zeroed (fun _ _ => True) k1 := .op .init (.envAlloc 0) trivial hrun
  refine ⟨_, hk1.op _ trivial (setOwnStatus_runs ⟨0, 0⟩ 0 rfl), ?_⟩
  refine not_freeListExact_setStatus ?_ (by decide) ?_
  · exact hexact.congr rfl (fun _ => rfl) fun _ => Iff.rfl
  · change (k1.envs 0).envStatus ≠ .free
    rw [hstatus]
    decide

end Mit6828.Kern.EnvFreeList
