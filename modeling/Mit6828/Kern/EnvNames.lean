import Mit6828.Kern.EnvTable
import Mit6828.Kern.Execution

namespace Mit6828.Kern.EnvNames

open Mmu Environment Syscall EnvSpec EnvTable Boot BootSpec Execution

/-- Every `env_id` is 0, as before the first use of its slot, or positive with the slot in its
low bits. -/
def Named (k : Kernel) : Prop :=
  ∀ e < nenv, ¬ isNeg (k.envs e).envId ∧ ((k.envs e).envId ≠ 0 → envx (k.envs e).envId = e)

variable {h : Machine} {k k' : Kernel} {e cur x : Nat} {env : Env} {checkperm : Bool}

theorem Named.congr (hk : Named k) (hid : ∀ e, (k'.envs e).envId = (k.envs e).envId) :
    Named k' := by
  intro e he
  rw [hid]
  exact hk e he

theorem named_of_mem (hk : Named k) (hmem : k' = { k with mem := k'.mem }) : Named k' := by
  rw [hmem]
  exact hk.congr fun _ => rfl

theorem Named.setEnv (hk : Named k) (hid : env.envId = (k.envs e).envId) : Named (k.setEnv e env) :=
  hk.congr (update_field _ hid)

theorem Named.next (hk : Named k) (hid : env.envId = nextEnvId (k.envs e).envId e) :
    Named (k.setEnv e env) := by
  intro e' he'
  by_cases heq : e' = e
  · subst heq
    obtain ⟨hx, -, hpos⟩ := nextEnvId_spec (k.envs e').envId he'
    rw [Kernel.setEnv_envs_self, hid]
    exact ⟨hpos, fun _ => hx⟩
  · rw [Kernel.setEnv_envs_of_ne heq]
    exact hk e' he'

theorem Named.envFree (hk : Named k) (hfree : envFree e k = some k') : Named k' := by
  obtain ⟨d, m, -, rfl⟩ := envFree_eq_some hfree
  exact hk.congr (update_field Env.envId rfl)

theorem keeps_named (c : Nat) : Keeps c Named Named where
  same hk hsame := hk.congr fun e => congrArg (fun x => x.2.2.2.2) (hsame.entry e)
  run hk _ _ hran := hk.congr (hran.field Env.envId fun _ _ _ _ => rfl)
  halt hk _ := hk
  gone {_ k' _} hk _ hfree := show Named k' from hk.envFree hfree
  block _ hk _ := hk.setEnv rfl
  fork _ _ hk _ henv := hk.next (congrArg (fun x => x.2.2.2.2) henv)

theorem permits_named (hk : Named k) (call : Call) : Permits cur Named k call :=
  ⟨⟨fun _ _ _ _ _ _ _ => hk.setEnv rfl, fun _ _ _ _ _ _ => hk.setEnv rfl,
    fun _ _ _ _ _ _ _ hfree => hk.envFree hfree⟩, fun _ _ _ _ _ _ _ _ _ => hk.setEnv rfl⟩

theorem named_step (hk : Named k) (hstep : Step k k') : Named k' := by
  obtain ⟨cpu, hstep⟩ := hstep
  cases hstep with
  | trap c hw tf _ hmode _ htrap =>
    have hexits := (keeps_named c).trap hw (show Named (Trap.cpuStarted c k) from hk) hmode
      fun _ call hk => permits_named hk call
    rw [htrap] at hexits
    exact hexits
  | start c _ _ hyield => exact (keeps_named c).respects.schedYield hk hyield
  | store => exact hk
  | device => exact hk

theorem named_issue (hk : Named k) (hissue : Issue k k') : Named k' := by
  obtain ⟨c, e, hw, call, -, -, hres⟩ := hissue
  have hin : Named (k.setCurenv c (some e)) := hk
  have hexits := exits_exec (keeps_named c) hw hin Kernel.setCurenv_curenv_self
    (permits_named hin call)
  rcases hres with ⟨r, hres⟩ | hres
  · rw [hres] at hexits
    exact hexits
  · rw [hres] at hexits
    exact hexits

theorem reachable_named (hk : Reachable h NoWrap k) : Named k := by
  induction hk with
  | @boot k hk =>
    obtain ⟨K, free, hs, -⟩ := (i386Init_outcome h).holds _ hk
    intro e he
    by_cases hmade : e < 3
    · obtain ⟨hx, -, hpos⟩ := nextEnvId_spec 0 he
      rw [(hs.made e hmade).id]
      exact ⟨hpos, fun _ => hx⟩
    · obtain ⟨link, hblank⟩ := hs.blank e (Nat.le_of_not_lt hmade)
      have hid : (k.envs e).envId = 0 := by rw [hblank]; rfl
      rw [hid]
      exact ⟨by decide, fun hne => absurd rfl hne⟩
  | step _ hR ih => exact hR.1.elim (named_step ih) (named_issue ih)

theorem envid2env_eq_some {envid : Word} (hne : envid ≠ 0)
    (hfound : envid2env cur envid checkperm k = some x) :
    envx envid = x ∧ (k.envs x).envId = envid := by
  rcases envid2env_cases hfound with ⟨hzero, -⟩ | ⟨-, hx, -, hid, -⟩
  · exact absurd hzero hne
  · exact ⟨hx, hid⟩

theorem envid2env_neg {r : Word} (hk : Named k)
    (hcur : cur < nenv) (hr : isNeg r) : envid2env cur r checkperm k = none := by
  have hne : r ≠ 0 := by
    rintro rfl
    exact absurd hr (by decide)
  cases hfound : envid2env cur r checkperm k with
  | none => rfl
  | some x =>
    obtain ⟨-, hid⟩ := envid2env_eq_some hne hfound
    exact absurd (hid ▸ hr) (hk x (PageCallSpec.envid2env_lt hcur hfound)).1

theorem envid2env_self (hk : Named k) (he : e < nenv)
    (hfound : envid2env e (k.envs e).envId checkperm k = some x) : x = e := by
  by_cases hzero : (k.envs e).envId = 0
  · rw [hzero, envid2env, if_pos rfl] at hfound
    exact (Option.some.inj hfound).symm
  · exact (envid2env_eq_some hzero hfound).1.symm.trans ((hk e he).2 hzero)

/-- In every reachable state an id leads to the live environment that has it and to no other. -/
theorem envid2env_exact {envid : Word} (hk : Reachable h NoWrap k) (he : e < nenv)
    (hne : envid ≠ 0) :
    envid2env cur envid checkperm k = some e ↔
      (k.envs e).envStatus ≠ .free ∧ (k.envs e).envId = envid ∧
        (checkperm = true → e = cur ∨ (k.envs e).envParentId = (k.envs cur).envId) := by
  have hslot := (reachable_named hk e he).2
  constructor
  · intro hfound
    grind [envid2env]
  · rintro ⟨hlive, rfl, hperm⟩
    rw [envid2env, if_neg hne, hslot hne]
    grind

theorem envid2env_exact_small : ∃ k, Reachable smallMachine NoWrap k ∧
    envid2env 0 (k.envs 0).envId true k = some 0 := by
  obtain ⟨K, k, free, hk⟩ := smallMachine_runs
  have hreach := hk.reach.mono fun _ _ hstep => hstep.noWrap
  have hid := (hk.made 0 (by decide)).id
  exact ⟨k, hreach, (envid2env_exact hreach (by decide) (hid ▸ by decide)).mpr
    ⟨hk.running ▸ by decide, rfl, fun _ => .inl rfl⟩⟩

end Mit6828.Kern.EnvNames
