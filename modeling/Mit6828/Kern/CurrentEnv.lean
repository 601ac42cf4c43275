import Mit6828.Kern.EnvTable
import Mit6828.Kern.Execution

namespace Mit6828.Kern.CurrentEnv

open Mmu Pmap AddressSpace Environment Syscall Trap KernelInvariant EnvSpec EnvTable Boot BootSpec
open Execution Library.IntrusiveList Function

def Busy (st : EnvStatus) : Prop := st = .running ∨ st = .dying
deriving Decidable

/-- The invariant behind it.  The status of the environment `exempt`, for which the kernel is
at work, is left open. -/
structure Cpus (exempt : Option Nat) (k : Kernel) : Prop where
  outside : ∀ c, k.ncpu ≤ c → k.curenv c = none
  apart : ∀ c c' e, k.curenv c = some e → k.curenv c' = some e → c = c'
  busy : ∀ e, exempt ≠ some e → (Busy (k.envs e).envStatus ↔ ∃ c, k.curenv c = some e)
  live : ∀ c e, k.curenv c = some e → (k.envs e).envPgdir ≠ none
  freeEnvs : FreeEnvs NoPgdir k

structure Inside (c : Nat) (k : Kernel) : Prop where
  lt : c < k.ncpu
  cpus : Cpus (k.curenv c) k
  alive : ∀ e, k.curenv c = some e → (k.envs e).envStatus ≠ .dying

variable {h : Machine} {k k' : Kernel} {c cur e d : Nat} {st : EnvStatus} {x : Option Nat}
  {call : Call}

theorem Cpus.weaken (hk : Cpus none k) (x : Option Nat) : Cpus x k :=
  { hk with busy := fun e _ => hk.busy e (by simp) }

theorem Cpus.same (hk : Cpus x k) (hsame : SameLinks k k') : Cpus x k' := by
  refine ⟨fun c hc => ?_, fun c c' e => ?_, fun e he => ?_, fun c e => ?_,
    hk.freeEnvs.congr hsame.envFreeList hsame.link fun e => (hsame.pgdir e).trans⟩
  · rw [hsame.curenv]
    exact hk.outside c (hsame.ncpu ▸ hc)
  · rw [hsame.curenv, hsame.curenv]
    exact hk.apart c c' e
  · simp only [hsame.status, hsame.curenv]
    exact hk.busy e he
  · rw [hsame.curenv, hsame.pgdir]
    exact hk.live c e

theorem Cpus.setStatus (hk : Cpus x k)
    (he : x = some e ∨ (Busy st ↔ Busy (k.envs e).envStatus)) : Cpus x (k.setStatus e st) := by
  have hself : (k.setStatus e st).envs e = { k.envs e with envStatus := st } :=
    Kernel.setEnv_envs_self
  have hother : ∀ e', e' ≠ e → (k.setStatus e st).envs e' = k.envs e' := fun e' hne =>
    Kernel.setEnv_envs_of_ne hne
  have hfields : ∀ e', ((k.setStatus e st).envs e').envPgdir = (k.envs e').envPgdir ∧
      ((k.setStatus e st).envs e').envLink = (k.envs e').envLink := fun e' =>
    ⟨update_field _ (by rfl) e', update_field _ (by rfl) e'⟩
  refine ⟨hk.outside, hk.apart, fun e' he' => ?_, fun c e' hc => ?_, hk.freeEnvs.congr
    rfl (fun e' => (hfields e').2) fun e' => (hfields e').1.trans⟩
  · by_cases heq : e' = e
    · subst heq
      rw [hself]
      exact (he.resolve_left he').trans (hk.busy e' he')
    · rw [hother e' heq]
      exact hk.busy e' he'
  · rw [(hfields e').1]
    exact hk.live c e' hc

theorem Cpus.leave (cpu : CpuInfo) (hk : Cpus (k.curenv c) k) (hcpu : cpu.cpuEnv = none) :
    Cpus (k.curenv c) { k with cpus := update k.cpus c cpu } ∧
      ∀ e, k.curenv c = some e → ∀ c', (update k.cpus c cpu c').cpuEnv ≠ some e := by
  have hiff : ∀ c' e, (update k.cpus c cpu c').cpuEnv = some e ↔
      c' ≠ c ∧ k.curenv c' = some e := fun c' e => by
    by_cases heq : c' = c
    · simp [heq, hcpu]
    · simp [heq, Kernel.curenv]
  refine ⟨⟨fun c' hc' => ?_, fun c1 c2 e h1 h2 => ?_, fun e he => ?_, fun c' e hc' => ?_,
    hk.freeEnvs⟩, fun e he c' hc' => ?_⟩
  · exact Option.eq_none_iff_forall_ne_some.mpr fun e he => by
      simpa [hk.outside c' hc'] using (hiff c' e).mp he
  · exact hk.apart c1 c2 e ((hiff _ _).mp h1).2 ((hiff _ _).mp h2).2
  · refine (hk.busy e he).trans (exists_congr fun c' => ?_)
    exact ⟨fun hc' => (hiff _ _).mpr ⟨fun heq => he (heq ▸ hc'), hc'⟩,
      fun hc' => ((hiff _ _).mp hc').2⟩
  · exact hk.live c' e ((hiff _ _).mp hc').2
  · obtain ⟨hne, hc'⟩ := (hiff c' e).mp hc'
    exact hne (hk.apart c' c e hc' he)

theorem Cpus.freed {y : Option Nat} {m : Mem} (hk : Cpus x k) (hpgdir : (k.envs e).envPgdir ≠ none)
    (hoff : ∀ c, k.curenv c ≠ some e) (hy : ∀ e', e' ≠ e → y ≠ some e' → x ≠ some e') :
    Cpus y (freed e m k) := by
  refine ⟨hk.outside, hk.apart, fun e' he' => ?_, fun c e' hc => ?_, hk.freeEnvs.push
    rfl (by simp) (fun _ hne => update_of_ne hne _ _) hpgdir (by simp)⟩
  · by_cases heq : e' = e
    · subst heq
      simp only [update_self]
      exact iff_of_false (by decide) fun ⟨c, hc⟩ => hoff c hc
    · simp only [update_of_ne heq]
      exact hk.busy e' (hy e' heq he')
  · have hne : e' ≠ e := fun heq => hoff c (heq ▸ hc)
    simp only [update_of_ne hne]
    exact hk.live c e' hc

theorem Cpus.gone (hk : Cpus (some e) k) (hlt : c < k.ncpu) (hcur : k.curenv c = some e)
    (hfree : envFree e k = some k') : Inside c (k'.setCurenv c none) := by
  have hlive := hk.live c e hcur
  obtain ⟨d, m, -, rfl⟩ := envFree_eq_some hfree
  rw [← hcur] at hk
  obtain ⟨hleft, hoff⟩ := hk.leave { k.cpus c with cpuEnv := none } rfl
  refine ⟨hlt, ?_, fun e' he' => ?_⟩
  · rw [Kernel.setCurenv_curenv_self]
    exact hleft.freed hlive (hoff e hcur) fun e' hne _ heq =>
      hne (Option.mem_unique heq hcur)
  · rw [Kernel.setCurenv_curenv_self] at he'
    cases he'

section

variable (hk : Inside c k)
include hk

theorem Inside.setStatus (he : k.curenv c = some e ∧ st ≠ .dying ∨
      k.curenv c ≠ some e ∧ (Busy st ↔ Busy (k.envs e).envStatus)) :
    Inside c (k.setStatus e st) := by
  refine ⟨hk.lt, hk.cpus.setStatus (he.imp And.left And.right), fun e' he' => ?_⟩
  have hcur : k.curenv c = some e' := he'
  by_cases heq : e' = e
  · subst heq
    rw [Kernel.setStatus, Kernel.setEnv_envs_self]
    exact (he.resolve_right fun hne => hne.1 hcur).2
  · rw [Kernel.setStatus, Kernel.setEnv_envs_of_ne heq]
    exact hk.alive e' hcur

theorem Inside.same (hsame : SameLinks k k') : Inside c k' := by
  refine ⟨hsame.ncpu ▸ hk.lt, ?_, fun e he => ?_⟩
  · rw [hsame.curenv]
    exact hk.cpus.same hsame
  · rw [hsame.status]
    exact hk.alive e (hsame.curenv c ▸ he)

theorem Inside.run (he : (k.envs e).envStatus = .runnable ∨ k.curenv c = some e)
    (hpgdir : (k.envs e).envPgdir ≠ none) (hran : Ran c e k k') : Cpus none k' := by
  have hstate := hran.state
  have hpgdirs := hran.field Env.envPgdir fun _ _ _ _ => rfl
  have honly : ∀ c', k.curenv c' = some e → c' = c := fun c' hc' => by
    by_cases hcur : k.curenv c = some e
    · exact hk.cpus.apart c' c e hc' hcur
    · have hrun := he.resolve_right hcur
      have hbusy := (hk.cpus.busy e hcur).mpr ⟨c', hc'⟩
      rw [hrun] at hbusy
      exact absurd hbusy (by decide)
  refine ⟨fun c' hc' => ?_, fun c1 c2 e' => hran.apart (fun heq c' hc' => honly c' (heq ▸ hc'))
    (hk.cpus.apart c1 c2 e'), fun e' _ => ?_, fun c' e' hc' => ?_, hk.cpus.freeEnvs.congr
    (by rw [hstate]) (hran.field Env.envLink fun _ _ _ _ => rfl) fun e' =>
      (hpgdirs e').trans⟩
  · have hge : k.ncpu ≤ c' := by
      rw [hstate] at hc'
      exact hc'
    have hne : c' ≠ c := fun heq => absurd hk.lt (by omega)
    rw [hran.others c' hne]
    exact hk.cpus.outside c' hge
  · rw [hran.status_eq e', statusAfter]
    simp only [hran.curenv_iff]
    by_cases heq : e' = e
    · rw [if_pos heq]
      exact iff_of_true (.inl rfl) ⟨c, .inl ⟨rfl, heq⟩⟩
    rw [if_neg heq]
    by_cases hcur : k.curenv c = some e'
    · refine iff_of_false ?_ ?_
      · by_cases hrun : (k.envs e').envStatus = .running
        · rw [if_pos ⟨hcur, hrun⟩]
          decide
        · rw [if_neg fun hboth => hrun hboth.2]
          exact fun hbusy => hbusy.elim hrun (hk.alive e' hcur)
      · rintro ⟨c', ⟨-, heq'⟩ | ⟨hne, hc'⟩⟩
        · exact heq heq'
        · exact hne (hk.cpus.apart c' c e' hc' hcur)
    · rw [if_neg fun hboth => hcur hboth.1, hk.cpus.busy e' hcur]
      refine exists_congr fun c' => ⟨fun hc' => .inr ⟨fun hc => hcur (hc ▸ hc'), hc'⟩, ?_⟩
      rintro (⟨-, heq'⟩ | ⟨-, hc'⟩)
      · exact absurd heq' heq
      · exact hc'
  · rw [hpgdirs]
    rcases hran.curenv_iff.mp hc' with ⟨rfl, rfl⟩ | ⟨-, hc'⟩
    · exact hpgdir
    · exact hk.cpus.live c' e' hc'

theorem Inside.halt
    (hidle : ∀ e, k.curenv c = some e → (k.envs e).envStatus ≠ .running) :
    Cpus none (k.halted c) := by
  obtain ⟨hleft, hoff⟩ := hk.cpus.leave ⟨.halted, none⟩ rfl
  refine { hleft with busy := fun e _ => ?_ }
  by_cases hcur : k.curenv c = some e
  · exact iff_of_false (fun hbusy => hbusy.elim (hidle e hcur) (hk.alive e hcur))
      fun ⟨c', hc'⟩ => hoff e hcur c' hc'
  · exact hleft.busy e hcur

theorem Inside.fork {p : Nat} {env : Env} (hhead : k.envFreeList = some e)
    (henv : entry env = (.notRunnable, some p, (k.envs e).envLink, (k.envs e).envIpcDstva,
      nextEnvId (k.envs e).envId e)) :
    Inside c { k.setEnv e env with envFreeList := (k.envs e).envLink } := by
  have hstatus : env.envStatus = .notRunnable := congrArg Prod.fst henv
  obtain ⟨hnone, hpop⟩ := hk.cpus.freeEnvs.pop hhead
  have hoff : ∀ c', k.curenv c' ≠ some e := fun c' hc' => hk.cpus.live c' e hc' hnone
  have hself : (k.setEnv e env).envs e = env := Kernel.setEnv_envs_self
  have hother : ∀ e', e' ≠ e → (k.setEnv e env).envs e' = k.envs e' := fun e' hne =>
    Kernel.setEnv_envs_of_ne hne
  have hcurne : ∀ c' e', k.curenv c' = some e' → e' ≠ e := fun c' e' hc' heq =>
    hoff c' (heq ▸ hc')
  refine ⟨hk.lt, ⟨hk.cpus.outside, hk.cpus.apart, fun e' he' => ?_, fun c' e' hc' => ?_,
    hpop _ rfl hother⟩, fun e' he' => ?_⟩
  · change Busy ((k.setEnv e env).envs e').envStatus ↔ ∃ c', k.curenv c' = some e'
    by_cases heq : e' = e
    · rw [heq, hself, hstatus]
      exact iff_of_false (by decide) fun ⟨c', hc'⟩ => hoff c' hc'
    · rw [hother e' heq]
      exact hk.cpus.busy e' he'
  · change ((k.setEnv e env).envs e').envPgdir ≠ none
    rw [hother e' (hcurne c' e' hc')]
    exact hk.cpus.live c' e' hc'
  · change ((k.setEnv e env).envs e').envStatus ≠ .dying
    rw [hother e' (hcurne c e' he')]
    exact hk.alive e' he'

end

/-- The calls that keep statuses and CPUs in step: a status set by `sys_env_set_status` or by
a delivered message leaves an environment that is on another CPU there, and puts no other on
a CPU; nobody destroys an environment that is `ENV_DYING` already. -/
def Tame (cur : Nat) (k : Kernel) : Call → Prop
  | .envSetStatus envid status => ∀ e st, envid2env cur envid true k = some e →
      statusOf status = some st →
        e = cur ∧ st ≠ .dying ∨ e ≠ cur ∧ (Busy st ↔ Busy (k.envs e).envStatus)
  | .envDestroy envid => ∀ e, envid2env cur envid true k = some e → (k.envs e).envStatus ≠ .dying
  | .ipcTrySend envid _ _ _ => ∀ dst, envid2env cur envid false k = some dst →
      (k.envs dst).envIpcRecving = true → (k.envs dst).envIpcFrom = 0 →
        dst = cur ∨ ¬ Busy (k.envs dst).envStatus
  | _ => True

theorem Tame.alike (hcall : Tame cur k call) (hk : Alike k k') : Tame cur k' call := by
  cases call with
  | envSetStatus envid status =>
    intro e st
    rw [hk.envid2env_eq, hk.status_eq]
    exact hcall e st
  | envDestroy envid =>
    intro e
    rw [hk.envid2env_eq, hk.status_eq]
    exact hcall e
  | ipcTrySend envid value srcva perm =>
    intro dst
    obtain ⟨tf, runs, cpu, heq⟩ := hk.env dst
    rw [hk.envid2env_eq, heq]
    exact hcall dst
  | _ => trivial

section Trap

variable (hw : Hw) {tf : Trapframe}

end Trap

end Mit6828.Kern.CurrentEnv
