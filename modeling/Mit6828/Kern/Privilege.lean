import Mit6828.Kern.EnvTable
import Mit6828.Kern.Isolation

/-!
The privileges in the saved trap frames.  The file server runs with IOPL 3; every other
environment is to run in ring 3 with interrupts on and IOPL 0.

User code can change IF and IOPL only when IOPL is 3, so a run keeps, for each CPU, the flags
with which it has left the kernel.
-/

namespace Mit6828.Kern.Privilege

open Mmu Pmap AddressSpace Environment Syscall Trap RefInvariant KernelInvariant EnvSpec
open EnvTable Boot BootSpec Execution Isolation Library.IntrusiveList Function

/-- Interrupts are on and the I/O ports are not accessible. -/
def UserFlags (eflags : Word) : Prop := eflags &&& flIf ≠ 0 ∧ eflags &&& flIoplMask = 0
deriving Decidable

def UserFrame (tf : Trapframe) : Prop := tf.tfCs &&& 3 = 3 ∧ UserFlags tf.tfEflags
deriving Decidable

/-- What user code can make of the flags it was started with. -/
def FlagsKept (old new : Word) : Prop :=
  old &&& flIoplMask ≠ flIoplMask → new &&& (flIf ||| flIoplMask) = old &&& (flIf ||| flIoplMask)

/-- The machine, with the flags that each CPU has loaded when it last left the kernel. -/
structure State where
  kernel : Kernel
  eflags : Nat → Word

def State.left (eflags : Nat → Word) (c : Nat) (k : Kernel) : State where
  kernel := k
  eflags :=
    match k.curenv c with
    | some e => update eflags c (k.envs e).envTf.tfEflags
    | none => eflags

/-- A step of the machine in which user mode has kept the flags and the trap is `allowed`. -/
def FlagStep (allowed : Nat → Trapframe → Kernel → Prop) (s s' : State) : Prop :=
  ∃ cpu k', StepOf (fun c tf => (tf.tfCs &&& 3 = 3 → FlagsKept (s.eflags c) tf.tfEflags) ∧
      allowed c tf s.kernel) (fun _ => True) s.kernel cpu k' ∧
    s' = cpu.elim ⟨k', s.eflags⟩ (State.left s.eflags · k')

/-- Runs in which no `pp_ref` wraps around. -/
inductive Runs (h : Machine) (allowed : Nat → Trapframe → Kernel → Prop) : State → Prop
  | boot {k : Kernel} (eflags : Nat → Word) (hk : i386Init h = some k) : Runs h allowed ⟨k, eflags⟩
  | step {s s' : State} (hs : Runs h allowed s) (hstep : FlagStep allowed s s')
      (hw : s'.kernel.mem.wrapped = false) : Runs h allowed s'

/-- The slot is free and current on no CPU, where `cur` are the current environments. -/
def Idle (cur : Nat → Option Nat) (e : Nat) (env : Env) : Prop :=
  env.envStatus = .free ∧ ∀ c, cur c ≠ some e

abbrev Unused (k : Kernel) (e : Nat) : Prop := Idle k.curenv e (k.envs e)

/-- The file server: on the CPUs of `B` it is not about to leave. -/
structure ServerOk (B : Nat → Prop) (cur : Nat → Option Nat) (e : Nat) (env : Env) : Prop where
  parent : env.envParentId = 0
  alone : ∀ c c', cur c = some e → cur c' = some e → c' = c
  home : ∀ c, B c → cur c = some e → env.envStatus = .running
  live : ∀ c, cur c = some e → env.envPgdir ≠ none
  waits : env.envIpcRecving = true → env.envStatus ≠ .running ∧ env.envStatus ≠ .runnable

/-- An environment: the CPUs of `A` are in user mode with flags that fit theirs. -/
structure EnvOk (A B : Nat → Prop) (eflags : Nat → Word) (cur : Nat → Option Nat) (e : Nat)
    (env : Env) : Prop where
  named : env.envId ≠ 0 ∨ Idle cur e env
  frame : env.envType ≠ .fs → UserFrame env.envTf ∨ Idle cur e env
  flags : ∀ c, A c → cur c = some e → env.envType ≠ .fs → UserFlags (eflags c)
  server : env.envType = .fs → ServerOk B cur e env

/-- The invariant. -/
structure Guarded (A B : Nat → Prop) (eflags : Nat → Word) (k : Kernel) : Prop where
  env : ∀ e, EnvOk A B eflags k.curenv e (k.envs e)
  freeEnvs : FreeEnvs NoPgdir k

def Inside (c : Nat) (eflags : Nat → Word) : Kernel → Prop :=
  Guarded (fun c' => c' ≠ c) (fun _ => True) eflags

def Leaving (c : Nat) (eflags : Nat → Word) : Kernel → Prop :=
  Guarded (fun c' => c' ≠ c) (fun c' => c' ≠ c) eflags

def Outside (s : State) : Prop := Guarded (fun _ => True) (fun _ => True) s.eflags s.kernel

variable {A B A' B' : Nat → Prop} {eflags : Nat → Word} {k k' : Kernel} {c cur e : Nat} {env : Env}
  {m : Mem} {envid : Word}

theorem used_of_curenv (hcur : k.curenv c = some e) : ¬ Unused k e := fun h => h.2 c hcur

theorem used_of_status (hst : (k.envs e).envStatus ≠ .free) : ¬ Unused k e := fun h => hst h.1

theorem curenv_of_dropped {c' : Nat} (h : (k.setCurenv c none).curenv c' = some e) :
    c' ≠ c ∧ k.curenv c' = some e := by
  by_cases hc : c' = c
  · rw [hc, Kernel.setCurenv_curenv_self] at h
    cases h
  · exact ⟨hc, Kernel.setCurenv_curenv_of_ne hc ▸ h⟩

namespace Guarded

section

variable (h : Guarded A B eflags k)
include h

/-- Fewer environments are current. -/
theorem mono
    (hsub : ∀ {c e}, k'.curenv c = some e → k.curenv c = some e ∧ (A' c → A c) ∧ (B' c → B c))
    (henvs : k'.envs = k.envs) (hlist : k'.envFreeList = k.envFreeList) :
    Guarded A' B' eflags k' := by
  refine ⟨fun e => ?_, h.freeEnvs.congr hlist (fun e => by rw [henvs]) fun e => by simp [henvs]⟩
  have he := h.env e
  have hkept : Unused k e → Idle k'.curenv e (k.envs e) := fun hu =>
    ⟨hu.1, fun c hcur => hu.2 c (hsub hcur).1⟩
  rw [henvs]
  refine ⟨he.named.imp_right hkept, fun ht => (he.frame ht).imp_right hkept,
    fun c hc hcur => he.flags c ((hsub hcur).2.1 hc) (hsub hcur).1, fun ht => ?_⟩
  have hs := he.server ht
  exact ⟨hs.parent, fun c c' hcur hcur' => hs.alone c c' (hsub hcur).1 (hsub hcur').1,
    fun c hc hcur => hs.home c ((hsub hcur).2.2 hc) (hsub hcur).1,
    fun c hcur => hs.live c (hsub hcur).1, hs.waits⟩

theorem weaken (hA : ∀ c, A' c → A c) (hB : ∀ c, B' c → B c) : Guarded A' B' eflags k :=
  h.mono (fun hcur => ⟨hcur, hA _, hB _⟩) rfl rfl

theorem same (hsame : SameEnvs k k') : Guarded A B eflags k' :=
  h.mono (fun hcur => ⟨hsame.curenv _ ▸ hcur, id, id⟩) hsame.envs hsame.envFreeList

/-- One environment changes. -/
theorem change (hcur : ∀ c, k'.curenv c = k.curenv c)
    (hother : ∀ e', e' ≠ e → k'.envs e' = k.envs e') (hself : k'.envs e = env)
    (henv : EnvOk A B eflags k.curenv e env) (hfree : FreeEnvs NoPgdir k') :
    Guarded A B eflags k' := by
  refine ⟨fun e' => ?_, hfree⟩
  rw [funext hcur]
  by_cases heq : e' = e
  · rw [heq, hself]
    exact henv
  · rw [hother e' heq]
    exact h.env e'

section

variable (htype : env.envType = (k.envs e).envType) (hid : env.envId = (k.envs e).envId)
  (hparent : env.envParentId = (k.envs e).envParentId) (hpgdir : env.envPgdir = (k.envs e).envPgdir)
  (hlink : env.envLink = (k.envs e).envLink)
include htype hid hparent hpgdir hlink

theorem setEnv (hunused : Unused k e → env.envStatus = .free)
    (hframe : (k.envs e).envType ≠ .fs → UserFrame env.envTf ∨ Unused k e)
    (hserver : (k.envs e).envType = .fs →
      (∀ c, B c → k.curenv c = some e → env.envStatus = .running) ∧
      (env.envIpcRecving = true → env.envStatus ≠ .running ∧ env.envStatus ≠ .runnable)) :
    Guarded A B eflags (k.setEnv e env) := by
  have he := h.env e
  have hkept : Unused k e → Idle k.curenv e env := fun hu => ⟨hunused hu, hu.2⟩
  refine h.change (fun _ => rfl) (fun _ hne => Kernel.setEnv_envs_of_ne hne)
    Kernel.setEnv_envs_self ⟨he.named.imp (fun hne => hid ▸ hne) hkept,
      fun ht => (hframe (htype ▸ ht)).imp_right hkept,
      fun c hc hcur ht => he.flags c hc hcur (htype ▸ ht), fun ht => ?_⟩
    (h.freeEnvs.congr rfl (update_field _ hlink) fun e' => (update_field _ hpgdir e').trans)
  rw [htype] at ht
  have hs := he.server ht
  exact ⟨hparent.trans hs.parent, hs.alone, (hserver ht).1, fun c hcur => hpgdir ▸ hs.live c hcur,
    (hserver ht).2⟩

theorem setFrame (hstatus : env.envStatus = (k.envs e).envStatus)
    (hrecving : env.envIpcRecving = (k.envs e).envIpcRecving)
    (hframe : (k.envs e).envType ≠ .fs → UserFrame env.envTf ∨ Unused k e) :
    Guarded A B eflags (k.setEnv e env) := by
  refine h.setEnv htype hid hparent hpgdir hlink (fun hu => hstatus.trans hu.1) hframe
    fun he => ⟨fun c hc hcur => hstatus.trans (((h.env e).server he).home c hc hcur), fun hr => ?_⟩
  rw [hstatus]
  exact ((h.env e).server he).waits (hrecving ▸ hr)

end

theorem setStatus {st : EnvStatus} (he : (k.envs e).envType ≠ .fs)
    (hused : ¬ Unused k e) : Guarded A B eflags (k.setStatus e st) :=
  h.setEnv rfl rfl rfl rfl rfl (fun hu => absurd hu hused) (h.env e).frame
    fun hfs => absurd hfs he

theorem drop (c : Nat) : Guarded A B eflags (k.setCurenv c none) :=
  h.mono (fun hcur => ⟨(curenv_of_dropped hcur).2, id, id⟩) rfl rfl

end

theorem leaving (h : Inside c eflags k) : Leaving c eflags k :=
  h.weaken (fun _ hc => hc) fun _ _ => trivial

theorem freed (h : Guarded A B eflags k)
    (hoff : (k.envs e).envType = .fs → ∀ c, k.curenv c ≠ some e)
    (hpgdir : (k.envs e).envPgdir ≠ none) (hk' : k' = EnvSpec.freed e m k) :
    Guarded A B eflags k' := by
  have he := h.env e
  have hself : k'.envs e = { k.envs e with
      envPgdir := none, envStatus := .free, envLink := k.envFreeList } := by
    rw [hk']
    exact update_self ..
  have hkept : Unused k e → Idle k.curenv e (k'.envs e) := fun hu => ⟨by rw [hself], hu.2⟩
  rw [hself] at hkept
  have hother : ∀ e', e' ≠ e → k'.envs e' = k.envs e' := fun e' hne => by
    rw [hk']
    exact update_of_ne hne ..
  refine h.change (fun c => by rw [hk']; rfl) hother hself ⟨he.named.imp_right hkept,
    fun ht => (he.frame ht).imp_right hkept, he.flags, fun ht => ?_⟩
    (h.freeEnvs.push (by rw [hk']) (by rw [hself]) hother hpgdir (by rw [hself]))
  exact ⟨(he.server ht).parent, fun c c' hcur => absurd hcur (hoff ht c),
    fun c _ hcur => absurd hcur (hoff ht c), fun c hcur => absurd hcur (hoff ht c),
    fun _ => ⟨EnvStatus.noConfusion, EnvStatus.noConfusion⟩⟩

theorem ran (h : Leaving c eflags k) (hused : ¬ Unused k e)
    (hserver : (k.envs e).envType = .fs → (k.envs e).envStatus = .runnable ∨
      k.curenv c = some e ∧ (k.envs e).envStatus = .running)
    (hpgdir : (k.envs e).envPgdir ≠ none) (hran : Ran c e k k') : Outside (.left eflags c k') := by
  have hleft : State.left eflags c k' = ⟨k', update eflags c (k'.envs e).envTf.tfEflags⟩ := by
    rw [State.left, hran.curenv]
  have honly : (k.envs e).envType = .fs → ∀ c', k.curenv c' = some e → c' = c :=
    fun ht c' hcur => by
      have hs := (h.env e).server ht
      by_contra hc
      rcases hserver ht with hrun | ⟨hcur', -⟩
      · rw [hs.home c' hc hcur] at hrun
        cases hrun
      · exact hc (hs.alone c c' hcur' hcur)
  rw [hleft]
  refine ⟨fun e' => ?_, h.freeEnvs.congr (by rw [hran.state])
    (hran.field Env.envLink fun _ _ _ _ => rfl)
    fun e' => (hran.field Env.envPgdir (fun _ _ _ _ => rfl) e').trans⟩
  obtain ⟨runs, cpu, henv⟩ := hran.env e'
  have he := h.env e'
  have hkept : Unused k e' → Idle k'.curenv e' (k'.envs e') := fun hu => by
    have hne : e' ≠ e := fun heq => hused (heq ▸ hu)
    refine ⟨?_, fun c' hcur => ?_⟩
    · rw [hran.status_eq, statusAfter, if_neg hne, if_neg fun hc => hu.2 c hc.1]
      exact hu.1
    · rcases hran.curenv_iff.mp hcur with ⟨-, heq⟩ | ⟨-, hcur⟩
      · exact hne heq
      · exact hu.2 c' hcur
  rw [henv] at hkept
  change EnvOk _ _ (update eflags c _) k'.curenv e' (k'.envs e')
  rw [henv]
  refine ⟨he.named.imp_right hkept, fun ht => (he.frame ht).imp_right hkept,
    fun c' _ hcur ht => ?_, fun ht => ?_⟩
  · rcases hran.curenv_iff.mp hcur with ⟨rfl, rfl⟩ | ⟨hc, hcur⟩
    · rw [update_self, henv]
      exact ((he.frame ht).resolve_right hused).2
    · rw [update_of_ne hc]
      exact he.flags c' hc hcur ht
  have hs := he.server ht
  refine ⟨hs.parent, fun c1 c2 h1 h2 => hran.apart (by rintro rfl; exact honly ht)
    (flip (hs.alone c1 c2)) h2 h1, fun c' _ hcur => ?_, fun c' hcur => ?_, fun hrecving => ?_⟩
  · change statusAfter c e k e' = .running
    rw [statusAfter]
    rcases hran.curenv_iff.mp hcur with ⟨rfl, rfl⟩ | ⟨hc, hcur⟩
    · rw [if_pos rfl]
    · by_cases heq : e' = e
      · rw [if_pos heq]
      · rw [if_neg heq, if_neg fun hboth => hc (hs.alone c c' hboth.1 hcur)]
        exact hs.home c' hc hcur
  · rcases hran.curenv_iff.mp hcur with ⟨rfl, rfl⟩ | ⟨-, hcur⟩
    · exact hpgdir
    · exact hs.live c' hcur
  · have hwaits := hs.waits hrecving
    have hne : e' ≠ e := by
      rintro rfl
      rcases hserver ht with hrun | ⟨-, hrun⟩
      · exact hwaits.2 hrun
      · exact hwaits.1 hrun
    change statusAfter c e k e' ≠ .running ∧ statusAfter c e k e' ≠ .runnable
    rw [statusAfter, if_neg hne, if_neg fun hboth => hwaits.1 hboth.2]
    exact hwaits

theorem halted (h : Leaving c eflags k) : Outside (.left eflags c (k.halted c)) := by
  have hself : (k.halted c).curenv c = none := by simp [Kernel.curenv]
  rw [show State.left eflags c (k.halted c) = ⟨k.halted c, eflags⟩ by rw [State.left, hself]]
  refine Guarded.mono h (fun {c' e'} (hcur : (k.halted c).curenv c' = some e') => ?_) rfl rfl
  have hc : c' ≠ c := by
    rintro rfl
    rw [hself] at hcur
    cases hcur
  exact ⟨by simpa [Kernel.curenv, hc] using hcur, fun _ => hc, fun _ => hc⟩

end Guarded

theorem userFrame_congr {tf tf' : Trapframe} (h : UserFrame tf) (hcs : tf'.tfCs = tf.tfCs)
    (hflags : tf'.tfEflags = tf.tfEflags) : UserFrame tf' := by
  rw [UserFrame, hcs, hflags]
  exact h

theorem nextEnvId_ne_zero (old : Word) (e : Nat) : nextEnvId old e ≠ 0 := by
  intro hzero
  have hgen := (BitVec.or_eq_zero_iff.mp hzero).1
  split at hgen
  · exact absurd hgen (by decide)
  · rename_i hpos
    rw [hgen] at hpos
    exact hpos (by decide)

theorem Guarded.fork {p : Nat} (h : Inside c eflags k) (hcur : k.curenv c = some cur)
    (hne : (k.envs cur).envType ≠ .fs) (hhead : k.envFreeList = some e) :
    Inside c eflags (forked cur e (allocated (k.envs cur).envId e p m k)) := by
  generalize hk' : forked cur e (allocated (k.envs cur).envId e p m k) = k'
  obtain ⟨hnone, hpop⟩ := h.freeEnvs.pop hhead
  have hself : ∃ tf, UserFrame tf ∧ k'.envs e = { freshEnv (k.envs cur).envId e p (k.envs e) with
      envStatus := .notRunnable, envTf := tf } := by
    have hparent := ((h.env cur).frame hne).resolve_right (used_of_curenv hcur)
    by_cases heq : cur = e
    · refine ⟨{ initTf with regEax := 0 }, by decide, ?_⟩
      rw [← hk', forked, Kernel.setEnv_envs_self]
      simp [heq, freshEnv]
    · refine ⟨{ (k.envs cur).envTf with regEax := 0 }, userFrame_congr hparent rfl rfl, ?_⟩
      rw [← hk', forked, Kernel.setEnv_envs_self]
      simp [heq, freshEnv]
  have hother : ∀ e', e' ≠ e → k'.envs e' = k.envs e' := fun e' hne => by
    rw [← hk', forked, Kernel.setEnv_envs_of_ne hne]
    exact update_of_ne hne ..
  have hcurenv : ∀ c, k'.curenv c = k.curenv c := fun c => by rw [← hk']; rfl
  have hlist : k'.envFreeList = (k.envs e).envLink := by rw [← hk']; rfl
  clear hk'
  obtain ⟨tf, hframe, hself⟩ := hself
  refine h.change hcurenv hother hself ⟨.inl (nextEnvId_ne_zero _ _), fun _ => .inl hframe,
    fun c' hc' hcur' _ => (h.env e).flags c' hc' hcur' fun hfs => ?_, fun he => by cases he⟩
    (hpop k' hlist hother)
  -- the slot may still be current elsewhere, but then it was not the file server's
  exact ((h.env e).server hfs).live c' hcur' hnone

theorem respects (c : Nat) (eflags : Nat → Word) : Respects c (Inside c eflags)
    (Leaving c eflags) (fun k => Outside (.left eflags c k)) where
  same hk hsame := Guarded.same hk hsame
  leave hk := Guarded.leaving hk
  run hk he hpgdir hran := by
    refine Guarded.ran hk ?_ (fun _ => he) hpgdir hran
    rcases he with hrun | ⟨hcur, -⟩
    · exact used_of_status (by rw [hrun]; decide)
    · exact used_of_curenv hcur
  resume hk hcur hpgdir hran :=
    Guarded.ran (Guarded.leaving hk) (used_of_curenv hcur)
      (fun he => .inr ⟨hcur, ((hk.env _).server he).home _ trivial hcur⟩) hpgdir hran
  halt hk _ := Guarded.halted hk
  gone := by
    intro k k' e hk hcur hfree
    have hoff : ((k.setCurenv c none).envs e).envType = .fs →
        ∀ c', (k.setCurenv c none).curenv c' ≠ some e := fun he c' hcur' =>
      (curenv_of_dropped hcur').1
        (((hk.env e).server he).alone c c' hcur (curenv_of_dropped hcur').2)
    obtain ⟨d, m, hd, rfl⟩ := envFree_eq_some hfree
    exact Guarded.freed ((Guarded.leaving hk).drop c) hoff
      (by rw [Kernel.setCurenv_envs, hd]; exact Option.some_ne_none d) rfl
  block := by
    intro k k' e dstva hk hcur hblock
    simp only [ipcRecvBlock] at hblock
    split at hblock
    · cases hblock
    · cases hblock
      refine Guarded.setEnv (Guarded.leaving hk) rfl rfl rfl rfl rfl
        (fun hu => absurd hcur (hu.2 c)) (hk.env e).frame
        fun he => ⟨fun c' hc' hcur' => ?_, fun _ => ?_⟩
      · exact absurd (((hk.env e).server he).alone c c' hcur hcur') hc'
      · exact ⟨EnvStatus.noConfusion, EnvStatus.noConfusion⟩
  frame := by
    intro k e tf hk hcs hflags
    exact Guarded.setFrame hk rfl rfl rfl rfl rfl rfl rfl fun he =>
      ((hk.env e).frame he).imp_left fun hframe => userFrame_congr hframe hcs hflags
  handler e func hk := Guarded.setFrame hk rfl rfl rfl rfl rfl rfl rfl (hk.env e).frame

theorem used_of_envid2env {checkperm : Bool} (hcur : k.curenv c = some cur)
    (he : envid2env cur envid checkperm k = some e) : ¬ Unused k e := by
  rcases envid2env_cases he with ⟨-, rfl⟩ | ⟨-, -, hlive, -⟩
  · exact used_of_curenv hcur
  · exact used_of_status hlive

theorem eq_of_server (h : Inside c eflags k) (hcur : k.curenv c = some cur)
    (he : envid2env cur envid true k = some e) (hserver : (k.envs e).envType = .fs) : e = cur := by
  refine (envid2env_own he).resolve_right fun hparent => ?_
  rw [((h.env e).server hserver).parent] at hparent
  exact (h.env cur).named.resolve_right (used_of_curenv hcur) hparent.symm

theorem or_and_self_right {w : Nat} (x y : BitVec w) : (x ||| y) &&& y = y := by
  ext i hi
  rw [BitVec.getElem_and, BitVec.getElem_or]
  cases y[i] <;> simp

theorem userFrame_sanitized (frame : Trapframe) : UserFrame (sanitized frame) := by
  refine ⟨or_and_self_right _ _, ?_, ?_⟩
  · change (frame.tfEflags ||| flIf) &&& ~~~flIoplMask &&& flIf ≠ 0
    rw [BitVec.and_assoc, BitVec.and_comm (~~~flIoplMask), ← BitVec.and_assoc, or_and_self_right]
    decide
  · change (frame.tfEflags ||| flIf) &&& ~~~flIoplMask &&& flIoplMask = 0
    rw [BitVec.and_assoc, show ~~~flIoplMask &&& flIoplMask = 0 by decide]
    exact BitVec.and_zero

theorem allows {call : Call} (h : Inside c eflags k) (hcur : k.curenv c = some cur)
    (hquiet : (k.envs cur).envType = .fs →
      call ≠ .exofork ∧ ∀ envid status, call ≠ .envSetStatus envid status) :
    Allows cur (Inside c eflags) k call where
  fork e p m heq hhead := Guarded.fork h hcur (fun hserver => (hquiet hserver).1 heq) hhead
  trapframe envid tf e frame _ _ :=
    Guarded.setFrame h rfl rfl rfl rfl rfl rfl rfl fun _ => .inl (userFrame_sanitized frame)
  status envid status e st heq he _ := by
    refine Guarded.setStatus h (fun hserver => ?_) (used_of_envid2env hcur he)
    have hself := eq_of_server h hcur he hserver
    exact (hquiet (hself ▸ hserver)).2 envid status heq
  dying envid e _ he hne _ :=
    Guarded.setStatus h (fun hserver => hne (eq_of_server h hcur he hserver))
      (used_of_envid2env hcur he)
  free envid e k' _ he hne _ hfree := by
    obtain ⟨d, m, hd, hk'⟩ := envFree_eq_some hfree
    exact Guarded.freed h (fun hserver => absurd (eq_of_server h hcur he hserver) hne)
      (by rw [hd]; exact Option.some_ne_none d) hk'
  send envid value srcva perm dst p m _ hdst hrecving _ := by
    have hmem : Inside c eflags { k with mem := m } := Guarded.same h (sameEnvs_setMem k m)
    have hused : ¬ Unused k dst := used_of_envid2env hcur hdst
    refine Guarded.setEnv hmem rfl rfl rfl rfl rfl (fun hu => absurd hu hused)
      (fun hne => .inl ?_) fun hserver => ⟨fun c' _ hcur' => ?_, fun hfalse => by cases hfalse⟩
    · exact userFrame_congr (((h.env dst).frame hne).resolve_right hused) rfl rfl
    · have hs := (h.env dst).server hserver
      exact absurd (hs.home c' trivial hcur') (hs.waits hrecving).1

section Boot

variable {h : Machine}

end Boot

end Mit6828.Kern.Privilege
