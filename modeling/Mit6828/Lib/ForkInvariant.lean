import Mit6828.Lib.EagerFork
import Mit6828.Kern.UserPages

namespace Mit6828.Lib.ForkInvariant

open Kern.Mmu Kern.Environment Kern.Separation Kern.UserPages Fork EagerFork Function

/-- The child that `fork` is making, and the page it has come to. -/
def making : ForkPc → Option (Word × Nat)
  | .newStack => none
  | .newUpcall => none
  | .exofork => none
  | .loop envid pn => some (envid, pn)
  | .child envid pn _ _ => some (envid, pn)
  | .parent envid pn => some (envid, pn)
  | .stack envid => some (envid, pgnum ustacktop)
  | .upcall envid => some (envid, pgnum ustacktop)
  | .start envid => some (envid, pgnum ustacktop)

/-- A `sys_exofork` that has failed makes no child, although `fork` goes on. -/
def Makes (P : Process) (c n : Nat) : Prop :=
  ∃ pc envid, P.fork = some pc ∧ making pc = some (envid, n) ∧ ¬ isNeg envid ∧ envx envid = c

def Making (proc : Nat → Option Process) (e c n : Nat) : Prop :=
  ∃ P, proc e = some P ∧ Makes P c n

def Known (proc : Nat → Option Process) (x : Nat) : Prop := proc x ≠ none ∨ ∃ e n, Making proc e x n

/-- `y` has mapped page `pn` into its child `x` and has yet to map it again for itself. -/
def Window (proc : Nat → Option Process) (y x pn : Nat) : Prop :=
  ∃ P envid, proc y = some P ∧ P.fork = some (.parent envid pn) ∧ ¬ isNeg envid ∧ envx envid = x

def Temp (proc : Nat → Option Process) (y : Nat) : Prop :=
  ∃ P, proc y = some P ∧ P.fault = some .unmap

def Apart (proc : Nat → Option Process) (v : Pages) (x pn y pn' : Nat) : Prop :=
  (y = x ∧ pn' = pn) ∨ (y = x ∧ pn' = pgnum pftemp ∧ Temp proc y) ∨
    ((Known proc y → pn' = pn ∧ v.entry y pn' &&& pteShare = 0) ∧
      (v.entry y pn' &&& pteW ≠ 0 → pn' = pn ∧ Window proc y x pn))

def Copyable (w : Word) : Prop := w &&& pteShare = 0 ∧ w &&& pteW = 0 ∧ w &&& pteCow ≠ 0

/-- The page at `PFTEMP` is `q`, which nobody else maps. -/
def Fresh (v : Pages) (e q : Nat) : Prop :=
  v.Maps e (pgnum pftemp) q ∧ ∀ y pn, v.Maps y pn q → y = e ∧ pn = pgnum pftemp

def Copied (v : Pages) (e : Nat) (addr : Word) (i : Nat) : Prop :=
  addr.toNat % 4096 = 0 ∧ i ≤ 1024 ∧ ∃ q, Fresh v e q ∧ v.entry e (pgnum pftemp) &&& pteW ≠ 0 ∧
    (InRegion (pgnum addr) → ∃ p, v.Maps e (pgnum addr) p ∧ Copyable (v.entry e (pgnum addr)) ∧
      ∀ j < i, v.phys q j = v.phys p j)

def FaultOk (v : Pages) (e : Nat) : Handler → Prop
  | .alloc addr => InRegion (pgnum addr) →
      (∃ p, v.Maps e (pgnum addr) p) ∧ Copyable (v.entry e (pgnum addr))
  | .copy addr i => Copied v e addr i
  | .map addr => Copied v e addr 1024
  | .unmap => True

def Empty (v : Pages) (c n : Nat) : Prop :=
  ∀ pn, InRegion pn → n ≤ pn → frameOf (v.entry c pn) = none

def Branch (w perm : Word) : Bool → Prop
  | true => w &&& pteShare = 0 ∧ (w &&& pteW ≠ 0 ∨ w &&& pteCow ≠ 0) ∧ perm = puc
  | false => w &&& pteShare ≠ 0 ∧ perm = w &&& pteSyscall ∨
      w &&& pteShare = 0 ∧ w &&& pteW = 0 ∧ w &&& pteCow = 0 ∧ perm = pteP ||| pteU

def ForkOk (v : Pages) (e : Nat) : ForkPc → Prop
  | .loop envid pn => pgnum utext ≤ pn ∧ pn ≤ pgnum ustacktop ∧
      (¬ isNeg envid → Empty v (envx envid) pn)
  | .child envid pn perm again => InRegion pn ∧ Branch (v.entry e pn) perm again ∧
      (¬ isNeg envid → Empty v (envx envid) pn)
  | .parent envid pn => InRegion pn ∧ v.entry e pn &&& pteShare = 0 ∧
      (v.entry e pn &&& pteW ≠ 0 ∨ v.entry e pn &&& pteCow ≠ 0) ∧
      (¬ isNeg envid → Copyable (v.entry (envx envid) pn) ∧ Empty v (envx envid) (pn + 1))
  | _ => True

structure Sound (proc : Nat → Option Process) (v : Pages) : Prop where
  tidy : ∀ x pn, Known proc x → InRegion pn → v.entry x pn &&& pteShare ≠ 0 →
    v.entry x pn &&& pteCow ≠ 0 → v.entry x pn &&& pteW ≠ 0
  separate : ∀ x pn p, Known proc x → InRegion pn → v.Maps x pn p →
    v.entry x pn &&& pteShare = 0 → ∀ y pn', v.Maps y pn' p → Apart proc v x pn y pn'
  fault : ∀ e P f, proc e = some P → P.fault = some f → FaultOk v e f
  fork : ∀ e P pc, proc e = some P → P.fork = some pc → ForkOk v e pc

variable {proc proc' : Nat → Option Process} {v v' : Pages} {e x y c n pn pn' p q i : Nat}
  {P P' : Process} {perm w addr envid mask : Word} {pc : ForkPc} {f : Handler} {k' : Kernel}
  {again : Bool}

theorem known_of_proc (h : proc x = some P) : Known proc x := .inl (by simp [h])

theorem makes_at {m : Nat} (hpc : P.fork = some pc) (hmk : making pc = some (envid, m)) :
    Makes P c n ↔ m = n ∧ ¬ isNeg envid ∧ envx envid = c := by
  simp [Makes, hpc, hmk]

theorem making_window (h : Window proc y x pn) : Making proc y x pn := by
  obtain ⟨P, envid, hP, hpc, hneg, hx⟩ := h
  exact ⟨P, hP, _, envid, hpc, rfl, hneg, hx⟩

theorem making_unique {c' n' : Nat} (h : Making proc e c n) (h' : Making proc e c' n') :
    c' = c ∧ n' = n := by
  obtain ⟨P, hP, pc, envid, hpc, hm, -, rfl⟩ := h
  obtain ⟨P', hP', pc', envid', hpc', hm', -, rfl⟩ := h'
  obtain rfl := Option.mem_unique hP hP'
  obtain rfl := Option.mem_unique hpc hpc'
  cases hm.symm.trans hm'
  exact ⟨rfl, rfl⟩

theorem window_at (hP : proc e = some P) : Window proc e x pn ↔
    ∃ envid, P.fork = some (.parent envid pn) ∧ ¬ isNeg envid ∧ envx envid = x := by
  simp only [Window, hP, Option.some.injEq, existsAndEq, true_and]

theorem temp_at (hP : proc e = some P) : Temp proc e ↔ P.fault = some .unmap := by
  simp only [Temp, hP, Option.some.injEq, exists_eq_left']

theorem Sound.window_inRegion (hs : Sound proc v) (hw : Window proc e c n) : InRegion n := by
  obtain ⟨P, envid, hP, hpc, -⟩ := hw
  exact (hs.fork e P _ hP hpc).1

theorem pftemp_notIn : ¬ InRegion (pgnum pftemp) := by decide

theorem uxstack_notIn : ¬ InRegion (pgnum (uxstacktop - pgsize)) := by decide

theorem uxstack_ne_pftemp : pgnum (uxstacktop - pgsize) ≠ pgnum pftemp := by decide

section Flags

theorem entry_and (p : Nat) (perm : Word) (hmask : mask.toNat < 4096) :
    (page2pa p ||| perm ||| pteP) &&& mask = (perm ||| pteP) &&& mask := by
  rw [BitVec.or_assoc, BitVec.and_comm, BitVec.and_or_distrib_left, BitVec.and_comm,
    page2pa_and_eq_zero hmask, BitVec.and_comm mask]
  exact BitVec.zero_or

theorem syscall_and (w : Word) (hmask : pteSyscall &&& mask = mask)
    (hP : pteP &&& mask = 0) : (w &&& pteSyscall ||| pteP) &&& mask = w &&& mask := by
  rw [BitVec.and_comm, BitVec.and_or_distrib_left, BitVec.and_comm, BitVec.and_assoc, hmask,
    BitVec.and_comm mask, hP]
  exact BitVec.or_zero

theorem syscall_lt (w : Word) : (w &&& pteSyscall).toNat < 4096 := by
  rw [BitVec.toNat_and]
  exact Nat.lt_of_le_of_lt Nat.and_le_right (by decide)

end Flags

section Processes

theorem making_of_ne (hother : ∀ y, y ≠ e → proc' y = proc y) (hne : y ≠ e) :
    Making proc' y c n ↔ Making proc y c n := by
  rw [Making, Making, hother y hne]

theorem known_of_update (hother : ∀ y, y ≠ e → proc' y = proc y) (he : proc e ≠ none)
    (hmakes : ∀ c n, Making proc' e c n → ∃ m, Making proc e c m) (hx : Known proc' x) :
    Known proc x := by
  rcases hx with hx | ⟨y, n, hy⟩
  · by_cases hne : x = e
    · exact .inl (hne ▸ he)
    · exact .inl (hother x hne ▸ hx)
  by_cases hne : y = e
  · subst hne
    obtain ⟨m, hm⟩ := hmakes x n hy
    exact .inr ⟨y, m, hm⟩
  · exact .inr ⟨y, n, (making_of_ne hother hne).mp hy⟩

theorem Apart.mono (h : Apart proc v x pn y pn') (hentry : v'.entry y pn' = v.entry y pn')
    (hknown : Known proc' y → Known proc y) (htemp : y = x → pn' = pgnum pftemp → Temp proc y →
    Temp proc' y) (hwindow : pn' = pn → Window proc y x pn → Window proc' y x pn) :
    Apart proc' v' x pn y pn' := by
  rw [Apart, hentry]
  rcases h with hself | ⟨hxy, hpn, ht⟩ | ⟨hk, hW⟩
  · exact .inl hself
  · exact .inr (.inl ⟨hxy, hpn, htemp hxy hpn ht⟩)
  · exact .inr (.inr ⟨fun hy => hk (hknown hy), fun hw => ⟨(hW hw).1, hwindow (hW hw).1 (hW hw).2⟩⟩)

theorem Sound.setProc (h : Sound proc v) (hother : ∀ y, y ≠ e → proc' y = proc y)
    (hknown : ∀ x, Known proc' x → Known proc x)
    (hwindow : ∀ x pn, Known proc' x → Window proc e x pn → Window proc' e x pn)
    (htemp : Known proc' e → Temp proc e → Temp proc' e)
    (hfault : ∀ P f, proc' e = some P → P.fault = some f → FaultOk v e f)
    (hfork : ∀ P pc, proc' e = some P → P.fork = some pc → ForkOk v e pc) : Sound proc' v where
  tidy x pn hx := h.tidy x pn (hknown x hx)
  separate x pn p hx hpn hp hshare y pn' hy := by
    refine (h.separate x pn p (hknown x hx) hpn hp hshare y pn' hy).mono rfl (hknown y)
      (fun hxy _ ht => ?_) fun _ hw => ?_
    · by_cases hne : y = e
      · subst hne
        exact htemp (hxy ▸ hx) ht
      · rw [Temp, hother y hne]
        exact ht
    · by_cases hne : y = e
      · subst hne
        exact hwindow x pn hx hw
      · rw [Window, hother y hne]
        exact hw
  fault y P f hP hf := by
    by_cases hne : y = e
    · subst hne
      exact hfault P f hP hf
    · exact h.fault y P f (hother y hne ▸ hP) hf
  fork y P pc hP hpc := by
    by_cases hne : y = e
    · subst hne
      exact hfork P pc hP hpc
    · exact h.fork y P pc (hother y hne ▸ hP) hpc

structure Moves (proc proc' : Nat → Option Process) (e : Nat) (P P' : Process) : Prop where
  before : proc e = some P
  after : proc' e = some P'
  other : ∀ y, y ≠ e → proc' y = proc y

theorem moves_update (hP : proc e = some P) (P' : Process) :
    Moves proc (update proc e (some P')) e P P' :=
  ⟨hP, update_self _ _ _, fun _ hne => update_of_ne hne _ _⟩

namespace Moves

variable (h : Moves proc proc' e P P')
include h

theorem live : proc e ≠ none := by simp [h.before]

theorem known (hmakes : ∀ c n, Makes P' c n → ∃ m, Makes P c m) (hx : Known proc' x) :
    Known proc x := by
  refine known_of_update h.other h.live (fun c n hc => ?_) hx
  obtain ⟨P1, hP1, hc⟩ := hc
  obtain rfl := Option.mem_unique h.after hP1
  obtain ⟨m, hm⟩ := hmakes c n hc
  exact ⟨m, P, h.before, hm⟩

theorem known_of_fork (hfork : P'.fork = P.fork) (hx : Known proc' x) : Known proc x :=
  h.known (fun c n hc => ⟨n, by rwa [Makes, ← hfork]⟩) hx

theorem window (hfork : y = e → P'.fork = P.fork) (hw : Window proc y x pn) :
    Window proc' y x pn := by
  by_cases hne : y = e
  · subst hne
    rw [window_at h.before] at hw
    rwa [window_at h.after, hfork rfl]
  · rwa [Window, h.other y hne]

theorem temp (hfault : y = e → P'.fault = P.fault) (ht : Temp proc y) : Temp proc' y := by
  by_cases hne : y = e
  · subst hne
    rw [temp_at h.before] at ht
    rwa [temp_at h.after, hfault rfl]
  · rwa [Temp, h.other y hne]

theorem none_iff : proc' x = none ↔ proc x = none := by
  by_cases hne : x = e
  · simp [hne, h.before, h.after]
  · rw [h.other x hne]

theorem making_iff : (Making proc e c n ↔ Makes P c n) ∧ (Making proc' e c n ↔ Makes P' c n) := by
  simp only [Making, h.before, h.after, Option.some.injEq, exists_eq_left', and_self]

theorem window_iff (hfork : ∀ envid pn, P'.fork = some (.parent envid pn) ↔
    P.fork = some (.parent envid pn)) : Window proc' e c n ↔ Window proc e c n := by
  simp only [window_at h.before, window_at h.after, hfork]

theorem cases_on {Q : Nat → Process → Prop} (hself : Q e P')
    (hother : ∀ y P, y ≠ e → proc y = some P → Q y P) : ∀ y P, proc' y = some P → Q y P := by
  intro y P1 hP1
  by_cases hne : y = e
  · subst hne
    obtain rfl := Option.mem_unique h.after hP1
    exact hself
  · exact hother y P1 hne (h.other y hne ▸ hP1)

/-- The invariant of a process is the one of its handler and of its `fork`. -/
theorem sound (htidy : ∀ x pn, Known proc' x → InRegion pn → v'.entry x pn &&& pteShare ≠ 0 →
      v'.entry x pn &&& pteCow ≠ 0 → v'.entry x pn &&& pteW ≠ 0)
    (hseparate : ∀ x pn p, Known proc' x → InRegion pn → v'.Maps x pn p →
      v'.entry x pn &&& pteShare = 0 → ∀ y pn', v'.Maps y pn' p → Apart proc' v' x pn y pn')
    (hfault : ∀ f, P'.fault = some f → FaultOk v' e f)
    (hfaults : ∀ y P f, y ≠ e → proc y = some P → P.fault = some f → FaultOk v' y f)
    (hfork : ∀ pc, P'.fork = some pc → ForkOk v' e pc)
    (hforks : ∀ y P pc, y ≠ e → proc y = some P → P.fork = some pc → ForkOk v' y pc) :
    Sound proc' v' where
  tidy := htidy
  separate := hseparate
  fault y P f hP := h.cases_on (Q := fun y P => P.fault = some f → FaultOk v' y f) (hfault f)
    (fun y P hne hP => hfaults y P f hne hP) y P hP
  fork y P pc hP := h.cases_on (Q := fun y P => P.fork = some pc → ForkOk v' y pc) (hfork pc)
    (fun y P hne hP => hforks y P pc hne hP) y P hP

end Moves

end Processes

section Entries

theorem maps_of_entry (hentry : v'.entry = v.entry) : v'.Maps x pn p ↔ v.Maps x pn p := by
  rw [Pages.Maps, Pages.Maps, hentry]

theorem FaultOk.congr (h : FaultOk v e f) (hself : ∀ pn, v'.entry e pn = v.entry e pn)
    (hfresh : ∀ q, Fresh v e q → Fresh v' e q ∧ ∀ j, v'.phys q j = v.phys q j)
    (hsource : ∀ pn p j, InRegion pn → v.Maps e pn p → Copyable (v.entry e pn) →
      v'.phys p j = v.phys p j) : FaultOk v' e f := by
  have hmaps : ∀ pn p, v'.Maps e pn p ↔ v.Maps e pn p := fun pn p => by
    rw [Pages.Maps, Pages.Maps, hself]
  have hcopied : ∀ addr i, Copied v e addr i → Copied v' e addr i := by
    rintro addr i ⟨halign, hi, q, hq, hW, hcopy⟩
    obtain ⟨hq', hphys⟩ := hfresh q hq
    refine ⟨halign, hi, q, hq', by rwa [hself], fun hin => ?_⟩
    obtain ⟨p, hp, hcow, hwords⟩ := hcopy hin
    refine ⟨p, (hmaps _ _).mpr hp, by rwa [hself], fun j hj => ?_⟩
    rw [hphys, hsource _ p j hin hp hcow]
    exact hwords j hj
  cases f with
  | alloc addr =>
    simp only [FaultOk, hmaps, hself]
    exact h
  | copy addr i => exact hcopied addr i h
  | map addr => exact hcopied addr 1024 h
  | unmap => trivial

theorem FaultOk.same (h : FaultOk v e f) (hv : v.Same v') : FaultOk v' e f := by
  refine h.congr (fun _ => by rw [hv.entry]) (fun q hq => ⟨⟨?_, fun y pn hy => ?_⟩, fun j => ?_⟩)
    fun _ p j _ hp _ => by rw [hv.phys p ⟨_, _, hp⟩]
  · exact (maps_of_entry hv.entry).mpr hq.1
  · exact hq.2 y pn ((maps_of_entry hv.entry).mp hy)
  · rw [hv.phys q ⟨_, _, hq.1⟩]

theorem Empty.congr (h : Empty v c n) (hentry : ∀ pn, InRegion pn → v'.entry c pn = v.entry c pn) :
    Empty v' c n := by
  intro pn hpn hle
  rw [hentry pn hpn]
  exact h pn hpn hle

theorem ForkOk.congr (h : ForkOk v e pc) (hself : ∀ pn, InRegion pn → v'.entry e pn = v.entry e pn)
    (hchild : ∀ envid n, making pc = some (envid, n) → ¬ isNeg envid → ∀ pn, InRegion pn →
      v'.entry (envx envid) pn = v.entry (envx envid) pn) : ForkOk v' e pc := by
  cases pc with
  | loop envid pn => exact ⟨h.1, h.2.1, fun hneg => (h.2.2 hneg).congr (hchild envid pn rfl hneg)⟩
  | child envid pn perm again =>
    obtain ⟨hpn, hbranch, hrest⟩ := h
    exact ⟨hpn, by rwa [hself pn hpn], fun hneg => (hrest hneg).congr (hchild envid pn rfl hneg)⟩
  | parent envid pn =>
    obtain ⟨hpn, hshare, hflags, hrest⟩ := h
    rw [ForkOk, hself pn hpn]
    refine ⟨hpn, hshare, hflags, fun hneg => ⟨?_, ?_⟩⟩
    · rw [hchild envid pn rfl hneg pn hpn]
      exact (hrest hneg).1
    · exact (hrest hneg).2.congr (hchild envid pn rfl hneg)
  | _ => trivial

theorem Sound.same (h : Sound proc v) (hv : v.Same v') : Sound proc v' where
  tidy := by
    rw [hv.entry]
    exact h.tidy
  separate x pn p hx hpn hp hshare y pn' hy := by
    rw [hv.entry] at hshare
    exact (h.separate x pn p hx hpn ((maps_of_entry hv.entry).mp hp) hshare y pn'
      ((maps_of_entry hv.entry).mp hy)).mono (by rw [hv.entry]) id (fun _ _ => id) fun _ => id
  fault e P f hP hf := (h.fault e P f hP hf).same hv
  fork e P pc hP hpc := (h.fork e P pc hP hpc).congr (fun _ _ => by rw [hv.entry])
    fun _ _ _ _ _ _ => by rw [hv.entry]

variable {e0 pn0 : Nat} {w0 : Word}

theorem Set.entry_self (hset : v.Set e0 pn0 w0 v') : v'.entry e0 pn0 = w0 := by
  rw [hset.entry, Pages.set_self]

theorem Set.entry_of_ne (hset : v.Set e0 pn0 w0 v') (hne : ¬ (x = e0 ∧ pn = pn0)) :
    v'.entry x pn = v.entry x pn := by
  rw [hset.entry, Pages.set_of_ne v w0 hne]

theorem Set.maps_cases (hset : v.Set e0 pn0 w0 v') (hp : v'.Maps x pn p) :
    (x = e0 ∧ pn = pn0 ∧ frameOf w0 = some p) ∨ (¬ (x = e0 ∧ pn = pn0) ∧ v.Maps x pn p) := by
  by_cases hslot : x = e0 ∧ pn = pn0
  · obtain ⟨rfl, rfl⟩ := hslot
    rw [Pages.Maps, Set.entry_self hset] at hp
    exact .inl ⟨rfl, rfl, hp⟩
  · rw [Pages.Maps, Set.entry_of_ne hset hslot] at hp
    exact .inr ⟨hslot, hp⟩

theorem FaultOk.set (h : FaultOk v e f) (hset : v.Set e0 pn0 w0 v') (hne : e0 ≠ e)
    (hw : ∀ q, frameOf w0 = some q → ¬ Fresh v e q) : FaultOk v' e f := by
  have hself : ∀ pn, v'.entry e pn = v.entry e pn := fun pn =>
    Set.entry_of_ne hset fun heq => hne heq.1.symm
  refine h.congr hself (fun q hq => ⟨⟨?_, fun y pn hy => ?_⟩, fun j => ?_⟩)
    fun _ p j _ hp _ => by rw [hset.phys p ⟨_, _, hp⟩]
  · rw [Pages.Maps, hself]
    exact hq.1
  · rcases Set.maps_cases hset hy with ⟨-, -, hq'⟩ | ⟨-, hy⟩
    · exact absurd hq (hw q hq')
    · exact hq.2 y pn hy
  · rw [hset.phys q ⟨_, _, hq.1⟩]

theorem FaultOk.setWord (h : FaultOk v e f) (hfresh : ∀ q, Fresh v e q → q ≠ p)
    (hsource : ∀ pn q, InRegion pn → v.Maps e pn q → Copyable (v.entry e pn) → q ≠ p) :
    FaultOk (v.setWord p i w) e f := by
  have hphys : ∀ q j, q ≠ p → (v.setWord p i w).phys q j = v.phys q j := fun q j hq =>
    Pages.setWord_of_ne v w fun heq => hq heq.1
  exact h.congr (fun _ => rfl) (fun q hq => ⟨hq, fun j => hphys q j (hfresh q hq)⟩)
    fun pn q j hpn hq hcow => hphys q j (hsource pn q hpn hq hcow)

end Entries

/-- Processes and children in the making are environments with an address space, no child is a
process yet, and no two processes make the same child. -/
structure Family (k : Kernel) (proc : Nat → Option Process) : Prop where
  live : ∀ e, proc e ≠ none → e < nenv ∧ (k.envs e).envPgdir ≠ none
  child : ∀ e c n, Making proc e c n → c < nenv ∧ (k.envs c).envPgdir ≠ none ∧ proc c = none
  parent : ∀ e e' c n n', Making proc e c n → Making proc e' c n' → e' = e
  ids : ∀ e P pc envid n, proc e = some P → P.fork = some pc → making pc = some (envid, n) →
    envid ≠ 0

section Steps

variable {k : Kernel}

theorem Family.ne_child (hf : Family k proc) (hx : proc x ≠ none) (hmake : Making proc e c n) :
    c ≠ x := by
  rintro rfl
  exact hx (hf.child e c n hmake).2.2

theorem Sound.fresh (h : Sound proc v) {e0 pn0 : Nat} {w0 : Word} (hset : v.Set e0 pn0 w0 v')
    (hframe : frameOf w0 = some q) (hq : ¬ v.InUse q) (hpn0 : ¬ InRegion pn0)
    (hown : ∀ P f, proc e0 = some P → P.fault = some f → ∃ addr, f = .alloc addr) :
    Sound proc v' := by
  have hregion : ∀ x pn, InRegion pn → v'.entry x pn = v.entry x pn := fun x pn hpn =>
    Set.entry_of_ne hset fun heq => hpn0 (heq.2 ▸ hpn)
  have hmaps : ∀ x pn p, InRegion pn → (v'.Maps x pn p ↔ v.Maps x pn p) := fun x pn p hpn => by
    rw [Pages.Maps, Pages.Maps, hregion x pn hpn]
  refine ⟨fun x pn hx hpn => ?_, fun x pn p hx hpn hp hshare y pn' hy => ?_,
    fun e P f hP hf => ?_, fun e P pc hP hpc => ?_⟩
  · rw [hregion x pn hpn]
    exact h.tidy x pn hx hpn
  · rw [hmaps x pn p hpn] at hp
    rw [hregion x pn hpn] at hshare
    rcases Set.maps_cases hset hy with ⟨-, -, hp'⟩ | ⟨hne, hy⟩
    · obtain rfl := Option.mem_unique hframe hp'
      exact absurd ⟨x, pn, hp⟩ hq
    · exact (h.separate x pn p hx hpn hp hshare y pn' hy).mono (Set.entry_of_ne hset hne) id
        (fun _ _ => id) fun _ => id
  · have hold := h.fault e P f hP hf
    by_cases hne : e0 = e
    · subst hne
      obtain ⟨addr, rfl⟩ := hown P f hP hf
      intro hin
      obtain ⟨⟨p, hp⟩, hcow⟩ := hold hin
      exact ⟨⟨p, (hmaps _ _ _ hin).mpr hp⟩, by rwa [hregion _ _ hin]⟩
    · refine hold.set hset hne fun q' hq' hfresh => ?_
      obtain rfl := Option.mem_unique hframe hq'
      exact hq ⟨_, _, hfresh.1⟩
  · exact (h.fork e P pc hP hpc).congr (fun pn => hregion e pn) fun envid _ _ _ pn => hregion _ pn

theorem ForkOk.own (h : ForkOk v e pc) (pn' : Nat)
    (hchild : ∀ envid n, making pc = some (envid, n) → ¬ isNeg envid → ∀ pn, InRegion pn →
      v'.entry (envx envid) pn = v.entry (envx envid) pn)
    (hself : ∀ pn, pn ≠ pn' → v'.entry e pn = v.entry e pn)
    (hold : InRegion pn' → Copyable (v.entry e pn')) (hshare : v'.entry e pn' &&& pteShare = 0)
    (hwrite : v'.entry e pn' &&& pteW ≠ 0) : ForkOk v' e pc := by
  cases pc with
  | loop envid pn => exact ⟨h.1, h.2.1, fun hneg => (h.2.2 hneg).congr (hchild envid pn rfl hneg)⟩
  | child envid pn perm again =>
    obtain ⟨hpn, hbranch, hrest⟩ := h
    refine ⟨hpn, ?_, fun hneg => (hrest hneg).congr (hchild envid pn rfl hneg)⟩
    by_cases heq : pn = pn'
    · subst heq
      obtain ⟨hS, -, hC⟩ := hold hpn
      cases again with
      | true => exact ⟨hshare, .inl hwrite, hbranch.2.2⟩
      | false =>
        rcases hbranch with ⟨hS', -⟩ | ⟨-, -, hC', -⟩
        · exact absurd hS hS'
        · exact absurd hC' hC
    · rwa [hself pn heq]
  | parent envid pn =>
    obtain ⟨hpn, hS, hflags, hrest⟩ := h
    have hempty : ¬ isNeg envid → Copyable (v'.entry (envx envid) pn) ∧
        Empty v' (envx envid) (pn + 1) := fun hneg => by
      rw [hchild envid pn rfl hneg pn hpn]
      exact ⟨(hrest hneg).1, (hrest hneg).2.congr (hchild envid pn rfl hneg)⟩
    by_cases heq : pn = pn'
    · subst heq
      exact ⟨hpn, hshare, .inl hwrite, hempty⟩
    · rw [ForkOk, hself pn heq]
      exact ⟨hpn, hS, hflags, hempty⟩
  | _ => trivial

theorem ForkOk.set_other (hf : Family k proc) {e0 pn0 : Nat} {w0 : Word} (hset : v.Set e0 pn0 w0 v')
    (he : proc e ≠ none) (he0 : e0 = e ∨ ∃ n, Making proc e e0 n) (hy : proc y = some P)
    (hne : y ≠ e) (hpc : P.fork = some pc) (h : ForkOk v y pc) : ForkOk v' y pc := by
  have hlive : proc y ≠ none := by simp [hy]
  refine h.congr (fun pn _ => Set.entry_of_ne hset fun heq => ?_) fun envid n hm hneg pn _ =>
    Set.entry_of_ne hset fun heq => ?_
  · rcases he0 with rfl | ⟨m, hmake⟩
    · exact hne heq.1
    · exact hf.ne_child hlive hmake heq.1.symm
  · have hmake : Making proc y (envx envid) n := ⟨P, hy, pc, envid, hpc, hm, hneg, rfl⟩
    rcases he0 with rfl | ⟨m, hmake'⟩
    · exact hf.ne_child he hmake heq.1
    · exact hne (hf.parent e y e0 m n hmake' (heq.1 ▸ hmake))

section

variable (h : Sound proc v) (hf : Family k proc)
include h hf

/-- One entry changes, of the process that moves or of its child. -/
theorem Sound.setEntry (hm : Moves proc proc' e P P')
    {e0 pn0 : Nat} {w0 : Word} (hset : v.Set e0 pn0 w0 v') (he0 : e0 = e ∨ ∃ n, Making proc e e0 n)
    (hframe : ∀ q, frameOf w0 = some q → ∃ pn, v.Maps e pn q)
    (hknown : ∀ x, Known proc' x → Known proc x)
    (htidy : InRegion pn0 → w0 &&& pteShare ≠ 0 → w0 &&& pteCow ≠ 0 → w0 &&& pteW ≠ 0)
    (hnew : ∀ p y pn', frameOf w0 = some p → InRegion pn0 → w0 &&& pteShare = 0 → v.Maps y pn' p →
      ¬ (y = e0 ∧ pn' = pn0) → Apart proc' v' e0 pn0 y pn')
    (hold : ∀ x pn p, frameOf w0 = some p → Known proc x → InRegion pn → v.Maps x pn p →
      v.entry x pn &&& pteShare = 0 → ¬ (x = e0 ∧ pn = pn0) → Apart proc' v' x pn e0 pn0)
    (htemp : ∀ y, ¬ (y = e0 ∧ pgnum pftemp = pn0) → Temp proc y → Temp proc' y)
    (hwindow : ∀ y x pn, ¬ (y = e0 ∧ pn = pn0) → Window proc y x pn → Window proc' y x pn)
    (hfault : ∀ f, P'.fault = some f → FaultOk v' e f)
    (hfork : ∀ pc, P'.fork = some pc → ForkOk v' e pc) : Sound proc' v' := by
  refine hm.sound (fun x pn hx hpn => ?_) (fun x pn p hx hpn hp hshare y pn' hy => ?_) hfault
    (fun y P1 f hye hP1 hf' => ?_) hfork fun y P1 pc hye hP1 hpc =>
      ForkOk.set_other hf hset hm.live he0 hP1 hye hpc (h.fork y P1 pc hP1 hpc)
  · by_cases hslot : x = e0 ∧ pn = pn0
    · obtain ⟨rfl, rfl⟩ := hslot
      rw [Set.entry_self hset]
      exact htidy hpn
    · rw [Set.entry_of_ne hset hslot]
      exact h.tidy x pn (hknown x hx) hpn
  · rcases Set.maps_cases hset hp with ⟨rfl, rfl, hw⟩ | ⟨hne, hp⟩
    · rw [Set.entry_self hset] at hshare
      rcases Set.maps_cases hset hy with ⟨rfl, rfl, -⟩ | ⟨hne, hy⟩
      · exact .inl ⟨rfl, rfl⟩
      · exact hnew p y pn' hw hpn hshare hy hne
    · rw [Set.entry_of_ne hset hne] at hshare
      rcases Set.maps_cases hset hy with ⟨rfl, rfl, hw⟩ | ⟨hne', hy⟩
      · exact hold x pn p hw (hknown x hx) hpn hp hshare hne
      · exact (h.separate x pn p (hknown x hx) hpn hp hshare y pn' hy).mono
          (Set.entry_of_ne hset hne') (hknown y) (fun _ hpn' => htemp y (hpn' ▸ hne'))
          fun hpn' => hwindow y x pn (hpn' ▸ hne')
  · refine (h.fault y P1 f hP1 hf').set hset ?_ fun q hq hfresh => ?_
    · rcases he0 with rfl | ⟨n, hmake⟩
      · exact Ne.symm hye
      · exact hf.ne_child (by simp [hP1]) hmake
    · obtain ⟨pn, hpn⟩ := hframe q hq
      exact hye (hfresh.2 e pn hpn).1.symm

theorem Sound.mapped (hm : Moves proc proc' e P { P with fault := some .unmap })
    (hfault : P.fault = some (.map addr)) (hq : v.Maps e (pgnum pftemp) q) (hlt : q < 1048576)
    (hset : v.Set e (pgnum addr) (page2pa q ||| puw ||| pteP) v') : Sound proc' v' := by
  have hpage : ∀ {p}, frameOf (page2pa q ||| puw ||| pteP) = some p → q = p := fun hp =>
    Option.some.inj ((frameOf_entry hlt (by decide)).symm.trans hp)
  obtain ⟨-, -, q', ⟨hq', honly⟩, -, hcopy⟩ : Copied v e addr 1024 := h.fault e P _ hm.before hfault
  obtain rfl := Option.mem_unique hq hq'
  have hwrite : (page2pa q ||| puw ||| pteP) &&& pteW ≠ 0 := by
    rw [entry_and q puw (by decide)]
    decide
  refine h.setEntry hf hm hset (.inl rfl) (fun p hp => ⟨_, hpage hp ▸ hq⟩)
    (fun x => hm.known_of_fork rfl) (fun _ _ _ => hwrite) (fun p y pn' hp _ _ hy _ => ?_)
    (fun x pn p hp _ hpn hx _ _ => ?_) (fun y _ ht => ?_) (fun _ _ _ _ => hm.window fun _ => rfl) ?_
    fun pc hpc => ?_
  · -- the new page is at `PFTEMP` as well, for one more system call
    obtain ⟨rfl, rfl⟩ := honly y pn' (hpage hp ▸ hy)
    exact .inr (.inl ⟨rfl, rfl, _, hm.after, rfl⟩)
  · obtain ⟨rfl, rfl⟩ := honly x pn (hpage hp ▸ hx)
    exact absurd hpn pftemp_notIn
  · by_cases hye : y = e
    · exact ⟨_, hye ▸ hm.after, rfl⟩
    · exact hm.temp (fun heq => absurd heq hye) ht
  · rintro f ⟨⟩
    trivial
  · refine (h.fork e P pc hm.before hpc).own (pgnum addr) (fun envid n hmk hneg pn _ => ?_)
      (fun pn hne => Set.entry_of_ne hset fun heq => hne heq.2) (fun hin => ?_) ?_ ?_
    · exact Set.entry_of_ne hset fun heq =>
        hf.ne_child hm.live ⟨P, hm.before, pc, envid, hpc, hmk, hneg, rfl⟩ heq.1
    · obtain ⟨p, -, hcow, -⟩ := hcopy hin
      exact hcow
    · rw [Set.entry_self hset, entry_and q puw (by decide)]
      decide
    · rwa [Set.entry_self hset]

theorem Sound.unmapped (hm : Moves proc proc' e P { P with fault := none })
    (hset : v.Set e (pgnum pftemp) 0 v') : Sound proc' v' := by
  have hnone : ∀ p, frameOf 0 ≠ some p := fun p => by
    rw [frameOf_zero]
    exact Option.some_ne_none p ∘ Eq.symm
  have hregion : ∀ x pn, InRegion pn → v'.entry x pn = v.entry x pn := fun x pn hpn =>
    Set.entry_of_ne hset fun heq => pftemp_notIn (heq.2 ▸ hpn)
  refine h.setEntry hf hm hset (.inl rfl) (fun p hp => absurd hp (hnone p))
    (fun x => hm.known_of_fork rfl) (fun _ hS => absurd BitVec.zero_and hS)
    (fun p _ _ hp => absurd hp (hnone p)) (fun _ _ p hp => absurd hp (hnone p)) (fun y hne => ?_)
    (fun _ _ _ _ => hm.window fun _ => rfl) (by rintro f ⟨⟩) fun pc hpc => ?_
  · -- without its entry at `PFTEMP` the process needs no exception
    exact hm.temp fun heq => absurd ⟨heq, rfl⟩ hne
  · exact (h.fork e P pc hm.before hpc).congr (fun pn => hregion e pn)
      fun envid _ _ _ pn => hregion _ pn

end

theorem Branch.flags (h : Branch w perm again) :
    (w &&& pteShare ≠ 0 ∧ again = false ∧ (perm ||| pteP) &&& pteShare = w &&& pteShare ∧
      (perm ||| pteP) &&& pteW = w &&& pteW ∧ (perm ||| pteP) &&& pteCow = w &&& pteCow) ∨
    (w &&& pteShare = 0 ∧ (perm ||| pteP) &&& pteShare = 0 ∧ (perm ||| pteP) &&& pteW = 0 ∧
      (again = true ∧ (w &&& pteW ≠ 0 ∨ w &&& pteCow ≠ 0) ∧ (perm ||| pteP) &&& pteCow ≠ 0 ∨
        again = false ∧ w &&& pteW = 0 ∧ w &&& pteCow = 0 ∧ (perm ||| pteP) &&& pteCow = 0)) := by
  cases again with
  | true =>
    obtain ⟨hS, hflags, rfl⟩ := h
    exact .inr ⟨hS, by decide, by decide, .inl ⟨rfl, hflags, by decide⟩⟩
  | false =>
    rcases h with ⟨hS, rfl⟩ | ⟨hS, hW, hC, rfl⟩
    · exact .inl ⟨hS, rfl, syscall_and w (by decide) (by decide),
        syscall_and w (by decide) (by decide), syscall_and w (by decide) (by decide)⟩
    · exact .inr ⟨hS, by decide, by decide, .inr ⟨rfl, hW, hC, by decide⟩⟩

theorem Branch.perm_lt (h : Branch w perm again) : perm.toNat < 4096 := by
  cases again with
  | true =>
    rw [h.2.2]
    decide
  | false =>
    rcases h with ⟨-, rfl⟩ | ⟨-, -, -, rfl⟩
    · exact syscall_lt _
    · decide

section

variable (h : Sound proc v) (hf : Family k proc)
include h hf

theorem Sound.childMapped
    (hpc : P.fork = some (.child envid pn perm again)) (hfault : P.fault = none)
    (hm : Moves proc proc' e P { P with
      fork := some (if again then .parent envid pn else .loop envid (pn + 1)) })
    (hneg : ¬ isNeg envid) (hp : v.Maps e pn p) (hlt : p < 1048576)
    (hset : v.Set (envx envid) pn (page2pa p ||| perm ||| pteP) v') : Sound proc' v' := by
  obtain ⟨hin, hbranch, hempty⟩ : ForkOk v e (.child envid pn perm again) :=
    h.fork e P _ hm.before hpc
  have hmake : Making proc e (envx envid) pn :=
    ⟨P, hm.before, _, envid, hpc, rfl, hneg, rfl⟩
  have hpage : ∀ {p'}, frameOf (page2pa p ||| perm ||| pteP) = some p' → p = p' := fun hp' =>
    Option.some.inj ((frameOf_entry hlt hbranch.perm_lt).symm.trans hp')
  have hknown : ∀ x, Known proc' x → Known proc x := fun x => hm.known fun c n hc => by
    obtain ⟨pc, envid', hpc', hmk, hneg', rfl⟩ := hc
    refine ⟨pn, _, envid', hpc, ?_, hneg', rfl⟩
    cases again <;> cases hpc' <;> cases hmk <;> rfl
  have hS := entry_and p perm (show pteShare.toNat < 4096 by decide)
  have hW := entry_and p perm (show pteW.toNat < 4096 by decide)
  have hC := entry_and p perm (show pteCow.toNat < 4096 by decide)
  have hself : ∀ pn', v'.entry e pn' = v.entry e pn' := fun pn' =>
    Set.entry_of_ne hset fun heq => hf.ne_child hm.live hmake heq.1.symm
  refine h.setEntry hf hm hset (.inr ⟨pn, hmake⟩) (fun p' hp' => ⟨pn, hpage hp' ▸ hp⟩) hknown
    (fun _ => ?_) (fun p' y pn' hp' _ hshare hy hne => ?_)
    (fun x pn1 p' hp' hx hpn1 hx' hshare _ => ?_)
    (fun y _ => hm.temp fun _ => rfl) (fun y x pn' _ hw => hm.window (fun heq => ?_) hw)
    (fun f hf' => ?_) fun pc hpc' => ?_
  · rw [hS, hW, hC]
    rcases hbranch.flags with ⟨-, -, hS', hW', hC'⟩ | ⟨-, hS', -⟩
    · rw [hS', hW', hC']
      exact h.tidy e pn (known_of_proc hm.before) hin
    · exact fun hne => absurd hS' hne
  · -- whoever else has the page shares it with the parent
    obtain rfl := hpage hp'
    rw [hS] at hshare
    have hS' : v.entry e pn &&& pteShare = 0 := by
      rcases hbranch.flags with ⟨hne, -, heq, -⟩ | ⟨hzero, -⟩
      · exact absurd (heq.symm.trans hshare) hne
      · exact hzero
    rcases h.separate e pn p (known_of_proc hm.before) hin hp hS' y pn' hy with
      ⟨rfl, rfl⟩ | ⟨rfl, -, ht⟩ | ⟨hk, hwr⟩
    · refine .inr (.inr ⟨fun _ => ⟨rfl, (hself pn').symm ▸ hS'⟩, fun hwr => ⟨rfl, ?_⟩⟩)
      rw [hself] at hwr
      rcases hbranch.flags with ⟨hne, -⟩ | ⟨-, -, -, ⟨rfl, -⟩ | ⟨-, hzero, -⟩⟩
      · exact absurd hS' hne
      · exact ⟨_, envid, hm.after, rfl, hneg, rfl⟩
      · exact absurd hzero hwr
    · cases hfault.symm.trans ((temp_at hm.before).mp ht)
    · rw [Apart, Set.entry_of_ne hset hne]
      exact .inr (.inr ⟨fun hy' => hk (hknown y hy'), fun hwr' =>
        absurd rfl (hf.ne_child hm.live (making_window (hwr hwr').2))⟩)
  · obtain rfl := hpage hp'
    have hshared : pn = pn1 ∧ v.entry e pn &&& pteShare = 0 := by
      rcases h.separate x pn1 p hx hpn1 hx' hshare e pn hp with ⟨rfl, rfl⟩ | ⟨-, rfl, -⟩ | ⟨hk, -⟩
      · exact ⟨rfl, hshare⟩
      · exact absurd hin pftemp_notIn
      · exact hk (known_of_proc hm.before)
    rw [Apart, Set.entry_self hset, hS, hW]
    rcases hbranch.flags with ⟨hne, -⟩ | ⟨-, hS', hW', -⟩
    · exact absurd hshared.2 hne
    · exact .inr (.inr ⟨fun _ => ⟨hshared.1, hS'⟩, fun hwr => absurd hW' hwr⟩)
  · -- before the call `e` is in no window
    subst heq
    obtain ⟨envid', hpc', -⟩ := (window_at hm.before).mp hw
    cases hpc.symm.trans hpc'
  · cases hfault.symm.trans hf'
  · have hrest : Empty v' (envx envid) (pn + 1) := fun pn' hpn' hle => by
      rw [Set.entry_of_ne hset fun heq => by omega]
      exact hempty hneg pn' hpn' (by omega)
    cases again with
    | true =>
      cases hpc'
      have hentry := hbranch.flags
      obtain ⟨hS', hflags', -⟩ := hbranch
      refine ⟨hin, (hself pn).symm ▸ hS', (hself pn).symm ▸ hflags', fun _ => ⟨?_, hrest⟩⟩
      rw [Set.entry_self hset]
      rcases hentry with ⟨hne, -⟩ | ⟨-, hS'', hW'', ⟨-, -, hC''⟩ | ⟨heq, -⟩⟩
      · exact absurd hS' hne
      · exact ⟨hS.trans hS'', hW.trans hW'', hC ▸ hC''⟩
      · cases heq
    | false =>
      cases hpc'
      exact ⟨Nat.le_succ_of_le hin.1, hin.2, fun _ => hrest⟩

theorem Sound.parentMapped (hpc : P.fork = some (.parent envid pn)) (hfault : P.fault = none)
    (hm : Moves proc proc' e P { P with fork := some (.loop envid (pn + 1)) }) (hp : v.Maps e pn p)
    (hlt : p < 1048576) (hset : v.Set e pn (page2pa p ||| puc ||| pteP) v') : Sound proc' v' := by
  obtain ⟨hin, hS, -, hrest⟩ : ForkOk v e (.parent envid pn) := h.fork e P _ hm.before hpc
  have hpage : ∀ {p'}, frameOf (page2pa p ||| puc ||| pteP) = some p' → p = p' := fun hp' =>
    Option.some.inj ((frameOf_entry hlt (by decide)).symm.trans hp')
  have hknown : ∀ x, Known proc' x → Known proc x := fun x => hm.known fun c n hc =>
    ⟨pn, (makes_at hpc rfl).mpr ⟨rfl, ((makes_at rfl rfl).mp hc).2⟩⟩
  have hS' : (page2pa p ||| puc ||| pteP) &&& pteShare = 0 := by
    rw [entry_and p puc (by decide)]
    decide
  have hW' : (page2pa p ||| puc ||| pteP) &&& pteW = 0 := by
    rw [entry_and p puc (by decide)]
    decide
  refine h.setEntry hf hm hset (.inl rfl) (fun p' hp' => ⟨pn, hpage hp' ▸ hp⟩) hknown
    (fun _ hne => absurd hS' hne) (fun p' y pn' hp' _ _ hy hne => ?_)
    (fun x pn1 p' hp' hx hpn1 hx' hshare hne => ?_) (fun y _ => hm.temp fun _ => rfl)
    (fun y x pn' hne hw => hm.window (fun heq => ?_) hw) (fun f hf' => ?_) ?_
  · obtain rfl := hpage hp'
    refine (h.separate e pn p (known_of_proc hm.before) hin hp hS y pn' hy).mono
      (Set.entry_of_ne hset hne) (hknown y) (fun _ _ => hm.temp fun _ => rfl) fun _ hw => ?_
    exact absurd rfl (hf.ne_child hm.live (making_window hw))
  · obtain rfl := hpage hp'
    rcases h.separate x pn1 p hx hpn1 hx' hshare e pn hp with ⟨rfl, rfl⟩ | ⟨-, rfl, -⟩ | ⟨hk, -⟩
    · exact absurd ⟨rfl, rfl⟩ hne
    · exact absurd hin pftemp_notIn
    · rw [Apart, Set.entry_self hset]
      exact .inr (.inr ⟨fun hy' => ⟨(hk (hknown e hy')).1, hS'⟩, fun hwr => absurd hW' hwr⟩)
  · -- the window was that of this page
    subst heq
    obtain ⟨envid', hpc', -⟩ := (window_at hm.before).mp hw
    cases hpc.symm.trans hpc'
    exact absurd ⟨rfl, rfl⟩ hne
  · cases hfault.symm.trans hf'
  · rintro pc ⟨⟩
    refine ⟨Nat.le_succ_of_le hin.1, hin.2, fun hneg => (hrest hneg).2.congr fun pn' _ =>
      Set.entry_of_ne hset fun heq => ?_⟩
    exact hf.ne_child hm.live ⟨P, hm.before, _, envid, hpc, rfl, hneg, rfl⟩ heq.1

theorem Sound.stored (hP : proc e = some P)
    (hidle : P.fault = none ∨ pn' = pgnum (uxstacktop - pgsize)) (hp : v.Maps e pn' p)
    (hW : v.entry e pn' &&& pteW ≠ 0) : Sound proc (v.setWord p i w) := by
  have hlive : ∀ y P f, proc y = some P → P.fault = some f → y = e → pn' ≠ pgnum pftemp := by
    rintro y P1 f hP1 hf' rfl heq
    obtain rfl := Option.mem_unique hP hP1
    rcases hidle with hnone | hstack
    · rw [hnone] at hf'
      cases hf'
    · exact uxstack_ne_pftemp (hstack.symm.trans heq)
  refine ⟨h.tidy, h.separate, fun y P1 f hP1 hf' => ?_, fun y P1 pc hP1 hpc =>
    (h.fork y P1 pc hP1 hpc).congr (fun _ _ => rfl) fun _ _ _ _ _ _ => rfl⟩
  refine (h.fault y P1 f hP1 hf').setWord ?_ ?_
  · rintro q hfresh rfl
    obtain ⟨hy, hpn'⟩ := hfresh.2 e pn' hp
    exact hlive y P1 f hP1 hf' hy.symm hpn'
  rintro pn q hpn hq ⟨hS, hW', -⟩ rfl
  rcases h.separate y pn q (known_of_proc hP1) hpn hq hS e pn' hp with
    ⟨rfl, rfl⟩ | ⟨rfl, hpn', -⟩ | ⟨-, hw⟩
  · exact hW hW'
  · exact hlive e P1 f hP1 hf' rfl hpn'
  · exact hf.ne_child (by simp [hP1]) (making_window (hw hW).2) rfl

end

theorem Sound.wordCopied (h : Sound proc v) (hfault : P.fault = some (.copy addr i)) (hi : i < 1024)
    (hm : Moves proc proc' e P { P with fault := some (.copy addr (i + 1)) })
    (hq : v.Maps e (pgnum pftemp) q)
    (hw : InRegion (pgnum addr) → ∃ p, v.Maps e (pgnum addr) p ∧ w = v.phys p i) :
    Sound proc' (v.setWord q i w) := by
  obtain ⟨halign, -, q', ⟨hq', honly⟩, hW, hcopy⟩ : Copied v e addr i :=
    h.fault e P _ hm.before hfault
  obtain rfl := Option.mem_unique hq hq'
  have hknown : ∀ x, Known proc' x → Known proc x := fun x => hm.known_of_fork rfl
  refine hm.sound (fun x pn hx => h.tidy x pn (hknown x hx))
    (fun x pn p hx hpn hp hshare y pn' hy => ?_) ?_ (fun y P1 f hye hP1 hf' => ?_)
    (fun pc hpc => (h.fork e P pc hm.before hpc).congr (fun _ _ => rfl) fun _ _ _ _ _ _ => rfl)
    fun y P1 pc _ hP1 hpc => (h.fork y P1 pc hP1 hpc).congr (fun _ _ => rfl) fun _ _ _ _ _ _ => rfl
  · refine (h.separate x pn p (hknown x hx) hpn hp hshare y pn' hy).mono rfl (hknown y)
      (fun _ _ ht => hm.temp (fun heq => ?_) ht) fun _ => hm.window fun _ => rfl
    subst heq
    cases hfault.symm.trans ((temp_at hm.before).mp ht)
  · rintro f ⟨⟩
    refine ⟨halign, hi, q, ⟨hq, honly⟩, hW, fun hin => ?_⟩
    obtain ⟨p', hp', hcow, hwords⟩ := hcopy hin
    obtain ⟨p, hp, rfl⟩ := hw hin
    obtain rfl := Option.mem_unique hp hp'
    have hne : p ≠ q := fun heq => pftemp_notIn ((honly e _ (heq ▸ hp)).2 ▸ hin)
    refine ⟨p, hp, hcow, fun j hj => ?_⟩
    rw [Pages.setWord_of_ne v _ fun heq : p = q ∧ j = i => hne heq.1]
    by_cases hji : j = i
    · rw [hji, Pages.setWord_self]
    · rw [Pages.setWord_of_ne v _ fun heq => hji heq.2]
      exact hwords j (by omega)
  · refine (h.fault y P1 f hP1 hf').setWord ?_ ?_
    · rintro q' hfresh rfl
      exact hye (hfresh.2 e _ hq).1.symm
    · intro pn q1 hpn hq1 _ heq
      exact pftemp_notIn ((honly y pn (heq ▸ hq1)).2 ▸ hpn)

theorem Family.known_of_making (hf : Family k proc) (hother : ∀ y, y ≠ e → proc' y = proc y)
    (he : proc e ≠ none) (hnone : ∀ c n, ¬ Making proc' e c n) (hc : Making proc e c n) :
    ¬ Known proc' c := by
  rintro (hlive | ⟨y, m, hy⟩)
  · rw [hother c (hf.ne_child he hc)] at hlive
    exact hlive (hf.child e c n hc).2.2
  · have hne : y ≠ e := fun heq => hnone c m (heq ▸ hy)
    exact hne (hf.parent e y c n m hc ((making_of_ne hother hne).mp hy))

theorem Sound.setFault (h : Sound proc v) (hm : Moves proc proc' e P P') (hfork : P'.fork = P.fork)
    (hnot : P.fault ≠ some .unmap) (hok : ∀ f, P'.fault = some f → FaultOk v e f) :
    Sound proc' v := by
  refine h.setProc hm.other (fun x => hm.known_of_fork hfork)
    (fun x pn _ => hm.window fun _ => hfork)
    (fun _ ht => absurd ((temp_at hm.before).mp ht) hnot) (fun P1 f hP1 => ?_)
    fun P1 pc hP1 hpc => ?_
  · obtain rfl := Option.mem_unique hm.after hP1
    exact hok f
  · obtain rfl := Option.mem_unique hm.after hP1
    exact h.fork e P pc hm.before (hfork ▸ hpc)

theorem Sound.setFork (h : Sound proc v) (hf : Family k proc) (hm : Moves proc proc' e P P')
    (hfault : P'.fault = P.fault) (hmakes : ∀ c n, Makes P' c n → ∃ m, Makes P c m)
    (hwindow : ∀ envid pn, P.fork = some (.parent envid pn) → P'.fork = none)
    (hok : ∀ pc, P'.fork = some pc → ForkOk v e pc) : Sound proc' v := by
  refine h.setProc hm.other (fun x => hm.known hmakes) (fun x pn hx hw => ?_)
    (fun _ => hm.temp fun _ => hfault) (fun P1 f hP1 hf' => ?_) fun P1 pc hP1 => ?_
  · refine absurd hx (hf.known_of_making hm.other hm.live (fun c n hc => ?_) (making_window hw))
    obtain ⟨envid, hpc, -⟩ := (window_at hm.before).mp hw
    obtain ⟨pc, -, hpc', -⟩ := hm.making_iff.2.mp hc
    rw [hwindow envid pn hpc] at hpc'
    cases hpc'
  · obtain rfl := Option.mem_unique hm.after hP1
    exact h.fault e P f hm.before (hfault ▸ hf')
  · obtain rfl := Option.mem_unique hm.after hP1
    exact hok pc

theorem Sound.stopped (h : Sound proc v) (hf : Family k proc) (he : proc e ≠ none)
    (hnone : proc' e = none) (hother : ∀ y, y ≠ e → proc' y = proc y) : Sound proc' v := by
  have hmake : ∀ c n, ¬ Making proc' e c n := by
    rintro c n ⟨P, hP, -⟩
    rw [hnone] at hP
    cases hP
  refine h.setProc hother (fun x => known_of_update hother he fun c n hc => absurd hc (hmake c n))
    (fun x pn hx hw => absurd hx (hf.known_of_making hother he hmake (making_window hw)))
    (fun hx _ => ?_) (fun P f hP => ?_) fun P pc hP => ?_
  · rcases hx with hlive | ⟨y, n, hy⟩
    · exact absurd hnone hlive
    · have hne : y ≠ e := fun heq => hmake e n (heq ▸ hy)
      exact absurd rfl (hf.ne_child he ((making_of_ne hother hne).mp hy))
  · rw [hnone] at hP
    cases hP
  · rw [hnone] at hP
    cases hP

theorem Family.kernel (hf : Family k proc)
    (hdir : ∀ x, (k.envs x).envPgdir ≠ none → (k'.envs x).envPgdir ≠ none) : Family k' proc :=
  ⟨fun e he => ⟨(hf.live e he).1, hdir e (hf.live e he).2⟩, fun e c n hc =>
    ⟨(hf.child e c n hc).1, hdir c (hf.child e c n hc).2.1, (hf.child e c n hc).2.2⟩, hf.parent,
      hf.ids⟩

theorem Family.moves (hf : Family k proc) (hm : Moves proc proc' e P P')
    (hmakes : ∀ c n, Makes P' c n → ∃ m, Makes P c m)
    (hids : ∀ pc envid n, P'.fork = some pc → making pc = some (envid, n) → envid ≠ 0) :
    Family k proc' := by
  have hback : ∀ y c n, Making proc' y c n → ∃ m, Making proc y c m := by
    intro y c n hc
    by_cases hne : y = e
    · subst hne
      obtain ⟨m, hm'⟩ := hmakes c n (hm.making_iff.2.mp hc)
      exact ⟨m, hm.making_iff.1.mpr hm'⟩
    · exact ⟨n, (making_of_ne hm.other hne).mp hc⟩
  refine ⟨fun y hy => hf.live y fun hnone => hy (hm.none_iff.mpr hnone), fun y c n hc => ?_,
    fun y y' c n n' hc hc' => ?_, fun y P1 pc envid n hP1 hpc hmk => ?_⟩
  · obtain ⟨m, hc⟩ := hback y c n hc
    obtain ⟨hlt, hdir, hc'⟩ := hf.child y c m hc
    exact ⟨hlt, hdir, hm.none_iff.mpr hc'⟩
  · obtain ⟨m, hc⟩ := hback y c n hc
    obtain ⟨m', hc'⟩ := hback y' c n' hc'
    exact hf.parent y y' c m m' hc hc'
  · revert pc
    refine hm.cases_on (Q := fun _ P => ∀ pc, P.fork = some pc → making pc = some (envid, n) →
      envid ≠ 0) (fun pc => hids pc envid n) ?_ y P1 hP1
    intro y P1 _ hP1 pc
    exact hf.ids y P1 pc envid n hP1

theorem Family.stopped (hf : Family k proc) (hnone : proc' e = none)
    (hother : ∀ y, y ≠ e → proc' y = proc y) : Family k proc' := by
  have hne : ∀ y, proc' y ≠ none → y ≠ e := fun y hy heq => hy (heq ▸ hnone)
  have hback : ∀ y c n, Making proc' y c n → Making proc y c n := by
    rintro y c n ⟨P, hP, hc⟩
    exact ⟨P, hother y (hne y (by simp [hP])) ▸ hP, hc⟩
  refine ⟨fun y hy => hf.live y (hother y (hne y hy) ▸ hy), fun y c n hc => ?_,
    fun y y' c n n' hc hc' => hf.parent y y' c n n' (hback y c n hc) (hback y' c n' hc'),
    fun y P pc envid n hP => ?_⟩
  · obtain ⟨hlt, hdir, hc'⟩ := hf.child y c n (hback y c n hc)
    refine ⟨hlt, hdir, ?_⟩
    by_cases heq : c = e
    · rw [heq, hnone]
    · rw [hother c heq, hc']
  · exact hf.ids y P pc envid n (hother y (hne y (by simp [hP])) ▸ hP)

theorem Sound.begun (h : Sound proc v) (hm : Moves proc proc' e P P') (hfault : P'.fault = P.fault)
    (hnot : ∀ envid pn, P.fork ≠ some (.parent envid pn)) (hmakes : ∀ c' n, Makes P' c' n → c' = c)
    (hzero : ∀ pn, v.entry c pn = 0) (hok : ∀ pc, P'.fork = some pc → ForkOk v e pc) :
    Sound proc' v := by
  have hknown : ∀ x, Known proc' x → x = c ∨ Known proc x := by
    rintro x (hlive | ⟨y, n, hy⟩)
    · by_cases hne : x = e
      · exact .inr (.inl (hne ▸ hm.live))
      · exact .inr (.inl (hm.other x hne ▸ hlive))
    · by_cases hne : y = e
      · subst hne
        exact .inl (hmakes x n (hm.making_iff.2.mp hy))
      · exact .inr (.inr ⟨y, n, (making_of_ne hm.other hne).mp hy⟩)
  have hempty : ∀ pn p, ¬ v.Maps c pn p := by
    intro pn p hp
    rw [Pages.Maps, hzero, frameOf_zero] at hp
    cases hp
  have hknown' : ∀ x pn p, v.Maps x pn p → Known proc' x → Known proc x := fun x pn p hp hx =>
    (hknown x hx).resolve_left fun heq => hempty pn p (heq ▸ hp)
  refine hm.sound (fun x pn hx hpn hS => ?_) (fun x pn p hx hpn hp hshare y pn' hy => ?_)
    (fun f hf => h.fault e P f hm.before (hfault ▸ hf)) (fun y P1 f _ hP1 => h.fault y P1 f hP1) hok
    fun y P1 pc _ hP1 => h.fork y P1 pc hP1
  · rcases hknown x hx with rfl | hx
    · rw [hzero] at hS
      exact absurd BitVec.zero_and hS
    · exact h.tidy x pn hx hpn hS
  · refine (h.separate x pn p (hknown' x pn p hp hx) hpn hp hshare y pn' hy).mono rfl
      (hknown' y pn' p hy) (fun _ _ => hm.temp fun _ => hfault)
      fun _ hw => hm.window (fun heq => ?_) hw
    subst heq
    obtain ⟨envid, hpc, -⟩ := (window_at hm.before).mp hw
    exact absurd hpc (hnot envid pn)

theorem Family.begun (hf : Family k proc) (hm : Moves proc proc' e P P')
    (hc : c < nenv) (hunused : (k.envs c).envPgdir = none) (hdir : (k'.envs c).envPgdir ≠ none)
    (hothers : ∀ x, x ≠ c → k'.envs x = k.envs x) (hmakes : ∀ c' n, Makes P' c' n → c' = c)
    (hids : ∀ pc envid n, P'.fork = some pc → making pc = some (envid, n) → envid ≠ 0) :
    Family k' proc' := by
  have hdirs : ∀ x, (k.envs x).envPgdir ≠ none → (k'.envs x).envPgdir ≠ none := by
    intro x hx
    rwa [hothers x fun heq => hx (heq ▸ hunused)]
  have hnew : proc c = none := by
    by_contra hlive
    exact (hf.live c hlive).2 hunused
  have hcases : ∀ y x n, Making proc' y x n → (y = e ∧ x = c) ∨ (y ≠ e ∧ Making proc y x n) := by
    intro y x n hx
    by_cases hne : y = e
    · subst hne
      exact .inl ⟨rfl, hmakes x n (hm.making_iff.2.mp hx)⟩
    · exact .inr ⟨hne, (making_of_ne hm.other hne).mp hx⟩
  have hnobody : ∀ y n, ¬ Making proc y c n := fun y n hy => (hf.child y c n hy).2.1 hunused
  refine ⟨fun y hy => ?_, fun y x n hx => ?_, fun y y' x n n' hx hx' => ?_,
    fun y P1 pc envid n hP1 => ?_⟩
  · obtain ⟨hlt, hd⟩ := hf.live y fun hnone => hy (hm.none_iff.mpr hnone)
    exact ⟨hlt, hdirs y hd⟩
  · rcases hcases y x n hx with ⟨rfl, rfl⟩ | ⟨-, hx⟩
    · exact ⟨hc, hdir, hm.none_iff.mpr hnew⟩
    · obtain ⟨hlt, hd, hx'⟩ := hf.child y x n hx
      exact ⟨hlt, hdirs x hd, hm.none_iff.mpr hx'⟩
  · rcases hcases y x n hx with ⟨rfl, rfl⟩ | ⟨-, hx⟩
    · rcases hcases y' x n' hx' with ⟨rfl, -⟩ | ⟨-, hx'⟩
      · rfl
      · exact absurd hx' (hnobody y' n')
    · rcases hcases y' x n' hx' with ⟨-, rfl⟩ | ⟨-, hx'⟩
      · exact absurd hx (hnobody y n)
      · exact hf.parent y y' x n n' hx hx'
  · exact hm.cases_on (Q := fun _ P => P.fork = some pc → making pc = some (envid, n) → envid ≠ 0)
      (hids pc envid n) (fun y P1 _ hP1 => hf.ids y P1 pc envid n hP1) y P1 hP1

structure Starts (proc proc' : Nat → Option Process) (e c : Nat) (P P' : Process) : Prop where
  before : proc e = some P
  fault : P.fault = none
  making : ∃ envid, P.fork = some (.start envid) ∧ ¬ isNeg envid ∧ envx envid = c
  after : proc' e = some P'
  idle : P'.fork = none ∧ P'.fault = none
  child : proc' c = some newProcess
  other : ∀ y, y ≠ e → y ≠ c → proc' y = proc y

namespace Starts

variable (hst : Starts proc proc' e c P P')
include hst

theorem makes : Makes P c (pgnum ustacktop) := by
  obtain ⟨envid, hpc, hneg, rfl⟩ := hst.making
  exact ⟨_, envid, hpc, rfl, hneg, rfl⟩

theorem notWindow : ¬ Window proc e x pn := by
  rw [window_at hst.before]
  rintro ⟨envid', hpc', -⟩
  obtain ⟨envid, hpc, -⟩ := hst.making
  cases hpc.symm.trans hpc'

theorem busy {P1 : Process} (hP1 : proc' y = some P1) (hbusy : P1.fork ≠ none ∨ P1.fault ≠ none) :
    y ≠ e ∧ proc y = some P1 := by
  have hye : y ≠ e := by
    rintro rfl
    obtain rfl := Option.mem_unique hst.after hP1
    exact hbusy.elim (fun hne => hne hst.idle.1) fun hne => hne hst.idle.2
  have hyc : y ≠ c := by
    rintro rfl
    obtain rfl := Option.mem_unique hst.child hP1
    exact hbusy.elim (fun hne => hne rfl) fun hne => hne rfl
  exact ⟨hye, hst.other y hye hyc ▸ hP1⟩

theorem making_back (h : Making proc' y x n) : y ≠ e ∧ Making proc y x n := by
  obtain ⟨P1, hP1, hmakes⟩ := h
  obtain ⟨pc, envid, hpc, hrest⟩ := hmakes
  obtain ⟨hye, hP1'⟩ := hst.busy hP1 (.inl (by simp [hpc]))
  exact ⟨hye, P1, hP1', pc, envid, hpc, hrest⟩

theorem known (hx : Known proc' x) : Known proc x := by
  rcases hx with hlive | ⟨y, n, hy⟩
  · by_cases hxe : x = e
    · exact .inl (by simp [hxe, hst.before])
    · by_cases hxc : x = c
      · exact .inr ⟨e, _, P, hst.before, hxc ▸ hst.makes⟩
      · exact .inl (hst.other x hxe hxc ▸ hlive)
  · exact .inr ⟨y, n, (hst.making_back hy).2⟩

theorem sound (hf : Family k proc) (h : Sound proc v) : Sound proc' v := by
  have hnone : proc c = none := (hf.child e c _ ⟨P, hst.before, hst.makes⟩).2.2
  have hother : ∀ y P1, y ≠ e → proc y = some P1 → proc' y = some P1 := by
    intro y P1 hye hP1
    have hyc : y ≠ c := by
      rintro rfl
      cases hnone.symm.trans hP1
    exact (hst.other y hye hyc).trans hP1
  refine ⟨fun x pn hx => h.tidy x pn (hst.known hx), fun x pn p hx hpn hp hshare y pn' hy => ?_,
    fun y P1 f hP1 hf' => ?_, fun y P1 pc hP1 hpc => ?_⟩
  · refine (h.separate x pn p (hst.known hx) hpn hp hshare y pn' hy).mono rfl hst.known
      (fun _ _ ht => ?_) fun _ hw => ?_
    · have hye : y ≠ e := fun heq => by
        cases hst.fault.symm.trans ((temp_at hst.before).mp (heq ▸ ht))
      obtain ⟨P1, hP1, hunmap⟩ := ht
      exact ⟨P1, hother y P1 hye hP1, hunmap⟩
    · have hye : y ≠ e := fun heq => hst.notWindow (heq ▸ hw)
      obtain ⟨P1, envid, hP1, hpc, hrest⟩ := hw
      exact ⟨P1, envid, hother y P1 hye hP1, hpc, hrest⟩
  · exact h.fault y P1 f (hst.busy hP1 (.inr (by simp [hf']))).2 hf'
  · exact h.fork y P1 pc (hst.busy hP1 (.inl (by simp [hpc]))).2 hpc

theorem family (hf : Family k proc) : Family k proc' := by
  have hmake : Making proc e c (pgnum ustacktop) := ⟨P, hst.before, hst.makes⟩
  refine ⟨fun y hy => ?_, fun y x n hx => ?_, fun y y' x n n' hx hx' => ?_,
    fun y P1 pc envid n hP1 hpc => ?_⟩
  · by_cases hyc : y = c
    · subst hyc
      obtain ⟨hlt, hdir, -⟩ := hf.child e y _ hmake
      exact ⟨hlt, hdir⟩
    · refine hf.live y ?_
      by_cases hye : y = e
      · simp [hye, hst.before]
      · exact hst.other y hye hyc ▸ hy
  · obtain ⟨hye, hx⟩ := hst.making_back hx
    obtain ⟨hlt, hdir, hnone⟩ := hf.child y x n hx
    refine ⟨hlt, hdir, (hst.other x (fun heq => ?_) fun heq => ?_).trans hnone⟩
    · subst heq
      cases hst.before.symm.trans hnone
    · subst heq
      exact hye (hf.parent e y x _ n hmake hx)
  · exact hf.parent y y' x n n' (hst.making_back hx).2 (hst.making_back hx').2
  · exact hf.ids y P1 pc envid n (hst.busy hP1 (.inl (by simp [hpc]))).2 hpc

end Starts

end Steps

end Mit6828.Lib.ForkInvariant
