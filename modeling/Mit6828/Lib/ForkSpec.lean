import Mit6828.Lib.ForkProgress

namespace Mit6828.Lib.ForkSpec

open Kern.Mmu Kern.Pmap Kern.AddressSpace Kern.Environment Kern.Separation
open Kern.KernelInvariant Kern.PageCallSpec
open Kern.UserMap Kern.UserPages Kern.EnvNames Kern.Syscall Fork EagerFork
open ForkInvariant ForkSimulation ForkSteps Kern.BootSpec Kern.Execution Kern.CallProgress
open ForkProgress Library Function

variable {k : Kernel} {e i : Nat} {w : Word} {a : Eager} {shared : Nat → Nat → Word} {v : Pages}
  {o : Option Page}

section Refinement

variable {s s' : Machine} {ev : Option Event}

/-- In the region, processes read what the eager ones do, and may write where they may: at once
or after `pgfault` has made a copy. -/
structure Agrees (s : Machine) (a : Eager) : Prop where
  live : ∀ x, a.live x ↔ s.proc x ≠ none
  load : ∀ x d va, s.proc x ≠ none → (s.kernel.envs x).envPgdir = some d → InRegion (pgnum va) →
    loadByte d s.kernel.mem va = a.load x va
  writable : ∀ x d va, s.proc x ≠ none → (s.kernel.envs x).envPgdir = some d → InRegion (pgnum va) →
    (a.Writable x va ↔ userMay d ⟨va, true⟩ s.kernel.mem ∨ Cow s.kernel x va)

theorem PageRel.load (h : PageRel v shared w o) (hi : i < 1024) (j : Nat) :
    (frameOf w).map (fun p => getByte (v.phys p i) j) = o.map fun page =>
      match page with
      | .own data _ => getByte (data i) j
      | .shared p _ => getByte (shared p i) j := by
  match o with
  | none =>
    have hnone : frameOf w = none := h
    rw [hnone]
    rfl
  | some (.own data writable) =>
    obtain ⟨p, hp, -, -, hwords⟩ := h
    rw [hp, Option.map_some, Option.map_some]
    exact congrArg (fun w => some (getByte w j)) (hwords i hi).symm
  | some (.shared p writable) =>
    obtain ⟨hp, -, -, hwords⟩ := h
    rw [hp, Option.map_some, Option.map_some]
    exact congrArg (fun w => some (getByte w j)) (hwords i hi).symm

theorem PageRel.writable (h : PageRel v shared w o)
    (htidy : w &&& pteShare ≠ 0 → w &&& pteCow ≠ 0 → w &&& pteW ≠ 0)
    (hpresent : w &&& pteCow ≠ 0 → ∃ p, frameOf w = some p) :
    (∃ page, o = some page ∧ page.writable = true) ↔
      (∃ p, frameOf w = some p ∧ w &&& pteW ≠ 0) ∨ w &&& pteCow ≠ 0 := by
  match o with
  | none =>
    have hnone : frameOf w = none := h
    refine iff_of_false (by simp) ?_
    rintro (⟨p, hp, -⟩ | hC)
    · cases hnone.symm.trans hp
    · obtain ⟨p, hp⟩ := hpresent hC
      cases hnone.symm.trans hp
  | some (.own data writable) =>
    obtain ⟨p, hp, -, hwrite, -⟩ := h
    simp only [Option.some.injEq, exists_eq_left', Page.writable, hwrite, hp]
  | some (.shared p writable) =>
    obtain ⟨hp, hS, hwrite, -⟩ := h
    simp only [Option.some.injEq, exists_eq_left', Page.writable, hwrite, hp]
    exact ⟨.inl, fun hor => hor.elim id (htidy hS)⟩

theorem agrees_of_matches (h : Matches s a) : Agrees s a := by
  obtain ⟨K, free, hinv⟩ := h.inv
  refine ⟨h.sim.live, fun x d va hx hd hin => ?_, fun x d va hx hd hin => ?_⟩
  · obtain ⟨hlt, -⟩ := h.family.live x hx
    have hi : (pgoff va).toNat / 4 < 1024 := by grind
    rw [loadByte_pages hinv hlt hd (lt_utop_of_inRegion hin)]
    exact PageRel.load (h.sim.page x hx _ hin) hi (va.toNat % 4)
  · obtain ⟨hlt, -⟩ := h.family.live x hx
    have hva := lt_utop_of_inRegion hin
    rw [userMay_pages hinv hlt hd va, cow_iff hlt hva, and_iff_right hva]
    exact PageRel.writable (h.sim.page x hx _ hin) (h.sound.tidy x _ (.inl hx) hin)
      (maps_of_mask hinv hlt hva)

theorem matches_step (h : Matches s a) (hstep : Step s ev s') :
    ∃ a', Eager.Run a ev.toList a' ∧ Matches s' a' := by
  cases hstep with
  | store e d va b hP hidle hd hmay hm => exact matches_store h hP hidle hd hmay hm
  | fault e d va hP hidle hd hmay hcow =>
    exact ⟨a, .refl, matches_fault h hP hidle hd hmay hcow⟩
  | refuse e d va hP hidle hd hmay hcow =>
    have hlive : s.proc e ≠ none := by simp [hP]
    refine ⟨_, .single (Eager.Step.refuse e va ((h.sim.live e).mpr hlive) fun hin hwrite => ?_),
      matches_stopped h hP (.refl h) (.refl _)⟩
    exact (((agrees_of_matches h).writable e d va hlive hd hin).mp hwrite).elim hmay hcow
  | copy e d addr i hP hfault hi hd hm => exact ⟨a, .refl, matches_copy h hP hfault hi hd hm⟩
  | copied e addr hP hfault => exact ⟨a, .refl, matches_copied h hP hfault⟩
  | fork e hP hidle hfork => exact ⟨a, .refl, matches_fork h hP hfork⟩
  | loop e envid pn hP hidle hfork => exact matches_loop h hP hfork
  | call e hw call hP hcall hres hsafe => exact matches_call h hP hcall hres hsafe

/-- The pages of `e` in the region, other than the shared ones, are each mapped at one address
of `e` and writable nowhere else. -/
def Private (k : Kernel) (e : Nat) : Prop :=
  ∀ pn p, InRegion pn → (pages k).Maps e pn p → (pages k).entry e pn &&& pteShare = 0 →
    ∀ y pn', (pages k).Maps y pn' p →
      (y = e → pn' = pn) ∧ ((pages k).entry y pn' &&& pteW ≠ 0 → y = e)

/-- No page is marked both shared and copy-on-write, unless it is writable. -/
def Tidy (k : Kernel) (e : Nat) : Prop :=
  ∀ pn, InRegion pn → (pages k).entry e pn &&& pteShare ≠ 0 → (pages k).entry e pn &&& pteCow ≠ 0 →
    (pages k).entry e pn &&& pteW ≠ 0

theorem pageRel_pageOf (k : Kernel) (w : Word) : PageRel (pages k) k.mem.phys w (pageOf k w) := by
  rw [pageOf]
  cases hframe : frameOf w with
  | none => exact hframe
  | some p =>
    simp only [Option.map_some]
    split
    · rename_i hS
      exact ⟨hframe, hS, by simp, fun _ _ => rfl⟩
    · rename_i hS
      exact ⟨p, hframe, not_not.mp hS, by simp, fun _ _ => rfl⟩

theorem matches_alone (handler : Bool) (hinv : ∃ K free, Inv K k free) (hnamed : Named k)
    (he : e < nenv) (hdir : (k.envs e).envPgdir ≠ none) (hprivate : Private k e)
    (htidy : Tidy k e) : Matches (alone k e handler) (snapshot k e) := by
  have hproc : ∀ x P, (alone k e handler).proc x = some P →
    x = e ∧ P.fork = none ∧ P.fault = none := by
    intro x P hP
    by_cases hx : x = e
    · subst hx
      simp only [alone, update_self, Option.some.injEq] at hP
      subst hP
      exact ⟨rfl, rfl, rfl⟩
    · simp [alone, update_of_ne hx] at hP
  have hlive : ∀ x, (alone k e handler).proc x ≠ none ↔ x = e := by
    intro x
    by_cases hx : x = e
    · simp [alone, hx]
    · simp [alone, hx]
  have hmake : ∀ y c n, ¬ Making (alone k e handler).proc y c n := by
    rintro y c n ⟨P, hP, hmakes⟩
    exact makes_of_fork (hproc y P hP).2.1 hmakes
  have hknown : ∀ x, Known (alone k e handler).proc x → x = e := by
    rintro x (hx | ⟨y, n, hy⟩)
    · exact (hlive x).mp hx
    · exact absurd hy (hmake y x n)
  refine ⟨hinv, hnamed, ⟨fun x hx => ?_, fun y c n hc => absurd hc (hmake y c n),
    fun y _ c n _ hc => absurd hc (hmake y c n), fun y P pc _ _ hP hpc => ?_⟩,
    ⟨fun x pn hx hpn => ?_, fun x pn p hx hpn hp hS y pn' hy => ?_, fun y P f hP hf => ?_,
      fun y P pc hP hpc => ?_⟩,
      ⟨fun x => ?_, fun x hx pn hpn => ?_, fun y hy => ?_, fun y hy => rfl⟩⟩
  · rw [(hlive x).mp hx]
    exact ⟨he, hdir⟩
  · cases (hproc y P hP).2.1.symm.trans hpc
  · rw [hknown x hx]
    exact htidy pn hpn
  · obtain rfl := hknown x hx
    obtain ⟨hone, hW⟩ := hprivate pn p hpn hp hS y pn' hy
    by_cases hyx : y = x
    · exact .inl ⟨hyx, hone hyx⟩
    · exact .inr (.inr ⟨fun hy' => absurd (hknown y hy') hyx, fun hw => absurd (hW hw) hyx⟩)
  · cases (hproc y P hP).2.2.symm.trans hf
  · cases (hproc y P hP).2.1.symm.trans hpc
  · exact (hlive x).symm
  · obtain rfl := (hlive x).mp hx
    change PageRel (pages k) k.mem.phys ((pages k).entry x pn)
      (pageOf k (pteOf k x (pn / 1024) (pn % 1024)))
    rw [pages_entry he (InRegion.lt hpn)]
    exact pageRel_pageOf k _
  · exact .inl ⟨hmake y, rfl⟩

/-- Whatever processes do after an environment with private pages has started, they read and
may write what they would if every `fork` had copied the pages. -/
theorem cow_fork_refines_copies {h : Kern.Boot.Machine} {tr : List Event} {handler : Bool}
    (hk : Reachable h NoWrap k) (he : e < nenv) (hdir : (k.envs e).envPgdir ≠ none)
    (hprivate : Private k e) (htidy : Tidy k e) (hrun : Fork.Run (alone k e handler) tr s) :
    ∃ a, Eager.Run (snapshot k e) tr a ∧ Agrees s a := by
  obtain ⟨K, free, hinv, -⟩ := reachable_inv hk
  have hstart := matches_alone handler ⟨K, free, hinv⟩ (reachable_named hk) he hdir hprivate htidy
  obtain ⟨a, heager, hmatches⟩ := Simulation.Run.simulate (R := Matches)
    (fun _ _ _ _ h hstep => matches_step h hstep) hrun hstart
  exact ⟨a, heager, agrees_of_matches hmatches⟩

end Refinement

section Runs

variable {p : Nat} {perm : Word}

/-- An environment of the small machine with a page at `UTEXT` and nothing else. -/
structure OnePage (perm : Word) (e p : Nat) (k : Kernel) : Prop where
  reach : Reachable smallMachine NoWrap k
  room : Room 8 k
  lt : e < nenv
  dir : (k.envs e).envPgdir ≠ none
  status : (k.envs e).envStatus ≠ .free
  head : k.envFreeList ≠ none
  poolLt : p < 1048576
  permLt : perm.toNat < 4096
  entry : (pages k).entry e (pgnum utext) = page2pa p ||| perm ||| pteP
  only : ∀ y pn, (pages k).Maps y pn p → y = e ∧ pn = pgnum utext
  rest : ∀ pn, pn ≠ pgnum utext → (pages k).entry e pn = 0

theorem smallMachine_onePage (perm : Word) (hperm : ¬ badPerm perm) (hlt : perm.toNat < 4096) :
    ∃ e p k, OnePage perm e p k := by
  obtain ⟨K, k, free, hk⟩ := smallMachine_runs
  have hreach : Reachable smallMachine NoWrap k := hk.reach.mono fun _ _ h => ⟨.inl h.1, h.2⟩
  have hlive : Live k 0 := ⟨by decide, by rw [hk.running]; decide⟩
  have hroom : Room 14000 k := ⟨⟨K, free, hk.inv, hk.room⟩, hk.wrapped, reachable_named hreach⟩
  obtain ⟨hroom0, -⟩ :=
    hroom.harmless (harmless_setCurenv k 0 (some 0) (by simp [nenv])) hroom.named
  obtain ⟨c, r, k1, hres, -, hforked, hroom1, hstatus, hparent, hhead, hnext⟩ :=
    exofork_progress (n := 13999) 0 hroom0 (by simp [Kernel.setCurenv, hk.head])
  obtain rfl := Option.mem_unique hk.head hhead
  have hreach1 : Reachable smallMachine NoWrap k1 :=
    hreach.step ⟨.inr ⟨0, 0, ⟨0, 0⟩, .exofork, hlive, trivial, .inl ⟨_, hres⟩⟩, hroom1.wrapped⟩
  have hlive1 : Live k1 0 := by
    refine ⟨by decide, ?_⟩
    rw [hforked.others 0 (by decide)]
    exact hlive.2
  obtain ⟨hroom2, hsame2⟩ := hroom1.harmless (harmless_setCurenv k1 0 (some 0) (by simp [nenv]))
    hroom1.named
  have hchild : envid2env 0 r true (k1.setCurenv 0 (some 0)) = some 3 := by
    refine envid2env_child hforked.slot hforked.ne_zero ?_ hforked.id ?_ true
    · exact hstatus.trans_ne (by decide)
    · exact hparent.trans (congrArg Env.envId (hforked.others 0 (by decide)).symm)
  obtain ⟨p, m, hres2, hroom3, hunused, hp, hset⟩ := alloc_progress (n := 13997) hroom2
    (show 0 < nenv by decide) (show ¬ badVa utext by decide) hperm hchild hforked.lt hforked.dir
  have hzero : ∀ pn, (pages (k1.setCurenv 0 (some 0))).entry 3 pn = 0 := fun pn => by
    rw [hsame2.entry, hforked.same.entry]
    exact entry_of_noDir hforked.unused pn
  refine ⟨3, p, _, hreach1.step ⟨.inr ⟨0, 0, ⟨0, 0⟩, .pageAlloc r utext perm, hlive1, trivial,
    .inl ⟨_, hres2⟩⟩, hroom3.wrapped⟩, hroom3.mono (by decide), hforked.lt, hforked.dir,
    hstatus.trans_ne (by decide), (hnext.trans hk.next).trans_ne (by simp), hp, hlt,
    Set.entry_self hset, fun y pn hy => ?_, fun pn hne => ?_⟩
  · rcases Set.maps_cases hset hy with ⟨rfl, rfl, -⟩ | ⟨-, hy⟩
    · exact ⟨rfl, rfl⟩
    · exact absurd ⟨y, pn, hy⟩ hunused
  · rw [Set.entry_of_ne hset fun heq => hne heq.2, hzero]

namespace OnePage

theorem maps (h : OnePage perm e p k) : (pages k).Maps e (pgnum utext) p := by
  rw [Pages.Maps, h.entry]
  exact frameOf_entry h.poolLt h.permLt

theorem isPrivate (h : OnePage perm e p k) : Private k e := by
  intro pn p' hin hp' hS y pn' hy
  by_cases hpn : pn = pgnum utext
  · subst hpn
    obtain rfl := Option.mem_unique h.maps hp'
    exact ⟨fun _ => (h.only y pn' hy).2, fun _ => (h.only y pn' hy).1⟩
  · rw [Pages.Maps, h.rest pn hpn, frameOf_zero] at hp'
    cases hp'

theorem forks (h : OnePage perm e p k) (perm' : Word) (again : Bool)
    (hdup : ∀ envid pn, duppage envid pn (perm ||| pteP) = .child envid pn perm' again)
    (hperm : ¬ badPerm perm') (hsame : perm' = if again then puc else perm) : ∃ c k', c ≠ e ∧
    Fork.Run (alone k e true) [.fork e c]
      ⟨k', update (alone k e true).proc c (some newProcess)⟩ ∧
    Room 3 k' ∧ c < nenv ∧ (k'.envs c).envPgdir ≠ none ∧ (k'.envs c).envStatus ≠ .free ∧
    (k'.envs e).envPgdir ≠ none ∧ ∀ x, x = c ∨ x = e →
      (pages k').entry x (pgnum utext) = page2pa p ||| perm' ||| pteP := by
  rw [show alone k e true = ⟨k, update (fun _ => none) e (some newProcess)⟩ from rfl]
  generalize (fun _ => none : Nat → Option Process) = proc
  have hstep := Step.fork (s := ⟨k, update proc e (some newProcess)⟩) e (update_self _ _ _) rfl rfl
  simp only [Machine.setProc, update_idem] at hstep
  obtain ⟨c, envid, k1, hres, hpos, hforked, hroom, hchildStatus, hparent, -, -⟩ :=
    exofork_progress (n := 7) e h.room h.head
  have hne : c ≠ e := by
    rintro rfl
    exact h.dir hforked.unused
  have hrun := fork_call (P := newProcess) proc rfl .exofork (by simp) (by simp) rfl hres
    hroom.wrapped
  simp only [ForkPc.next, if_neg hforked.ne_zero] at hrun
  have hself : k1.envs e = k.envs e := hforked.others e hne.symm
  have hforking : Forking 7 e c envid k1 := by
    refine ⟨hroom, h.lt, hself ▸ h.dir, ?_, hforked.lt, hforked.dir, ?_, hne⟩
    · exact envid2env_own hroom.named h.lt (hself ▸ h.status) true
    · exact envid2env_child hforked.slot hforked.ne_zero (hchildStatus.trans_ne (by decide))
        hforked.id (hself ▸ hparent) true
  have hentry : (pages k1).entry = (pages k).entry := hforked.same.entry
  have hbranch : duppage envid (pgnum utext) ((pages k1).entry e (pgnum utext)) =
      .child envid (pgnum utext) perm' again := by
    rw [← hdup, hentry, h.entry]
    simp only [duppage, entry_and p perm (show pteShare.toNat < 4096 by decide),
      entry_and p perm (show pteSyscall.toNat < 4096 by decide),
      entry_and p perm (show pteW.toNat < 4096 by decide),
      entry_and p perm (show pteCow.toNat < 4096 by decide)]
  obtain ⟨m, hdup, hforking2, hchild2, hself2, hrest2⟩ := dup_runs (n := 5) (P := newProcess) proc
    hforking rfl (by decide) (by rw [Pages.Maps, hentry]; exact h.maps)
    (fun y pn hy => h.only y pn (by rwa [Pages.Maps, hentry] at hy)) hbranch hperm
  have hskip := skips_run (k := { k1 with mem := m }) (P := newProcess) proc envid h.lt rfl
    (pgnum ustacktop - (pgnum utext + 1)) (pgnum utext + 1) (Nat.le_succ _) (by decide)
    fun pn hle _ => by
      rw [hrest2 e pn (by omega), hentry, h.rest pn (by omega), frameOf_zero]
  rw [Nat.add_sub_cancel' (by decide)] at hskip
  obtain ⟨k3, hfinish, hroom3, hdir3, hstatus3, hentry3⟩ :=
    finish_runs (P := newProcess) proc hforking2 rfl
  refine ⟨c, k3, hne, (((Simulation.Run.single hstep).trans hrun).trans hdup).trans
    (hskip.trans hfinish), hroom3.mono (by decide), hforked.lt, ?_, hstatus3.trans_ne (by decide),
    ?_, ?_⟩
  · rw [hdir3]
    exact hforked.dir
  · rw [hdir3]
    exact hforking.dir
  · rintro x (rfl | rfl) <;> rw [hentry3 _ _ (by decide)]
    · exact hchild2
    · rw [hself2, hsame, hentry, h.entry]
      split <;> rfl

end OnePage

/-- A process forks, and its child stores to a page that is copy-on-write from then on. -/
theorem cow_fork_refines_copies_smallMachine : ∃ k e c b s a,
    Fork.Run (alone k e true) [.fork e c, .store c utext b] s ∧
    Eager.Run (snapshot k e) [.fork e c, .store c utext b] a ∧ Agrees s a := by
  obtain ⟨e, p, k, h⟩ := smallMachine_onePage puw (by decide) (by decide)
  obtain ⟨c, k1, hne, hfork, hroom, hc, hcdir, hcstatus, -, hentry⟩ :=
    h.forks puc true (fun _ _ => rfl) (by decide) rfl
  obtain ⟨d, hd⟩ := Option.ne_none_iff_exists'.mp hcdir
  obtain ⟨m, hstore, -⟩ := cow_store_runs hroom hc hd (envid2env_own hroom.named hc hcstatus true)
    (update_self c (some newProcess) (alone k e true).proc) rfl
    (by rw [Pages.Maps, hentry c (.inl rfl)]; exact frameOf_entry h.poolLt (by decide)) (by decide)
    (by rw [hentry c (.inl rfl), entry_and p _ (by decide)]; decide)
    (by rw [hentry c (.inl rfl), entry_and p _ (by decide)]; decide) 1
  have hrun := hfork.trans hstore
  have htidy : Tidy k e := by
    intro pn _ hS
    by_cases hpn : pn = pgnum utext
    · rw [hpn, h.entry, entry_and p _ (by decide)] at hS
      exact absurd hS (by decide)
    · rw [h.rest pn hpn] at hS
      exact absurd BitVec.zero_and hS
  obtain ⟨a, heager, hagrees⟩ := cow_fork_refines_copies h.reach h.lt h.dir h.isPrivate htidy hrun
  exact ⟨k, e, c, 1, _, a, hrun, heager, hagrees⟩

def shareCow : Word := pteP ||| pteU ||| pteShare ||| pteCow

/-- A page that is marked both shared and copy-on-write stops being shared when the child
stores to it. -/
theorem shared_cow_store_unseen : ∃ k e c p b s s' d d',
    Reachable smallMachine NoWrap k ∧ e < nenv ∧ (k.envs e).envPgdir ≠ none ∧ Private k e ∧
    Fork.Run (alone k e true) [.fork e c] s ∧
    ((pages s.kernel).Maps e (pgnum utext) p ∧
      (pages s.kernel).entry e (pgnum utext) &&& pteShare ≠ 0) ∧
    ((pages s.kernel).Maps c (pgnum utext) p ∧
      (pages s.kernel).entry c (pgnum utext) &&& pteShare ≠ 0) ∧
    Fork.Run s [.store c utext b] s' ∧ (s'.kernel.envs c).envPgdir = some d ∧
    (s'.kernel.envs e).envPgdir = some d' ∧ loadByte d s'.kernel.mem utext = some b ∧
    loadByte d' s'.kernel.mem utext ≠ some b := by
  obtain ⟨e, p, k, h⟩ := smallMachine_onePage shareCow (by decide) (by decide)
  obtain ⟨c, k1, hne, hfork, hroom, hc, hcdir, hcstatus, hdir, hentry⟩ :=
    h.forks shareCow false (fun _ _ => rfl) (by decide) rfl
  obtain ⟨d, hd⟩ := Option.ne_none_iff_exists'.mp hcdir
  obtain ⟨d', hd'⟩ := Option.ne_none_iff_exists'.mp hdir
  have hmaps : ∀ x, x = c ∨ x = e → (pages k1).Maps x (pgnum utext) p := fun x hx => by
    rw [Pages.Maps, hentry x hx]
    exact frameOf_entry h.poolLt h.permLt
  have hflags : ∀ x, x = c ∨ x = e → ∀ mask : Word, mask.toNat < 4096 →
      (pages k1).entry x (pgnum utext) &&& mask = (shareCow ||| pteP) &&& mask :=
    fun x hx mask hmask => by rw [hentry x hx, entry_and p shareCow hmask]
  have hshare : ∀ x, x = c ∨ x = e → (pages k1).entry x (pgnum utext) &&& pteShare ≠ 0 :=
    fun x hx => by
    rw [hflags x hx _ (by decide)]
    decide
  let old := getByte ((pages k1).phys p ((pgoff utext).toNat / 4)) (utext.toNat % 4)
  obtain ⟨m, hrun, hroom', hload, hothers⟩ := cow_store_runs hroom hc hd
    (envid2env_own hroom.named hc hcstatus true)
    (update_self c (some newProcess) (alone k e true).proc) rfl (hmaps c (.inl rfl)) (by decide)
    (by rw [hflags c (.inl rfl) _ (by decide)]; decide)
    (by rw [hflags c (.inl rfl) _ (by decide)]; decide) (old + 1)
  obtain ⟨hsame, hphys⟩ := hothers e hne.symm
  obtain ⟨K, free, hinv, -⟩ := hroom'.inv
  refine ⟨k, e, c, p, old + 1, _, _, d, d', h.reach, h.lt, h.dir, h.isPrivate, hfork,
    ⟨hmaps e (.inr rfl), hshare e (.inr rfl)⟩, ⟨hmaps c (.inl rfl), hshare c (.inl rfl)⟩, hrun, hd,
    hd', hload, ?_⟩
  have hparent := loadByte_pages hinv h.lt hd' (show utext < utop by decide)
  have hpage : frameOf ((pages k1).entry e (pgnum utext)) = some p := hmaps e (.inr rfl)
  have hold : (pages { k1 with mem := m }).phys p = (pages k1).phys p :=
    hphys _ p (hmaps e (.inr rfl))
  rw [hsame, hpage, Option.map_some, hold] at hparent
  rw [hparent]
  intro heq
  have hsucc : old = old + 1 := Option.some.inj heq
  bv_omega

end Runs

end Mit6828.Lib.ForkSpec
