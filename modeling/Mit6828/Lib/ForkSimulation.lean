import Mit6828.Lib.ForkInvariant

namespace Mit6828.Lib.ForkSimulation

open Kern.Mmu Kern.AddressSpace Kern.Environment Kern.Separation Kern.UserPages Fork EagerFork
open ForkInvariant Function

/-- The entry `w` gives access to this page; `shared` are the contents of shared pages. -/
def PageRel (v : Pages) (shared : Nat → Nat → Word) (w : Word) : Option Page → Prop
  | none => frameOf w = none
  | some (.own data writable) => ∃ p, frameOf w = some p ∧ w &&& pteShare = 0 ∧
      (writable = true ↔ w &&& pteW ≠ 0 ∨ w &&& pteCow ≠ 0) ∧ ∀ i < 1024, data i = v.phys p i
  | some (.shared p writable) => frameOf w = some p ∧ w &&& pteShare ≠ 0 ∧
      (writable = true ↔ w &&& pteW ≠ 0) ∧ ∀ i < 1024, shared p i = v.phys p i

/-- Where the eager process stands: at the same page, or one further if the page that it is at
has ceased to be common to parent and child. -/
def Reached (proc : Nat → Option Process) (v : Pages) (e c n n' : Nat) : Prop :=
  (n' = n ∧ (Window proc e c n → frameOf (v.entry c n) = frameOf (v.entry e n))) ∨
    (n' = n + 1 ∧ Window proc e c n ∧ frameOf (v.entry c n) ≠ frameOf (v.entry e n))

def Building (proc : Nat → Option Process) (v : Pages) (a : Eager) (e : Nat) : Prop :=
  ((∀ c n, ¬ Making proc e c n) ∧ a.forking e = none) ∨
    ∃ c n n', Making proc e c n ∧ a.forking e = some (c, n') ∧ Reached proc v e c n n' ∧
      ∀ pn, InRegion pn → pn < n' → PageRel v a.shared (v.entry c pn) (a.page c pn)

structure Sim (proc : Nat → Option Process) (v : Pages) (a : Eager) : Prop where
  live : ∀ x, a.live x ↔ proc x ≠ none
  page : ∀ x, proc x ≠ none → ∀ pn, InRegion pn → PageRel v a.shared (v.entry x pn) (a.page x pn)
  building : ∀ e, proc e ≠ none → Building proc v a e
  dead : ∀ e, proc e = none → a.forking e = none

variable {proc proc' : Nat → Option Process} {v v' : Pages} {a a' : Eager} {k : Kernel}
  {e x y c n n' pn pn' p q : Nat} {P P' : Process} {w w' : Word} {o : Option Page}
  {shared : Nat → Nat → Word}

section

variable (h : PageRel v shared w o)
include h

theorem PageRel.congr
    (hphys : ∀ p, frameOf w = some p → v'.phys p = v.phys p) : PageRel v' shared w o := by
  match o with
  | none => exact h
  | some (.own data writable) =>
    obtain ⟨p, hp, hrest⟩ := h
    rw [PageRel]
    refine ⟨p, hp, hrest.1, hrest.2.1, ?_⟩
    rw [hphys p hp]
    exact hrest.2.2
  | some (.shared p writable) =>
    obtain ⟨hp, hrest⟩ := h
    refine ⟨hp, hrest.1, hrest.2.1, ?_⟩
    rw [hphys p hp]
    exact hrest.2.2

theorem PageRel.eq_none (hw : frameOf w = none) : o = none := by
  match o with
  | none => rfl
  | some (.own _ _) =>
    obtain ⟨p, hp, -⟩ := h
    cases hw.symm.trans hp
  | some (.shared _ _) => cases hw.symm.trans h.1

theorem PageRel.own_congr (hw : frameOf w = some p)
    (hS : w &&& pteShare = 0) (hw' : frameOf w' = some q) (hS' : w' &&& pteShare = 0)
    (hflags : (w' &&& pteW ≠ 0 ∨ w' &&& pteCow ≠ 0) ↔ (w &&& pteW ≠ 0 ∨ w &&& pteCow ≠ 0))
    (hwords : ∀ i < 1024, v'.phys q i = v.phys p i) : PageRel v' shared w' o := by
  match o with
  | none => cases hw.symm.trans h
  | some (.own data writable) =>
    obtain ⟨p', hp', -, hwrite, hdata⟩ := h
    obtain rfl := Option.mem_unique hw hp'
    exact ⟨q, hw', hS', hwrite.trans hflags.symm,
      fun i hi => (hdata i hi).trans (hwords i hi).symm⟩
  | some (.shared _ _) => exact absurd hS h.2.1

theorem PageRel.shared_congr (hw : frameOf w = some p)
    (hS : w &&& pteShare ≠ 0) (hw' : frameOf w' = some p) (hS' : w' &&& pteShare ≠ 0)
    (hW : w' &&& pteW = w &&& pteW) (hphys : v'.phys p = v.phys p) : PageRel v' shared w' o := by
  match o with
  | none => cases hw.symm.trans h
  | some (.own _ _) =>
    obtain ⟨p', -, hzero, -⟩ := h
    exact absurd hzero hS
  | some (.shared p' writable) =>
    obtain ⟨hp', -, hwrite, hdata⟩ := h
    obtain rfl := Option.mem_unique hw hp'
    refine ⟨hw', hS', ?_, ?_⟩
    · rw [hW]
      exact hwrite
    · rw [hphys]
      exact hdata

end

/-- A step of `e` that the pages of other processes and their children do not see. -/
structure Steady (proc : Nat → Option Process) (e : Nat) (v v' : Pages) (a a' : Eager) : Prop where
  entry : ∀ x, x ≠ e → (∀ n, ¬ Making proc e x n) → ∀ pn, InRegion pn → v'.entry x pn = v.entry x pn
  phys : ∀ x pn p, InRegion pn → v.Maps x pn p → v'.phys p = v.phys p
  shared : a'.shared = a.shared
  page : ∀ x, (∀ n, ¬ Making proc e x n) → a'.page x = a.page x
  forking : ∀ y, y ≠ e → a'.forking y = a.forking y

theorem Steady.pageRel (h : Steady proc e v v' a a') (hx : x ≠ e) (hmake : ∀ n, ¬ Making proc e x n)
    (hpn : InRegion pn) (hrel : PageRel v a.shared (v.entry x pn) (a.page x pn)) :
    PageRel v' a'.shared (v'.entry x pn) (a'.page x pn) := by
  rw [h.entry x hx hmake pn hpn, h.page x hmake, h.shared]
  exact hrel.congr fun p hp => h.phys x pn p hpn hp

theorem Reached.congr (h : Reached proc v e c n n') (hs : Sound proc v)
    (hwindow : Window proc' e c n ↔ Window proc e c n)
    (hchild : ∀ pn, InRegion pn → v'.entry c pn = v.entry c pn)
    (hself : ∀ pn, InRegion pn → v'.entry e pn = v.entry e pn) : Reached proc' v' e c n n' := by
  rw [Reached, hwindow]
  rcases h with ⟨hn, hframe⟩ | ⟨hn, hw, hframe⟩
  · refine .inl ⟨hn, fun hw => ?_⟩
    have hin := hs.window_inRegion hw
    rw [hchild n hin, hself n hin]
    exact hframe hw
  · have hin := hs.window_inRegion hw
    rw [hchild n hin, hself n hin]
    exact .inr ⟨hn, hw, hframe⟩

theorem Steady.building (h : Steady proc e v v' a a') (hs : Sound proc v) (hf : Family k proc)
    (hlive : proc e ≠ none)
    (hy : proc y ≠ none) (hne : y ≠ e) (hsame : proc' y = proc y) (hb : Building proc v a y) :
    Building proc' v' a' y := by
  have hmake : ∀ c n, Making proc' y c n ↔ Making proc y c n := fun c n => by
    rw [Making, Making, hsame]
  rcases hb with ⟨hnone, hfork⟩ | ⟨c, n, n', hc, hfork, hreach, hpages⟩
  · exact .inl ⟨fun c n hc => hnone c n ((hmake c n).mp hc), (h.forking y hne).trans hfork⟩
  have hce : c ≠ e := hf.ne_child hlive hc
  have hnot : ∀ n, ¬ Making proc e c n := fun m hm => hne (hf.parent e y c m n hm hc)
  have hynot : ∀ n, ¬ Making proc e y n := fun m hm => hf.ne_child hy hm rfl
  refine .inr ⟨c, n, n', (hmake c n).mpr hc, (h.forking y hne).trans hfork, ?_, fun pn hpn hlt =>
    h.pageRel hce hnot hpn (hpages pn hpn hlt)⟩
  exact hreach.congr hs (by rw [Window, Window, hsame]) (h.entry c hce hnot) (h.entry y hne hynot)

theorem Sim.of_steady (h : Sim proc v a) (hs : Sound proc v) (hf : Family k proc)
    (hst : Steady proc e v v' a a')
    (he : proc e ≠ none) (hother : ∀ y, y ≠ e → proc y ≠ none → proc' y = proc y)
    (hlive : ∀ x, a'.live x ↔ proc' x ≠ none) (hdead : proc' e = none → a'.forking e = none)
    (hself : proc' e ≠ none → (∀ pn, InRegion pn →
      PageRel v' a'.shared (v'.entry e pn) (a'.page e pn)) ∧ Building proc' v' a' e)
    (hnew : ∀ y, y ≠ e → proc y = none → proc' y ≠ none → (∀ pn, InRegion pn →
      PageRel v' a'.shared (v'.entry y pn) (a'.page y pn)) ∧ Building proc' v' a' y) :
    Sim proc' v' a' := by
  have hall : ∀ y, proc' y ≠ none → (∀ pn, InRegion pn →
      PageRel v' a'.shared (v'.entry y pn) (a'.page y pn)) ∧ Building proc' v' a' y := by
    intro y hy
    by_cases hne : y = e
    · subst hne
      exact hself hy
    · by_cases hold : proc y = none
      · exact hnew y hne hold hy
      · refine ⟨fun pn hpn => ?_,
          hst.building hs hf he hold hne (hother y hne hold) (h.building y hold)⟩
        exact hst.pageRel hne (fun n hn => hf.ne_child hold hn rfl) hpn (h.page y hold pn hpn)
  refine ⟨hlive, fun y hy => (hall y hy).1, fun y hy => (hall y hy).2, fun y hy => ?_⟩
  by_cases hne : y = e
  · subst hne
    exact hdead hy
  · rw [hst.forking y hne]
    by_cases hold : proc y = none
    · exact h.dead y hold
    · exact absurd ((hother y hne hold).symm.trans hy) hold

theorem Sim.of_moves (h : Sim proc v a) (hs : Sound proc v) (hf : Family k proc)
    (hm : Moves proc proc' e P P') (hst : Steady proc e v v' a a') (hlive : a'.live = a.live)
    (hpages : ∀ pn, InRegion pn → PageRel v' a'.shared (v'.entry e pn) (a'.page e pn))
    (hb : Building proc' v' a' e) : Sim proc' v' a' := by
  refine h.of_steady hs hf hst hm.live (fun y hne _ => hm.other y hne) (fun x => ?_)
    (fun hnone => ?_) (fun _ => ⟨hpages, hb⟩) fun y hne hold hy => ?_
  · rw [hlive, h.live]
    by_cases hne : x = e
    · subst hne
      simp [hm.before, hm.after]
    · rw [hm.other x hne]
  · rw [hm.after] at hnone
    cases hnone
  · exact absurd ((hm.other y hne).trans hold) hy

structure Outside (v v' : Pages) : Prop where
  entry : ∀ x pn, InRegion pn → v'.entry x pn = v.entry x pn
  phys : ∀ x pn p, InRegion pn → v.Maps x pn p → v'.phys p = v.phys p

theorem Outside.refl (v : Pages) : Outside v v := ⟨fun _ _ _ => rfl, fun _ _ _ _ _ => rfl⟩

theorem Outside.of_same (h : v.Same v') : Outside v v' :=
  ⟨fun x pn _ => by rw [h.entry], fun x pn p _ hp => h.phys p ⟨x, pn, hp⟩⟩

theorem Outside.of_set (h : v.Set e pn w v') (hpn : ¬ InRegion pn) : Outside v v' :=
  ⟨fun _ _ hin => Set.entry_of_ne h fun heq => hpn (heq.2 ▸ hin),
    fun x pn p _ hp => h.phys p ⟨x, pn, hp⟩⟩

theorem Outside.steady (h : Outside v v') (hshared : a'.shared = a.shared)
    (hpage : a'.page = a.page)
    (hforking : ∀ y, y ≠ e → a'.forking y = a.forking y) : Steady proc e v v' a a' :=
  ⟨fun x _ _ => h.entry x, h.phys, hshared, fun x _ => congrFun hpage x, hforking⟩

theorem Outside.pageRel (h : Outside v v') (hpn : InRegion pn)
    (hrel : PageRel v shared (v.entry x pn) o) : PageRel v' shared (v'.entry x pn) o := by
  rw [h.entry x pn hpn]
  exact hrel.congr fun p => h.phys x pn p hpn

theorem Sim.outside (h : Sim proc v a) (hs : Sound proc v) (hf : Family k proc)
    (hm : Moves proc proc' e P P') (hout : Outside v v') (hmake : ∀ c n, Makes P' c n ↔ Makes P c n)
    (hfork : ∀ envid pn, P'.fork = some (.parent envid pn) ↔ P.fork = some (.parent envid pn)) :
    Sim proc' v' a := by
  have hiff : ∀ c n, Making proc' e c n ↔ Making proc e c n := fun c n =>
    hm.making_iff.2.trans ((hmake c n).trans hm.making_iff.1.symm)
  refine h.of_moves hs hf hm (hout.steady rfl rfl fun _ _ => rfl) rfl
    (fun pn hpn => hout.pageRel hpn (h.page e hm.live pn hpn)) ?_
  rcases h.building e hm.live with ⟨hnone, hforking⟩ | ⟨c, n, n', hc, hforking, hreach, hpages⟩
  · exact .inl ⟨fun c n hc => hnone c n ((hiff c n).mp hc), hforking⟩
  · exact .inr ⟨c, n, n', (hiff c n).mpr hc, hforking,
      hreach.congr hs (hm.window_iff hfork) (hout.entry c) (hout.entry e),
      fun pn hpn hlt => hout.pageRel hpn (hpages pn hpn hlt)⟩

theorem Sim.building_of_making (h : Sim proc v a) (hc : Making proc e c n) :
    ∃ n', a.forking e = some (c, n') ∧ Reached proc v e c n n' ∧
      ∀ pn, InRegion pn → pn < n' → PageRel v a.shared (v.entry c pn) (a.page c pn) := by
  have hlive : proc e ≠ none := by
    obtain ⟨P, hP, -⟩ := hc
    simp [hP]
  rcases h.building e hlive with ⟨hnone, -⟩ | ⟨c', m, n', hc', hforking, hreach, hpages⟩
  · exact absurd hc (hnone c n)
  · obtain ⟨rfl, rfl⟩ := making_unique hc hc'
    exact ⟨n', hforking, hreach, hpages⟩

section

variable (h : Sim proc v a) (hs : Sound proc v) (hf : Family k proc)
include h hs hf

theorem Sim.copied (hm : Moves proc proc' e P P') (hc : Making proc e c n)
    (hforking : a.forking e = some (c, n)) (hin : InRegion n) (hst : Steady proc e v v' a a)
    (hself : ∀ pn, InRegion pn → PageRel v' a.shared (v'.entry e pn) (a.page e pn))
    (hpages : ∀ pn, InRegion pn → pn < n → PageRel v a.shared (v.entry c pn) (a.page c pn))
    (hold : ∀ pn, InRegion pn → pn < n → v'.entry c pn = v.entry c pn)
    (hnew : PageRel v' a.shared (v'.entry c n) (a.page e n)) {m : Nat} (hc' : Making proc' e c m)
    (hreach : Reached proc' v' e c m (n + 1)) : ∃ a', Eager.Run a [] a' ∧ Sim proc' v' a' := by
  have hce : c ≠ e := hf.ne_child hm.live hc
  refine ⟨_, .single (Eager.Step.copy e c n ((h.live e).mpr hm.live) hforking hin.2), ?_⟩
  refine h.of_moves hs hf hm ⟨hst.entry, hst.phys, rfl, fun x hx => ?_, fun y hne => ?_⟩ rfl
    (fun pn hpn => ?_) (.inr ⟨c, m, n + 1, hc', update_self _ _ _, hreach,
      fun pn hpn hlt => ?_⟩)
  · exact update_of_ne (fun heq : x = c => hx n (heq ▸ hc)) _ _
  · exact update_of_ne hne _ _
  · simp only [Eager.setPage, Eager.setForking, update_of_ne hce.symm]
    exact hself pn hpn
  · simp only [Eager.setPage, Eager.setForking, update_self]
    by_cases heq : pn = n
    · rw [heq, update_self]
      exact hnew
    · have hlt' : pn < n := by omega
      rw [update_of_ne heq, hold pn hpn hlt']
      exact (hpages pn hpn hlt').congr fun p => hst.phys c pn p hpn

theorem Sim.begun (hm : Moves proc proc' e P P') (hidle : ∀ c n, ¬ Makes P c n)
    (hc : Makes P' c (pgnum utext)) (hfork : ∀ envid pn, P'.fork ≠ some (.parent envid pn))
    (hout : Outside v v') (hnone : proc c = none) (hnew : ∀ y n, ¬ Making proc y c n) :
    ∃ a', Eager.Run a [] a' ∧ Sim proc' v' a' := by
  have hforking : a.forking e = none := by
    rcases h.building e hm.live with ⟨-, hforking⟩ | ⟨c', m, n', hc', -⟩
    · exact hforking
    · exact absurd (hm.making_iff.1.mp hc') (hidle c' m)
  refine ⟨_, .single (Eager.Step.begin e c ((h.live e).mpr hm.live) hforking (fun hlive => ?_)
    fun x hx n hxc => ?_), ?_⟩
  · exact (h.live c).mp hlive hnone
  · rcases h.building x ((h.live x).mp hx) with ⟨-, hx'⟩ | ⟨c', m, n', hc', hx', -⟩
    · cases hx'.symm.trans hxc
    · cases hx'.symm.trans hxc
      exact hnew x m hc'
  · refine h.of_moves hs hf hm (hout.steady rfl rfl fun y hne => update_of_ne hne _ _) rfl
      (fun pn hpn => hout.pageRel hpn (h.page e hm.live pn hpn)) (.inr ⟨c, pgnum utext, pgnum utext,
        hm.making_iff.2.mpr hc, update_self _ _ _, .inl ⟨rfl, ?_⟩, fun pn hpn hlt => ?_⟩)
    · rintro ⟨P1, envid, hP1, hpc, -⟩
      obtain rfl := Option.mem_unique hm.after hP1
      exact absurd hpc (hfork envid _)
    · exact absurd hpn.1 (by omega)

theorem Sim.abandoned (hm : Moves proc proc' e P P') (hidle : ∀ c n, ¬ Makes P' c n)
    (hout : Outside v v') : ∃ a', Eager.Run a [] a' ∧ Sim proc' v' a' := by
  refine ⟨_, .single (Eager.Step.abandon e ((h.live e).mpr hm.live)), ?_⟩
  refine h.of_moves hs hf hm (hout.steady rfl rfl fun y hne => update_of_ne hne _ _) rfl
    (fun pn hpn => hout.pageRel hpn (h.page e hm.live pn hpn))
    (.inl ⟨fun c n hc => hidle c n (hm.making_iff.2.mp hc), update_self _ _ _⟩)

theorem Sim.stopped
    (he : proc e ≠ none) (hnone : proc' e = none) (hother : ∀ y, y ≠ e → proc' y = proc y)
    (hout : Outside v v') : Sim proc' v' ((a.setLive e False).setForking e none) := by
  refine h.of_steady hs hf (hout.steady rfl rfl fun y hne => update_of_ne hne _ _) he
    (fun y hne _ => hother y hne) (fun x => ?_)
    (fun _ => update_self _ _ _) (fun hne => absurd hnone hne) fun y hne hold hy => ?_
  · by_cases hne : x = e
    · subst hne
      simp [Eager.setForking, Eager.setLive, hnone]
    · rw [hother x hne, ← h.live x]
      simp [Eager.setForking, Eager.setLive, update_of_ne hne]
  · exact absurd ((hother y hne).trans hold) hy

theorem Sim.finished (hst : Starts proc proc' e c P P') (hout : Outside v v') :
    ∃ a', Eager.Run a [.fork e c] a' ∧ Sim proc' v' a' := by
  have he : proc e ≠ none := by simp [hst.before]
  have hmake : Making proc e c (pgnum ustacktop) := ⟨P, hst.before, hst.makes⟩
  have hnone : proc c = none := (hf.child e c _ hmake).2.2
  obtain ⟨n', hforking, hreach, hpages⟩ := h.building_of_making hmake
  have hn' : n' = pgnum ustacktop := by
    rcases hreach with ⟨heq, -⟩ | ⟨-, hw, -⟩
    · exact heq
    · exact absurd hw hst.notWindow
  subst hn'
  refine ⟨_, .single (Eager.Step.finish e c ((h.live e).mpr he) hforking), ?_⟩
  refine h.of_steady hs hf (hout.steady rfl rfl fun y hne => update_of_ne hne _ _) he
    (fun y hne hy => hst.other y hne ?_) (fun x => ?_)
    (fun hnone => ?_) (fun _ => ⟨fun pn hpn => hout.pageRel hpn (h.page e he pn hpn),
      .inl ⟨fun c' n hc' => (hst.making_back hc').1 rfl, update_self _ _ _⟩⟩)
      fun y hne hold hy => ?_
  · exact fun heq => hy (heq ▸ hnone)
  · by_cases hxc : x = c
    · subst hxc
      simp [Eager.setForking, Eager.setLive, hst.child]
    · have hlive : ((a.setLive c True).setForking e none).live x ↔ a.live x := by
        simp [Eager.setForking, Eager.setLive, update_of_ne hxc]
      rw [hlive, h.live]
      by_cases hxe : x = e
      · simp [hxe, hst.before, hst.after]
      · rw [hst.other x hxe hxc]
  · rw [hst.after] at hnone
    cases hnone
  · have hyc : y = c := by
      by_contra hyc
      exact hy ((hst.other y hne hyc).trans hold)
    subst hyc
    refine ⟨fun pn hpn => hout.pageRel hpn (hpages pn hpn hpn.2), .inl ⟨fun c' n hc' => ?_, ?_⟩⟩
    · obtain ⟨P1, hP1, -⟩ := (hst.making_back hc').2
      cases hnone.symm.trans hP1
    · exact (update_of_ne hne _ _).trans (h.dead y hold)

end

section Steps

variable {perm envid : Word} {again : Bool}

theorem Steady.of_set {e0 : Nat} (hset : v.Set e0 pn w v') (he0 : e0 = e ∨ Making proc e e0 n)
    (a : Eager) : Steady proc e v v' a a := by
  refine ⟨fun x hne hnot pn' _ => Set.entry_of_ne hset fun heq => ?_,
    fun x pn p _ hp => hset.phys p ⟨x, pn, hp⟩, rfl, fun _ _ => rfl, fun _ _ => rfl⟩
  rcases he0 with rfl | hmake
  · exact hne heq.1
  · exact hnot n (heq.1 ▸ hmake)

theorem Sim.page_set {e0 : Nat} (h : Sim proc v a) (hset : v.Set e0 pn w v')
    (hst : Steady proc e v v' a a) (hlive : proc e ≠ none)
    (hself : e = e0 → InRegion pn → PageRel v' a.shared w (a.page e pn)) :
    ∀ pn, InRegion pn → PageRel v' a.shared (v'.entry e pn) (a.page e pn) := by
  intro pn' hpn
  by_cases heq : e = e0 ∧ pn' = pn
  · obtain ⟨rfl, rfl⟩ := heq
    rw [Set.entry_self hset]
    exact hself rfl hpn
  · rw [Set.entry_of_ne hset heq]
    exact (h.page e hlive pn' hpn).congr fun p => hst.phys e pn' p hpn

theorem Sim.mapped (h : Sim proc v a) (hs : Sound proc v) (hf : Family k proc) {addr : Word}
    (hm : Moves proc proc' e P { P with fault := some .unmap })
    (hfault : P.fault = some (.map addr)) (hq : v.Maps e (pgnum pftemp) q) (hlt : q < 1048576)
    (hset : v.Set e (pgnum addr) (page2pa q ||| puw ||| pteP) v') :
    ∃ a', Eager.Run a [] a' ∧ Sim proc' v' a' := by
  by_cases hin : InRegion (pgnum addr)
  swap
  · exact ⟨a, .refl, h.outside hs hf hm (.of_set hset hin) (fun _ _ => Iff.rfl) fun _ _ => Iff.rfl⟩
  obtain ⟨-, -, q', ⟨hq', honly⟩, -, hcopy⟩ : Copied v e addr 1024 :=
    hs.fault e P _ hm.before hfault
  obtain rfl := Option.mem_unique hq hq'
  obtain ⟨p, hp, ⟨hS, -, hC⟩, hwords⟩ := hcopy hin
  have hframe : frameOf (page2pa q ||| puw ||| pteP) = some q := frameOf_entry hlt (by decide)
  have hst := Steady.of_set (n := 0) hset (.inl rfl : e = e ∨ Making proc e e 0) a
  have hphys : v'.phys q = v.phys q := hset.phys q ⟨_, _, hq⟩
  have hself := h.page_set hset hst hm.live fun _ hpn => by
    refine (h.page e hm.live _ hpn).own_congr hp hS hframe ?_ ?_ ?_
    · rw [entry_and q puw (by decide)]
      decide
    · rw [entry_and q puw (show pteW.toNat < 4096 by decide)]
      exact iff_of_true (.inl (by decide)) (.inr hC)
    · rw [hphys]
      exact hwords
  have hmake : ∀ c n, Making proc' e c n ↔ Making proc e c n := fun c n =>
    hm.making_iff.2.trans hm.making_iff.1.symm
  have hwindow : ∀ c n, Window proc' e c n ↔ Window proc e c n := fun c n =>
    hm.window_iff fun _ _ => Iff.rfl
  rcases h.building e hm.live with ⟨hnone, hforking⟩ | ⟨c, n, n', hc, hforking, hreach, hpages⟩
  · exact ⟨a, .refl, h.of_moves hs hf hm hst rfl hself
      (.inl ⟨fun c n hc => hnone c n ((hmake c n).mp hc), hforking⟩)⟩
  have hce : c ≠ e := hf.ne_child hm.live hc
  have hchild : ∀ pn, v'.entry c pn = v.entry c pn := fun pn =>
    Set.entry_of_ne hset fun heq => hce heq.1
  have hdiffer : n = pgnum addr → frameOf (v'.entry c n) ≠ frameOf (v'.entry e n) := by
    rintro rfl heq
    rw [hchild, Set.entry_self hset, hframe] at heq
    exact hce (honly c _ heq).1
  by_cases hcopied : Window proc e c n ∧ n = pgnum addr ∧ n' = n
  · obtain ⟨hw, rfl, rfl⟩ := hcopied
    have hsame : frameOf (v.entry c (pgnum addr)) = some p := by
      rcases hreach with ⟨-, hframes⟩ | ⟨hn, -⟩
      · exact (hframes hw).trans hp
      · omega
    refine h.copied hs hf hm hc hforking hin hst hself hpages (fun pn _ _ => hchild pn) ?_
      ((hmake c _).mpr hc) (.inr ⟨rfl, (hwindow c _).mpr hw, hdiffer rfl⟩)
    obtain ⟨P1, envid, hP1, hpc, hneg, rfl⟩ := hw
    obtain ⟨-, -, -, hrest⟩ : ForkOk v e (.parent envid (pgnum addr)) := hs.fork e P1 _ hP1 hpc
    obtain ⟨hS', -, hC'⟩ := (hrest hneg).1
    rw [hchild]
    exact (h.page e hm.live _ hin).own_congr hp hS hsame hS' (iff_of_true (.inr hC') (.inr hC))
      fun i _ => congrFun (hset.phys p ⟨_, _, hp⟩) i
  · refine ⟨a, .refl, h.of_moves hs hf hm hst rfl hself (.inr ⟨c, n, n', (hmake c n).mpr hc,
      hforking, ?_, fun pn hpn hlt => ?_⟩)⟩
    · by_cases hn : n = pgnum addr
      · rcases hreach with ⟨rfl, -⟩ | ⟨hn', hw, -⟩
        · exact .inl ⟨rfl, fun hw => absurd ⟨(hwindow c _).mp hw, hn, rfl⟩ hcopied⟩
        · exact .inr ⟨hn', (hwindow c n).mpr hw, hdiffer hn⟩
      · rw [Reached, hwindow, hchild, Set.entry_of_ne hset fun heq => hn heq.2]
        exact hreach
    · rw [hchild]
      exact (hpages pn hpn hlt).congr fun p => hst.phys c pn p hpn

theorem Reached.eq_of_notWindow (h : Reached proc v e c n n') (hw : ¬ Window proc e c n) :
    n' = n := by
  rcases h with ⟨heq, -⟩ | ⟨-, hw', -⟩
  · exact heq
  · exact absurd hw' hw

theorem notWindow_of_fork (hP : proc e = some P)
    (hfork : ∀ envid, P.fork ≠ some (.parent envid n)) :
    ¬ Window proc e c n := by
  rintro ⟨P1, envid, hP1, hpc, -⟩
  obtain rfl := Option.mem_unique hP hP1
  exact hfork envid hpc

section

variable (h : Sim proc v a) (hs : Sound proc v) (hf : Family k proc)
include h hs hf

theorem Sim.childMapped (hpc : P.fork = some (.child envid pn perm again))
    (hm : Moves proc proc' e P { P with
      fork := some (if again then .parent envid pn else .loop envid (pn + 1)) })
    (hneg : ¬ isNeg envid) (hp : v.Maps e pn p) (hlt : p < 1048576)
    (hset : v.Set (envx envid) pn (page2pa p ||| perm ||| pteP) v') :
    ∃ a', Eager.Run a [] a' ∧ Sim proc' v' a' := by
  obtain ⟨hin, hbranch, -⟩ : ForkOk v e (.child envid pn perm again) := hs.fork e P _ hm.before hpc
  have hmake : Making proc e (envx envid) pn := ⟨P, hm.before, _, envid, hpc, rfl, hneg, rfl⟩
  have hce : envx envid ≠ e := hf.ne_child hm.live hmake
  have hframe := frameOf_entry hlt hbranch.perm_lt
  have hst := Steady.of_set hset (.inr hmake) a
  have hparent : ∀ pn', v'.entry e pn' = v.entry e pn' := fun pn' =>
    Set.entry_of_ne hset fun heq => hce heq.1.symm
  have hold : ∀ pn', InRegion pn' → pn' < pn →
    v'.entry (envx envid) pn' = v.entry (envx envid) pn' :=
    fun pn' _ hlt => Set.entry_of_ne hset fun heq => by omega
  have hself := h.page_set hset hst hm.live fun heq => absurd heq.symm hce
  obtain ⟨n', hforking, hreach, hpages⟩ := h.building_of_making hmake
  obtain rfl : n' = pn := hreach.eq_of_notWindow
    (notWindow_of_fork hm.before fun envid' heq => by
      rw [hpc] at heq
      cases heq)
  cases again with
  | true =>
    refine ⟨a, .refl, h.of_moves hs hf hm hst rfl hself (.inr ⟨_, n', n',
      ⟨_, hm.after, _, envid, rfl, rfl, hneg, rfl⟩, hforking, .inl ⟨rfl, fun _ => ?_⟩,
      fun pn hpn hlt => ?_⟩)⟩
    · rw [Set.entry_self hset, hframe, hparent]
      exact hp.symm
    · rw [hold pn hpn hlt]
      exact (hpages pn hpn hlt).congr fun p => hst.phys _ pn p hpn
  | false =>
    refine h.copied hs hf hm hmake hforking hin hst hself hpages hold ?_
      ⟨_, hm.after, _, envid, rfl, rfl, hneg, rfl⟩
      (.inl ⟨rfl, fun hw => absurd hw (notWindow_of_fork hm.after fun _ => by simp)⟩)
    have hphys : v'.phys p = v.phys p := hset.phys p ⟨_, _, hp⟩
    rw [Set.entry_self hset]
    rcases hbranch.flags with ⟨hS, -, hS', hW, -⟩ | ⟨hS, hS', hW', ⟨hagain, -⟩ | ⟨-, hW, hC, hC'⟩⟩
    · refine (h.page e hm.live _ hin).shared_congr hp hS hframe ?_ ?_ hphys
      · rw [entry_and p perm (by decide), hS']
        exact hS
      · rw [entry_and p perm (by decide), hW]
    · cases hagain
    · refine (h.page e hm.live _ hin).own_congr hp hS hframe ?_ ?_ fun i _ => congrFun hphys i
      · rw [entry_and p perm (by decide), hS']
      · rw [entry_and p perm (by decide), entry_and p perm (by decide), hW, hC, hW', hC']

theorem Sim.parentMapped (hpc : P.fork = some (.parent envid pn))
    (hm : Moves proc proc' e P { P with fork := some (.loop envid (pn + 1)) })
    (hp : v.Maps e pn p) (hlt : p < 1048576) (hset : v.Set e pn (page2pa p ||| puc ||| pteP) v') :
    ∃ a', Eager.Run a [] a' ∧ Sim proc' v' a' := by
  obtain ⟨hin, hS, hwrite, hrest⟩ : ForkOk v e (.parent envid pn) := hs.fork e P _ hm.before hpc
  have hframe : frameOf (page2pa p ||| puc ||| pteP) = some p := frameOf_entry hlt (by decide)
  have hst := Steady.of_set (n := 0) hset (.inl rfl : e = e ∨ Making proc e e 0) a
  have hphys : v'.phys p = v.phys p := hset.phys p ⟨_, _, hp⟩
  have hself := h.page_set hset hst hm.live fun _ hpn => by
    refine (h.page e hm.live _ hpn).own_congr hp hS hframe ?_ ?_ fun i _ => congrFun hphys i
    · rw [entry_and p puc (by decide)]
      decide
    · have hC : (page2pa p ||| puc ||| pteP) &&& pteCow = (puc ||| pteP) &&& pteCow :=
        entry_and p puc (by decide)
      exact iff_of_true (.inr (hC ▸ by decide)) hwrite
  by_cases hneg : isNeg envid
  · -- without a child there is nothing to copy
    rcases h.building e hm.live with ⟨-, hforking⟩ | ⟨c, n, n', hc, -⟩
    · refine ⟨a, .refl, h.of_moves hs hf hm hst rfl hself (.inl ⟨fun c n hc => ?_, hforking⟩)⟩
      exact ((makes_at rfl rfl).mp (hm.making_iff.2.mp hc)).2.1 hneg
    · exact absurd hneg ((makes_at hpc rfl).mp (hm.making_iff.1.mp hc)).2.1
  have hwindow : Window proc e (envx envid) pn := ⟨P, envid, hm.before, hpc, hneg, rfl⟩
  have hmake := making_window hwindow
  have hce : envx envid ≠ e := hf.ne_child hm.live hmake
  have hchild : ∀ pn', v'.entry (envx envid) pn' = v.entry (envx envid) pn' := fun pn' =>
    Set.entry_of_ne hset fun heq => hce heq.1
  have hmake' : Making proc' e (envx envid) (pn + 1) :=
    ⟨_, hm.after, _, envid, rfl, rfl, hneg, rfl⟩
  have hnotWindow : ¬ Window proc' e (envx envid) (pn + 1) :=
    notWindow_of_fork hm.after fun _ => by simp
  obtain ⟨n', hforking, hreach, hpages⟩ := h.building_of_making hmake
  rcases hreach with ⟨rfl, hsame⟩ | ⟨rfl, -, -⟩
  · refine h.copied hs hf hm hmake hforking hin hst hself hpages (fun pn _ _ => hchild pn) ?_
      hmake' (.inl ⟨rfl, fun hw => absurd hw hnotWindow⟩)
    obtain ⟨hS', -, hC'⟩ := (hrest hneg).1
    rw [hchild]
    exact (h.page e hm.live _ hin).own_congr hp hS ((hsame hwindow).trans hp) hS'
      (iff_of_true (.inr hC') hwrite) fun i _ => congrFun hphys i
  · refine ⟨a, .refl, h.of_moves hs hf hm hst rfl hself (.inr ⟨_, pn + 1, pn + 1, hmake', hforking,
      .inl ⟨rfl, fun hw => absurd hw hnotWindow⟩, fun pn' hpn' hlt => ?_⟩)⟩
    rw [hchild]
    exact (hpages pn' hpn' hlt).congr fun p => hst.phys _ pn' p hpn'

theorem Sim.skipped (hpc : P.fork = some (.loop envid pn)) (hin : InRegion pn)
    (hm : Moves proc proc' e P { P with fork := some (.loop envid (pn + 1)) })
    (hnone : frameOf (v.entry e pn) = none) : ∃ a', Eager.Run a [] a' ∧ Sim proc' v a' := by
  by_cases hneg : isNeg envid
  · refine ⟨a, .refl, h.outside hs hf hm (.refl v) (fun c n => ?_) fun _ _ => by simp [hpc]⟩
    rw [makes_at hpc rfl, makes_at rfl rfl]
    exact iff_of_false (fun hc => hc.2.1 hneg) fun hc => hc.2.1 hneg
  have hmake : Making proc e (envx envid) pn := ⟨P, hm.before, _, envid, hpc, rfl, hneg, rfl⟩
  obtain ⟨n', hforking, hreach, hpages⟩ := h.building_of_making hmake
  obtain rfl : n' = pn :=
    hreach.eq_of_notWindow (notWindow_of_fork hm.before fun _ => by simp [hpc])
  obtain ⟨-, -, hempty⟩ : ForkOk v e (.loop envid n') := hs.fork e P _ hm.before hpc
  refine h.copied hs hf hm hmake hforking hin ((Outside.refl v).steady rfl rfl fun _ _ => rfl)
    (fun pn hpn => h.page e hm.live pn hpn) hpages (fun _ _ _ => rfl) ?_
    ⟨_, hm.after, _, envid, rfl, rfl, hneg, rfl⟩
    (.inl ⟨rfl, fun hw => absurd hw (notWindow_of_fork hm.after fun _ => by simp)⟩)
  rw [(h.page e hm.live n' hin).eq_none hnone]
  exact hempty hneg n' hin le_rfl

end

end Steps

section Store

variable {b : Byte} {va : Word}

def stored (v : Pages) (p : Nat) (va : Word) (b : Byte) : Pages :=
  v.setWord p ((pgoff va).toNat / 4)
    (putByte (v.phys p ((pgoff va).toNat / 4)) (va.toNat % 4) b)

theorem stored_phys_of_ne (v : Pages) (va : Word) (b : Byte) (hne : q ≠ p) :
    (stored v p va b).phys q = v.phys q := by
  funext i
  exact Pages.setWord_of_ne v _ fun heq => hne heq.1

theorem storeWord_eq {data : Nat → Word} (hdata : ∀ i < 1024, data i = v.phys p i) :
    ∀ i < 1024, storeWord data va b i = (stored v p va b).phys p i := by
  intro i hi
  by_cases heq : i = (pgoff va).toNat / 4
  · subst heq
    rw [storeWord, update_self, stored, Pages.setWord_self, hdata _ hi]
  · rw [storeWord, update_of_ne heq, stored, Pages.setWord_of_ne v _ fun h => heq h.2]
    exact hdata i hi

theorem PageRel.store_of_ne (h : PageRel v shared w o) (hne : frameOf w ≠ some p) :
    PageRel (stored v p va b) shared w o :=
  h.congr fun _ hq => stored_phys_of_ne v va b fun heq => hne (heq ▸ hq)

theorem PageRel.storeShared (h : PageRel v shared w o)
    (hshare : frameOf w = some p → w &&& pteShare ≠ 0) :
    PageRel (stored v p va b) (update shared p (storeWord (shared p) va b)) w o := by
  match o with
  | none => exact h
  | some (.own data writable) =>
    obtain ⟨q, hq, hS, hwrite, hwords⟩ := h
    have hne : q ≠ p := fun heq => hshare (heq ▸ hq) hS
    refine ⟨q, hq, hS, hwrite, ?_⟩
    rw [stored_phys_of_ne v va b hne]
    exact hwords
  | some (.shared q _) =>
    obtain ⟨hq, hS, hwrite, hwords⟩ := h
    refine ⟨hq, hS, hwrite, ?_⟩
    by_cases heq : q = p
    · subst heq
      rw [update_self]
      exact storeWord_eq hwords
    · rw [update_of_ne heq, stored_phys_of_ne v va b heq]
      exact hwords

/-- Page `pn` of `x` is one that the eager machine has, too. -/
def Seen (proc : Nat → Option Process) (v : Pages) (x pn : Nat) : Prop :=
  InRegion pn ∧ (proc x ≠ none ∨ ∃ y n n', Making proc y x n ∧ Reached proc v y x n n' ∧ pn < n')

theorem Seen.known (h : Seen proc v x pn) : Known proc x := by
  rcases h.2 with hlive | ⟨y, n, -, hy, -⟩
  · exact .inl hlive
  · exact .inr ⟨y, n, hy⟩

theorem Seen.writer_alone (h : Seen proc v x pn') (hs : Sound proc v) (hf : Family k proc)
    (hP : proc e = some P) (hidle : P.fault = none ∨ pn = pgnum (uxstacktop - pgsize))
    (hp : v.Maps e pn p) (hW : v.entry e pn &&& pteW ≠ 0) (hx : v.Maps x pn' p)
    (hS : v.entry x pn' &&& pteShare = 0) : x = e ∧ pn' = pn := by
  have he : proc e ≠ none := by simp [hP]
  rcases hs.separate x pn' p h.known h.1 hx hS e pn hp with
    ⟨rfl, rfl⟩ | ⟨-, rfl, P1, hP1, hunmap⟩ | ⟨-, hw⟩
  · exact ⟨rfl, rfl⟩
  · obtain rfl := Option.mem_unique hP hP1
    rcases hidle with hnone | hstack
    · rw [hnone] at hunmap
      cases hunmap
    · exact absurd hstack.symm uxstack_ne_pftemp
  · obtain ⟨rfl, hwindow⟩ := hw hW
    have hmake := making_window hwindow
    rcases h.2 with hlive | ⟨y, n, n', hy, hreach, hlt⟩
    · exact absurd rfl (hf.ne_child hlive hmake)
    obtain rfl := hf.parent e y x pn n hmake hy
    obtain ⟨-, rfl⟩ := making_unique hmake hy
    rcases hreach with ⟨rfl, -⟩ | ⟨-, -, hframe⟩
    · exact absurd hlt (lt_irrefl _)
    · exact absurd (hx.trans hp.symm) hframe

theorem Sim.of_store (h : Sim proc v a) (hentry : v'.entry = v.entry) (hlive : a'.live = a.live)
    (hforking : a'.forking = a.forking)
    (hpages : ∀ x pn, Seen proc v x pn → PageRel v a.shared (v.entry x pn) (a.page x pn) →
      PageRel v' a'.shared (v.entry x pn) (a'.page x pn)) : Sim proc v' a' := by
  refine ⟨fun x => by rw [hlive, h.live], fun x hx pn hpn => ?_, fun y hy => ?_, fun y hy => ?_⟩
  · rw [hentry]
    exact hpages x pn ⟨hpn, .inl hx⟩ (h.page x hx pn hpn)
  · rw [Building, hforking, hentry]
    rcases h.building y hy with hidle | ⟨c, n, n', hc, hfork, hreach, hrel⟩
    · exact .inl hidle
    · refine .inr ⟨c, n, n', hc, hfork, by rwa [Reached, hentry], fun pn hpn hlt => ?_⟩
      exact hpages c pn ⟨hpn, .inr ⟨y, n, n', hc, hreach, hlt⟩⟩ (hrel pn hpn hlt)
  · rw [hforking]
    exact h.dead y hy

theorem Sim.stored (h : Sim proc v a) (hs : Sound proc v) (hf : Family k proc)
    (hP : proc e = some P) (hidle : P.fault = none ∨ pgnum va = pgnum (uxstacktop - pgsize))
    (hp : v.Maps e (pgnum va) p) (hW : v.entry e (pgnum va) &&& pteW ≠ 0) :
    ∃ a', Eager.Run a [.store e va b] a' ∧ Sim proc (stored v p va b) a' := by
  have he : proc e ≠ none := by simp [hP]
  have hlive : a.live e := (h.live e).mpr he
  by_cases hva : InRegion (pgnum va)
  · have hrel := h.page e he _ hva
    match hpage : a.page e (pgnum va) with
    | none =>
      rw [hpage] at hrel
      cases hp.symm.trans hrel
    | some (.own data writable) =>
      rw [hpage] at hrel
      obtain ⟨q, hq, hS, hwrite, hwords⟩ := hrel
      obtain rfl := Option.mem_unique hp hq
      obtain rfl : writable = true := hwrite.mpr (.inl hW)
      refine ⟨_, .single (Eager.Step.own e va b hlive hva hpage),
        h.of_store rfl rfl rfl fun x pn hseen hx => ?_⟩
      by_cases hslot : x = e ∧ pn = pgnum va
      · obtain ⟨rfl, rfl⟩ := hslot
        simp only [Eager.setPage, update_self]
        exact ⟨p, hp, hS, hwrite, storeWord_eq hwords⟩
      have hsame : (a.setPage e (pgnum va) (some (.own (storeWord data va b) true))).page x pn =
          a.page x pn := by
        by_cases hxe : x = e
        · subst hxe
          simp only [Eager.setPage, update_self]
          exact update_of_ne (fun heq => hslot ⟨rfl, heq⟩) _ _
        · simp only [Eager.setPage, update_of_ne hxe]
      rw [hsame]
      refine hx.store_of_ne fun hx' => hslot ?_
      rcases hs.separate e _ p (known_of_proc hP) hva hp hS x pn hx' with
        heq | ⟨-, rfl, -⟩ | ⟨hk, -⟩
      · exact heq
      · exact absurd hseen.1 pftemp_notIn
      · exact hseen.writer_alone hs hf hP hidle hp hW hx' (hk hseen.known).2
    | some (.shared q writable) =>
      rw [hpage] at hrel
      obtain ⟨hq, hS, hwrite, hwords⟩ := hrel
      obtain rfl := Option.mem_unique hp hq
      obtain rfl : writable = true := hwrite.mpr hW
      refine ⟨_, .single (Eager.Step.shared e va b hlive hva hpage),
        h.of_store rfl rfl rfl fun x pn hseen hx => hx.storeShared fun hx' hS' => ?_⟩
      obtain ⟨rfl, rfl⟩ := hseen.writer_alone hs hf hP hidle hp hW hx' hS'
      exact hS hS'
  · refine ⟨_, .single (Eager.Step.outside e p va b hlive hva),
      h.of_store rfl rfl rfl fun x pn hseen hx => hx.storeShared fun hx' hS' => ?_⟩
    obtain ⟨rfl, rfl⟩ := hseen.writer_alone hs hf hP hidle hp hW hx' hS'
    exact hva hseen.1

end Store

end Mit6828.Lib.ForkSimulation
