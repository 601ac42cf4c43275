import Mit6828.Lib.PipeClosed

namespace Mit6828.Lib.PipeClosedSpec

open PipeClosed Function

variable {s s' s1 : State} {p q child n fd ncpu new old : Nat} {e e' : End} {x : Slot} {pc pc' : Pc}
  {todo : List Page}

section State

@[simp] theorem setPc_pc_self : (s.setPc p pc).pc p = pc := update_self _ _ _

theorem setPc_pc_of_ne (h : q ≠ p) : (s.setPc p pc).pc q = s.pc q := update_of_ne h _ _

theorem mem_mapFd : x ∈ (s.mapFd e (p, n)).fds e' ↔ x ∈ s.fds e' ∨ e' = e ∧ x = (p, n) := by
  by_cases h : e' = e
  · subst h
    simp [State.mapFd, or_comm]
  · simp [State.mapFd, h]

theorem mem_unmapFd : x ∈ (s.unmapFd e (p, n)).fds e' ↔ x ∈ s.fds e' ∧ ¬ (e' = e ∧ x = (p, n)) := by
  by_cases h : e' = e
  · subst h
    simp [State.unmapFd, and_comm]
  · simp [State.unmapFd, h]

theorem mem_mapData : x ∈ (s.mapData (p, n)).data ↔ x ∈ s.data ∨ x = (p, n) := by
  simp [State.mapData, or_comm]

theorem mem_unmapData : x ∈ (s.unmapData (p, n)).data ↔ x ∈ s.data ∧ x ≠ (p, n) := by
  simp [State.unmapData, and_comm]

end State

/-- Every `struct Fd` in the list is followed by its data page. -/
def Ordered : List Page → Prop
  | [] => True
  | .fd _ n :: todo => .data n ∈ todo ∧ Ordered todo
  | .data _ :: todo => Ordered todo

theorem ordered_data (ns : List (End × Nat)) : Ordered (ns.map fun d => .data d.2) := by
  induction ns with
  | nil => trivial
  | cons d ns ih => exact ih

theorem ordered_append {pages : List Page} (ds : List (End × Nat)) (h : Ordered pages)
    (hmem : ∀ d ∈ ds, .data d.2 ∈ pages) : Ordered (ds.map (fun d => .fd d.1 d.2) ++ pages) := by
  induction ds with
  | nil => exact h
  | cons d ds ih =>
    refine ⟨?_, ih fun d' hd' => hmem d' (List.mem_cons_of_mem _ hd')⟩
    exact List.mem_append_right _ (hmem d List.mem_cons_self)

theorem ordered_sharedPages (ds : List (End × Nat)) : Ordered (sharedPages ds) :=
  ordered_append ds (ordered_data ds) fun _ hd => List.mem_map_of_mem hd

/-- What a process in the middle of an operation relies on. -/
def PcOk (s : State) (p : Nat) : Pc → Prop
  | .dup _ _ new => ∀ e, (p, new) ∉ s.fds e
  | .dupFd _ _ new => (p, new) ∈ s.data ∧ ∀ e, (p, new) ∉ s.fds e
  | .close e fd => (p, fd) ∈ s.fds e
  | .closeData fd => ∀ e, (p, fd) ∉ s.fds e
  | .copy child todo => s.pc child ≠ .unborn ∧ (s.pc child = .embryo → Ordered todo ∧
      ∀ e n, (child, n) ∈ s.fds e → ((child, n) ∈ s.data ∨ .data n ∈ todo) ∧ (p, n) ∈ s.fds e)
  | _ => True

/-- No slot holds both ends, and every descriptor is complete except in processes under
construction. -/
structure Kept (s : State) : Prop where
  disjoint : ∀ x e, x ∈ s.fds e → x ∉ s.fds e.other
  unborn : ∀ q, s.pc q = .unborn → ∀ e n, (q, n) ∉ s.fds e
  whole : ∀ q e n, (q, n) ∈ s.fds e → s.pc q ≠ .embryo → (q, n) ∈ s.data
  pc : ∀ p, PcOk s p (s.pc p)
  sole : ∀ p p' c t t', s.pc p = .copy c t → s.pc p' = .copy c t' → p = p'

/-- The process has the same pages of the pipe mapped. -/
structure Same (s s' : State) (q : Nat) : Prop where
  fds : ∀ n e, (q, n) ∈ s'.fds e ↔ (q, n) ∈ s.fds e
  data : ∀ n, (q, n) ∈ s'.data ↔ (q, n) ∈ s.data

theorem Same.refl (s : State) (q : Nat) : Same s s q := ⟨fun _ _ => Iff.rfl, fun _ => Iff.rfl⟩

theorem same_mapFd (h : q ≠ p) : Same s (s.mapFd e (p, n)) q :=
  ⟨fun _ _ => mem_mapFd.trans (or_iff_left (by simp [h])), fun _ => Iff.rfl⟩

theorem same_mapData (h : q ≠ p) : Same s (s.mapData (p, n)) q :=
  ⟨fun _ _ => Iff.rfl, fun _ => mem_mapData.trans (or_iff_left (by simp [h]))⟩

theorem PcOk.congr (h : PcOk s q pc) (hsame : Same s s' q)
    (hchild : ∀ c t, pc = .copy c t → s'.pc c = s.pc c ∧ Same s s' c) : PcOk s' q pc := by
  obtain ⟨hfds, hdata⟩ := hsame
  cases pc with
  | dup e old new => exact fun e' hmem => h e' ((hfds new e').mp hmem)
  | dupFd e old new => exact ⟨(hdata new).mpr h.1, fun e' hmem => h.2 e' ((hfds new e').mp hmem)⟩
  | close e fd => exact (hfds fd e).mpr h
  | closeData fd => exact fun e' hmem => h e' ((hfds fd e').mp hmem)
  | copy c t =>
    obtain ⟨hpc, hsame⟩ := hchild c t rfl
    rw [PcOk, hpc]
    refine ⟨h.1, fun hem => ?_⟩
    obtain ⟨hord, hmap⟩ := h.2 hem
    refine ⟨hord, fun e' n' hmem => ?_⟩
    obtain ⟨hdone, hparent⟩ := hmap e' n' ((hsame.fds n' e').mp hmem)
    exact ⟨hdone.imp_left (hsame.data n').mpr, (hfds n' e').mpr hparent⟩
  | _ => trivial

/-- Only process `p` and its pages change. -/
theorem Kept.change (h : Kept s) (hpc : ∀ q, q ≠ p → s'.pc q = s.pc q)
    (hsame : ∀ q, q ≠ p → Same s s' q)
    (hdisjoint : ∀ n e, (p, n) ∈ s'.fds e → (p, n) ∉ s'.fds e.other)
    (hunborn : s'.pc p = .unborn → ∀ e n, (p, n) ∉ s'.fds e)
    (hwhole : s'.pc p ≠ .embryo → ∀ e n, (p, n) ∈ s'.fds e → (p, n) ∈ s'.data)
    (hok : PcOk s' p (s'.pc p))
    (hcopied : ∀ q t, q ≠ p → s.pc q = .copy p t → PcOk s' q (.copy p t))
    (hsole : ∀ c t, s'.pc p = .copy c t → ∀ q t', s.pc q = .copy c t' → q = p) : Kept s' := by
  refine ⟨fun x e hx => ?_, fun q hq e n hmem => ?_, fun q e n hmem hq => ?_, fun q => ?_,
    fun r r' c t t' hr hr' => ?_⟩
  · obtain ⟨q, n⟩ := x
    by_cases hqp : q = p
    · subst hqp
      exact hdisjoint n e hx
    · rw [(hsame q hqp).fds]
      exact h.disjoint (q, n) e (((hsame q hqp).fds n e).mp hx)
  · by_cases hqp : q = p
    · subst hqp
      exact hunborn hq e n hmem
    · rw [hpc q hqp] at hq
      exact h.unborn q hq e n (((hsame q hqp).fds n e).mp hmem)
  · by_cases hqp : q = p
    · subst hqp
      exact hwhole hq e n hmem
    · rw [hpc q hqp] at hq
      exact ((hsame q hqp).data n).mpr (h.whole q e n (((hsame q hqp).fds n e).mp hmem) hq)
  · by_cases hqp : q = p
    · subst hqp
      exact hok
    · rw [hpc q hqp]
      by_cases hcopy : ∃ t, s.pc q = .copy p t
      · obtain ⟨t, ht⟩ := hcopy
        rw [ht]
        exact hcopied q t hqp ht
      refine (h.pc q).congr (hsame q hqp) fun c t hc => ?_
      have hcp : c ≠ p := by
        rintro rfl
        exact hcopy ⟨t, hc⟩
      exact ⟨hpc c hcp, hsame c hcp⟩
  · by_cases hrp : r = p
    · subst hrp
      by_cases hrp' : r' = r
      · exact hrp'.symm
      · rw [hpc r' hrp'] at hr'
        exact (hsole c t hr r' t' hr').symm
    · rw [hpc r hrp] at hr
      by_cases hrp' : r' = p
      · subst hrp'
        exact hsole c t' hr' r t hr
      · rw [hpc r' hrp'] at hr'
        exact h.sole r r' c t t' hr hr'

/-- Process `p` goes on, and does not start to make a child. -/
theorem Kept.act (h : Kept s) (hpc : s1.pc = s.pc) (hborn : pc ≠ .unborn ∧ pc ≠ .embryo)
    (hcopy : ∀ c t, pc ≠ .copy c t) (hsame : ∀ q, q ≠ p → Same s s1 q)
    (hdisjoint : ∀ n e, (p, n) ∈ s1.fds e → (p, n) ∉ s1.fds e.other)
    (hwhole : ∀ e n, (p, n) ∈ s1.fds e → (p, n) ∈ s1.data) (hok : PcOk s1 p pc) :
    Kept (s1.setPc p pc) := by
  have hself : (s1.setPc p pc).pc p = pc := setPc_pc_self
  refine h.change (fun q hq => ?_) (fun q hq => { hsame q hq with }) hdisjoint (fun hun => ?_)
    (fun _ => hwhole) ?_ (fun q t hq ht => ?_) fun c t hc => ?_
  · rw [setPc_pc_of_ne hq, hpc]
  · exact absurd (hself.symm.trans hun) hborn.1
  · rw [hself]
    exact hok.congr { Same.refl s1 p with } fun c t hc => absurd hc (hcopy c t)
  · refine ⟨?_, fun hem => ?_⟩
    · rw [hself]
      exact hborn.1
    · exact absurd (hself.symm.trans hem) hborn.2
  · exact absurd (hself.symm.trans hc) (hcopy c t)

theorem ne_of_pc (hp : s.pc p = pc) (hq : s.pc q = pc') (hne : pc ≠ pc') : q ≠ p := by
  rintro rfl
  exact hne (hp.symm.trans hq)

theorem alive_of (hpc : s.pc p = pc) (h : pc.Alive) : (s.pc p).Alive := hpc ▸ h

section

variable (h : Kept s)
include h

theorem Kept.whole_of_alive (hp : (s.pc p).Alive) (hmem : (p, n) ∈ s.fds e) : (p, n) ∈ s.data := by
  refine h.whole p e n hmem fun hem => ?_
  rw [hem] at hp
  exact hp

theorem Kept.setPc (hp : (s.pc p).Alive) (hborn : pc ≠ .unborn ∧ pc ≠ .embryo)
    (hcopy : ∀ c t, pc ≠ .copy c t) (hok : PcOk s p pc) : Kept (s.setPc p pc) :=
  h.act rfl hborn hcopy (fun q _ => .refl s q) (fun n e => h.disjoint (p, n) e)
    (fun _ _ hmem => h.whole_of_alive hp hmem) hok

theorem kept_dupData (hpc : s.pc p = .dup e old new) :
    Kept ((s.mapData (p, new)).setPc p (.dupFd e old new)) := by
  have hnew : PcOk s p (.dup e old new) := hpc ▸ h.pc p
  refine h.act rfl (by simp) (by simp) (fun _ => same_mapData)
    (fun n e' => h.disjoint (p, n) e') (fun e' n hmem => ?_) ⟨mem_mapData.mpr (.inr rfl), hnew⟩
  exact mem_mapData.mpr (.inl (h.whole_of_alive (alive_of hpc trivial) hmem))

theorem kept_dupFd (hpc : s.pc p = .dupFd e old new) :
    Kept ((s.mapFd e (p, new)).setPc p .idle) := by
  obtain ⟨hdata, hnew⟩ : PcOk s p (.dupFd e old new) := hpc ▸ h.pc p
  refine h.act rfl (by simp) (by simp) (fun _ => same_mapFd) (fun n e' hmem hother => ?_)
    (fun e' n hmem => ?_) trivial
  · rcases mem_mapFd.mp hmem with hmem | ⟨rfl, heq⟩
    · rcases mem_mapFd.mp hother with hother | ⟨-, heq⟩
      · exact h.disjoint (p, n) e' hmem hother
      · exact hnew e' (heq ▸ hmem)
    · rcases mem_mapFd.mp hother with hother | ⟨hends, -⟩
      · exact hnew _ (heq ▸ hother)
      · cases e' <;> cases hends
  · rcases mem_mapFd.mp hmem with hmem | ⟨-, heq⟩
    · exact h.whole_of_alive (alive_of hpc trivial) hmem
    · rw [heq]
      exact hdata

theorem kept_closeFd (hpc : s.pc p = .close e fd) :
    Kept ((s.unmapFd e (p, fd)).setPc p (.closeData fd)) := by
  have hfd : PcOk s p (.close e fd) := hpc ▸ h.pc p
  refine h.act rfl (by simp) (by simp) (fun q hq => ⟨fun _ _ => ?_, fun _ => Iff.rfl⟩)
    (fun n e' hmem hother => ?_) (fun e' n hmem => ?_) fun e' hmem => ?_
  · exact mem_unmapFd.trans (and_iff_left (by simp [hq]))
  · exact h.disjoint (p, n) e' (mem_unmapFd.mp hmem).1 (mem_unmapFd.mp hother).1
  · exact h.whole_of_alive (alive_of hpc trivial) (mem_unmapFd.mp hmem).1
  · obtain ⟨hmem, hne⟩ := mem_unmapFd.mp hmem
    have hee : e' ≠ e := fun heq => hne ⟨heq, rfl⟩
    have hother : e' = e.other := by cases e <;> cases e' <;> trivial
    exact h.disjoint (p, fd) e hfd (hother ▸ hmem)

theorem kept_closeData (hpc : s.pc p = .closeData fd) :
    Kept ((s.unmapData (p, fd)).setPc p .idle) := by
  have hgone : PcOk s p (.closeData fd) := hpc ▸ h.pc p
  refine h.act rfl (by simp) (by simp) (fun q hq => ⟨fun _ _ => Iff.rfl, fun _ => ?_⟩)
    (fun n e' => h.disjoint (p, n) e') (fun e' n hmem => ?_) trivial
  · exact mem_unmapData.trans (and_iff_left (by simp [hq]))
  · refine mem_unmapData.mpr ⟨h.whole_of_alive (alive_of hpc trivial) hmem, fun heq => ?_⟩
    exact hgone e' (heq ▸ hmem)

/-- Process `p` goes on with the pages that its child needs. -/
theorem Kept.making (hp : (s.pc p).Alive) (hok : PcOk s p (.copy child todo)) (hne : child ≠ p)
    (hsole : ∀ q t, s.pc q = .copy child t → q = p) : Kept (s.setPc p (.copy child todo)) := by
  have hself : (s.setPc p (.copy child todo)).pc p = .copy child todo := setPc_pc_self
  refine h.change (fun q hq => setPc_pc_of_ne hq) (fun q _ => { Same.refl s q with })
    (fun n e => h.disjoint (p, n) e) (fun hun => ?_) (fun _ e n hmem => h.whole_of_alive hp hmem) ?_
    (fun q t hq ht => ?_) fun c t hc q t' hq => ?_
  · cases hself.symm.trans hun
  · rw [hself]
    refine hok.congr { Same.refl s p with } fun c t hc => ?_
    obtain ⟨rfl, -⟩ := Pc.copy.inj hc
    exact ⟨setPc_pc_of_ne hne, { Same.refl s child with }⟩
  · exact ⟨by rw [hself]; simp, fun hem => by cases hself.symm.trans hem⟩
  · obtain ⟨rfl, -⟩ := Pc.copy.inj (hself.symm.trans hc)
    exact hsole q t' hq

/-- Pages are mapped in the child that `p` is making. -/
theorem Kept.copy {todo' : List Page} (hpc : s.pc p = .copy child todo)
    (hchild : s.pc child = .embryo) (hpcs : s1.pc = s.pc)
    (hsame : ∀ q, q ≠ child → Same s s1 q) (hord : Ordered todo') (hsub : todo' ⊆ todo)
    (hmap : ∀ e n, (child, n) ∈ s1.fds e →
      ((child, n) ∈ s1.data ∨ .data n ∈ todo') ∧ (p, n) ∈ s.fds e) :
    Kept (s1.setPc p (.copy child todo')) := by
  have hne : child ≠ p := ne_of_pc hpc hchild (by simp)
  have hsole : ∀ q t, s.pc q = .copy child t → q = p := fun q t hq => h.sole q p child t todo hq hpc
  have hchild1 : s1.pc child = .embryo := hpcs ▸ hchild
  have hcopying : ∀ t, Ordered t → todo' ⊆ t → PcOk s1 p (.copy child t) := by
    refine fun t ht hsub => ⟨by simp [hchild1], fun _ => ⟨ht, fun e n hmem => ?_⟩⟩
    obtain ⟨hdone, hparent⟩ := hmap e n hmem
    exact ⟨hdone.imp_right fun hin => hsub hin, ((hsame p hne.symm).fds n e).mpr hparent⟩
  have hmapped : Kept s1 := by
    refine h.change (fun q _ => by rw [hpcs]) hsame (fun n e hmem hother => ?_)
      (fun hun => ?_) (fun hem => absurd hchild1 hem) (by rw [hchild1]; trivial)
      (fun q t _ ht => ?_) fun c t hc => ?_
    · exact h.disjoint (p, n) e (hmap e n hmem).2 (hmap _ n hother).2
    · cases hchild1.symm.trans hun
    · obtain rfl := hsole q t ht
      obtain ⟨-, rfl⟩ := Pc.copy.inj (hpc.symm.trans ht)
      have hok := h.pc q
      rw [hpc] at hok
      exact hcopying _ (hok.2 hchild).1 hsub
    · cases hchild1.symm.trans hc
  refine hmapped.making (by rw [hpcs, hpc]; trivial) (hcopying todo' hord (List.Subset.refl _)) hne
    fun q t hq => ?_
  rw [hpcs] at hq
  exact hsole q t hq

theorem kept_copyFd (hpc : s.pc p = .copy child (.fd e n :: todo)) (hchild : s.pc child = .embryo)
    (hfd : (p, n) ∈ s.fds e) : Kept ((s.mapFd e (child, n)).setPc p (.copy child todo)) := by
  obtain ⟨-, hcopy⟩ : PcOk s p (.copy child (.fd e n :: todo)) := hpc ▸ h.pc p
  obtain ⟨⟨hlater, hord⟩, hmap⟩ := hcopy hchild
  refine h.copy hpc hchild rfl (fun _ => same_mapFd) hord (List.subset_cons_self _ _)
    fun e' n' hmem => ?_
  rcases mem_mapFd.mp hmem with hmem | ⟨rfl, heq⟩
  · obtain ⟨hdone, hparent⟩ := hmap e' n' hmem
    exact ⟨hdone.imp_right fun hin => (List.mem_cons.mp hin).resolve_left (by simp), hparent⟩
  · cases heq
    exact ⟨.inr hlater, hfd⟩

theorem kept_copyData (hpc : s.pc p = .copy child (.data n :: todo))
    (hchild : s.pc child = .embryo) : Kept ((s.mapData (child, n)).setPc p (.copy child todo)) := by
  obtain ⟨-, hcopy⟩ : PcOk s p (.copy child (.data n :: todo)) := hpc ▸ h.pc p
  obtain ⟨hord, hmap⟩ := hcopy hchild
  refine h.copy hpc hchild rfl (fun _ => same_mapData) hord (List.subset_cons_self _ _)
    fun e' n' hmem => ?_
  obtain ⟨hdone, hparent⟩ := hmap e' n' hmem
  refine ⟨?_, hparent⟩
  rcases hdone with hdata | hin
  · exact .inl (mem_mapData.mpr (.inl hdata))
  · rcases List.mem_cons.mp hin with heq | hin
    · rw [Page.data.injEq] at heq
      exact .inl (mem_mapData.mpr (.inr (by rw [heq])))
    · exact .inr hin

theorem kept_fork (hpc : s.pc p = .idle) (hchild : s.pc child = .unborn)
    (hord : Ordered todo) : Kept ((s.setPc child .embryo).setPc p (.copy child todo)) := by
  have hne : child ≠ p := ne_of_pc hpc hchild (by simp)
  have hnone : ∀ q t, s.pc q ≠ .copy child t := fun q t hq => by
    have hok := h.pc q
    rw [hq] at hok
    exact hok.1 hchild
  have hself : (s.setPc child .embryo).pc child = .embryo := setPc_pc_self
  have hmade : Kept (s.setPc child .embryo) := by
    refine h.change (fun q hq => setPc_pc_of_ne hq) (fun q _ => { Same.refl s q with })
      (fun n e => h.disjoint (child, n) e) (fun hun => ?_) (fun hem => absurd hself hem)
      (by rw [hself]; trivial) (fun q t _ ht => absurd ht (hnone q t)) fun c t hc => ?_
    · cases hself.symm.trans hun
    · cases hself.symm.trans hc
  refine hmade.making (by rw [setPc_pc_of_ne hne.symm, hpc]; trivial) ?_ hne fun q t hq => ?_
  · exact ⟨by simp, fun _ => ⟨hord, fun e n hmem => absurd hmem (h.unborn child hchild e n)⟩⟩
  · by_cases hqc : q = child
    · rw [hqc, hself] at hq
      cases hq
    · exact absurd ((setPc_pc_of_ne hqc).symm.trans hq) (hnone q t)

theorem kept_forked (hpc : s.pc p = .copy child []) (hchild : s.pc child = .embryo) :
    Kept ((s.setPc child .idle).setPc p .idle) := by
  have hne : p ≠ child := ne_of_pc hchild hpc (by simp)
  obtain ⟨-, hcopy⟩ : PcOk s p (.copy child []) := hpc ▸ h.pc p
  obtain ⟨-, hmap⟩ := hcopy hchild
  have hborn : Kept (s.setPc child .idle) :=
    h.act rfl (by simp) (by simp) (fun q _ => .refl s q) (fun n e => h.disjoint (child, n) e)
      (fun e n hmem => (hmap e n hmem).1.resolve_right (by simp)) trivial
  refine hborn.setPc ?_ (by simp) (by simp) trivial
  rw [setPc_pc_of_ne hne, hpc]
  trivial

theorem kept_destroy (q : Nat) : Kept (s.destroy q) := by
  have hdead : Kept (({ s.destroy q with pc := s.pc } : State).setPc q .dead) := by
    refine h.act rfl (by simp) (by simp) (fun x hx => ⟨fun _ _ => ?_, fun _ => ?_⟩)
      (fun n e hmem => ?_) (fun e n hmem => ?_) trivial
    · exact Finset.mem_filter.trans (and_iff_left hx)
    · exact Finset.mem_filter.trans (and_iff_left hx)
    · exact absurd rfl (Finset.mem_filter.mp hmem).2
    · exact absurd rfl (Finset.mem_filter.mp hmem).2
  exact hdead

theorem kept_acts (hact : Acts ncpu s s') : Kept s' := by
  cases hact with
  | switch c q hc hq hfree =>
    exact { h with
      pc := fun p => (h.pc p).congr { Same.refl s p with } fun c _ _ =>
        ⟨rfl, { Same.refl s c with }⟩ }
  | dup p old new e hon hpc hold hnew =>
    exact h.setPc (alive_of hpc trivial) (by simp) (by simp) hnew
  | dupData p old new e hon hpc hold => exact kept_dupData h hpc
  | dupFd p old new e hon hpc hold => exact kept_dupFd h hpc
  | close p fd e hon hpc hfd => exact h.setPc (alive_of hpc trivial) (by simp) (by simp) hfd
  | closeFd p fd e hon hpc => exact kept_closeFd h hpc
  | closeData p fd hon hpc => exact kept_closeData h hpc
  | fork p child ds hon hpc hchild hds hsorted =>
    exact kept_fork h hpc hchild (ordered_sharedPages ds)
  | copyFd p child n e todo hon hpc hchild hfd => exact kept_copyFd h hpc hchild hfd
  | copyData p child n todo hon hpc hchild hdata => exact kept_copyData h hpc hchild
  | forked p child hon hpc hchild => exact kept_forked h hpc hchild
  | destroy p q hon hpc => exact kept_destroy h q
  | isclosed p fd e hon hpc hfd =>
    exact h.setPc (alive_of hpc trivial) (by simp) (by simp) trivial
  | check p n e ret hon hpc =>
    refine h.setPc (alive_of hpc trivial) ?_ (fun c t => ?_) ?_ <;> split <;> first | trivial | simp
  | _ =>
    rename_i hpc
    exact h.setPc (alive_of hpc trivial) (by simp) (by simp) trivial

theorem kept_reads (hread : Reads s s') : Kept s' := by
  cases hread with
  | _ =>
    rename_i hpc
    exact h.setPc (alive_of hpc trivial) (by simp) (by simp) trivial

end

def Whole (s : State) : Prop := ∀ e x, x ∈ s.fds e → x ∈ s.data

theorem Kept.isWhole (h : Kept s) (hcomplete : Complete s) : Whole s := by
  rintro e ⟨q, n⟩ hmem
  by_cases hq : s.pc q = .embryo
  · exact hcomplete q hq e n hmem
  · exact h.whole q e n hmem hq

theorem Kept.other_gone (h : Kept s) (hwhole : Whole s) (hcard : (s.fds e).card = s.data.card) :
    s.fds e.other = ∅ := by
  have hdisjoint : Disjoint (s.fds e) (s.fds e.other) :=
    Finset.disjoint_left.mpr fun x hx => h.disjoint x e hx
  have hsub : s.fds e ∪ s.fds e.other ⊆ s.data :=
    Finset.union_subset (fun x => hwhole e x) fun x => hwhole e.other x
  have hle := Finset.card_le_card hsub
  rw [Finset.card_union_of_disjoint hdisjoint] at hle
  exact Finset.card_eq_zero.mp (by omega)

theorem gone_stays (hstep : Step ncpu s s') (hgone : s.fds e = ∅) : s'.fds e = ∅ := by
  have hmap : ∀ e' x y, x ∈ s.fds e' → (s.mapFd e' y).fds e = ∅ := by
    intro e' x y hx
    by_cases he : e = e'
    · subst he
      rw [hgone] at hx
      exact absurd hx (Finset.notMem_empty _)
    · rw [State.mapFd, ← hgone]
      exact update_of_ne he _ _
  rcases hstep with hread | hact
  · cases hread <;> exact hgone
  cases hact with
  | dupFd p old new e' hon hpc hold => exact hmap e' _ _ hold
  | copyFd p child n e' todo hon hpc hchild hfd => exact hmap e' _ _ hfd
  | closeFd p fd e' hon hpc =>
    refine Finset.eq_empty_of_forall_notMem fun x hx => ?_
    have hx := (mem_unmapFd.mp hx).1
    rw [hgone] at hx
    exact absurd hx (Finset.notMem_empty _)
  | destroy p q hon hpc =>
    change (s.fds e).filter _ = ∅
    rw [hgone, Finset.filter_empty]
  | _ => exact hgone

/-- What the reads of a process that has stayed on the only CPU mean. -/
def ReadOk (s : State) (p : Nat) : Pc → Prop
  | .refs e n a b => n ≤ s.runs p ∧ (s.cur 0 = some p → s.runs p = n →
      (∀ x, a = some x → x = (s.fds e).card ∧ Whole s) ∧
        ∀ y, b = some y → y = s.data.card ∧ Whole s)
  | .check e n ret => n ≤ s.runs p ∧
      (s.cur 0 = some p → s.runs p = n → ret = true → s.fds e.other = ∅)
  | .returned e ret => ret = true → s.runs p < 2 ^ 32 → s.fds e.other = ∅
  | _ => True

structure Reading (s : State) : Prop where
  one : ∀ c, c ≠ 0 → s.cur c = none
  pc : ∀ p, ReadOk s p (s.pc p)

theorem Reading.cur_zero (h : Reading s) (c : Nat) (hc : s.cur c = some p) : c = 0 := by
  by_contra hzero
  rw [h.one c hzero] at hc
  cases hc

theorem Reading.cur_of_on (h : Reading s) (hon : s.On p) : s.cur 0 = some p := by
  obtain ⟨c, hc⟩ := hon
  exact h.cur_zero c hc ▸ hc

theorem Reading.act (h : Reading s) (hp : s.cur 0 = some p) (hone : ∀ c, c ≠ 0 → s'.cur c = none)
    (hcur : ∀ q, s'.cur 0 = some q → s.cur 0 = some q) (hruns : s'.runs = s.runs)
    (hgone : ∀ e, s.fds e = ∅ → s'.fds e = ∅)
    (hpc : ∀ q, s'.pc q = s.pc q ∧ q ≠ p ∨ ReadOk s' q (s'.pc q)) : Reading s' := by
  refine ⟨hone, fun q => ?_⟩
  rcases hpc q with ⟨hsame, hne⟩ | hout
  · have habsent : s'.cur 0 ≠ some q := fun hc =>
      hne (Option.some.inj ((hcur q hc).symm.trans hp))
    have hq := h.pc q
    rw [hsame]
    cases hpc : s.pc q with
    | refs e n a b =>
      rw [hpc] at hq
      exact ⟨hruns ▸ hq.1, fun hc => absurd hc habsent⟩
    | check e n ret =>
      rw [hpc] at hq
      exact ⟨hruns ▸ hq.1, fun hc => absurd hc habsent⟩
    | returned e ret =>
      rw [hpc] at hq
      exact fun hret hlt => hgone _ (hq hret (hruns ▸ hlt))
    | _ => trivial
  · exact hout

theorem readOk_setPc : ReadOk (s.setPc p pc) q pc' ↔ ReadOk s q pc' := by
  cases pc' <;> rfl

theorem readOk_setPc_or {s0 : State} (hpc : ReadOk s0 p pc)
    (hsame : ∀ q, s0.pc q = s.pc q ∨ ReadOk s0 q (s0.pc q)) (q : Nat) :
    (s0.setPc p pc).pc q = s.pc q ∧ q ≠ p ∨
      ReadOk (s0.setPc p pc) q ((s0.setPc p pc).pc q) := by
  rw [readOk_setPc]
  by_cases hq : q = p
  · rw [hq, setPc_pc_self]
    exact .inr hpc
  · rw [setPc_pc_of_ne hq]
    exact (hsame q).imp_left fun heq => ⟨heq, hq⟩

theorem Reading.setPc (h : Reading s) (hok : ReadOk s p pc) : Reading (s.setPc p pc) :=
  ⟨h.one, fun q => (readOk_setPc_or (s := s) hok (fun _ => .inl rfl) q).elim
    (fun hsame => by rw [hsame.1, readOk_setPc]; exact h.pc q) id⟩

theorem reading_switch (h : Reading s) {c : Nat} (hc : c < 1) :
    Reading { s with
      cur := update s.cur c (some q)
      runs := update s.runs q (s.runs q + 1) } := by
  obtain rfl : c = 0 := by omega
  have hruns : ∀ p, s.runs p ≤ update s.runs q (s.runs q + 1) p := fun p => by
    by_cases hpq : p = q
    · subst hpq
      grind
    · rw [update_of_ne hpq]
  have hnew : ∀ p n, n ≤ s.runs p → update s.cur 0 (some q) 0 = some p →
      update s.runs q (s.runs q + 1) p ≠ n := fun p n hn hp => by
    grind
  refine ⟨fun c hc => (update_of_ne hc _ _).trans (h.one c hc), fun p => ?_⟩
  have hp := h.pc p
  cases hpc : s.pc p with
  | refs e n a b =>
    rw [hpc] at hp
    exact ⟨hp.1.trans (hruns p), fun hc hrun => absurd hrun (hnew p n hp.1 hc)⟩
  | check e n ret =>
    rw [hpc] at hp
    exact ⟨hp.1.trans (hruns p), fun hc hrun => absurd hrun (hnew p n hp.1 hc)⟩
  | returned e ret =>
    rw [hpc] at hp
    exact fun hret hlt => hp hret ((hruns p).trans_lt hlt)
  | _ => trivial

theorem reading_acts (hkept : Kept s) (h : Reading s) (hact : Acts 1 s s') : Reading s' := by
  have hgone : ∀ e, s.fds e = ∅ → s'.fds e = ∅ := fun e => gone_stays (.inr hact)
  cases hact with
  | switch c q hc hq hfree => exact reading_switch h hc
  | fork p child ds hon hpc hchild hds hsorted =>
    exact h.act (h.cur_of_on hon) h.one (fun _ => id) rfl hgone (readOk_setPc_or (by trivial)
      fun q => (readOk_setPc_or (s := s) (by trivial) (fun _ => .inl rfl) q).imp_left And.left)
  | forked p child hon hpc hchild =>
    exact h.act (h.cur_of_on hon) h.one (fun _ => id) rfl hgone (readOk_setPc_or (by trivial)
      fun q => (readOk_setPc_or (s := s) (by trivial) (fun _ => .inl rfl) q).imp_left And.left)
  | destroy p q hon hpc =>
    refine h.act (h.cur_of_on hon) (fun c hc => ?_) (fun r hr => ?_) rfl hgone fun r => ?_
    · simp [State.destroy, h.one c hc]
    · simp only [State.destroy] at hr
      split at hr
      · cases hr
      · exact hr
    by_cases hrq : r = q
    · refine .inr ?_
      rw [hrq, show (s.destroy q).pc q = .dead from update_self _ _ _]
      trivial
    · have hsame : (s.destroy q).pc r = s.pc r := update_of_ne hrq _ _
      rw [hsame]
      by_cases hrp : r = p
      · rw [hrp, hpc]
        exact .inr trivial
      · exact .inl ⟨rfl, hrp⟩
  | enter p e hon hpc => exact h.setPc ⟨le_rfl, fun _ _ => ⟨by simp, by simp⟩⟩
  | compare p n a b e hon hpc =>
    obtain ⟨hn, hvalid⟩ : ReadOk s p (.refs e n (some a) (some b)) := hpc ▸ h.pc p
    refine h.setPc ⟨hn, fun hc hrun heq => ?_⟩
    obtain ⟨hfd, hdata⟩ := hvalid hc hrun
    obtain ⟨rfl, hwhole⟩ := hfd a rfl
    obtain ⟨rfl, -⟩ := hdata b rfl
    exact hkept.other_gone hwhole (of_decide_eq_true heq)
  | check p n e ret hon hpc =>
    obtain ⟨hn, hvalid⟩ : ReadOk s p (.check e n ret) := hpc ▸ h.pc p
    refine h.setPc ?_
    split
    · rename_i hsame
      intro hret hlt
      have hnat := congrArg BitVec.toNat hsame
      rw [BitVec.toNat_ofNat, BitVec.toNat_ofNat, Nat.mod_eq_of_lt (hn.trans_lt hlt),
        Nat.mod_eq_of_lt hlt] at hnat
      exact hvalid (h.cur_of_on hon) hnat.symm hret
    · trivial
  | _ =>
    exact h.act (h.cur_of_on (by assumption)) h.one (fun _ => id) rfl hgone
      (readOk_setPc_or trivial fun _ => .inl rfl)

theorem reading_reads (hkept : Kept s) (h : Reading s) (hcomplete : Complete s)
    (hread : Reads s s') : Reading s' := by
  have hwhole := hkept.isWhole hcomplete
  cases hread with
  | fd p n e o hon hpc =>
    obtain ⟨hn, hvalid⟩ : ReadOk s p (.refs e n none o) := hpc ▸ h.pc p
    exact h.setPc ⟨hn, fun hc hrun => ⟨fun x hx => ⟨(Option.some.inj hx).symm, hwhole⟩,
      (hvalid hc hrun).2⟩⟩
  | data p n e o hon hpc =>
    obtain ⟨hn, hvalid⟩ : ReadOk s p (.refs e n o none) := hpc ▸ h.pc p
    exact h.setPc ⟨hn, fun hc hrun => ⟨(hvalid hc hrun).1,
      fun y hy => ⟨(Option.some.inj hy).symm, hwhole⟩⟩⟩

theorem piped_pc (p fd0 fd1 q : Nat) : (piped p fd0 fd1).pc q = if q = p then .idle
    else .unborn := by
  simp [piped, update_apply]

theorem kept_piped {fd0 fd1 : Nat} (hne : fd0 ≠ fd1) : Kept (piped p fd0 fd1) := by
  have hmem : ∀ x e, x ∈ (piped p fd0 fd1).fds e → x.1 = p ∧ x ∈ (piped p fd0 fd1).data := by
    intro x e hx
    cases e with
    | read =>
      rw [Finset.mem_singleton.mp hx]
      simp [piped]
    | write =>
      rw [Finset.mem_singleton.mp hx]
      simp [piped]
  refine ⟨fun x e hx => ?_, fun q hq e n hx => ?_, fun q e n hx _ => (hmem _ e hx).2, fun q => ?_,
    fun r _ c t _ hr => ?_⟩
  · cases e with
    | read =>
      rw [Finset.mem_singleton.mp hx]
      simp [piped, End.other, hne]
    | write =>
      rw [Finset.mem_singleton.mp hx]
      simp [piped, End.other, hne.symm]
  · rw [piped_pc, if_pos (hmem _ e hx).1] at hq
    cases hq
  · rw [piped_pc]
    split <;> trivial
  · rw [piped_pc] at hr
    split at hr <;> cases hr

theorem reading_piped (p fd0 fd1 : Nat) : Reading (piped p fd0 fd1) := by
  refine ⟨fun c hc => by simp [piped, hc], fun q => ?_⟩
  rw [piped_pc]
  split <;> trivial

theorem inv_run {fd0 fd1 : Nat} (hne : fd0 ≠ fd1)
    (hrun : Relation.ReflTransGen CalmStep (piped p fd0 fd1) s) : Kept s ∧ Reading s := by
  induction hrun with
  | refl => exact ⟨kept_piped hne, reading_piped p fd0 fd1⟩
  | tail _ hstep ih =>
    rcases hstep with ⟨hread, hcomplete⟩ | hact
    · exact ⟨kept_reads ih.1 hread, reading_reads ih.1 ih.2 hcomplete hread⟩
    · exact ⟨kept_acts ih.1 hact, reading_acts ih.1 ih.2 hact⟩

/-- On one CPU, if no reference count is read while `fork` or `spawn` has mapped the `struct Fd`
of a descriptor and not yet its data page, a pipe that is reported closed is closed. -/
theorem closed_only_if_gone {fd0 fd1 r : Nat} (hne : fd0 ≠ fd1)
    (hrun : Relation.ReflTransGen CalmStep (piped p fd0 fd1) s) (hruns : s.runs r < 2 ^ 32)
    (hpc : s.pc r = .returned e true) : s.fds e.other = ∅ := by
  have hread : ReadOk s r (.returned e true) := hpc ▸ (inv_run hne hrun).2.pc r
  exact hread rfl hruns

theorem setPc_setPc : (s.setPc p pc).setPc p pc' = s.setPc p pc' := by
  simp [State.setPc]

theorem isclosed_runs {R : State → State → Prop} (fd : Nat) (hon : s.On p) (hpc : s.pc p = .idle)
    (hfd : (p, fd) ∈ s.fds e)
    (hacts : ∀ pc pc', Acts 1 (s.setPc p pc) (s.setPc p pc') → R (s.setPc p pc) (s.setPc p pc'))
    (hreads : ∀ pc pc', pc ≠ .embryo → Reads (s.setPc p pc) (s.setPc p pc') →
      R (s.setPc p pc) (s.setPc p pc')) :
    Relation.ReflTransGen R s (s.setPc p (.returned e ((s.fds e).card = s.data.card))) := by
  have hself : ∀ pc, (s.setPc p pc).pc p = pc := fun _ => setPc_pc_self
  have hcall : Acts 1 (s.setPc p .idle) _ := .isclosed p fd e hon (hself _) hfd
  have henter : Acts 1 (s.setPc p (.enter e)) _ := .enter p e hon (hself _)
  have hreadFd := Reads.fd (s := s.setPc p (.refs e (s.runs p) none none)) p _ e none hon (hself _)
  have hreadData := Reads.data (s := s.setPc p (.refs e (s.runs p) (some (s.fds e).card) none)) p _
    e _ hon (hself _)
  have hcompare : Acts 1
    (s.setPc p (.refs e (s.runs p) (some (s.fds e).card) (some s.data.card))) _ :=
    .compare p _ _ _ e hon (hself _)
  have hcheck : Acts 1 (s.setPc p (.check e (s.runs p) ((s.fds e).card = s.data.card))) _ :=
    .check p _ e _ hon (hself _)
  rw [show (s.setPc p (.check e (s.runs p) ((s.fds e).card = s.data.card))).runs p =
    s.runs p from rfl, if_pos rfl] at hcheck
  rw [setPc_setPc] at hcall henter hreadFd hreadData hcompare hcheck
  have hsame : s.setPc p .idle = s := by rw [State.setPc, ← hpc, update_eq_self]
  have hstart := Relation.ReflTransGen.single (hacts _ _ hcall)
  rw [hsame] at hstart
  exact ((((hstart.tail (hacts _ _ henter)).tail
    (hreads _ _ (by simp) hreadFd)).tail (hreads _ _ (by simp) hreadData)).tail
    (hacts _ _ hcompare)).tail (hacts _ _ hcheck)

/-- A process closes the writing end of its pipe, forks and is told so. -/
theorem closed_only_if_gone_two : ∃ s, Relation.ReflTransGen CalmStep (piped 0 0 1) s ∧
    s.pc 0 = .returned .read true ∧ (1, 0) ∈ s.fds .read ∧ s.fds .write = ∅ := by
  have hclose : Acts 1 (piped 0 0 1) _ := .close 0 1 .write ⟨0, rfl⟩ rfl (by decide)
  have hclosed := ((Relation.ReflTransGen.single (r := CalmStep) (.inr hclose)).tail
    (.inr (.closeFd 0 1 .write ⟨0, rfl⟩ rfl))).tail (.inr (.closeData 0 1 ⟨0, rfl⟩ rfl))
  have hforked := (((hclosed.tail (.inr (.fork 0 1 [(.read, 0)] ⟨0, rfl⟩ rfl rfl
    (fun e n => by cases e <;> simp [State.setPc, State.unmapData, State.unmapFd, piped])
    (by decide)))).tail (.inr (.copyFd 0 1 0 .read _ ⟨0, rfl⟩ rfl rfl (by decide)))).tail
    (.inr (.copyData 0 1 0 _ ⟨0, rfl⟩ rfl rfl (by decide)))).tail
    (.inr (.forked 0 1 ⟨0, rfl⟩ rfl rfl))
  have hrun := hforked.trans (isclosed_runs (e := .read) 0 ⟨0, rfl⟩ rfl (by decide)
    (fun _ _ h => .inr h) fun pc pc' hpc h => .inl ⟨h, fun q hq => ?_⟩)
  · exact ⟨_, hrun, rfl, by decide, closed_only_if_gone (by decide) hrun (r := 0) (e := .read)
      (show 1 < 2 ^ 32 by decide) rfl⟩
  · by_cases hzero : q = 0
    · subst hzero
      rw [setPc_pc_self] at hq
      exact absurd hq hpc
    · by_cases hone : q = 1 <;> simp [State.setPc, State.mapData, State.mapFd, State.unmapData,
        State.unmapFd, piped, hzero, hone] at hq

theorem fork_evens_counts : ∃ s, Relation.ReflTransGen (Step 1) (piped 0 0 1) s ∧ s.On 1 ∧
    s.pc 1 = .idle ∧ (1, 0) ∈ s.fds .read ∧ (0, 1) ∈ s.fds .write ∧
    (s.fds .read).card = s.data.card := by
  have hfork : Acts 1 (piped 0 0 1) _ := .fork 0 1 [(.read, 0), (.write, 1)] ⟨0, rfl⟩ rfl rfl
    (fun e n => by cases e <;> simp [piped]) (by decide)
  have hone : ∀ {s q}, Relation.ReflTransGen CalmStep (piped 0 0 1) s →
      ∀ c, s.cur c = some q → c = 0 := fun hrun => (inv_run (by decide) hrun).2.cur_zero
  have hcopied := (((Relation.ReflTransGen.single (r := CalmStep) (.inr hfork)).tail
    (.inr (.copyFd 0 1 0 .read _ ⟨0, rfl⟩ rfl rfl (by decide)))).tail
    (.inr (.copyFd 0 1 1 .write _ ⟨0, rfl⟩ rfl rfl (by decide)))).tail
    (.inr (.copyData 0 1 0 _ ⟨0, rfl⟩ rfl rfl (by decide)))
  have hforked := (hcopied.tail (.inr (.copyData 0 1 1 _ ⟨0, rfl⟩ rfl rfl (by decide)))).tail
    (.inr (.forked 0 1 ⟨0, rfl⟩ rfl rfl))
  have hswitch := hforked.tail (.inr (.switch 0 1 (by decide) trivial (hone hforked)))
  have hclosed := ((hswitch.tail (.inr (.close 1 1 .write ⟨0, rfl⟩ rfl (by decide)))).tail
    (.inr (.closeFd 1 1 .write ⟨0, rfl⟩ rfl))).tail (.inr (.closeData 1 1 ⟨0, rfl⟩ rfl))
  have hback := hclosed.tail (.inr (.switch 0 0 (by decide) trivial (hone hclosed)))
  have hagain := (hback.tail (.inr (.fork 0 2 [(.read, 0), (.write, 1)] ⟨0, rfl⟩ rfl rfl
    (fun e n => by
      cases e <;>
        simp [State.setPc, State.mapData, State.mapFd, State.unmapData, State.unmapFd, piped])
    (by decide)))).tail (.inr (.copyFd 0 2 0 .read _ ⟨0, rfl⟩ rfl rfl (by decide)))
  have hasks := hagain.tail (.inr (.switch 0 1 (by decide) trivial (hone hagain)))
  exact ⟨_, Relation.ReflTransGen.mono (fun _ _ => Or.imp_left And.left) _ _ hasks, ⟨0, rfl⟩, rfl,
    by decide, by decide, by decide⟩

/-- Then process 1 is told that the pipe is closed, although process 0 has the writing end mapped
all the time. -/
theorem closed_but_held : ∃ s s', Relation.ReflTransGen (Step 1) (piped 0 0 1) s ∧
    s.pc 1 = .idle ∧ (0, 1) ∈ s.fds .write ∧
    Relation.ReflTransGen (fun t t' => Step 1 t t' ∧ (0, 1) ∈ t'.fds .write) s s' ∧
    s'.pc 1 = .returned .read true := by
  obtain ⟨s, hrun, hon, hpc, hread, hwrite, hcard⟩ := fork_evens_counts
  have hcall := isclosed_runs (R := fun t t' => Step 1 t t' ∧ (0, 1) ∈ t'.fds .write) 0 hon hpc
    hread (fun _ _ hact => ⟨.inr hact, hwrite⟩) fun _ _ _ hreads => ⟨.inl hreads, hwrite⟩
  refine ⟨s, _, hrun, hpc, hwrite, hcall, ?_⟩
  rw [setPc_pc_self, hcard, decide_eq_true rfl]

end Mit6828.Lib.PipeClosedSpec
