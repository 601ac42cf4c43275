import Mit6828.Kern.BootMemory

namespace Mit6828.Kern.PageCalls

open Mmu Pmap PageAllocator Environment Boot BootMemory Library.IntrusiveList

/-- What calls of `page_alloc` and `page_free` lead to from `m0`, with the pages that `page_alloc`
has returned and that have not been freed since; `may` says which pages are freed. -/
inductive Run (may : Mem → List Nat → Nat → Prop) (m0 : Mem) : Mem → List Nat → Prop
  | start : Run may m0 m0 []
  | alloc {m used} (zero : Bool) : Run may m0 m used →
      Run may m0 (pageAlloc zero m).2 ((pageAlloc zero m).1.toList ++ used)
  | free {m m' used pp} : Run may m0 m used → may m used pp → pageFree pp m = some m' →
      Run may m0 m' (used.filter (· ≠ pp))

def Listed (m : Mem) (l : List Nat) : Prop := Chain (fun p => (m.pages p).ppLink) m.pageFreeList l

def NotLast (m : Mem) (_ : List Nat) (pp : Nat) : Prop := ∀ l, Listed m l → l.getLast? ≠ some pp

/-- The pages of `S` that are managed are on the list or in use. -/
structure Sound (S : Set Nat) (m : Mem) (used l : List Nat) : Prop where
  freeList : FreeList m l
  ppRef : ∀ p ∈ l, (m.pages p).ppRef = 0
  apart : ∀ p ∈ l, p ∉ used
  within : ∀ p ∈ l ++ used, p ∈ S

variable {S : Set Nat} {may : Mem → List Nat → Nat → Prop} {m0 m m' : Mem} {used l l0 : List Nat}
  {p pp : Nat}

theorem pageFree_eq_none_iff : pageFree pp m = none ↔
    (m.pages pp).ppLink ≠ none ∨ (m.pages pp).ppRef ≠ 0 := by
  rw [pageFree]
  cases (m.pages pp).ppLink <;> simp

/-- `page_free` looks at the link of the page, which is null in the last page of the list too. -/
theorem Sound.free_panics_iff (h : Sound S m used l) (hp : p ∈ l) :
    pageFree p m = none ↔ l.getLast? ≠ some p := by
  rw [pageFree_eq_none_iff, or_iff_left (not_not_intro (h.ppRef p hp))]
  exact not_congr (h.freeList.chain.next_eq_none_iff hp h.freeList.nodup)

theorem Sound.alloc (h : Sound S m used l) (zero : Bool) :
    ∃ l', Sound S (pageAlloc zero m).2 ((pageAlloc zero m).1.toList ++ used) l' ∧
      l = (pageAlloc zero m).1.toList ++ l' := by
  cases l with
  | nil =>
    rw [pageAlloc_nil h.freeList zero]
    exact ⟨[], h, rfl⟩
  | cons p l =>
    obtain ⟨m', halloc⟩ := pageAlloc_cons h.freeList zero
    have hnodup := List.nodup_cons.mp h.freeList.nodup
    rw [halloc.result]
    refine ⟨l, ⟨halloc.freeList, fun q hq => ?_, fun q hq hmem => ?_, fun q hq => h.within q ?_⟩,
      rfl⟩
    · rw [halloc.ppRef]
      exact h.ppRef q (List.mem_cons_of_mem p hq)
    · rcases List.mem_cons.mp hmem with rfl | hmem
      · exact hnodup.1 hq
      · exact h.apart q (List.mem_cons_of_mem p hq) hmem
    · simpa [or_left_comm] using hq

theorem Sound.free (h : Sound S m used l) (hlast : l.getLast? ≠ some pp) (hpp : pp ∈ S)
    (hfree : pageFree pp m = some m') : Sound S m' (used.filter (· ≠ pp)) (pp :: l) := by
  have hnot : pp ∉ l := fun hmem => by
    rw [(h.free_panics_iff hmem).mpr hlast] at hfree
    cases hfree
  have href : (m.pages pp).ppRef = 0 := by
    by_contra hne
    rw [pageFree_eq_none_iff.mpr (.inr hne)] at hfree
    cases hfree
  obtain ⟨m1, hfreed⟩ := pageFree_notMem h.freeList hnot href
  obtain rfl : m' = m1 := Option.some.inj (hfree.symm.trans hfreed.result)
  refine ⟨hfreed.freeList, fun q hq => ?_, fun q hq hmem => ?_, fun q hq => ?_⟩
  · rw [hfreed.ppRef]
    rcases List.mem_cons.mp hq with rfl | hq
    · exact href
    · exact h.ppRef q hq
  · obtain ⟨hmem, hne⟩ := List.mem_filter.mp hmem
    exact h.apart q ((List.mem_cons.mp hq).resolve_left (of_decide_eq_true hne)) hmem
  · rcases List.mem_cons.mp hq with rfl | hq
    · exact hpp
    · exact h.within q ((List.Sublist.refl l).append List.filter_sublist |>.subset hq)

/-- The run lemma. -/
theorem Run.sound (hrun : Run may m0 m used) (h : Sound S m0 [] l0)
    (hmay : ∀ {m used l pp}, Sound S m used l → may m used pp → l.getLast? ≠ some pp ∧ pp ∈ S) :
    ∃ l, Sound S m used l := by
  induction hrun with
  | start => exact ⟨l0, h⟩
  | alloc zero _ ih =>
    obtain ⟨l, hl⟩ := ih
    obtain ⟨l', hl', -⟩ := hl.alloc zero
    exact ⟨l', hl'⟩
  | free _ hpp hfree ih =>
    obtain ⟨l, hl⟩ := ih
    obtain ⟨hlast, hS⟩ := hmay hl hpp
    exact ⟨_, hl.free hlast hS hfree⟩

/-- As long as no call frees the last page of the list, it is finite and without repetition,
`page_alloc` returns no page that is in use, and freeing any listed page but the last is a panic. -/
theorem page_calls_sound (hlist : FreeList m0 l0) (href : ∀ p ∈ l0, (m0.pages p).ppRef = 0)
    (hrun : Run NotLast m0 m used) :
    ∃ l, Listed m l ∧ l.Nodup ∧ (∀ p ∈ l, pageFree p m = none ↔ l.getLast? ≠ some p) ∧
      ∀ zero, ∀ p ∈ (pageAlloc zero m).1, p ∉ used := by
  obtain ⟨l, hl⟩ := hrun.sound (S := Set.univ)
    ⟨hlist, href, fun _ _ => List.not_mem_nil, fun _ _ => trivial⟩
    fun hl hlast => ⟨hlast _ hl.freeList.chain, trivial⟩
  refine ⟨l, hl.freeList.chain, hl.freeList.nodup, fun p hp => hl.free_panics_iff hp, ?_⟩
  intro zero p hp
  obtain ⟨l', -, rfl⟩ := hl.alloc zero
  exact hl.apart p (List.mem_append_left _ (Option.mem_toList.mpr hp))

def noPages (npages : Nat) (ram : Nat → Nat → Word) : Mem where
  npages := npages
  pages _ := { ppLink := none, ppRef := 0 }
  pageFreeList := none
  phys := ram
  wrapped := false

/-- Of the three pages that `page_init` has listed, two are allocated and one is given back. -/
theorem page_calls_sound_three : let m0 := pageInit 4 160 (noPages 4 fun _ _ => 0)
    ∃ m, Run NotLast m0 m [2] ∧ Listed m [3, 1] ∧ pageFree 3 m = none ∧
      ∀ zero, ∀ p ∈ (pageAlloc zero m).1, p ∉ [2] := by
  intro m0
  have hlist : FreeList m0 [3, 2, 1] := by
    refine ⟨⟨rfl, rfl, rfl, rfl⟩, by decide, fun p hp => ?_⟩
    simp only [List.mem_cons, List.not_mem_nil, not_or] at hp
    by_cases hzero : p = 0
    · rw [hzero]
      rfl
    · simp [m0, pageInit, pageInitFree, noPages, Mem.setPage, List.range', mpentryPage, hp, hzero]
  have hused : Run NotLast m0 (pageAlloc false (pageAlloc false m0).2).2 [2, 3] :=
    .alloc false (.alloc false .start)
  obtain ⟨m, hfree⟩ : ∃ m, pageFree 3 (pageAlloc false (pageAlloc false m0).2).2 = some m :=
    ⟨_, rfl⟩
  have hlisted : Listed m [3, 1] := by
    cases hfree
    exact ⟨rfl, rfl, rfl⟩
  have hrun : Run NotLast m0 m [2] := hused.free (fun l hl => ?_) hfree
  · obtain ⟨l, hl, -, hpanics, hapart⟩ := page_calls_sound hlist (by decide) hrun
    obtain rfl := hl.unique hlisted
    exact ⟨m, hrun, hlisted, (hpanics 3 (by decide)).mpr (by decide), hapart⟩
  · rw [hl.unique (show Listed _ [1] from ⟨rfl, rfl⟩)]
    decide

/-- A list of one page: freeing it again links it to itself, and then it is allocated twice. -/
theorem page_free_last_again : let m := pageInit 2 160 (noPages 2 fun _ _ => 0)
    Listed m [1] ∧ ∃ m', pageFree 1 m = some m' ∧ (m'.pages 1).ppLink = some 1 ∧
      (pageAlloc false m').1 = some 1 ∧ (pageAlloc false (pageAlloc false m').2).1 = some 1 :=
  ⟨⟨rfl, rfl⟩, _, rfl, rfl, rfl, rfl⟩

/-- The chunks that `boot_alloc` hands out before `page_init`, as first pages and sizes, the first
page above them, and memory after `page_init`.  `i386_detect_memory` finds fewer than 2^21 pages, so
no size wraps around. -/
structure Booted where
  chunks : List (Nat × Nat)
  med : Nat
  mem : Mem

/-- `mem_init` up to `page_init`; `end_` is the physical address at which the kernel image ends. -/
def initPages (npages npagesBasemem end_ : Nat) (ram : Nat → Nat → Word) : Option Booted := do
  let (kernPgdir, next) ← bootAlloc ((end_ + 4095) / 4096) 4096
  let (pages, next) ← bootAlloc next (npages * pageInfoSize)
  let (envs, med) ← bootAlloc next (nenv * envSize)
  return ⟨[(kernPgdir, 4096), (pages, npages * pageInfoSize), (envs, nenv * envSize)], med,
    pageInit npagesBasemem med (noPages npages ram)⟩

def Reserved (end_ : Nat) (chunks : List (Nat × Nat)) (p : Nat) : Prop :=
  p = 0 ∨ p = mpentryPage ∨ 160 ≤ p ∧ p * 4096 < end_ ∨
    ∃ c ∈ chunks, c.1 ≤ p ∧ p * 4096 < c.1 * 4096 + c.2

/-- The kernel is linked at 1 MB. -/
theorem page_init_free_list {npages npagesBasemem end_ : Nat} {ram : Nat → Nat → Word} {b : Booted}
    (hbase : npagesBasemem ≤ 160) (hend : 0x100000 ≤ end_)
    (hboot : initPages npages npagesBasemem end_ ram = some b) :
    IsLeast { p | ∀ c ∈ b.chunks, c.1 * 4096 + c.2 ≤ p * 4096 } b.med ∧
      (∃ l, Listed b.mem l ∧ l.Nodup ∧ ∀ p, p ∈ l ↔ p ∈ freePool npagesBasemem b.med npages) ∧
      ∀ m used, Run (fun _ used pp => pp ∈ used) b.mem m used →
        ∀ p ∈ used, ¬ Reserved end_ b.chunks p := by
  obtain ⟨⟨_, next⟩, hnext, hboot⟩ := Option.bind_eq_some_iff.mp hboot
  obtain ⟨⟨_, next'⟩, hnext', hboot⟩ := Option.bind_eq_some_iff.mp hboot
  obtain ⟨⟨_, med⟩, hmed, hboot⟩ := Option.bind_eq_some_iff.mp hboot
  obtain ⟨-, hnext⟩ := Option.ite_none_left_eq_some.mp hnext
  obtain ⟨-, hnext'⟩ := Option.ite_none_left_eq_some.mp hnext'
  obtain ⟨-, hmed⟩ := Option.ite_none_left_eq_some.mp hmed
  cases hboot
  cases hnext
  cases hnext'
  cases hmed
  simp only [show pageInfoSize = 8 from rfl, show nenv * envSize = 126976 from rfl]
  obtain ⟨i, l, hl, hall⟩ := pageInit_ready (noPages npages ram)
    (show 160 ≤ (end_ + 4095) / 4096 + 1 + (npages * 8 + 4095) / 4096 + 31 by omega) hbase
    (fun _ => rfl) rfl
  refine ⟨⟨?_, ?_⟩, ⟨l, hl.freeList.chain, hl.freeList.nodup,
    fun p => ⟨fun hp => (hl.below p hp).1, hall p⟩⟩, ?_⟩
  · grind
  · intro p hp
    simp only [Set.mem_ofPred_eq, List.forall_mem_cons] at hp
    omega
  · intro m used hrun p hp hreserved
    obtain ⟨l', hl'⟩ := hrun.sound (S := freePool npagesBasemem _ npages) ⟨hl.freeList,
        fun p hp => hl.zero p (hl.below p hp).1, by
        simp, fun p hp => (hl.below p (by simpa using hp)).1⟩
      fun hl hpp => ⟨fun hlast => hl.apart _ (List.mem_of_getLast? hlast) hpp,
        hl.within _ (List.mem_append_right _ hpp)⟩
    have hpool := hl'.within p (List.mem_append_right _ hp)
    simp only [freePool, Set.mem_ofPred_eq, show mpentryPage = 7 from rfl] at hpool
    simp [Reserved, show mpentryPage = 7 from rfl] at hreserved
    omega

theorem page_init_free_list_small : ∃ b, initPages 512 8 0x100000 (fun _ _ => 0) = some b ∧
    ∃ l, Listed b.mem l ∧ l.Nodup :=
  let ⟨_, ⟨l, hl, hnodup, _⟩, _⟩ := page_init_free_list (show 8 ≤ 160 by decide)
    (Nat.le_refl 0x100000) (show initPages 512 8 0x100000 (fun _ _ => 0) = some _ from rfl)
  ⟨_, rfl, l, hl, hnodup⟩

end Mit6828.Kern.PageCalls
