import Mit6828.Kern.Pmap
import Mit6828.Library.IntrusiveList

namespace Mit6828.Kern.PageAllocator

open Mmu Pmap Library.IntrusiveList Function

/-- `page_free_list` is the list `l`: following `pp_link` gives `l`, without repetition, and
every page off the list has a null link, as `page_free` expects. -/
structure FreeList (m : Mem) (l : List Nat) : Prop where
  chain : Chain (fun p => (m.pages p).ppLink) m.pageFreeList l
  nodup : l.Nodup
  offList : ∀ p, p ∉ l → (m.pages p).ppLink = none

/-- The two memories differ in the `pages` array and the free list only. -/
structure SameFrames (m m' : Mem) : Prop where
  phys : m'.phys = m.phys
  npages : m'.npages = m.npages
  wrapped : m'.wrapped = m.wrapped

variable {m m' : Mem} {l : List Nat} {p : Nat}

theorem FreeList.congr (h : FreeList m l) (hhead : m'.pageFreeList = m.pageFreeList)
    (hlink : ∀ p, (m'.pages p).ppLink = (m.pages p).ppLink) : FreeList m' l := by
  refine ⟨?_, h.nodup, fun p hp => (hlink p).trans (h.offList p hp)⟩
  rw [hhead]
  exact h.chain.congr fun p _ => hlink p

@[simp] theorem setWord_pages (m : Mem) (pte : Nat × Nat) (w : Word) :
    (m.setWord pte w).pages = m.pages := rfl

@[simp] theorem incref_phys (m : Mem) (pp : Nat) : (m.incref pp).phys = m.phys := rfl

@[simp] theorem incref_npages (m : Mem) (pp : Nat) : (m.incref pp).npages = m.npages := rfl

theorem incref_ppLink (m : Mem) (pp q : Nat) :
    ((m.incref pp).pages q).ppLink = (m.pages q).ppLink :=
  update_field PageInfo.ppLink (by rfl) q

theorem incref_ppRef (m : Mem) (pp q : Nat) :
    ((m.incref pp).pages q).ppRef = (m.pages q).ppRef + if q = pp then 1 else 0 := by
  by_cases hq : q = pp
  · subst hq
    simp [Mem.incref, Mem.setPage]
  · simp [Mem.incref, Mem.setPage, hq]

theorem incref_wrapped (m : Mem) (pp : Nat) :
    (m.incref pp).wrapped = (m.wrapped || (m.pages pp).ppRef == 0xFFFF) := rfl

theorem incref_wrapped_of_ne (h : (m.pages p).ppRef ≠ 0xFFFF) :
    (m.incref p).wrapped = m.wrapped := by
  rw [incref_wrapped, beq_eq_false_iff_ne.mpr h, Bool.or_false]

theorem FreeList.incref (h : FreeList m l) (pp : Nat) : FreeList (m.incref pp) l :=
  h.congr rfl fun q => incref_ppLink m pp q

theorem FreeList.setWord (h : FreeList m l) (pte : Nat × Nat) (w : Word) :
    FreeList (m.setWord pte w) l :=
  h.congr rfl fun _ => rfl

structure Allocated (zero : Bool) (m : Mem) (p : Nat) (l : List Nat) (m' : Mem) : Prop where
  result : pageAlloc zero m = (some p, m')
  freeList : FreeList m' l
  ppRef : ∀ q, (m'.pages q).ppRef = (m.pages q).ppRef
  phys : m'.phys = if zero then update m.phys p fun _ => 0 else m.phys
  npages : m'.npages = m.npages
  wrapped : m'.wrapped = m.wrapped

theorem pageAlloc_nil (h : FreeList m []) (zero : Bool) : pageAlloc zero m = (none, m) := by
  have hhead : m.pageFreeList = none := h.chain
  simp [pageAlloc, hhead]

theorem pageAlloc_cons (h : FreeList m (p :: l)) (zero : Bool) : ∃ m', Allocated zero m p l m' := by
  have hhead : m.pageFreeList = some p := h.chain.1
  have hnd := List.nodup_cons.mp h.nodup
  have hpages : (pageAlloc zero m).2.pages =
    update m.pages p { m.pages p with ppLink := none } := by
    cases zero <;> simp [pageAlloc, hhead, Mem.setPage, Mem.zeroPage]
  refine ⟨(pageAlloc zero m).2, ?_, ?_, ?_, ?_, ?_, ?_⟩
  · simp [pageAlloc, hhead]
  · have hlink : ∀ q, ((pageAlloc zero m).2.pages q).ppLink =
        update (fun q => (m.pages q).ppLink) p none q := by
      rw [hpages]
      exact apply_update (fun _ => PageInfo.ppLink) m.pages p _
    have hfree : (pageAlloc zero m).2.pageFreeList = (m.pages p).ppLink := by
      cases zero <;> simp [pageAlloc, hhead, Mem.setPage, Mem.zeroPage]
    refine ⟨?_, hnd.2, ?_⟩
    · rw [hfree, funext hlink]
      exact h.chain.2.update_of_notMem hnd.1 none
    intro q hq
    rw [hlink]
    by_cases hqp : q = p
    · rw [hqp, update_self]
    · rw [update_of_ne hqp]
      exact h.offList q (by simp [hqp, hq])
  · rw [hpages]
    exact update_field PageInfo.ppRef (by rfl)
  · cases zero <;> simp [pageAlloc, hhead, Mem.setPage, Mem.zeroPage]
  · cases zero <;> simp [pageAlloc, hhead, Mem.setPage, Mem.zeroPage]
  · cases zero <;> simp [pageAlloc, hhead, Mem.setPage, Mem.zeroPage]

theorem links_setPage (m : Mem) (p : Nat) (info : PageInfo) :
    (fun q => ((m.setPage p info).pages q).ppLink) =
      update (fun q => (m.pages q).ppLink) p info.ppLink :=
  comp_update PageInfo.ppLink m.pages p info

theorem FreeList.push (info : PageInfo) (h : FreeList m l) (hp : p ∉ l)
    (hinfo : info.ppLink = m.pageFreeList) :
    FreeList { m.setPage p info with pageFreeList := some p } (p :: l) := by
  have hlink := links_setPage m p info
  refine ⟨?_, List.nodup_cons.mpr ⟨hp, h.nodup⟩, fun q hq => ?_⟩
  · rw [hinfo] at hlink
    exact hlink ▸ h.chain.push hp
  · rw [List.mem_cons, not_or] at hq
    exact (congrFun hlink q).trans ((update_of_ne hq.1 _ _).trans (h.offList q hq.2))

structure Freed (m : Mem) (p : Nat) (l : List Nat) (m' : Mem) : Prop where
  result : pageFree p m = some m'
  freeList : FreeList m' (p :: l)
  ppRef : ∀ q, (m'.pages q).ppRef = (m.pages q).ppRef
  frames : SameFrames m m'

theorem pageFree_notMem (h : FreeList m l) (hp : p ∉ l) (href : (m.pages p).ppRef = 0) :
    ∃ m', Freed m p l m' := by
  have hpush := h.push { m.pages p with ppLink := m.pageFreeList } hp rfl
  refine ⟨_, ?_, hpush, update_field PageInfo.ppRef (by rfl), ⟨rfl, rfl, rfl⟩⟩
  simp [pageFree, h.offList p hp, href]

theorem pageFree_pageAlloc (h : FreeList m [p]) (href : (m.pages p).ppRef = 0) :
    pageFree p (pageAlloc true m).2 = some (m.zeroPage p) := by
  have hhead : m.pageFreeList = some p := h.chain.1
  have hlink : (m.pages p).ppLink = none := h.chain.2
  have hinfo : ({ ppLink := none, ppRef := 0#16 } : PageInfo) = m.pages p := by
    rw [← hlink, show 0#16 = (m.pages p).ppRef from href.symm]
  simp [pageFree, pageAlloc, hhead, hlink, href, Mem.setPage, Mem.zeroPage, hinfo]

structure Decref (m : Mem) (p : Nat) (l : List Nat) (m' : Mem) : Prop where
  result : pageDecref p m = some m'
  freeList : FreeList m' (if (m.pages p).ppRef - 1 = 0 then p :: l else l)
  ppRef : ∀ q, (m'.pages q).ppRef = (m.pages q).ppRef - if q = p then 1 else 0
  frames : SameFrames m m'

theorem pageDecref_notMem (h : FreeList m l) (hp : p ∉ l) : ∃ m', Decref m p l m' := by
  let m1 := m.setPage p { m.pages p with ppRef := (m.pages p).ppRef - 1 }
  have hpages : ∀ q, (m1.pages q).ppLink = (m.pages q).ppLink ∧
      (m1.pages q).ppRef = (m.pages q).ppRef - if q = p then 1 else 0 := by
    intro q
    by_cases hq : q = p
    · subst hq
      simp [m1, Mem.setPage]
    · simp [m1, Mem.setPage, hq]
  have hfree : FreeList m1 l := h.congr rfl fun q => (hpages q).1
  have hrefp : (m1.pages p).ppRef = (m.pages p).ppRef - 1 := by simpa using (hpages p).2
  have hdef : pageDecref p m = if (m1.pages p).ppRef = 0 then pageFree p m1 else some m1 := rfl
  by_cases hzero : (m.pages p).ppRef - 1 = 0
  · obtain ⟨m', hm'⟩ := pageFree_notMem hfree hp (hrefp.trans hzero)
    refine ⟨m', ?_, ?_, ?_, ?_⟩
    · rw [hdef, if_pos (hrefp.trans hzero), hm'.result]
    · rw [if_pos hzero]
      exact hm'.freeList
    · intro q
      rw [hm'.ppRef, (hpages q).2]
    · exact { hm'.frames with }
  · refine ⟨m1, ?_, ?_, fun q => (hpages q).2, ⟨rfl, rfl, rfl⟩⟩
    · rw [hdef, if_neg (fun h0 => hzero (hrefp.symm.trans h0))]
    · rw [if_neg hzero]
      exact hfree

end Mit6828.Kern.PageAllocator
