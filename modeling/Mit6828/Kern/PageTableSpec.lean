import Mit6828.Kern.Separation

namespace Mit6828.Kern.PageTableSpec

open Mmu Pmap PageAllocator Separation Library Function

variable {L : Layout} {a b : World} {e d p pp t : Nat} {va perm : Word} {s : Slot} {l : List Nat}

abbrev pteSlot (e : Nat) (va : Word) : Slot := .pte e (pdx va) (ptx va)

abbrev pdeSlot (e : Nat) (va : Word) : Slot := .pde e (pdx va)

/-- Directory `e` is at page `d`, and its entry for `va` is one that may change. -/
structure Rooted (L : Layout) (a : World) (e d : Nat) (va : Word) : Prop where
  root : frameOf (a.root e) = some d
  pde_tracked : pdeSlot e va ∈ L.tracked
  pde_unpinned : pdeSlot e va ∉ L.pinned

namespace Rooted

theorem dir_tracked (h : Rooted L a e d va) : .dir e ∈ L.tracked :=
  L.dir_of_pde (L.tracked_subset h.pde_tracked)

theorem view_pde (h : Rooted L a e d va) : a.view (pdeSlot e va) = a.mem.phys d (pdx va) :=
  view_pde_of_root h.root

theorem ref_dir (h : Rooted L a e d va) : a.ref (.dir e) = some d := h.root

end Rooted

/-- Directory `e` is at page `d`, and the slot for `va` in it is one that may change. -/
structure Walkable (L : Layout) (a : World) (e d : Nat) (va : Word) : Prop where
  root : frameOf (a.root e) = some d
  tracked : pteSlot e va ∈ L.tracked
  unpinned : pteSlot e va ∉ L.pinned ∧ pdeSlot e va ∉ L.pinned

namespace Walkable

theorem rooted (h : Walkable L a e d va) : Rooted L a e d va :=
  ⟨h.root, L.pde_of_pte (L.tracked_subset h.tracked), h.unpinned.2⟩

theorem congr (h : Walkable L a e d va) (hroot : b.root = a.root) : Walkable L b e d va :=
  ⟨hroot ▸ h.root, h.tracked, h.unpinned⟩

end Walkable

theorem ref_pte_none (ht : a.ref (pdeSlot e va) = none) : a.ref (pteSlot e va) = none := by
  rw [ref_eq, view_pte_of_absent ht, frameOf_zero]

theorem kaddr_ref (hsep : Separated L a) (hs : s ∈ L.tracked)
    (hp : a.ref s = some p) : kaddr (pteAddr (a.view s)) a.mem = some p := by
  have hlt := hsep.ref_lt s hs p hp
  rw [ref_eq, frameOf] at hp
  split at hp
  · rw [kaddr, pgnum_pteAddr, Option.some.inj hp, if_neg]
    rw [hsep.npages]
    omega
  · exact absurd hp (by simp)

theorem pa2page_ref (hsep : Separated L a) (hs : s ∈ L.tracked)
    (hp : a.ref s = some p) : pa2page (pteAddr (a.view s)) a.mem = some p :=
  kaddr_ref hsep hs hp

theorem present_of_ref (hp : a.ref s = some p) : a.view s &&& pteP ≠ 0 := by
  intro h
  rw [ref_eq, frameOf_eq_none.mpr h] at hp
  exact absurd hp (by simp)

theorem pgdirWalk_present (hsep : Separated L a) (hw : Rooted L a e d va)
    (ht : a.ref (pdeSlot e va) = some t) (create : Bool) :
    pgdirWalk d va create a.mem = some (some (t, ptx va), a.mem) := by
  have hpresent := present_of_ref ht
  have haddr := kaddr_ref hsep hw.pde_tracked ht
  rw [hw.view_pde] at hpresent haddr
  simp only [pgdirWalk, if_pos hpresent, haddr]
  rfl

theorem pgdirWalk_absent (hw : Rooted L a e d va) (ht : a.ref (pdeSlot e va) = none) :
    pgdirWalk d va false a.mem = some (none, a.mem) := by
  rw [ref_eq, frameOf_eq_none, hw.view_pde] at ht
  simp [pgdirWalk, ht]

theorem pgdirWalk_noMem (hsep : Separated L a) (hw : Rooted L a e d va)
    (ht : a.ref (pdeSlot e va) = none) (hfree : a.free = []) :
    pgdirWalk d va true a.mem = some (none, a.mem) := by
  rw [ref_eq, frameOf_eq_none, hw.view_pde] at ht
  have hl := hsep.freeList
  rw [hfree] at hl
  simp [pgdirWalk, ht, pageAlloc_nil hl]

theorem pgdirWalk_take (hsep : Separated L a) (hw : Rooted L a e d va)
    (ht : a.ref (pdeSlot e va) = none) (hfree : a.free = p :: l)
    (hfresh : ∀ s ∈ L.tracked, a.ref s ≠ some p) :
    ∃ b, pgdirWalk d va true a.mem = some (some (p, ptx va), b.mem) ∧ b.root = a.root ∧
      b.free = l ∧ Change L (pdeSlot e va) a b ∧ b.ref (pdeSlot e va) = some p ∧
      b.view (pdeSlot e va) = page2pa p ||| pteP ||| pteW ||| pteU := by
  have habsent := ht
  rw [ref_eq, frameOf_eq_none, hw.view_pde] at habsent
  have hl := hsep.freeList
  rw [hfree] at hl
  obtain ⟨m, hm⟩ := pageAlloc_cons hl true
  have hlt : p < 1048576 :=
    lt_of_lt_of_le (L.pool_lt p (hsep.free_pool p (by simp [hfree]))) L.npages_le
  have hpd : p ≠ d := fun heq => hfresh (.dir e) hw.dir_tracked (heq ▸ hw.ref_dir)
  let w := page2pa p ||| pteP ||| pteW ||| pteU
  have hframe : frameOf w = some p := by
    have h := frameOf_entry hlt (show (pteP ||| pteW ||| pteU).toNat < 4096 by decide)
    rwa [show page2pa p ||| (pteP ||| pteW ||| pteU) ||| pteP = w by
      simp only [w, BitVec.or_assoc]; rfl] at h
  let b : World := ⟨a.root, (m.incref p).setWord (d, pdx va) w, l⟩
  have hphys : ∀ q, q ≠ d → q ≠ p → b.mem.phys q = a.mem.phys q := by
    intro q hqd hqp
    simp [b, Mem.setWord, hm.phys, hqd, hqp]
  have hview : ∀ s ∈ L.viewed, b.view s = update a.view (pdeSlot e va) w s := by
    refine PageTable.view_set_pde hw.root ?_ ?_ ?_
    · intro s hs htable hne q hq
      refine hphys q (fun heq => ?_) (fun heq => hfresh s hs (heq ▸ hq))
      exact hne (hsep.exclusive (.dir e) hw.dir_tracked trivial s hs d hw.ref_dir (heq ▸ hq))
    · simp [b, Mem.setWord, hm.phys, hpd.symm]
    · intro j _
      rw [PageTable.deref_some hframe]
      refine Eq.trans ?_ (view_pte_of_absent ht).symm
      simp [b, Mem.setWord, hm.phys, hpd]
  have hslot : b.view (pdeSlot e va) = w := by
    rw [hview _ (L.tracked_subset hw.pde_tracked), update_self]
  have href : b.ref (pdeSlot e va) = some p := by rw [ref_eq, hslot, hframe]
  refine ⟨b, ?_, rfl, rfl, ?_, href, hslot⟩
  · simp [pgdirWalk, habsent, hm.result, b, w]
  refine ⟨hw.pde_tracked, hw.pde_unpinned, hm.npages, (hm.freeList.incref p).setWord _ _, ?_,
    ?_, ?_, ?_⟩
  · rw [ht, href]
    refine .take p hfree ⟨fun q => ?_, ?_⟩
    · simp [World.ppRef, b, incref_ppRef, hm.ppRef]
    · simp [World.ppRef, b, Mem.setWord, incref_wrapped, hm.ppRef, hm.wrapped]
  · intro t ht' hne _
    rw [hview t ht', update_of_ne hne]
  · intro q hq
    rw [href] at hq
    exact hsep.free_pool q (by simp [hfree, Option.some.inj hq])
  · intro q hq _ t ht' htq
    rw [href] at hq
    exact absurd (Option.some.inj hq ▸ htq) (hfresh t ht')

section

variable (hsep : Separated L a) (hw : Walkable L a e d va)
include hsep hw

theorem change_setWord (ht : a.ref (pdeSlot e va) = some t) {m : Mem} {w : Word}
    (hphys : m.phys = a.mem.phys) (hnpages : m.npages = a.mem.npages) (hl : FreeList m l)
    (hacc : Account a ⟨a.root, m, l⟩ (a.ref (pteSlot e va)) (frameOf w))
    (hpool : ∀ p, frameOf w = some p → p ∈ L.pool)
    (hdata : ∀ p, frameOf w = some p → ∀ s ∈ L.tracked, s.IsTable → a.ref s ≠ some p) :
    Change L (pteSlot e va) a ⟨a.root, m.setWord (t, ptx va) w, l⟩ ∧
      World.view ⟨a.root, m.setWord (t, ptx va) w, l⟩ (pteSlot e va) = w := by
  have hview : ∀ s ∈ L.viewed, World.view ⟨a.root, m.setWord (t, ptx va) w, l⟩ s =
      update a.view (pteSlot e va) w s := by
    have h := PageTable.view_set_pte hsep.exclusive hw.rooted.pde_tracked ht (ptx va) w
    intro s hs
    rw [← show _ = update a.view (pteSlot e va) w s from h s hs]
    simp only [World.view, Mem.setWord, hphys]
  have hslot := hview _ (L.tracked_subset hw.tracked)
  rw [update_self] at hslot
  refine ⟨⟨hw.tracked, hw.unpinned.1, hnpages, hl.setWord _ _, ?_, ?_, ?_, ?_⟩, hslot⟩
  · rw [show World.ref ⟨a.root, m.setWord (t, ptx va) w, l⟩ (pteSlot e va) = frameOf w from
      congrArg frameOf hslot]
    exact hacc.setWord _ _
  · intro s hs hne _
    rw [hview s hs, update_of_ne hne]
  · intro p hp
    rw [ref_eq, hslot] at hp
    exact hpool p hp
  · intro p hp _ s hs hsp
    rw [ref_eq, hslot] at hp
    exact ⟨not_false, fun htable => hdata p hp s hs htable hsp⟩

theorem pageLookup_spec : (a.ref (pteSlot e va) = none ∧ pageLookup d va a.mem = some none) ∨
    ∃ p t, a.ref (pteSlot e va) = some p ∧ a.ref (pdeSlot e va) = some t ∧
      pageLookup d va a.mem = some (some (p, t, ptx va)) := by
  cases ht : a.ref (pdeSlot e va) with
  | none =>
    refine .inl ⟨ref_pte_none ht, ?_⟩
    simp [pageLookup, pgdirWalk_absent hw.rooted ht]
  | some t =>
    have hword : a.mem.word (t, ptx va) = a.view (pteSlot e va) := (view_pte_of_ref ht).symm
    cases hp : a.ref (pteSlot e va) with
    | none =>
      have habsent : a.view (pteSlot e va) &&& pteP = 0 := frameOf_eq_none.mp hp
      refine .inl ⟨rfl, ?_⟩
      simp [pageLookup, pgdirWalk_present hsep hw.rooted ht, hword, habsent]
    | some p =>
      have hpresent := present_of_ref hp
      refine .inr ⟨p, t, rfl, rfl, ?_⟩
      simp only [pageLookup, pgdirWalk_present hsep hw.rooted ht, Option.bind_eq_bind,
        Option.bind_some, hword, if_pos hpresent, pa2page_ref hsep hw.tracked hp]
      rfl

theorem pageRemove_absent
    (hp : a.ref (pteSlot e va) = none) : pageRemove d va a.mem = some a.mem := by
  obtain ⟨-, hlookup⟩ | ⟨p, t, hp', -, -⟩ := pageLookup_spec hsep hw
  · simp [pageRemove, hlookup]
  · exact absurd (hp.symm.trans hp') (by simp)

theorem pageRemove_present (hp : a.ref (pteSlot e va) = some p) (hfree : p ∉ a.free) :
    ∃ b, pageRemove d va a.mem = some b.mem ∧ b.root = a.root ∧
      a.free.length ≤ b.free.length ∧ Change L (pteSlot e va) a b ∧ b.view (pteSlot e va) = 0 := by
  obtain ⟨hp', -⟩ | ⟨q, t, hp', ht, hlookup⟩ := pageLookup_spec hsep hw
  · exact absurd (hp.symm.trans hp') (by simp)
  obtain rfl := Option.mem_unique hp hp'
  obtain ⟨m, hm⟩ := pageDecref_notMem hsep.freeList hfree
  have hacc : Account a ⟨a.root, m, if a.ppRef p - 1 = 0 then p :: a.free else a.free⟩
      (a.ref (pteSlot e va)) (frameOf 0) := by
    rw [hp, frameOf_zero]
    exact .drop p hfree rfl hm.ppRef hm.frames.wrapped
  have hnone : ∀ q, frameOf 0 ≠ some q := by simp only [frameOf_zero]; simp
  obtain ⟨hchange, hslot⟩ := change_setWord hsep hw ht hm.frames.phys hm.frames.npages
    hm.freeList hacc (fun q hq => absurd hq (hnone q)) (fun q hq => absurd hq (hnone q))
  refine ⟨⟨a.root, m.setWord (t, ptx va) 0, _⟩, ?_, rfl, ?_, hchange, hslot⟩
  · simp [pageRemove, hlookup, hm.result]
  · change a.free.length ≤ (if _ then _ else _ : List Nat).length
    split <;> simp

end

/-- What one change inside `page_insert` may be: a new page table, or the entry for `va`,
which is emptied or gets its new value.  Nothing is dropped if the entry was empty. -/
structure InsertStep (e : Nat) (va : Word) (entry : Word) (empty : Prop)
    (a : World) (s : Slot) (b : World) : Prop where
  slot : s = pdeSlot e va ∧ a.ref s = none ∧
      (∃ p, b.view s = page2pa p ||| pteP ||| pteW ||| pteU) ∨
    s = pteSlot e va ∧ (b.view s = 0 ∨ b.view s = entry)
  empty : empty → a.ref s = none

/-- A reference count that goes up in the change does not wrap around. -/
def UpSafe (a : World) (s : Slot) (b : World) : Prop :=
  a.ref s = none → ∀ q, b.ref s = some q → a.ppRef q ≠ 0xFFFF

theorem UpSafe.wrapped (h : UpSafe a s b) (hc : Change L s a b) :
    b.mem.wrapped = a.mem.wrapped := by
  have hacc := hc.account
  unfold UpSafe at h
  generalize a.ref s = o, b.ref s = o' at hacc h
  cases hacc with
  | keep _ _ _ hwrapped => exact hwrapped
  | take p _ hup => rw [hup.wrapped, beq_eq_false_iff_ne.mpr (h rfl p rfl), Bool.or_false]
  | share p _ _ hup => rw [hup.wrapped, beq_eq_false_iff_ne.mpr (h rfl p rfl), Bool.or_false]
  | drop _ _ _ _ hwrapped => exact hwrapped

structure Insertable (L : Layout) (a : World) (pp : Nat) : Prop where
  pool : pp ∈ L.pool
  notFree : pp ∉ a.free
  notTable : ∀ s ∈ L.tracked, s.IsTable → a.ref s ≠ some pp

theorem Insertable.change (h : Insertable L a pp) (hc : Change L s a b)
    (hs : a.ref s ≠ some pp) (hb : ∀ p, b.ref s = some p → p ≠ pp) : Insertable L b pp where
  pool := h.pool
  notFree := by
    intro hfree
    rcases hc.account.mem_free hfree with hmem | ⟨hold, -⟩
    · exact h.notFree hmem
    · exact hs hold
  notTable := by
    intro t ht htable hp
    by_cases hts : t = s
    · exact hb pp (hts ▸ hp) rfl
    · exact h.notTable t ht htable (hc.rest_ref ht hts ▸ hp)

theorem change_share (hsep : Separated L a) (hw : Walkable L a e d va)
    (ht : a.ref (pdeSlot e va) = some t) (hp : a.ref (pteSlot e va) = none)
    (hpp : Insertable L a pp) (hperm : perm.toNat < 4096) :
    ∃ b : World, b.mem = (a.mem.incref pp).setWord (t, ptx va) (page2pa pp ||| perm ||| pteP) ∧
      b.root = a.root ∧ b.free = a.free ∧ Change L (pteSlot e va) a b ∧
      b.view (pteSlot e va) = page2pa pp ||| perm ||| pteP := by
  have hlt : pp < 1048576 := lt_of_lt_of_le (L.pool_lt pp hpp.pool) L.npages_le
  have hframe := frameOf_entry hlt hperm
  have hacc : Account a ⟨a.root, a.mem.incref pp, a.free⟩ (a.ref (pteSlot e va))
      (frameOf (page2pa pp ||| perm ||| pteP)) := by
    rw [hp, hframe]
    exact .share pp hpp.notFree rfl ⟨incref_ppRef a.mem pp, incref_wrapped a.mem pp⟩
  obtain ⟨hchange, hslot⟩ := change_setWord hsep hw ht (incref_phys a.mem pp)
    (incref_npages a.mem pp) (hsep.freeList.incref pp) hacc
    (fun q hq => Option.mem_unique hframe hq ▸ hpp.pool)
    (fun q hq => Option.mem_unique hframe hq ▸ hpp.notTable)
  exact ⟨⟨a.root, _, a.free⟩, rfl, rfl, rfl, hchange, hslot⟩

structure Inserted (L : Layout) (e d pp : Nat) (va perm : Word) (a b : World) : Prop where
  result : pageInsert d pp va perm a.mem = some (0, b.mem)
  root : b.root = a.root
  run : Run L (fun x s y =>
    InsertStep e va (page2pa pp ||| perm ||| pteP) (a.ref (pteSlot e va) = none) x s y ∧
      (a.ppRef pp ≠ 0xFFFF → (∀ p ∈ a.free, a.ppRef p ≠ 0xFFFF) → UpSafe x s y)) a b
  room : a.free.length ≤ b.free.length + if a.ref (pdeSlot e va) = none then 1 else 0
  entry : b.view (pteSlot e va) = page2pa pp ||| perm ||| pteP
  count : a.ref (pteSlot e va) = none → b.ppRef pp = a.ppRef pp + 1

theorem Inserted.wrapped (h : Inserted L e d pp va perm a b) (hpp : a.ppRef pp ≠ 0xFFFF)
    (hfree : ∀ p ∈ a.free, a.ppRef p ≠ 0xFFFF) : b.mem.wrapped = a.mem.wrapped :=
  h.run.invariant (I := fun x => x.mem.wrapped = a.mem.wrapped)
    (fun _ _ _ hx hc hstep => ((hstep.2 hpp hfree).wrapped hc).trans hx) rfl

theorem upSafe_of_entry {w : Word} (hview : b.view s = w) (hw : frameOf w = some pp)
    (hne : a.ppRef pp ≠ 0xFFFF) : UpSafe a s b := by
  intro _ q hq
  rw [ref_eq, hview] at hq
  exact Option.mem_unique hw hq ▸ hne

theorem pageInsert_table (hsep : Separated L a) (hw : Walkable L a e d va)
    (ht : a.ref (pdeSlot e va) = some t) (hpp : Insertable L a pp) (hperm : perm.toNat < 4096)
    (hold : ∀ q, a.ref (pteSlot e va) = some q → q ∉ a.free) :
    ∃ b, Inserted L e d pp va perm a b := by
  have hwalk := pgdirWalk_present hsep hw.rooted ht true
  have hword : a.mem.word (t, ptx va) = a.view (pteSlot e va) := (view_pte_of_ref ht).symm
  have hlt : pp < 1048576 := lt_of_lt_of_le (L.pool_lt pp hpp.pool) L.npages_le
  have hframe := frameOf_entry hlt hperm
  cases hp : a.ref (pteSlot e va) with
  | none =>
    have habsent : a.view (pteSlot e va) &&& pteP = 0 := frameOf_eq_none.mp hp
    obtain ⟨b, hmem, hroot, hfree, hchange, hslot⟩ := change_share hsep hw ht hp hpp hperm
    refine ⟨b, ?_, hroot, .single hchange ⟨⟨.inr ⟨rfl, .inr hslot⟩, fun _ => hp⟩, ?_⟩,
      hfree ▸ Nat.le_add_right _ _, hslot, fun _ => ?_⟩
    · rw [hmem]
      simp only [pageInsert, hwalk, Option.bind_eq_bind, Option.bind_some, hword,
        if_neg (not_not.mpr habsent)]
      rfl
    · exact fun hne _ => upSafe_of_entry hslot hframe hne
    · rw [World.ppRef, hmem, setWord_pages, incref_ppRef, if_pos rfl]
      rfl
  | some q =>
    have hpresent := present_of_ref hp
    have hq : pgnum (a.view (pteSlot e va)) = q := by
      rw [ref_eq, frameOf, if_pos hpresent] at hp
      exact Option.some.inj hp
    by_cases hsame : q = pp
    · subst hsame
      have hacc : Account a ⟨a.root, a.mem, a.free⟩ (a.ref (pteSlot e va))
          (frameOf (page2pa q ||| perm ||| pteP)) := by
        rw [hp, hframe]
        exact .keep _ rfl (fun _ => rfl) rfl
      obtain ⟨hchange, hslot⟩ := change_setWord hsep hw ht rfl rfl hsep.freeList hacc
        (fun r hr => Option.mem_unique hframe hr ▸ hpp.pool)
        (fun r hr => Option.mem_unique hframe hr ▸ hpp.notTable)
      refine ⟨⟨a.root, a.mem.setWord (t, ptx va) (page2pa q ||| perm ||| pteP), a.free⟩, ?_,
        rfl, .single hchange ⟨⟨.inr ⟨rfl, .inr hslot⟩, fun h => absurd (hp.symm.trans h) ?_⟩,
          fun _ _ h => absurd (hp.symm.trans h) ?_⟩,
        Nat.le_add_right _ _, hslot, fun h => absurd (hp.symm.trans h) (by simp)⟩
      · simp only [pageInsert, hwalk, Option.bind_eq_bind, Option.bind_some, hword,
          if_pos hpresent, if_pos ((pteAddr_eq_page2pa_iff hlt).mpr hq)]
        rfl
      · simp
      · simp
    · obtain ⟨b, hremove, hroot, hroom, hdrop, hzero⟩ :=
        pageRemove_present hsep hw hp (hold q hp)
      have hnone : b.ref (pteSlot e va) = none := by rw [ref_eq, hzero, frameOf_zero]
      have ht' : b.ref (pdeSlot e va) = some t :=
        (hdrop.rest_ref hw.rooted.pde_tracked (by simp)).trans ht
      have hpp' : Insertable L b pp := hpp.change hdrop
        (fun h => hsame (Option.mem_unique hp h)) (by simp [hnone])
      obtain ⟨c, hmem, hroot', hfree, hshare, hslot⟩ :=
        change_share (hdrop.separated hsep) (hw.congr hroot) ht' hnone hpp' hperm
      have hempty : a.ref (pteSlot e va) ≠ none := by simp [hp]
      refine ⟨c, ?_, hroot'.trans hroot, ?_, (hfree ▸ hroom).trans (Nat.le_add_right _ _),
        hslot, fun h => absurd (hp.symm.trans h) (by simp)⟩
      · rw [hmem]
        simp only [pageInsert, hwalk, Option.bind_eq_bind, Option.bind_some, hword,
          if_pos hpresent, if_neg (fun h => hsame (hq.symm.trans
            ((pteAddr_eq_page2pa_iff hlt).mp h))), hremove]
        rfl
      · refine (Run.single hdrop ⟨⟨.inr ⟨rfl, .inl hzero⟩, fun h => absurd h hempty⟩,
          fun _ _ h => absurd h hempty⟩).step hshare
          ⟨⟨.inr ⟨rfl, .inr hslot⟩, fun h => absurd h hempty⟩, fun hne _ => ?_⟩
        have hacc := hdrop.account
        rw [hp, hnone] at hacc
        cases hacc with
        | drop _ _ _ href _ =>
          refine upSafe_of_entry hslot hframe ?_
          rw [href, if_neg (Ne.symm hsame), sub_zero]
          exact hne

theorem pageInsert_noMem (pp : Nat) (perm : Word) (hsep : Separated L a) (hw : Walkable L a e d va)
    (ht : a.ref (pdeSlot e va) = none) (hfree : a.free = []) :
    pageInsert d pp va perm a.mem = some (-eNoMem, a.mem) := by
  simp [pageInsert, pgdirWalk_noMem hsep hw.rooted ht hfree]

theorem pageInsert_spec (hsep : Separated L a) (hw : Walkable L a e d va) (hpp : Insertable L a pp)
    (hperm : perm.toNat < 4096) (hfresh : ∀ p ∈ a.free, ∀ s ∈ L.tracked, a.ref s ≠ some p) :
    (a.free = [] ∧ a.ref (pdeSlot e va) = none ∧
      pageInsert d pp va perm a.mem = some (-eNoMem, a.mem)) ∨
    ∃ b, Inserted L e d pp va perm a b := by
  have hold : ∀ q, a.ref (pteSlot e va) = some q → q ∉ a.free :=
    fun q hq hmem => hfresh q hmem _ hw.tracked hq
  cases ht : a.ref (pdeSlot e va) with
  | some t => exact .inr (pageInsert_table hsep hw ht hpp hperm hold)
  | none =>
    cases hfree : a.free with
    | nil => exact .inl ⟨rfl, rfl, pageInsert_noMem _ _ hsep hw ht hfree⟩
    | cons p l =>
      have hpfresh := hfresh p (by simp [hfree])
      obtain ⟨b, hwalk, hroot, hfree', htake, ht', hentry⟩ :=
        pgdirWalk_take hsep hw.rooted ht hfree hpfresh
      have hsep' := htake.separated hsep
      have hw' := hw.congr hroot
      have hempty : a.ref (pteSlot e va) = none := ref_pte_none ht
      have hempty' : b.ref (pteSlot e va) = none :=
        (htake.rest_ref hw.tracked (by simp)).trans hempty
      have hne : p ≠ pp := fun heq => hpp.notFree (by simp [hfree, heq])
      have hpp' : Insertable L b pp := hpp.change htake (by simp [ht])
        (fun q hq => by rw [ht'] at hq; exact Option.some.inj hq ▸ hne)
      obtain ⟨c, hc⟩ := pageInsert_table hsep' hw' ht' hpp' hperm (by simp [hempty'])
      have hup : CountUp a b p := by
        have hacc := htake.account
        rw [ht, ht'] at hacc
        cases hacc with
        | take _ _ hup => exact hup
        | share _ _ _ hup => exact hup
      have hkeep : ∀ q, q ≠ p → b.ppRef q = a.ppRef q := fun q hq => by
        rw [hup.ppRef, if_neg hq, add_zero]
      refine .inr ⟨c, ?_, hc.root.trans hroot, ?_, ?_, hc.entry, fun _ => ?_⟩
      · have hresult := hc.result
        rw [pageInsert, pgdirWalk_present hsep' hw'.rooted ht'] at hresult
        rw [pageInsert, hwalk]
        exact hresult
      · refine (Run.single htake ⟨⟨.inl ⟨rfl, ht, p, hentry⟩, fun _ => ht⟩,
          fun _ hfreeNe _ q hq => Option.mem_unique ht' hq ▸ hfreeNe p (by simp [hfree])⟩).trans ?_
        refine hc.run.mono fun x s y h => ⟨⟨h.1.slot, fun _ => h.1.empty hempty'⟩,
          fun hneq hfreeNe => h.2 (by rwa [hkeep pp hne.symm]) fun q hq => ?_⟩
        have hnodup := hsep.freeList.nodup
        rw [hfree, List.nodup_cons] at hnodup
        rw [hfree'] at hq
        rw [hkeep q fun heq => hnodup.1 (heq ▸ hq)]
        exact hfreeNe q (by simp [hfree, hq])
      · have hroom := hc.room
        rw [ht', if_neg (by simp), hfree'] at hroom
        rw [if_pos ht, hfree, List.length_cons]
        exact Nat.succ_le_succ hroom
      · rw [hc.count hempty', hkeep pp hne.symm]

end Mit6828.Kern.PageTableSpec
