import Mit6828.Kern.PageTableSpec
import Mit6828.Library.RefCount

namespace Mit6828.Kern.PageMap

open Mmu Pmap Separation PageTableSpec Library Library.RefCount

/-- `PGNUM(UTOP)`: the number of virtual pages below `UTOP`. -/
@[grind unfold]
def pgnumUtop : Nat := pdxUtop * nptentries

def pageMap (pgdir : Nat) (m : Mem) (vpn : Nat) : Option (Nat × Word) :=
  (pteRef (m.phys pgdir (vpn / 1024))).bind fun t => pteRef (m.phys t.1 (vpn % 1024))

def lowSlots (dirs : Finset Nat) : Set Slot :=
  fun s => s.owner ∈ dirs ∧ match s with
    | .dir _ => True
    | .pde _ i => i < pdxUtop
    | .pte _ i j => i < pdxUtop ∧ j < nptentries

def lowLayout (dirs : Finset Nat) (npages : Nat) (h : npages ≤ 1048576) : Layout where
  tracked := lowSlots dirs
  viewed := lowSlots dirs
  tracked_subset := subset_rfl
  pde_of_pte h := ⟨h.1, h.2.1⟩
  dir_of_pde h := ⟨h.1, trivial⟩
  npages := npages
  pool := {p | p < npages}
  pinned := ∅
  npages_le := h
  pool_lt _ hp := hp

def worldOf (m : Mem) (free : List Nat) : World := ⟨fun e => rootWord (some e), m, free⟩

/-- Page-table pages are pairwise distinct, and distinct from mapped and from free pages. -/
structure Distinct (dirs : Finset Nat) (m : Mem) (free : List Nat) : Prop where
  npages_le : m.npages ≤ 1048576
  dir_lt : ∀ d ∈ dirs, d < 1048576
  separated : Separated (lowLayout dirs m.npages npages_le) (worldOf m free)

def IsTablePage (dirs : Finset Nat) (m : Mem) (p : Nat) : Prop :=
  ∃ s ∈ lowSlots dirs, s.IsTable ∧ (worldOf m []).ref s = some p

variable {dirs : Finset Nat} {m : Mem} {free : List Nat} {d p vpn i : Nat} {va : Word}

theorem view_pde_worldOf (free : List Nat) (hd : d < 1048576) (i : Nat) :
    (worldOf m free).view (.pde d i) = m.phys d i :=
  view_pde_of_root (frameOf_rootWord hd)

theorem pageMap_eq (free : List Nat) (hd : d < 1048576) (vpn : Nat) :
    pageMap d m vpn = pteRef ((worldOf m free).view (.pte d (vpn / 1024) (vpn % 1024))) := by
  have hview : (worldOf m free).view (.pte d (vpn / 1024) (vpn % 1024)) =
      PageTable.deref frameOf m.phys (m.phys d (vpn / 1024)) (vpn % 1024) := by
    rw [← view_pde_worldOf free hd]
    rfl
  rw [hview, pageMap, pteRef_eq_frameOf]
  cases h : frameOf (m.phys d (vpn / 1024)) with
  | none =>
    rw [PageTable.deref_none h, pteRef_zero]
    rfl
  | some t =>
    rw [PageTable.deref_some h]
    rfl

def vpnSlot (d vpn : Nat) : Slot := .pte d (vpn / 1024) (vpn % 1024)

theorem vpnSlot_mem (hd : d ∈ dirs) (hvpn : vpn < pgnumUtop) : vpnSlot d vpn ∈ lowSlots dirs := by
  refine ⟨hd, ?_, Nat.mod_lt _ (by decide)⟩
  grind

theorem vpnSlot_eq_iff {d' : Nat} : vpnSlot d' vpn = pteSlot d va ↔ d' = d ∧ vpn = pgnum va := by
  rw [vpnSlot, pteSlot, PageTable.Slot.pte.injEq, pgnum_eq_pdx_ptx]
  have := ptx_lt va
  omega

theorem pgnum_lt_pgnumUtop (hva : va < utop) : pgnum va < pgnumUtop := by
  have hlt : va.toNat < utop.toNat := hva
  grind

theorem walkable (h : Distinct dirs m free) (hd : d ∈ dirs) (hva : va < utop) :
    Walkable (lowLayout dirs m.npages h.npages_le) (worldOf m free) d d va where
  root := frameOf_rootWord (h.dir_lt d hd)
  tracked := ⟨hd, pdx_lt_pdxUtop hva, ptx_lt va⟩
  unpinned := ⟨id, id⟩

/-- The map of `d` has `o` at the page of `va`, and there is no other change below `UTOP`. -/
def Remaps (dirs : Finset Nat) (d : Nat) (va : Word) (o : Option (Nat × Word)) (m m' : Mem) :
    Prop :=
  ∀ d' ∈ dirs, ∀ vpn < pgnumUtop, pageMap d' m' vpn =
    if d' = d ∧ vpn = pgnum va then o else pageMap d' m vpn

theorem pageMap_of_view (hdirs : ∀ d ∈ dirs, d < 1048576) (d : Nat) (va : Word) {a b : World}
    (ha : a.root = fun e => rootWord (some e)) (hb : b.root = fun e => rootWord (some e))
    (hview : ∀ d' ∈ dirs, ∀ vpn < pgnumUtop, vpnSlot d' vpn ≠ pteSlot d va →
      b.view (vpnSlot d' vpn) = a.view (vpnSlot d' vpn)) :
    Remaps dirs d va (pteRef (b.view (pteSlot d va))) a.mem b.mem := by
  have hmap : ∀ x : World, x.root = (fun e => rootWord (some e)) → ∀ d' ∈ dirs, ∀ vpn,
      pageMap d' x.mem vpn = pteRef (x.view (vpnSlot d' vpn)) := by
    rintro ⟨root, m, free⟩ rfl d' hd' vpn
    exact pageMap_eq free (hdirs d' hd') vpn
  intro d' hd' vpn hvpn
  rw [hmap b hb d' hd', hmap a ha d' hd']
  by_cases hslot : d' = d ∧ vpn = pgnum va
  · rw [if_pos hslot, vpnSlot_eq_iff.mpr hslot]
  · rw [if_neg hslot, hview d' hd' vpn hvpn fun heq => hslot (vpnSlot_eq_iff.mp heq)]

def mapSlots (dirs : Finset Nat) : Finset Slot :=
  (dirs ×ˢ Finset.range pgnumUtop).image fun x => vpnSlot x.1 x.2

theorem mapSlots_tracked : ∀ t ∈ mapSlots dirs, t ∈ lowSlots dirs := by
  intro t ht
  obtain ⟨x, hx, rfl⟩ := Finset.mem_image.mp ht
  exact vpnSlot_mem (Finset.mem_product.mp hx).1 (Finset.mem_range.mp (Finset.mem_product.mp hx).2)

theorem lowSlots_mapSlots {j : Nat} (hs : .pte d i j ∈ lowSlots dirs) :
    .pte d i j ∈ mapSlots dirs := by
  obtain ⟨hd, hi, hj⟩ := hs
  refine Finset.mem_image.mpr ⟨(d, i * nptentries + j), Finset.mem_product.mpr ⟨hd, ?_⟩, ?_⟩
  · rw [Finset.mem_range]
    grind
  · rw [vpnSlot]
    congr 1 <;> grind

/-- The reference count of a page covers the slots that map it, and that of a free page is 0. -/
structure Covers (slots : Finset Slot) (a : World) : Prop where
  count : ∀ p, refCount slots a.ref p ≤ (a.ppRef p).toNat
  free : ∀ p ∈ a.free, a.ppRef p = 0

theorem Covers.change {L : Layout} {slots : Finset Slot} {a b : World} {s : Slot}
    (h : Covers slots a) (hsep : Separated L a) (hc : Change L s a b)
    (hslots : ∀ t ∈ slots, t ∈ L.tracked) (hup : UpSafe a s b) (hold : s ∉ slots → a.ref s = none) :
    Covers slots b := by
  have hrefs : ∀ p, refCount slots b.ref p + (if a.ref s = some p then 1 else 0) ≤
      refCount slots a.ref p + if b.ref s = some p then 1 else 0 := by
    intro p
    by_cases hs : s ∈ slots
    · exact (refCount_of_update hs fun t ht hne => hc.rest_ref (hslots t ht) hne).le
    · rw [hold hs, if_neg (by simp), refCount_congr fun t ht =>
        hc.rest_ref (hslots t ht) fun heq => hs (heq ▸ ht)]
      exact Nat.le_add_right _ _
  have hcount := h.count
  have hacc := hc.account
  unfold UpSafe at hup
  generalize a.ref s = o, b.ref s = o' at hacc hup hrefs
  have hgrow : ∀ p, a.ppRef p ≠ 0xFFFF → (∀ q, b.ppRef q = a.ppRef q + if q = p then 1 else 0) →
      (∀ q, refCount slots b.ref q ≤ refCount slots a.ref q + if q = p then 1 else 0) →
      ∀ q, refCount slots b.ref q ≤ (b.ppRef q).toNat := by
    intro p hne href hle q
    have hq := hcount q
    have hle := hle q
    rw [href]
    by_cases heq : q = p
    · subst heq
      rw [if_pos rfl] at hle ⊢
      bv_omega
    · rw [if_neg heq] at hle ⊢
      rw [add_zero] at hle ⊢
      exact hle.trans hq
  cases hacc with
  | keep _ hfree href _ =>
    refine ⟨fun p => ?_, fun p hp => (href p).trans (h.free p (hfree ▸ hp))⟩
    have := hcount p
    have := hrefs p
    rw [href]
    omega
  | take p hfree hcu =>
    have hnodup := hsep.freeList.nodup
    rw [hfree, List.nodup_cons] at hnodup
    refine ⟨hgrow p (hup rfl p rfl) hcu.ppRef fun q => by simpa [eq_comm] using hrefs q, ?_⟩
    intro q hq
    rw [hcu.ppRef, if_neg fun heq : q = p => hnodup.1 (heq ▸ hq), h.free q (by simp [hfree, hq])]
    rfl
  | share p hp hfree hcu =>
    refine ⟨hgrow p (hup rfl p rfl) hcu.ppRef fun q => by simpa [eq_comm] using hrefs q, ?_⟩
    intro q hq
    rw [hfree] at hq
    rw [hcu.ppRef, if_neg fun heq : q = p => hp (heq ▸ hq), h.free q hq]
    rfl
  | drop p hp hfree href _ =>
    constructor
    · intro q
      have hq := hcount q
      have hle := hrefs q
      rw [href]
      by_cases heq : q = p
      · subst heq
        simp only [if_true, reduceCtorEq, if_false] at hle ⊢
        bv_omega
      · rw [if_neg (fun h => heq (Option.some.inj h).symm), if_neg (by simp)] at hle
        rw [if_neg heq, sub_zero]
        exact hle.trans hq
    · intro q hq
      rw [href]
      rw [hfree] at hq
      split at hq
      · next hlast =>
        by_cases heq : q = p
        · rw [if_pos heq, heq, hlast]
        · rw [if_neg heq, h.free q ((List.mem_cons.mp hq).resolve_left heq)]
          rfl
      · rw [if_neg fun heq : q = p => hp (heq ▸ hq), h.free q hq]
        rfl

def Covered (dirs : Finset Nat) (m : Mem) (free : List Nat) : Prop :=
  Covers (mapSlots dirs) (worldOf m free)

theorem covered_of_root {b : World} (hroot : b.root = fun e => rootWord (some e))
    (hb : Covers (mapSlots dirs) b) : Covered dirs b.mem b.free := by
  obtain ⟨root, m, free⟩ := b
  subst hroot
  exact hb

theorem distinct_of_separated {npages : Nat} {hle : npages ≤ 1048576} {b : World}
    (hb : Separated (lowLayout dirs npages hle) b) (hroot : b.root = fun e => rootWord (some e))
    (hdirs : ∀ d ∈ dirs, d < 1048576) : Distinct dirs b.mem b.free := by
  obtain ⟨root, m, free⟩ := b
  subst hroot
  obtain rfl : m.npages = npages := hb.npages
  exact ⟨hle, hdirs, hb⟩

section

variable (h : Distinct dirs m free) (hcov : Covered dirs m free)
include h hcov

theorem free_unreferenced : ∀ p ∈ free, ∀ s ∈ lowSlots dirs, (worldOf m free).ref s ≠ some p := by
  intro p hmem s hs hp
  cases s with
  | pte d i j =>
    have hzero : refCount (mapSlots dirs) (worldOf m free).ref p ≤ 0 := by
      have hle := hcov.count p
      rwa [hcov.free p hmem] at hle
    refine refCount_eq_zero_iff.mp (Nat.le_zero.mp hzero) _ (lowSlots_mapSlots hs) hp
  | dir d => exact h.separated.table_notFree _ hs trivial p hp hmem
  | pde d i => exact h.separated.table_notFree _ hs trivial p hp hmem

theorem pageInsert_pageMap (hd : d ∈ dirs) (hva : va < utop) {pp : Nat} {perm : Word}
    (hpp : pp < m.npages) (hnotFree : pp ∉ free) (hnotTable : ¬ IsTablePage dirs m pp)
    (href : (m.pages pp).ppRef ≠ 0xFFFF) (hperm : perm.toNat < 4096) :
    ∃ r m' free', pageInsert d pp va perm m = some (r, m') ∧
      Distinct dirs m' free' ∧ Covered dirs m' free' ∧
      (r = 0 ∧ Remaps dirs d va (some (pp, perm ||| pteP)) m m' ∨
        r = -eNoMem ∧ ∀ d' ∈ dirs, ∀ vpn < pgnumUtop, pageMap d' m' vpn = pageMap d' m vpn) := by
  have hsep := h.separated
  have hw := walkable h hd hva
  have hins : Insertable (lowLayout dirs m.npages h.npages_le) (worldOf m free) pp :=
    ⟨hpp, hnotFree, fun s hs htable hp => hnotTable ⟨s, hs, htable, hp⟩⟩
  obtain ⟨-, -, hresult⟩ | ⟨b, hb⟩ := pageInsert_spec hsep hw hins hperm
    (free_unreferenced h hcov)
  · exact ⟨_, m, free, hresult, h, hcov, .inr ⟨rfl, fun _ _ _ _ => rfl⟩⟩
  have hfree : ∀ p ∈ (worldOf m free).free, (worldOf m free).ppRef p ≠ 0xFFFF := by
    intro p hp
    rw [World.ppRef, show ((worldOf m free).mem.pages p).ppRef = 0 from hcov.free p hp]
    decide
  have hcovers := hb.run.invariant
    (I := fun x => Separated (lowLayout dirs m.npages h.npages_le) x ∧
      Covers (mapSlots dirs) x)
    (fun x s y hx hc hstep => ⟨hc.separated hx.1, hx.2.change hx.1 hc mapSlots_tracked
      (hstep.2 href hfree) fun hs => ?_⟩) ⟨hsep, hcov⟩
  · have hmap := pageMap_of_view h.dir_lt d va rfl hb.root
      fun d' hd' vpn hvpn hne => hb.run.view_eq (vpnSlot_mem hd' hvpn) fun x s y hstep => by
        refine ⟨?_, .inl (vpnSlot_mem hd' hvpn)⟩
        rcases hstep.1.slot with ⟨rfl, -⟩ | ⟨rfl, -⟩
        · simp [vpnSlot]
        · exact hne
    rw [hb.entry, pteRef_page2pa_or (lt_of_lt_of_le hpp h.npages_le) hperm] at hmap
    exact ⟨0, b.mem, b.free, hb.result, distinct_of_separated hcovers.1 hb.root h.dir_lt,
      covered_of_root hb.root hcovers.2, .inl ⟨rfl, hmap⟩⟩
  · rcases hstep.1.slot with ⟨rfl, hnone, -⟩ | ⟨rfl, -⟩
    · exact hnone
    · exact absurd (lowSlots_mapSlots hw.tracked) hs

theorem pageRemove_pageMap (hd : d ∈ dirs) (hva : va < utop) :
    ∃ m' free', pageRemove d va m = some m' ∧ Distinct dirs m' free' ∧ Covered dirs m' free' ∧
      Remaps dirs d va none m m' := by
  have hsep := h.separated
  have hw := walkable h hd hva
  cases hp : (worldOf m free).ref (pteSlot d va) with
  | none =>
    have hmap := pageMap_of_view h.dir_lt d va (a := worldOf m free) (b := worldOf m free)
      rfl rfl fun _ _ _ _ _ => rfl
    rw [pteRef_eq_frameOf, ← ref_eq, hp] at hmap
    exact ⟨m, free, pageRemove_absent hsep hw hp, h, hcov, hmap⟩
  | some p =>
    obtain ⟨b, hresult, hroot, -, hchange, hzero⟩ := pageRemove_present hsep hw hp
      (fun hmem => free_unreferenced h hcov p hmem _ hw.tracked hp)
    have hmap := pageMap_of_view h.dir_lt d va rfl hroot
      fun d' hd' vpn hvpn hne => hchange.rest _ (vpnSlot_mem hd' hvpn) hne
        (.inl (vpnSlot_mem hd' hvpn))
    rw [hzero, pteRef_zero] at hmap
    have hcovers := Covers.change hcov hsep hchange mapSlots_tracked
      (fun hnone => absurd (hp.symm.trans hnone) (by simp))
      (fun hs => absurd (lowSlots_mapSlots hw.tracked) hs)
    exact ⟨b.mem, b.free, hresult, distinct_of_separated (hchange.separated hsep) hroot h.dir_lt,
      covered_of_root hroot hcovers, hmap⟩

end

theorem pageLookup_pageMap (h : Distinct dirs m free) (hd : d ∈ dirs) (hva : va < utop) :
    ∃ r, pageLookup d va m = some r ∧
      r.map Prod.fst = (pageMap d m (pgnum va)).map Prod.fst := by
  have hslot : PageTable.Slot.pte d (pgnum va / 1024) (pgnum va % 1024) = pteSlot d va :=
    vpnSlot_eq_iff.mpr ⟨rfl, rfl⟩
  have hmap : (pageMap d m (pgnum va)).map Prod.fst = (worldOf m free).ref (pteSlot d va) := by
    rw [pageMap_eq free (h.dir_lt d hd), hslot, pteRef_eq_frameOf, ref_eq, Option.map_map]
    exact Option.map_id'
  rw [hmap]
  obtain ⟨hp, hlookup⟩ | ⟨p, t, hp, -, hlookup⟩ :=
    pageLookup_spec h.separated (walkable h hd hva)
  · exact ⟨none, hlookup, hp.symm⟩
  · exact ⟨some (p, t, ptx va), hlookup, hp.symm⟩

/-- The page table functions are operations on the maps of the directories: `page_insert`
updates one point of one map or, out of memory, none; `page_remove` erases one point;
`page_lookup` applies the map.  The page to insert is one in use that is no page-table
page, since `page_insert` may turn the first free page into a page table, and the counts
cover the mappings, since `page_remove` frees a page with its last count. -/
theorem page_functions_refine_pageMap (h : Distinct dirs m free) (hcov : Covered dirs m free)
    (hd : d ∈ dirs) (hva : va < utop) :
    (∀ pp perm, pp < m.npages → pp ∉ free → ¬ IsTablePage dirs m pp →
      (m.pages pp).ppRef ≠ 0xFFFF → perm.toNat < 4096 →
      ∃ r m' free', pageInsert d pp va perm m = some (r, m') ∧
        Distinct dirs m' free' ∧ Covered dirs m' free' ∧
        (r = 0 ∧ Remaps dirs d va (some (pp, perm ||| pteP)) m m' ∨
          r = -eNoMem ∧
            ∀ d' ∈ dirs, ∀ vpn < pgnumUtop, pageMap d' m' vpn = pageMap d' m vpn)) ∧
    (∃ m' free', pageRemove d va m = some m' ∧ Distinct dirs m' free' ∧ Covered dirs m' free' ∧
      Remaps dirs d va none m m') ∧
    ∃ r, pageLookup d va m = some r ∧
      r.map Prod.fst = (pageMap d m (pgnum va)).map Prod.fst :=
  ⟨fun _ _ hpp hnotFree hnotTable href hperm =>
      pageInsert_pageMap h hcov hd hva hpp hnotFree hnotTable href hperm,
    pageRemove_pageMap h hcov hd hva, pageLookup_pageMap h hd hva⟩

/-- Sixteen pages.  Page 1 is a directory with page 2 as its first table, which maps page 5 at
the first `n` page numbers although `pp_ref` of page 5 is 1; page 3 is free. -/
def smallMem (n : Nat) : Mem where
  npages := 16
  pages p := { ppLink := none, ppRef := if p = 5 then 1 else 0 }
  pageFreeList := some 3
  phys p i := if p = 1 ∧ i = 0 then 0x2007 else if p = 2 ∧ i < n then 0x5007 else 0
  wrapped := false

theorem smallMem_ref {n : Nat} {s : Slot} (hs : s ∈ lowSlots {1})
    (hp : (worldOf (smallMem n) free).ref s = some p) :
    s = .dir 1 ∧ p = 1 ∨ s = .pde 1 0 ∧ p = 2 ∨ ∃ j < n, s = .pte 1 0 j ∧ p = 5 := by
  have hpde : ∀ i, (worldOf (smallMem n) free).ref (.pde 1 i) = if i = 0 then some 2 else none := by
    intro i
    rw [ref_eq, view_pde_worldOf free (by decide), smallMem]
    by_cases hi : i = 0
    · simp only [hi, and_self, if_true]
      rfl
    · simp only [hi, and_false, if_false, Nat.reduceEqDiff, false_and, frameOf_zero]
  cases s with
  | dir d =>
    obtain rfl := Finset.mem_singleton.mp hs.1
    exact .inl ⟨rfl, Option.mem_unique hp (frameOf_rootWord (by decide))⟩
  | pde d i =>
    obtain rfl := Finset.mem_singleton.mp hs.1
    rw [hpde] at hp
    grind
  | pte d i j =>
    obtain rfl := Finset.mem_singleton.mp hs.1
    by_cases hi : i = 0
    · subst hi
      rw [ref_eq, view_pte_of_ref ((hpde 0).trans (if_pos rfl))] at hp
      by_cases hj : j < n
      · simp only [worldOf, smallMem, hj, Nat.reduceEqDiff, false_and, and_self, if_false,
          if_true] at hp
        exact .inr (.inr ⟨j, hj, rfl, (Option.some.inj hp).symm⟩)
      · simp only [worldOf, smallMem, hj, Nat.reduceEqDiff, false_and, and_false, if_false,
          frameOf_zero, reduceCtorEq] at hp
    · rw [ref_eq, view_pte_of_absent ((hpde i).trans (if_neg hi)), frameOf_zero] at hp
      cases hp

theorem smallMem_distinct (n : Nat) : Distinct {1} (smallMem n) [3] := by
  refine ⟨(by decide : 16 ≤ 1048576), by simp, rfl,
    ⟨⟨rfl, rfl⟩, List.nodup_singleton 3, fun _ _ => rfl⟩,
    by simp [worldOf, lowLayout, smallMem], ?_, ?_, ?_, ?_⟩
  · intro s hs htable s' hs' p hp hp'
    have := smallMem_ref hs hp
    have := smallMem_ref hs' hp'
    grind [PageTable.Slot.IsTable]
  · intro s hs htable p hp
    have := smallMem_ref hs hp
    simp only [worldOf, List.mem_singleton]
    grind
  · intro s hs p hp
    have := smallMem_ref hs hp
    show p < 16
    grind
  · intro s hs _ p hp
    have := smallMem_ref hs hp
    show p < 16
    grind

theorem smallMem_covered : Covered {1} (smallMem 1) [3] := by
  refine ⟨fun p => ?_, by simp [worldOf, World.ppRef, smallMem]⟩
  have hmap : ∀ s ∈ mapSlots {1}, (worldOf (smallMem 1) [3]).ref s = some p →
      s = .pte 1 0 0 ∧ p = 5 := by
    intro s hs hp
    obtain ⟨x, -, rfl⟩ := Finset.mem_image.mp hs
    have := smallMem_ref (mapSlots_tracked _ hs) hp
    grind [vpnSlot]
  by_cases hp : p = 5
  · rw [show ((worldOf (smallMem 1) [3]).ppRef p).toNat = 1 by rw [hp]; rfl, refCount,
      Finset.card_le_one]
    intro s hs t ht
    rw [Finset.mem_filter] at hs ht
    exact (hmap s hs.1 hs.2).1.trans (hmap t ht.1 ht.2).1.symm
  · rw [refCount_eq_zero_iff.mpr fun s hs heq => hp (hmap s hs heq).2]
    exact Nat.zero_le _

/-- Page 6 takes the place of page 5 at address 0; and removing page 5 there frees it. -/
theorem page_functions_small :
    (∃ r m' free', pageInsert 1 6 0 7 (smallMem 1) = some (r, m') ∧ Distinct {1} m' free' ∧
      Covered {1} m' free') ∧
    pageMap 1 (smallMem 1) 0 = some (5, 7) ∧
    ∃ m' free', pageRemove 1 0 (smallMem 1) = some m' ∧ Distinct {1} m' free' ∧
      Covered {1} m' free' ∧ pageMap 1 m' 0 = none ∧ m'.pageFreeList = some 5 := by
  obtain ⟨hinsert, ⟨m', free', hremove, hdistinct, hcovered, hmap⟩, -⟩ :=
    page_functions_refine_pageMap (d := 1) (smallMem_distinct 1) smallMem_covered
      (by simp) (show (0 : Word) < utop by decide)
  have hnot : ¬ IsTablePage {1} (smallMem 1) 6 := by
    rintro ⟨s, hs, -, hp⟩
    have := smallMem_ref hs hp
    grind
  obtain ⟨r, m'', free'', hresult, hdistinct', hcovered', -⟩ := hinsert 6 7 (by decide) (by simp)
    hnot (by decide) (by decide)
  refine ⟨⟨r, m'', free'', hresult, hdistinct', hcovered'⟩, rfl, m', free', hremove, hdistinct,
    hcovered, hmap 1 (by simp) 0 (by decide), ?_⟩
  rw [← Option.some.inj hremove]
  rfl

/-- Inserting the page at the head of the free list makes it a page table and a mapped page
at once.  With page 5 mapped twice and counted once, `page_remove` frees it while it is
mapped, and inserting page 6 then makes page 5 a page table. -/
theorem page_functions_not_distinct : Distinct {1} (smallMem 2) [3] ∧
    (∃ m', pageInsert 1 3 0x400000 7 (smallMem 2) = some (0, m') ∧
      ¬ ∃ free', Distinct {1} m' free') ∧
    ∃ m', pageRemove 1 0 (smallMem 2) = some m' ∧ Distinct {1} m' [5, 3] ∧
      ¬ IsTablePage {1} m' 6 ∧
      ∃ m'', pageInsert 1 6 0x400000 7 m' = some (0, m'') ∧ ¬ ∃ free', Distinct {1} m'' free' := by
  have h := smallMem_distinct 2
  have hw := walkable (d := 1) h (by simp) (show (0 : Word) < utop by decide)
  obtain ⟨b, hresult, hroot, -, hchange, -⟩ := pageRemove_present h.separated hw
    (show (worldOf (smallMem 2) [3]).ref (pteSlot 1 0) = some 5 from rfl) (by simp [worldOf])
  have hdistinct := distinct_of_separated (hchange.separated h.separated) hroot h.dir_lt
  have hnot : ¬ IsTablePage {1} b.mem 6 := by
    rintro ⟨s, hs, htable, hp⟩
    have href : b.ref s = some 6 := by
      rw [World.ref, hroot]
      exact hp
    have hne : s ≠ pteSlot 1 0 := fun heq => (heq ▸ htable : (pteSlot 1 0).IsTable)
    rw [hchange.rest_ref hs hne] at href
    have := smallMem_ref hs href
    grind
  have hbad : ∀ m free p vpn, Distinct {1} m free → vpn < pgnumUtop →
      pteRef (m.phys 1 1) = some (p, 7) → pageMap 1 m vpn ≠ some (p, 7) := by
    intro m free p vpn h hvpn ht hp
    rw [pteRef_eq_frameOf, ← view_pde_worldOf free (by decide)] at ht
    rw [pageMap_eq free (by decide), pteRef_eq_frameOf] at hp
    obtain ⟨t, ht, heq⟩ := Option.map_eq_some_iff.mp ht
    obtain ⟨q, hq, heq'⟩ := Option.map_eq_some_iff.mp hp
    rw [(Prod.mk.inj heq).1] at ht
    rw [(Prod.mk.inj heq').1] at hq
    cases h.separated.exclusive (.pde 1 1) ⟨Finset.mem_singleton_self 1, by decide⟩ trivial _
      (vpnSlot_mem (Finset.mem_singleton_self 1) hvpn) p ht hq
  refine ⟨h, ⟨_, rfl, ?_⟩, _, rfl, ?_, ?_, _, rfl, ?_⟩
  · rintro ⟨free', h'⟩
    exact hbad _ _ 3 1024 h' (by decide) rfl rfl
  · rw [← Option.some.inj hresult] at hdistinct
    have hfree := hdistinct.separated.freeList.chain.unique
      (show IntrusiveList.Chain _ _ [5, 3] from ⟨rfl, rfl, rfl⟩)
    exact hfree ▸ hdistinct
  · rw [← Option.some.inj hresult] at hnot
    exact hnot
  · rintro ⟨free', h'⟩
    exact hbad _ _ 5 1 h' (by decide) rfl rfl

end Mit6828.Kern.PageMap
