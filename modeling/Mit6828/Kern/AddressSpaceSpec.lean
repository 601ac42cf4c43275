import Mit6828.Kern.EnvSpec

namespace Mit6828.Kern.AddressSpaceSpec

open Mmu Pmap AddressSpace Environment Separation PageTableSpec RefInvariant
open KernelInvariant PageCallSpec Library Function

variable {K : KernelMap} {k : Kernel} {free : List Nat} {e d n : Nat} {va pde pte x : Word}
  {m : Mem}

theorem translate_eq_some (h : translate d va m = some (pde, pte)) :
    pde = m.phys d (pdx va) ∧ pte = m.phys (pgnum pde) (ptx va) ∧ pde &&& pteP ≠ 0 ∧
      pte &&& pteP ≠ 0 := by
  simp only [AddressSpace.translate] at h
  split at h
  · rename_i hpresent
    cases h
    exact ⟨rfl, rfl, hpresent⟩
  · cases h

section

variable (h : Inv K k free) (he : e < nenv) (hd : (k.envs e).envPgdir = some d)
include h he hd

theorem pde_eq_view (i : Nat) : k.mem.phys d i = (world k free).view (.pde e i) :=
  (view_pde_of_root (a := world k free) (frameOf_rootOf h.env he hd)).symm

theorem translate_low (htr : translate d va k.mem = some (pde, pte)) :
    pde = (world k free).view (pdeSlot e va) ∧ pte = (world k free).view (pteSlot e va) ∧
      (world k free).ref (pteSlot e va) = some (pgnum pte) := by
  obtain ⟨hpde, hpte, hP, hP'⟩ := translate_eq_some htr
  rw [pde_eq_view h he hd] at hpde
  have href : (world k free).ref (pdeSlot e va) = some (pgnum pde) := by
    rw [ref_eq, ← hpde, frameOf, if_pos hP]
  have hview : (world k free).view (pteSlot e va) = pte := (view_pte_of_ref href).trans hpte.symm
  refine ⟨hpde, hview.symm, ?_⟩
  rw [ref_eq, hview, frameOf, if_pos hP']

theorem entry_upper
    (hlow : pdxUtop ≤ pdx va) (hne : pdx va ≠ pdxUvpt) (hP : k.mem.phys d (pdx va) &&& pteP ≠ 0) :
    k.mem.phys d (pdx va) = K.dirWord (pdx va) ∧
      k.mem.phys (pgnum (k.mem.phys d (pdx va))) (ptx va) = K.tableWord (pdx va) (ptx va) := by
  have hlt : pdx va < npdentries := by
    have := va.isLt
    grind
  have hword : k.mem.phys d (pdx va) = K.dirWord (pdx va) := by
    rw [pde_eq_view h he hd]
    exact h.mem.shaped.upper e he d (frameOf_rootOf h.env he hd) _ hlt hlow hne
  have href : (world k free).ref (.pde nenv (pdx va)) = some (pgnum (k.mem.phys d (pdx va))) := by
    rw [ref_eq, h.mem.shaped.kernDir _ hlt hne, ← hword, frameOf, if_pos hP]
  refine ⟨hword, ?_⟩
  rw [← h.mem.shaped.kernTable _ hlt hne _ (ptx_lt va)]
  exact (view_pte_of_ref href).symm

theorem translate_upper (hlow : pdxUtop ≤ pdx va) (hne : pdx va ≠ pdxUvpt)
    (htr : translate d va k.mem = some (pde, pte)) :
    pde = K.dirWord (pdx va) ∧ pte = K.tableWord (pdx va) (ptx va) := by
  obtain ⟨rfl, rfl, hP, -⟩ := translate_eq_some htr
  exact entry_upper h he hd hlow hne hP

theorem lt_utop_of_userMay (hmay : userMay d ⟨va, true⟩ k.mem) : va < utop := by
  obtain ⟨hulim, ⟨pde, pte⟩, htr, -, hU, hW⟩ := hmay
  obtain ⟨hWpde, hWpte⟩ := hW rfl
  have hlt : va.toNat < ulim.toNat := hulim
  by_contra hge
  have hutop : utop.toNat ≤ va.toNat := BitVec.not_lt.mp hge
  have hlow : pdxUtop ≤ pdx va := by grind
  have hhigh : pdx va ≤ pdxUvpt := by grind
  by_cases hne : pdx va = pdxUvpt
  · obtain ⟨hpde, -⟩ := translate_eq_some htr
    rw [pde_eq_view h he hd, hne, h.mem.shaped.self e he d (frameOf_rootOf h.env he hd)] at hpde
    rw [hpde] at hWpde
    refine hWpde (or_and_eq_zero_iff.mpr ⟨or_and_eq_zero_iff.mpr ⟨?_, by decide⟩, by decide⟩)
    exact page2pa_and_eq_zero (by decide) d
  · obtain ⟨-, hpte⟩ := translate_upper h he hd hlow hne htr
    rw [hpte] at hWpte
    exact hWpte (K.tableWord_readOnly _ (by omega) _)

end

structure Stored (K : KernelMap) (k : Kernel) (free : List Nat) (m : Mem) : Prop where
  inv : Inv K { k with mem := m } free
  wrapped : m.wrapped = k.mem.wrapped
  view : ∀ s ∈ viewedSlots, (world { k with mem := m } free).view s = (world k free).view s

theorem Stored.trans {m' : Mem} (h : Stored K k free m)
    (h' : Stored K { k with mem := m } free m') : Stored K k free m' :=
  ⟨h'.inv, h'.wrapped.trans h.wrapped, fun s hs => (h'.view s hs).trans (h.view s hs)⟩

theorem updatePage_stored (h : Inv K k free) {p : Nat}
    (hp : ∀ s ∈ K.layout.tracked, s.IsTable → (world k free).ref s ≠ some p) (page : Nat → Word) :
    Stored K k free { k.mem with phys := update k.mem.phys p page } := by
  have hview : ∀ s ∈ K.layout.viewed, (world { k with
      mem := { k.mem with phys := update k.mem.phys p page } } free).view s =
        (world k free).view s := by
    refine PageTable.view_congr fun s hs htable q hq => ?_
    have hne : q ≠ p := by
      rintro rfl
      exact hp s hs htable hq
    exact update_of_ne hne _ _
  have hl := h.mem.counted.separated.freeList
  refine ⟨⟨⟨h.mem.counted.congr rfl (hl.congr rfl fun _ => rfl) (fun _ => rfl) rfl
    (K.layout.ref_eq_of_view hview) ?_, h.mem.shaped.congr hview⟩, h.env.setMem _⟩, rfl, hview⟩
  exact fun q hq => ⟨h.mem.counted.separated.free_pool q hq, h.mem.counted.free_unref q hq⟩

theorem mem_addrs : x ∈ addrs va n ↔ ∃ i < n, x = va + BitVec.ofNat 32 i := by
  simp [addrs, eq_comm]

theorem mem_addrs_succ (h : x ∈ addrs (va + 1) n) : x ∈ addrs va (n + 1) := by
  obtain ⟨i, hi, rfl⟩ := mem_addrs.mp h
  refine mem_addrs.mpr ⟨i + 1, Nat.succ_lt_succ hi, ?_⟩
  rw [BitVec.ofNat_add, BitVec.add_assoc, BitVec.add_comm 1]
  rfl

def Storable (k : Kernel) (free : List Nat) (e : Nat) (va : Word) : Prop :=
  va < utop ∧ (world k free).view (pteSlot e va) &&& pteP ≠ 0 ∧
    (world k free).view (pteSlot e va) &&& pteW ≠ 0

section

variable (h : Inv K k free) (he : e < nenv) (hd : (k.envs e).envPgdir = some d)
include h he hd

theorem storeByte_stored (hva : va < utop) {b : Byte} (hs : storeByte d k.mem va b = some m) :
    Stored K k free m := by
  simp only [storeByte, Option.bind_eq_bind, Option.bind_eq_some_iff] at hs
  obtain ⟨⟨pde, pte⟩, htr, hs⟩ := hs
  split at hs
  · cases hs
    obtain ⟨-, -, href⟩ := translate_low h he hd htr
    have htracked : pteSlot e va ∈ K.layout.tracked :=
      pte_tracked.mpr ⟨he, pdx_lt_pdxUtop hva, ptx_lt va⟩
    exact updatePage_stored h (insertable_of_mapped h.mem htracked href).notTable _
  · cases hs

theorem storeBytes_stored {bs : List Byte} (hva : ∀ x ∈ addrs va bs.length, x < utop)
    (hs : storeBytes d k.mem va bs = some m) : Stored K k free m := by
  induction bs generalizing k va with
  | nil =>
    cases hs
    exact ⟨h, rfl, fun _ _ => rfl⟩
  | cons b bs ih =>
    simp only [storeBytes, Option.bind_eq_bind, Option.bind_eq_some_iff] at hs
    obtain ⟨m1, hstore, hrest⟩ := hs
    have hfirst := storeByte_stored h he hd
      (hva va (mem_addrs.mpr ⟨0, by simp, by simp⟩)) hstore
    exact hfirst.trans (ih (k := { k with mem := m1 }) hfirst.inv hd
      (fun x hx => hva x (mem_addrs_succ hx)) hrest)

theorem storeByte_returns (hva : Storable k free e va) (b : Byte) :
    ∃ m, storeByte d k.mem va b = some m := by
  obtain ⟨hlt, hP, hW⟩ := hva
  have hpde : IsTableEntry ((world k free).view (pdeSlot e va)) := by
    refine (h.mem.shaped.pde e he _ (pdx_lt_pdxUtop hlt)).resolve_left fun hzero => hP ?_
    rw [view_pte_of_absent (by rw [ref_eq, hzero, frameOf_zero])]
    exact BitVec.zero_and
  obtain ⟨hPpde, hWpde, -⟩ := hpde.flags
  have href : (world k free).ref (pdeSlot e va) =
      some (pgnum ((world k free).view (pdeSlot e va))) := by
    rw [ref_eq, frameOf, if_pos hPpde]
  rw [view_pte_of_ref href] at hP hW
  rw [← pde_eq_view h he hd] at hPpde hWpde hP hW
  have htr : translate d va k.mem = some (k.mem.phys d (pdx va),
      k.mem.phys (pgnum (k.mem.phys d (pdx va))) (ptx va)) := if_pos ⟨hPpde, hP⟩
  rw [storeByte, htr]
  exact ⟨_, if_pos ⟨hWpde, hW⟩⟩

theorem storeBytes_returns (bs : List Byte) (hva : ∀ x ∈ addrs va bs.length, Storable k free e x) :
    ∃ m, storeBytes d k.mem va bs = some m := by
  induction bs generalizing k va with
  | nil => exact ⟨k.mem, rfl⟩
  | cons b bs ih =>
    have hmem : va ∈ addrs va (b :: bs).length := mem_addrs.mpr ⟨0, by simp, by simp⟩
    obtain ⟨m1, hstore⟩ := storeByte_returns h he hd (hva va hmem) b
    have hfirst := storeByte_stored h he hd (hva va hmem).1 hstore
    obtain ⟨m, hrest⟩ := ih (k := { k with mem := m1 }) hfirst.inv hd fun x hx => by
      obtain ⟨hlt, hentry⟩ := hva x (mem_addrs_succ hx)
      refine ⟨hlt, ?_⟩
      rw [hfirst.view _ (pte_viewed.mpr ⟨.inl ⟨he, pdx_lt_pdxUtop hlt⟩, ptx_lt x⟩)]
      exact hentry
    exact ⟨m, by simp only [storeBytes, hstore, Option.bind_eq_bind, Option.bind_some, hrest]⟩

end

end Mit6828.Kern.AddressSpaceSpec
