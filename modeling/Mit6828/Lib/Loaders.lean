import Mit6828.Lib.SpawnProgress

namespace Mit6828.Lib.Loaders

open Kern.Mmu
open Mit6828.Lib.Fork (pteShare utext vaOf)
open Mit6828.Lib.ForkSteps (toNat_vaOf pgnum_vaOf toNat_pgoff)
open Spawn Library.ByteMemory Function

section Kernel

variable (mem : Nat → Bool)

/-- The entries that `region_alloc` makes: `PTE_W|PTE_U`, and `PTE_P` from `page_insert`. -/
def regionPte (page : Nat) : Pte := ⟨page, pteW ||| pteU ||| pteP, by decide, by decide⟩

/-- The loop of `region_alloc`; `page_alloc(0)` does not clear the page, and `none` is the panic. -/
def regionPages : Nat → Word → World → Option World
  | 0, _, w => some w
  | left + 1, va, w =>
    if mem w.calls then
      regionPages left (va + pgsize) (World.setPte { w.tick with next := w.next + 1 } .child
        (pgnum va) (some (regionPte w.next)))
    else none

/-- `region_alloc`, with the loop `for (; begin < end; begin += PGSIZE)`. -/
def regionAlloc (va len : Word) (w : World) : Option World :=
  let begin_ := rounddown va
  let end_ := roundup (va + len)
  regionPages mem (if begin_ < end_ then ((end_ - begin_) / pgsize).toNat else 0) begin_ w

def imageBytes (binary : Memory) (offset : Word) (n : Nat) : List Byte :=
  (List.range n).map fun k => binary (offset + BitVec.ofNat 32 k)

def loadSegments (binary : Memory) : List Proghdr → World → Option World
  | [], w => some w
  | ph :: phs, w =>
    if ph.pType = elfProgLoad then do
      let w ← regionAlloc mem ph.pVa ph.pMemsz w
      let w ← w.store .child ph.pVa.toNat (List.replicate ph.pMemsz.toNat 0)
      let w ← w.store .child ph.pVa.toNat (imageBytes binary ph.pOffset ph.pFilesz.toNat)
      loadSegments binary phs w
    else loadSegments binary phs w

/-- `load_icode`, with the image at address 0; the new environment is the child. -/
def loadIcode (binary : Memory) (w : World) : Option World :=
  if (elfAt binary 0).eMagic ≠ elfMagic then none
  else do
    let w ← loadSegments mem binary (proghdrs binary) w
    let w ← regionAlloc mem (ustacktop - pgsize) pgsize w
    let w ← w.store .child (ustacktop - pgsize).toNat (List.replicate pgsize.toNat 0)
    return { w with eip := (elfAt binary 0).eEntry }

end Kernel

/-- A loadable segment below the stack page and in the file. -/
structure Segment (content : List Byte) (ph : Proghdr) : Prop where
  size : content.length < 2 ^ 31
  below : ph.pVa.toNat + ph.pMemsz.toNat ≤ (ustacktop - pgsize).toNat
  sizes : ph.pFilesz.toNat ≤ ph.pMemsz.toNat
  offset : ph.pOffset.toNat % 4096 = ph.pVa.toNat % 4096
  inFile : ph.pOffset.toNat + ph.pFilesz.toNat ≤ content.length

/-- The loadable segments are on pages of their own; the table of program headers is anywhere in
the file. -/
structure WellFormed (content : List Byte) : Prop where
  size : content.length < 2 ^ 31
  header : 52 ≤ content.length
  magic : (headerOf content).eMagic = elfMagic
  table : (headerOf content).ePhoff.toNat + 32 * (headerOf content).ePhnum.toNat ≤ content.length
  segment : ∀ ph ∈ headersOf content, ph.pType = elfProgLoad → Segment content ph
  apart : (headersOf content).Pairwise fun ph ph' =>
    ph.pType = elfProgLoad → ph'.pType = elfProgLoad → ∀ p, Touches ph p → ¬ Touches ph' p

theorem Segment.le {content : List Byte} {ph : Proghdr} (h : Segment content ph) :
    ph.pVa.toNat + ph.pMemsz.toNat ≤ 4005548032 :=
  h.below

def segmentByte (content : List Byte) (ph : Proghdr) (k : Nat) : Byte :=
  if k < ph.pFilesz.toNat then content.getD (ph.pOffset.toNat + k) 0 else 0

section Stores

variable {w : World} {who : Who} {x : Nat} {bs : List Byte}

def Injective (s : Space) : Prop :=
  ∀ p q pte pte', s p = some pte → s q = some pte' → pte.page = pte'.page → p = q

theorem store_load (x : Nat) (bs : List Byte) (hinj : Injective (w.space who))
    (hmapped : ∀ y, x ≤ y → y < x + bs.length →
      ∃ pte, w.space who (y / 4096) = some pte ∧ pte.perm &&& pteW ≠ 0) :
    ∃ w', w.store who x bs = some w' ∧ w' = { w with phys := w'.phys } ∧
      ∀ y, w'.load who y = if x ≤ y ∧ y < x + bs.length then bs[y - x]? else w.load who y := by
  induction bs generalizing x w with
  | nil => exact ⟨w, rfl, rfl, fun y => (if_neg (by grind)).symm⟩
  | cons b bs ih =>
    rw [List.length_cons] at hmapped
    obtain ⟨pte, hpte, hwrite⟩ := hmapped x le_rfl (by omega)
    obtain ⟨w', hstore, heq, hload⟩ := ih (w := { w with
        phys := update w.phys pte.page (update (w.phys pte.page) (x % 4096) b) })
      (x + 1) (by rwa [space_setPhys])
      (fun y hlo hhi => by rw [space_setPhys]; exact hmapped y (by omega) (by omega))
    refine ⟨w', ?_, heq, fun y => ?_⟩
    · rw [World.store, hpte]
      dsimp only
      rw [if_pos hwrite, hstore]
    rw [hload y, List.length_cons]
    by_cases hy : y = x
    · subst hy
      rw [if_neg (by omega), if_pos (by omega), Nat.sub_self, World.load, space_setPhys, hpte]
      simp
    by_cases hin : x + 1 ≤ y ∧ y < x + 1 + bs.length
    · rw [if_pos hin, if_pos (by omega), show y - x = (y - (x + 1)) + 1 by omega]
      rfl
    rw [if_neg hin, if_neg (by omega), World.load, World.load, space_setPhys]
    cases hq : w.space who (y / 4096) with
    | none => rfl
    | some pte' =>
      simp only [Option.map_some]
      congr 1
      by_cases hpage : pte'.page = pte.page
      · have hsame := hinj _ _ _ _ hq hpte hpage
        rw [hpage, update_self, update_of_ne (by omega)]
      · rw [update_of_ne hpage]

end Stores

structure Private (w : World) : Prop where
  inj : Injective w.child
  own : ∀ p pte, w.child p = some pte → pte.page < w.next ∧ pte.perm &&& pteW ≠ 0

section Regions

variable {w : World} {va len : Word} {left : Nat}

theorem Private.setPhys (h : Private w) (phys : Nat → Nat → Byte) :
    Private { w with phys := phys } :=
  ⟨h.inj, h.own⟩

theorem Private.insert (h : Private w) (p : Nat) : Private (World.setPte { w.tick with
    next := w.next + 1 } .child p (some (regionPte w.next))) := by
  constructor
  · intro q q' pte pte' hq hq' hpage
    change update w.child p _ q = some pte at hq
    change update w.child p _ q' = some pte' at hq'
    by_cases hp : q = p
    · by_cases hp' : q' = p
      · rw [hp, hp']
      · rw [hp, update_self] at hq
        rw [update_of_ne hp'] at hq'
        cases hq
        exact absurd hpage (h.own q' pte' hq').1.ne'
    · rw [update_of_ne hp] at hq
      by_cases hp' : q' = p
      · rw [hp', update_self] at hq'
        cases hq'
        exact absurd hpage (h.own q pte hq).1.ne
      · rw [update_of_ne hp'] at hq'
        exact h.inj q q' pte pte' hq hq' hpage
  · intro q pte hq
    change update w.child p _ q = some pte at hq
    by_cases hp : q = p
    · rw [hp, update_self] at hq
      cases hq
      exact ⟨Nat.lt_succ_self _, by change (pteW ||| pteU ||| pteP) &&& pteW ≠ 0; decide⟩
    · rw [update_of_ne hp] at hq
      exact (h.own q pte hq).imp_left Nat.lt_succ_of_lt

def Extended (lo hi : Nat) (w w' : World) : Prop :=
  Private w' ∧ w'.phys = w.phys ∧ ∀ p, (lo ≤ p ∧ p < hi ∧ (w'.child p).isSome) ∨
    ¬ (lo ≤ p ∧ p < hi) ∧ w'.child p = w.child p

theorem regionPages_enough (h : Private w) (halign : va.toNat % 4096 = 0)
    (hend : va.toNat + 4096 * left ≤ 2 ^ 32) : ∃ w', regionPages enough left va w = some w' ∧
      Extended (va.toNat / 4096) (va.toNat / 4096 + left) w w' := by
  induction left generalizing va w with
  | zero => exact ⟨w, rfl, h, rfl, fun p => .inr ⟨by omega, rfl⟩⟩
  | succ left ih =>
    rw [regionPages, if_pos (show enough w.calls = true from rfl), pgnum_eq]
    rcases Nat.eq_zero_or_pos left with rfl | hpos
    · refine ⟨_, rfl, h.insert _, rfl, fun p => ?_⟩
      by_cases hp : p = va.toNat / 4096
      · refine .inl ⟨by omega, by omega, ?_⟩
        rw [hp]
        exact congrArg Option.isSome (update_self (va.toNat / 4096) _ w.child)
      · exact .inr ⟨by omega, update_of_ne hp ..⟩
    have hnext : (va + pgsize).toNat = va.toNat + 4096 := by
      rw [BitVec.toNat_add]
      change (va.toNat + 4096) % 4294967296 = _
      omega
    obtain ⟨w', hrun, hpriv, hphys, hpages⟩ := ih (h.insert (va.toNat / 4096))
      (show (va + pgsize).toNat % 4096 = 0 by omega) (by omega)
    refine ⟨w', hrun, hpriv, hphys, fun p => ?_⟩
    rcases hpages p with ⟨hlo, hhi, hsome⟩ | ⟨hnot, hsame⟩
    · exact .inl ⟨by omega, by omega, hsome⟩
    change w'.child p = update w.child (va.toNat / 4096) _ p at hsame
    by_cases hp : p = va.toNat / 4096
    · rw [hp, update_self] at hsame
      exact .inl ⟨by omega, by omega, by rw [hp, hsame]; rfl⟩
    · rw [update_of_ne hp] at hsame
      exact .inr ⟨by omega, hsame⟩

theorem regionAlloc_enough (h : Private w) (hend : va.toNat + len.toNat + 4096 < 2 ^ 32) :
    ∃ w', regionAlloc enough va len w = some w' ∧
      Extended (va.toNat / 4096) ((va.toNat + len.toNat + 4095) / 4096) w w' := by
  have hbegin := toNat_rounddown va
  obtain ⟨w', hrun, hext⟩ := regionPages_enough h (show (rounddown va).toNat % 4096 = 0 by omega)
    (show _ + 4096 * ((va.toNat + len.toNat + 4095) / 4096 - va.toNat / 4096) ≤ _ by omega)
  refine ⟨w', by rw [regionAlloc, pageCount (by omega), hrun], ?_⟩
  rw [hbegin, Nat.mul_div_cancel _ (by decide), Nat.add_sub_cancel' (by omega)] at hext
  exact hext

end Regions

section Segments

variable {binary : Memory} {w : World} {ph : Proghdr} {phs : List Proghdr} {k : Nat}

def binaryByte (binary : Memory) (ph : Proghdr) (k : Nat) : Byte :=
  if k < ph.pFilesz.toNat then binary (ph.pOffset + BitVec.ofNat 32 k) else 0

def Fits (ph : Proghdr) : Prop :=
  ph.pVa.toNat + ph.pMemsz.toNat + 4096 < 2 ^ 32 ∧ ph.pFilesz.toNat ≤ ph.pMemsz.toNat

theorem loadSegment_enough (binary : Memory) (h : Private w) (hfits : Fits ph) :
    ∃ w1 w2 w3, regionAlloc enough ph.pVa ph.pMemsz w = some w1 ∧
      w1.store .child ph.pVa.toNat (List.replicate ph.pMemsz.toNat 0) = some w2 ∧
      w2.store .child ph.pVa.toNat (imageBytes binary ph.pOffset ph.pFilesz.toNat) = some w3 ∧
      Private w3 ∧
      (∀ k < ph.pMemsz.toNat, w3.load .child (ph.pVa.toNat + k) = some (binaryByte binary ph k)) ∧
      ∀ y, ¬ Touches ph (y / 4096) → w3.load .child y = w.load .child y := by
  obtain ⟨hend, hsizes⟩ := hfits
  obtain ⟨w1, hregion, hpriv1, hphys1, hpages⟩ := regionAlloc_enough h hend
  have hmapped : ∀ y, ph.pVa.toNat ≤ y → y < ph.pVa.toNat + ph.pMemsz.toNat →
      ∃ pte, w1.child (y / 4096) = some pte ∧ pte.perm &&& pteW ≠ 0 := by
    intro y hlo hhi
    rcases hpages (y / 4096) with ⟨-, -, hsome⟩ | ⟨hnot, -⟩
    · obtain ⟨pte, hpte⟩ := Option.isSome_iff_exists.mp hsome
      exact ⟨pte, hpte, (hpriv1.own _ pte hpte).2⟩
    · omega
  obtain ⟨w2, hzero, heq2, hload2⟩ := store_load ph.pVa.toNat (List.replicate ph.pMemsz.toNat 0)
    (show Injective (w1.space .child) from hpriv1.inj)
    (by rw [List.length_replicate]; exact hmapped)
  have hchild2 : w2.child = w1.child := by rw [heq2]
  have hpriv2 : Private w2 := by
    rw [heq2]
    exact hpriv1.setPhys _
  have hlen : (imageBytes binary ph.pOffset ph.pFilesz.toNat).length = ph.pFilesz.toNat := by
    rw [imageBytes, List.length_map, List.length_range]
  obtain ⟨w3, hcopy, heq3, hload3⟩ := store_load ph.pVa.toNat
    (imageBytes binary ph.pOffset ph.pFilesz.toNat)
    (show Injective (w2.space .child) from hpriv2.inj) (by
      intro y hlo hhi
      rw [hlen] at hhi
      rw [show w2.space .child = w1.child from hchild2]
      exact hmapped y hlo (by omega))
  refine ⟨w1, w2, w3, hregion, hzero, hcopy, by rw [heq3]; exact hpriv2.setPhys _, fun k hk => ?_,
    fun y hy => ?_⟩
  · rw [hload3, hload2, hlen, List.length_replicate, Nat.add_sub_cancel_left, binaryByte]
    by_cases hfile : k < ph.pFilesz.toNat
    · rw [if_pos (by omega), if_pos hfile, imageBytes, List.getElem?_map, List.getElem?_range hfile]
      rfl
    · rw [if_neg (by omega), if_pos (by omega), if_neg hfile, List.getElem?_replicate, if_pos hk]
  have hout : ¬ (ph.pVa.toNat ≤ y ∧ y < ph.pVa.toNat + ph.pMemsz.toNat) :=
    fun hin => hy ⟨by omega, by omega⟩
  rw [hload3, hload2, hlen, List.length_replicate, if_neg (by omega), if_neg hout, World.load,
    World.load, hphys1]
  rcases hpages (y / 4096) with ⟨hlo, hhi, -⟩ | ⟨-, hsame⟩
  · exact absurd ⟨hlo, by omega⟩ hy
  · change Option.map _ (w1.child _) = Option.map _ (w.child _)
    rw [hsame]

theorem loadSegments_enough (binary : Memory) (h : Private w)
    (hfits : ∀ ph ∈ phs, ph.pType = elfProgLoad → Fits ph)
    (hapart : phs.Pairwise fun ph ph' => ph.pType = elfProgLoad → ph'.pType = elfProgLoad →
      ∀ p, Touches ph p → ¬ Touches ph' p) :
    ∃ w', loadSegments enough binary phs w = some w' ∧ Private w' ∧
      (∀ ph ∈ phs, ph.pType = elfProgLoad → ∀ k < ph.pMemsz.toNat,
        w'.load .child (ph.pVa.toNat + k) = some (binaryByte binary ph k)) ∧
      ∀ y, (∀ ph ∈ phs, ph.pType = elfProgLoad → ¬ Touches ph (y / 4096)) →
        w'.load .child y = w.load .child y := by
  induction phs generalizing w with
  | nil => exact ⟨w, rfl, h, fun _ hph => absurd hph List.not_mem_nil, fun _ _ => rfl⟩
  | cons ph phs ih =>
    obtain ⟨hfits0, hfits'⟩ := List.forall_mem_cons.mp hfits
    obtain ⟨hapart0, hapart'⟩ := List.pairwise_cons.mp hapart
    rw [loadSegments]
    by_cases htype : ph.pType = elfProgLoad
    · obtain ⟨w1, w2, w3, hregion, hzero, hcopy, hpriv, hbytes, hrest⟩ :=
        loadSegment_enough binary h (hfits0 htype)
      obtain ⟨w', hrun, hpriv', hbytes', hrest'⟩ := ih hpriv hfits' hapart'
      refine ⟨w', ?_, hpriv', List.forall_mem_cons.mpr ⟨fun _ k hk => ?_, hbytes'⟩, fun y hy => ?_⟩
      · rw [if_pos htype]
        simp only [Option.bind_eq_bind, hregion, hzero, hcopy, Option.bind_some, hrun]
      · rw [hrest' _ fun ph' hph' htype' => hapart0 ph' hph' htype htype' _ ⟨by omega, by omega⟩]
        exact hbytes k hk
      · obtain ⟨hy0, hy'⟩ := List.forall_mem_cons.mp hy
        rw [hrest' y hy', hrest y (hy0 htype)]
    · obtain ⟨w', hrun, hpriv', hbytes', hrest'⟩ := ih h hfits' hapart'
      refine ⟨w', by rw [if_neg htype, hrun], hpriv',
        List.forall_mem_cons.mpr ⟨fun hload => absurd hload htype, hbytes'⟩, fun y hy => ?_⟩
      exact hrest' y (List.forall_mem_cons.mp hy).2

theorem loadIcode_enough (binary : Memory) (h : Private w)
    (hmagic : (elfAt binary 0).eMagic = elfMagic)
    (hfits : ∀ ph ∈ proghdrs binary, ph.pType = elfProgLoad → Fits ph ∧
      ph.pVa.toNat + ph.pMemsz.toNat ≤ (ustacktop - pgsize).toNat)
    (hapart : (proghdrs binary).Pairwise fun ph ph' => ph.pType = elfProgLoad →
      ph'.pType = elfProgLoad → ∀ p, Touches ph p → ¬ Touches ph' p) :
    ∃ w', loadIcode enough binary w = some w' ∧ w'.eip = (elfAt binary 0).eEntry ∧
      ∀ ph ∈ proghdrs binary, ph.pType = elfProgLoad → ∀ k < ph.pMemsz.toNat,
        w'.load .child (ph.pVa.toNat + k) = some (binaryByte binary ph k) := by
  obtain ⟨w1, hload, hpriv1, hbytes, -⟩ :=
    loadSegments_enough binary h (fun ph hph htype => (hfits ph hph htype).1) hapart
  obtain ⟨stack, hva, hmemsz, hfilesz⟩ : ∃ ph : Proghdr, ph.pVa = ustacktop - pgsize ∧
      ph.pMemsz = pgsize ∧ ph.pFilesz = 0 :=
    ⟨⟨elfProgLoad, 0, ustacktop - pgsize, 0, pgsize, 0⟩, rfl, rfl, rfl⟩
  have hstack : Fits stack := by
    rw [Fits, hva, hmemsz, hfilesz]
    decide
  obtain ⟨w2, w3, w4, hregion, hzero, hcopy, -, -, hrest⟩ := loadSegment_enough binary hpriv1 hstack
  have hnone : imageBytes binary stack.pOffset (0 : Word).toNat = [] := rfl
  rw [hfilesz, hnone] at hcopy
  cases hcopy
  rw [hva, hmemsz] at hregion hzero
  refine ⟨{ w3 with eip := (elfAt binary 0).eEntry }, ?_, rfl, fun ph hph htype k hk => ?_⟩
  · -- The zeros are a list of 4096 bytes, so the binds are taken one by one, not by computation.
    rw [loadIcode, if_neg (not_not.mpr hmagic)]
    exact Option.bind_eq_some_iff.mpr ⟨w1, hload, Option.bind_eq_some_iff.mpr ⟨w2, hregion,
      Option.bind_eq_some_iff.mpr ⟨w3, hzero, rfl⟩⟩⟩
  have hbelow := (hfits ph hph htype).2
  rw [show (ustacktop - pgsize).toNat = 4005548032 by decide] at hbelow
  refine (hrest _ fun htouch => ?_).trans (hbytes ph hph htype k hk)
  have hlo := htouch.1
  rw [hva, show (ustacktop - pgsize).toNat = 4005548032 by decide] at hlo
  omega

end Segments

end Mit6828.Lib.Loaders
