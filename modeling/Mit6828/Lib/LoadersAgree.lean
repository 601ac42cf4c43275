import Mit6828.Lib.Loaders

namespace Mit6828.Lib.Loaders

open Kern.Mmu
open Mit6828.Lib.Fork (pteShare utext vaOf)
open Mit6828.Lib.ForkSteps (toNat_vaOf pgnum_vaOf toNat_pgoff)
open Spawn Library.ByteMemory

section Images

variable {file : File} {phs : List Proghdr} {image : Image} {ph ph' : Proghdr} {p : Nat}

theorem programImage_of_not (h : ∀ ph ∈ phs, ph.pType = elfProgLoad → ¬ Covers ph p) :
    programImage file phs image p = image p := by
  induction phs generalizing image with
  | nil => rfl
  | cons ph phs ih =>
    obtain ⟨hfirst, hrest⟩ := List.forall_mem_cons.mp h
    rw [programImage, ih hrest]
    split
    · rename_i hload
      exact if_neg (hfirst hload)
    · rfl

theorem programImage_of_mem (hapart : phs.Pairwise fun ph ph' => ph.pType = elfProgLoad →
      ph'.pType = elfProgLoad → ∀ p, Covers ph p → ¬ Covers ph' p)
    (hph : ph ∈ phs) (hload : ph.pType = elfProgLoad) (hp : Covers ph p) :
    programImage file phs image p = some (segmentImage file ph p) := by
  induction phs generalizing image with
  | nil => cases hph
  | cons ph' phs ih =>
    obtain ⟨hfirst, hrest⟩ := List.pairwise_cons.mp hapart
    rw [programImage]
    rcases List.mem_cons.mp hph with rfl | hph
    · rw [programImage_of_not fun ph' hph' hload' => hfirst ph' hph' hload hload' p hp,
        if_pos hload, if_pos hp]
    · exact ih hrest hph

/-- What the loop of `spawn` takes from a header. -/
def SameLoad (ph ph' : Proghdr) : Prop :=
  ph.pType = ph'.pType ∧ ph.pVa = ph'.pVa ∧ ph.pMemsz = ph'.pMemsz ∧ ph.pFilesz = ph'.pFilesz ∧
      ph.pOffset = ph'.pOffset ∨
    ph.pType ≠ elfProgLoad ∧ ph'.pType ≠ elfProgLoad

theorem SameLoad.covers (h : SameLoad ph ph') (file : File) (hload : ph'.pType = elfProgLoad) :
    ph.pType = elfProgLoad ∧ (∀ p, Covers ph p ↔ Covers ph' p) ∧
      ∀ p, segmentImage file ph p = segmentImage file ph' p := by
  rcases h with ⟨htype, hva, hmemsz, hfilesz, hoffset⟩ | ⟨-, hnot⟩
  · refine ⟨htype.trans hload, fun p => ?_, fun p => ?_⟩
    · rw [Covers, Covers, hva, hmemsz]
    · rw [segmentImage, segmentImage, hva, hfilesz, hoffset]
  · exact absurd hload hnot

theorem SameLoad.loadable (h : SameLoad ph ph') (hload : ph.pType = elfProgLoad) :
    ph'.pType = elfProgLoad ∧ (Loadable file ph' → Loadable file ph) := by
  rcases h with ⟨htype, hva, hmemsz, hfilesz, hoffset⟩ | ⟨hnot, -⟩
  · refine ⟨htype.symm.trans hload, fun hok => ?_⟩
    rw [Loadable, hva, hmemsz, hfilesz, hoffset]
    exact hok
  · exact absurd hload hnot

theorem programImage_congr {phs' : List Proghdr} (h : List.Forall₂ SameLoad phs phs')
    (image : Image) :
    programImage file phs image = programImage file phs' image := by
  induction h generalizing image with
  | nil => rfl
  | @cons ph ph' phs phs' hfirst _ ih =>
    rw [programImage, programImage, ih]
    congr 1
    by_cases hload : ph'.pType = elfProgLoad
    · obtain ⟨hload', hcovers, himage⟩ := hfirst.covers file hload
      rw [if_pos hload, if_pos hload']
      funext p
      rw [himage p]
      exact if_congr (hcovers p) rfl rfl
    · rw [if_neg hload]
      refine if_neg fun hload' => ?_
      rcases hfirst with ⟨htype, -⟩ | ⟨hnot, -⟩
      · exact hload (htype.symm.trans hload')
      · exact hnot hload'

end Images

section Contents

variable {content : List Byte} {ph : Proghdr} {p x j : Nat}

namespace Segment

variable (h : Segment content ph)
include h

theorem toNat_filesz :
    (ph.pFilesz + pgoff ph.pVa).toNat = ph.pFilesz.toNat + ph.pVa.toNat % 4096 := by
  have := h.le
  have := h.sizes
  grind

theorem toNat_fileoffset (hj : 4096 * j < 2 ^ 32 - 2 ^ 31) :
    (ph.pOffset - pgoff ph.pVa + vaOf j).toNat =
      ph.pOffset.toNat - ph.pVa.toNat % 4096 + 4096 * j := by
  have := h.offset
  have := h.inFile
  have := h.size
  rw [BitVec.toNat_add, BitVec.toNat_sub, toNat_pgoff, toNat_vaOf (by omega)]
  omega

theorem read_page (hj : vaOf j < ph.pFilesz + pgoff ph.pVa) (hsmall : j < 1048576) :
    (fileOf content).read (ph.pOffset - pgoff ph.pVa + vaOf j)
        (minWord pgsize (ph.pFilesz + pgoff ph.pVa - vaOf j)) =
      some ((content.drop (ph.pOffset.toNat - ph.pVa.toNat % 4096 + 4096 * j)).take
        (min 4096 (ph.pFilesz.toNat + ph.pVa.toNat % 4096 - 4096 * j))) := by
  have hlt := BitVec.lt_def.mp hj
  rw [h.toNat_filesz, toNat_vaOf hsmall] at hlt
  have hin := h.inFile
  have hsize := h.size
  have hoffset := h.offset
  have hsub : (ph.pFilesz + pgoff ph.pVa - vaOf j).toNat =
      ph.pFilesz.toNat + ph.pVa.toNat % 4096 - 4096 * j := by
    rw [BitVec.toNat_sub_of_le (BitVec.le_of_lt hj), h.toNat_filesz, toNat_vaOf hsmall]
    omega
  have hmin : (minWord pgsize (ph.pFilesz + pgoff ph.pVa - vaOf j)).toNat =
      min 4096 (ph.pFilesz.toNat + ph.pVa.toNat % 4096 - 4096 * j) := by
    rw [minWord]
    split
    · rename_i hle
      rw [BitVec.le_def, hsub] at hle
      exact (Nat.min_eq_left hle).symm
    · rename_i hle
      rw [BitVec.le_def, hsub] at hle
      rw [hsub]
      exact (Nat.min_eq_right (Nat.le_of_not_le hle)).symm
  change (if _ then some _ else none) = _
  rw [h.toNat_fileoffset (by omega), hmin, if_pos (by omega)]

theorem segmentImage_byte (hlo : ph.pVa.toNat ≤ x) (hhi : x < ph.pVa.toNat + ph.pMemsz.toNat) :
    segmentImage (fileOf content) ph (x / 4096) (x % 4096) =
      segmentByte content ph (x - ph.pVa.toNat) := by
  have hbelow := h.le
  have hin := h.inFile
  have hoffset := h.offset
  have hsmall : x / 4096 - ph.pVa.toNat / 4096 < 1048576 := by omega
  rw [segmentImage, pgnum_eq, segmentPage]
  by_cases hge : vaOf (x / 4096 - ph.pVa.toNat / 4096) ≥ ph.pFilesz + pgoff ph.pVa
  · rw [if_pos hge]
    rw [ge_iff_le, BitVec.le_def, h.toNat_filesz, toNat_vaOf hsmall] at hge
    exact (if_neg (by omega)).symm
  have hlt := BitVec.not_le.mp hge
  rw [if_neg hge, h.read_page hlt hsmall, Option.getD_some, written, Nat.zero_add, Nat.sub_zero,
    segmentByte, List.length_take, List.length_drop]
  rw [BitVec.lt_def, h.toNat_filesz, toNat_vaOf hsmall] at hlt
  by_cases hfile : x - ph.pVa.toNat < ph.pFilesz.toNat
  · rw [if_pos (by omega), if_pos hfile]
    rw [List.getD_eq_getElem?_getD, List.getD_eq_getElem?_getD, List.getElem?_take,
      if_pos (by omega), List.getElem?_drop]
    congr 2
    omega
  · rw [if_neg (by omega), if_neg hfile]

theorem loadable : Loadable (fileOf content) ph := by
  intro i hi
  have hbelow := h.le
  rw [pagesFor, BitVec.toNat_add, toNat_pgoff] at hi
  have hva : (ph.pVa - pgoff ph.pVa + vaOf i).toNat = ph.pVa.toNat / 4096 * 4096 + 4096 * i := by
    rw [BitVec.toNat_add, BitVec.toNat_sub, toNat_pgoff, toNat_vaOf (by omega)]
    omega
  refine ⟨?_, fun hlt => by rw [h.read_page hlt (by omega)]; rfl⟩
  rw [Kern.Syscall.not_badVa_iff, hva]
  omega

end Segment

end Contents

section Headers

variable {content : List Byte} {stack : Memory} {m : Memory} {a : Word}

/-- The header at `a` is seen as it is: the fields for loading it are in the buffer, or the bytes
of `p_type` that are there say that it is not loadable. -/
def SeenAt (content : List Byte) (a : Nat) : Prop :=
  a + 24 ≤ 512 ∨ ∃ j < 4, a + j < 512 ∧ content.getD (a + j) 0 ≠ byte elfProgLoad j

/-- The file fills the buffer, and the headers are seen as they are. -/
def Seen (content : List Byte) : Prop :=
  512 ≤ content.length ∧ ∀ i < (headerOf content).ePhnum.toNat,
    SeenAt content ((headerOf content).ePhoff.toNat + 32 * i)

theorem not_load_of_byte {j : Nat} (hj : j < 4)
    (h : m (a + BitVec.ofNat 32 j) ≠ byte elfProgLoad j) : readWord m a ≠ elfProgLoad := by
  intro heq
  rw [← byte_readWord m a hj, heq] at h
  exact h rfl

theorem placed_of_lt {x : Word} (hx : x.toNat < content.length) (m : Memory) :
    placed content m x = content.getD x.toNat 0 := by
  rw [placed, List.getD_eq_getElem _ _ hx, List.getD_eq_getElem _ _ hx]

theorem take_length (h : 512 ≤ content.length) : (content.take 512).length = 512 := by
  rw [List.length_take, Nat.min_eq_left h]

theorem buffer_below (hlen : 512 ≤ content.length) (stack : Memory) (x : Word)
    (hx : x.toNat < 512) :
    placed (content.take 512) stack x = placed content (fun _ => 0) x :=
  placed_below rfl (take_length hlen) stack _ x hx

theorem sameLoad_of_seenAt (hlen : 512 ≤ content.length) (ha : a.toNat + 32 ≤ content.length)
    (hsize : content.length < 2 ^ 31) (hseen : SeenAt content a.toNat) :
    SameLoad (proghdrAt (placed (content.take 512) stack) a)
      (proghdrAt (placed content fun _ => 0) a) := by
  have hbelow := buffer_below hlen stack
  rcases hseen with hfields | ⟨j, hj, hin, hbyte⟩
  · have hword : ∀ k : Word, k.toNat ≤ 20 → readWord (placed (content.take 512) stack) (a + k) =
        readWord (placed content fun _ => 0) (a + k) := by
      intro k hk
      refine readWord_below hbelow ?_
      grind
    exact .inl ⟨readWord_below hbelow (by omega), hword 8 (by decide), hword 20 (by decide),
      hword 16 (by decide), hword 4 (by decide)⟩
  · have hx : (a + BitVec.ofNat 32 j).toNat = a.toNat + j := by grind
    have hfile : placed content (fun _ => 0) (a + BitVec.ofNat 32 j) ≠ byte elfProgLoad j := by
      rwa [placed_of_lt (by omega), hx]
    refine .inr ⟨not_load_of_byte hj ?_, not_load_of_byte hj hfile⟩
    rwa [hbelow _ (by omega)]

theorem exists_of_forall₂ {α : Type} {R : α → α → Prop} {l l' : List α} {x : α}
    (h : List.Forall₂ R l l') (hx : x ∈ l) : ∃ y ∈ l', R x y := by
  induction h with
  | nil => cases hx
  | @cons a b l l' hab _ ih =>
    rcases List.mem_cons.mp hx with rfl | hx
    · exact ⟨b, List.mem_cons_self, hab⟩
    · obtain ⟨y, hy, hxy⟩ := ih hx
      exact ⟨y, List.mem_cons_of_mem b hy, hxy⟩

theorem forall₂_map_range {α : Type} {R : α → α → Prop} {f g : Nat → α} {n : Nat}
    (h : ∀ i < n, R (f i) (g i)) :
    List.Forall₂ R ((List.range n).map f) ((List.range n).map g) := by
  rw [List.forall₂_map_left_iff, List.forall₂_map_right_iff, List.forall₂_same]
  exact fun i hi => h i (List.mem_range.mp hi)

theorem proghdrs_seen (hwf : WellFormed content) (hseen : Seen content) (stack : Memory) :
    elfAt (placed (content.take 512) stack) 0 = headerOf content ∧
      List.Forall₂ SameLoad (proghdrs (placed (content.take 512) stack)) (headersOf content) := by
  obtain ⟨hlen, hheaders⟩ := hseen
  have helf := elfAt_below (buffer_below hlen stack) (by decide)
  refine ⟨helf, ?_⟩
  unfold proghdrs
  rw [helf]
  have htable := hwf.table
  have hsize := hwf.size
  refine forall₂_map_range fun i hi => ?_
  have ha := toNat_header hi (a := (headerOf content).ePhoff) (by omega)
  refine sameLoad_of_seenAt hlen ?_ hsize ?_
  · grind
  · rw [ha]
    exact hheaders i hi

end Headers

/-- Both loaders return, with the entry point of the file and the bytes of its segments.  `stack`
and `kern` are what is in memory after `elf_buf` and after the image in the kernel. -/
def Agree (content : List Byte) (parent : Space) (next : Nat) (argv : List (List Byte))
    (exofork : Word) (stack kern : Memory) (phys : Nat → Nat → Byte) : Prop :=
  ∃ w k, spawn enough (some (fileOf content)) argv exofork stack (start parent next phys) =
      some (exofork, w) ∧
    loadIcode enough (placed content kern) (start (fun _ => none) next phys) = some k ∧
    w.eip = (headerOf content).eEntry ∧
    k.eip = (headerOf content).eEntry ∧
    ∀ ph ∈ headersOf content, ph.pType = elfProgLoad → ∀ i < ph.pMemsz.toNat,
      w.load .child (ph.pVa.toNat + i) = some (segmentByte content ph i) ∧
      k.load .child (ph.pVa.toNat + i) = some (segmentByte content ph i)

def NoneShared (content : List Byte) (parent : Space) : Prop :=
  ∀ ph ∈ headersOf content, ph.pType = elfProgLoad → ∀ i < ph.pMemsz.toNat,
    ∀ pte, ¬ Shared parent ((ph.pVa.toNat + i) / 4096) pte

section Agreement

variable {content : List Byte} {parent : Space} {next fd : Nat} {argv : List (List Byte)}
  {exofork : Word}

theorem loadIcode_wellFormed (hwf : WellFormed content) (kern : Memory) (next : Nat)
    (phys : Nat → Nat → Byte) : ∃ k, loadIcode enough (placed content kern)
      (start (fun _ => none) next phys) = some k ∧
      k.eip = (headerOf content).eEntry ∧
      ∀ ph ∈ headersOf content, ph.pType = elfProgLoad → ∀ i < ph.pMemsz.toNat,
        k.load .child (ph.pVa.toNat + i) = some (segmentByte content ph i) := by
  have hbelow : ∀ x : Word, x.toNat < content.length →
      placed content (fun _ => 0) x = placed content kern x := by
    intro x hx
    rw [placed_of_lt hx, placed_of_lt hx]
  have hsize := hwf.size
  have helf := elfAt_below hbelow hwf.header
  have hphs := proghdrs_below hbelow hwf.header (by omega) hwf.table
  have hpriv : Private (start (fun _ => none) next phys) :=
    ⟨fun p q pte pte' hp => (by cases hp), fun p pte hp => (by cases hp)⟩
  obtain ⟨k, hrun, heip, hbytes⟩ := loadIcode_enough (placed content kern) hpriv
    (by rw [← helf]; exact hwf.magic)
    (by
      rw [← hphs]
      intro ph hph hload
      have hseg := hwf.segment ph hph hload
      have hle := hseg.le
      exact ⟨⟨by omega, hseg.sizes⟩, hseg.below⟩)
    (by rw [← hphs]; exact hwf.apart)
  rw [← helf] at heip
  rw [← hphs] at hbytes
  refine ⟨k, hrun, heip, fun ph hph hload i hi => ?_⟩
  rw [hbytes ph hph hload i hi, binaryByte, segmentByte]
  have hin := (hwf.segment ph hph hload).inFile
  by_cases hfile : i < ph.pFilesz.toNat
  · have hx : (ph.pOffset + BitVec.ofNat 32 i).toNat = ph.pOffset.toNat + i := by grind
    rw [if_pos hfile, if_pos hfile, placed_of_lt (by omega), hx]
  · rw [if_neg hfile, if_neg hfile]

theorem spawn_seen (hwf : WellFormed content) (hseen : Seen content)
    (hbound : Bounded parent next) (hfd : fdAlloc parent = some fd)
    (hfit : ArgsFit argv) (hfork : ¬ isNeg exofork) (stack : Memory) (phys : Nat → Nat → Byte) :
    ∃ w, spawn enough (some (fileOf content)) argv exofork stack (start parent next phys) =
        some (exofork, w) ∧ w.eip = (headerOf content).eEntry ∧
      (∀ p pte, Shared parent p pte → ∃ c, w.child p = some c ∧ w.phys c.page = phys pte.page) ∧
      ∀ ph ∈ headersOf content, ph.pType = elfProgLoad → ∀ i < ph.pMemsz.toNat,
        (∀ pte, ¬ Shared parent ((ph.pVa.toNat + i) / 4096) pte) →
        w.load .child (ph.pVa.toNat + i) = some (segmentByte content ph i) := by
  have hdata : (fileOf content).buf = content.take 512 := rfl
  obtain ⟨helf, hheaders⟩ := proghdrs_seen hwf hseen stack
  have hmagic := hwf.magic
  rw [← helf] at hmagic
  obtain ⟨w1, w, hrun, ⟨first, hclear⟩, hkept, hstart⟩ := spawn_enough (w := start parent next phys)
    (fileOf content) stack hbound hfd hfit hfork (by rw [hdata, take_length hseen.1])
    (by rw [hdata, hmagic])
    (by
      rw [hdata]
      intro ph hph hload
      obtain ⟨ph', hph', hsame⟩ := exists_of_forall₂ hheaders hph
      obtain ⟨hload', hok⟩ := hsame.loadable hload
      exact hok (hwf.segment ph' hph' hload').loadable)
  rw [hdata, helf, programImage_congr hheaders] at hclear
  obtain ⟨-, -, -, hphys, heip, hcopied⟩ := startChild_ok hstart
  obtain ⟨htemp, hsame⟩ := hclear.closeFile hfd
  refine ⟨w, hrun, heip.trans hclear.entry, fun p pte hshared => ?_,
    fun ph hph hload i hi hno => ?_⟩
  · obtain ⟨hin, hpte, hshare⟩ := hshared
    have hpte' := (hsame p (ne_utemp hin.1)).trans hpte
    rcases hcopied p with ⟨pte', c, -, hpte'', -, hchild, hpage, -⟩ | ⟨hno, -⟩
    · obtain rfl := Option.mem_unique hpte' hpte''
      refine ⟨c, hchild, ?_⟩
      rw [hphys, hpage]
      exact hkept _ (hbound p pte hpte)
    · exact absurd (hno pte hin.1 hin.2 hpte') hshare
  have hseg := hwf.segment ph hph hload
  have hbelow := hseg.le
  have hcovers : Covers ph ((ph.pVa.toNat + i) / 4096) :=
    (covers_iff (by omega)).mpr ⟨by omega, by omega⟩
  have himage := hclear.image ((ph.pVa.toNat + i) / 4096)
  rw [programImage_of_mem ?_ hph hload hcovers] at himage
  · obtain ⟨c, hc, hpage⟩ := Option.map_eq_some_iff.mp himage
    have hchild : w.child ((ph.pVa.toNat + i) / 4096) = some c := by
      rcases hcopied ((ph.pVa.toNat + i) / 4096) with ⟨pte, d, hin, hpte, hshare, -⟩ | ⟨-, hsame'⟩
      · rw [hsame _ (ne_utemp hin.1)] at hpte
        exact absurd ⟨hin, hpte, hshare⟩ (hno pte)
      · exact hsame'.trans hc
    rw [World.load, World.space, hchild, Option.map_some, hphys]
    change some (w1.phys c.page _) = _
    rw [hpage, hseg.segmentImage_byte (by omega) (by omega), Nat.add_sub_cancel_left]
  · refine hwf.apart.imp_of_mem fun hph1 hph2 hapart hload1 hload2 p hp hp' => ?_
    have hbelow1 := (hwf.segment _ hph1 hload1).le
    have hbelow2 := (hwf.segment _ hph2 hload2).le
    exact hapart hload1 hload2 p ((covers_iff (by omega)).mp hp) ((covers_iff (by omega)).mp hp')

/-- Stack contents that look like headers of a segment above `UTOP`. -/
def junk (phoff : Nat) : Memory := fun x =>
  if (x.toNat - phoff) % 32 = 0 then 1 else if (x.toNat - phoff) % 32 = 23 then 0xF0 else 0

theorem byte_load {j : Nat} (hj : j < 4) : byte elfProgLoad j = if j = 0 then 1 else 0 := by
  have hcases : j = 0 ∨ j = 1 ∨ j = 2 ∨ j = 3 := by omega
  rcases hcases with rfl | rfl | rfl | rfl <;> decide

theorem junk_header {a : Word} {phoff i : Nat} (ha : a.toNat = phoff + 32 * i)
    (hlen : 512 ≤ content.length) (hsmall : a.toNat + 32 < 2 ^ 32)
    (hnot : ¬ SeenAt content a.toNat) :
    ∃ ph, proghdrAt (placed (content.take 512) (junk phoff)) a = ph ∧ ph.pType = elfProgLoad ∧
      0xF0000000 ≤ ph.pMemsz.toNat ∧ ph.pMemsz.toNat < 0xF1000000 := by
  rw [SeenAt, not_or] at hnot
  obtain ⟨hfields, hbytes⟩ := hnot
  have hat : ∀ j < 32, (a + BitVec.ofNat 32 j).toNat = a.toNat + j := by
    intro j hj
    grind
  have hjunk : ∀ j < 32, 512 ≤ a.toNat + j → placed (content.take 512) (junk phoff)
      (a + BitVec.ofNat 32 j) = if j = 0 then 1 else if j = 23 then 0xF0 else 0 := by
    intro j hj hout
    rw [placed, List.getD_eq_default _ _ (by rw [take_length hlen, hat j hj]; exact hout), junk,
      hat j hj, show (a.toNat + j - phoff) % 32 = j by omega]
  refine ⟨_, rfl, ?_, ?_⟩
  · refine readWord_of_bytes fun j hj => ?_
    by_cases hin : a.toNat + j < 512
    · rw [buffer_below hlen _ _ (by rw [hat j (by omega)]; exact hin),
        placed_of_lt (by grind), hat j (by omega)]
      by_contra hne
      exact hbytes ⟨j, hj, hin, hne⟩
    · rw [hjunk j (by omega) (by omega), byte_load hj, if_neg (show ¬ j = 23 by omega)]
  have htop : byte (readWord (placed (content.take 512) (junk phoff)) (a + 20)) 3 = 0xF0 := by
    rw [byte_readWord _ _ (by decide), BitVec.add_assoc]
    exact hjunk 23 (by decide) (by omega)
  have hnat := congrArg BitVec.toNat htop
  rw [byte, BitVec.toNat_setWidth, BitVec.toNat_ushiftRight, Nat.shiftRight_eq_div_pow] at hnat
  change _ / 16777216 % 256 = 240 at hnat
  change 0xF0000000 ≤ (readWord (placed (content.take 512) (junk phoff)) (a + 20)).toNat ∧
    (readWord (placed (content.take 512) (junk phoff)) (a + 20)).toNat < 0xF1000000
  omega

theorem seen_of_spawn (phys : Nat → Nat → Byte) (hwf : WellFormed content)
    (hbound : Bounded parent next) (hfork : ¬ isNeg exofork)
    (h : ∀ stack, ∃ w, spawn enough (some (fileOf content)) argv exofork stack
      (start parent next phys) = some (exofork, w)) : Seen content := by
  have hdata : (fileOf content).buf = content.take 512 := rfl
  have hsize := hwf.size
  have htable := hwf.table
  have hlen : 512 ≤ content.length := by
    obtain ⟨w, hrun⟩ := h fun _ => 0
    obtain ⟨file, hfile, hlen, -⟩ := spawned_of_ok hbound hrun hfork
    cases hfile
    grind
  refine ⟨hlen, fun i hi => ?_⟩
  by_contra hnot
  have ha := toNat_header hi (a := (headerOf content).ePhoff) (by omega)
  rw [← ha] at hnot
  obtain ⟨ph, hph, htype, hge, hlt⟩ := junk_header ha hlen (by omega) hnot
  obtain ⟨w, hrun⟩ := h (junk (headerOf content).ePhoff.toNat)
  obtain ⟨fd, file, w1, hfile, -, -, hroom, -⟩ := spawn_ok hbound hrun hfork
  cases hfile
  rw [hdata] at hroom
  have hmem : ph ∈ proghdrs (placed (content.take 512) (junk (headerOf content).ePhoff.toNat)) := by
    unfold proghdrs
    rw [elfAt_below (buffer_below hlen _) (by decide), ← hph]
    exact List.mem_map_of_mem (List.mem_range.mpr hi)
  have hpages : 983040 ≤ pagesFor (ph.pMemsz + pgoff ph.pVa) := by
    rw [pagesFor, BitVec.toNat_add, toNat_pgoff]
    omega
  have hbad := hroom ph hmem htype (pgnum ph.pVa + 983039) ⟨by omega, by omega⟩
  grind

end Agreement

/-- The loaders agree, whatever is in memory, exactly if the first 512 bytes of the file show
`spawn` the headers as they are and the parent shares no page with a segment. -/
theorem loaders_agree_iff {content : List Byte} {parent : Space} {next : Nat}
    {argv : List (List Byte)} {exofork : Word} (hwf : WellFormed content)
    (hbound : Bounded parent next) (hfd : (fdAlloc parent).isSome)
    (hfit : ArgsFit argv) (hfork : ¬ isNeg exofork) :
    (∀ stack kern phys, Agree content parent next argv exofork stack kern phys) ↔
      Seen content ∧ NoneShared content parent := by
  obtain ⟨fd, hfd⟩ := Option.isSome_iff_exists.mp hfd
  constructor
  · intro hagree
    have hseen : Seen content := seen_of_spawn (fun _ _ => 0) hwf hbound hfork fun stack => by
      obtain ⟨w, -, hrun, -⟩ := hagree stack (fun _ => 0) fun _ _ => 0
      exact ⟨w, hrun⟩
    refine ⟨hseen, fun ph hph hload i hi pte hshared => ?_⟩
    let phys : Nat → Nat → Byte := fun _ _ => segmentByte content ph i + 1
    obtain ⟨w, k, hrun, -, -, -, hbytes⟩ := hagree (fun _ => 0) (fun _ => 0) phys
    obtain ⟨w', hrun', -, hshare, -⟩ := spawn_seen hwf hseen hbound hfd hfit hfork (fun _ => 0) phys
    obtain ⟨-, rfl⟩ := Prod.mk.inj (Option.mem_unique hrun hrun')
    obtain ⟨c, hc, hpage⟩ := hshare _ pte hshared
    have hbyte := (hbytes ph hph hload i hi).1
    rw [World.load, World.space, hc, Option.map_some, hpage] at hbyte
    exact absurd (Option.some.inj hbyte) (by simp [phys])
  · rintro ⟨hseen, hnone⟩ stack kern phys
    obtain ⟨w, hrun, heip, -, hbytes⟩ := spawn_seen hwf hseen hbound hfd hfit hfork stack phys
    obtain ⟨k, hrun', heip', hbytes'⟩ := loadIcode_wellFormed hwf kern next phys
    exact ⟨w, k, hrun, hrun', heip, heip', fun ph hph hload i hi =>
      ⟨hbytes ph hph hload i hi (hnone ph hph hload i hi), hbytes' ph hph hload i hi⟩⟩

theorem wellFormed_single {content : List Byte} {ph : Proghdr}
    (hphs : headersOf content = [ph]) (hseg : Segment content ph) (hheader : 52 ≤ content.length)
    (hmagic : (headerOf content).eMagic = elfMagic) (htable : (headerOf content).ePhoff.toNat +
      32 * (headerOf content).ePhnum.toNat ≤ content.length) : WellFormed content := by
  refine ⟨hseg.size, hheader, hmagic, htable, ?_, ?_⟩ <;> rw [hphs]
  · exact List.forall_mem_singleton.mpr fun _ => hseg
  · exact List.pairwise_singleton ..

theorem wellFormed_text : WellFormed (smallElf textHeader) := by
  have hphs : headersOf (smallElf textHeader) = [textHeader] := by decide +kernel
  refine wellFormed_single hphs (by constructor <;> decide +kernel) ?_ ?_ ?_ <;> decide +kernel

theorem loaders_agree_text : Seen (smallElf textHeader) ∧ ∀ stack kern phys,
    Agree (smallElf textHeader) (fun _ => none) 0 [] 0x1001 stack kern phys := by
  have hseen : Seen (smallElf textHeader) := by
    have hphnum : (headerOf (smallElf textHeader)).ePhnum.toNat = 1 := by decide +kernel
    refine ⟨by decide +kernel, fun i hi => .inl ?_⟩
    rw [hphnum] at hi
    obtain rfl := Nat.lt_one_iff.mp hi
    decide +kernel
  refine ⟨hseen, (loaders_agree_iff wellFormed_text (fun p pte hp => by cases hp) (by decide)
    (by unfold ArgsFit; decide) (by decide)).mpr ⟨hseen, ?_⟩⟩
  rintro ph - - i - pte ⟨-, hpte, -⟩
  cases hpte

def lateElf : List Byte :=
  ([elfMagic, 0, 0, 0, 0, 0, 0x800020, 512, 0, 0, 0, 1, 0].flatMap bytes) ++ List.replicate 460 0 ++
    [elfProgLoad, 0, 0x800000, 0, 0x100, 0x200, 5, 0].flatMap bytes

/-- `spawn` returns a child without the segment; the kernel loads it. -/
theorem late_table_lost : WellFormed lateElf ∧ ∃ w k,
    spawn enough (some (fileOf lateElf)) [] 0x1001 (fun _ => 0)
      (start (fun _ => none) 0 fun _ _ => 0) = some (0x1001, w) ∧
    loadIcode enough (placed lateElf fun _ => 0) (start (fun _ => none) 0 fun _ _ => 0) = some k ∧
    w.load .child 0x800000 = none ∧ k.load .child 0x800000 = some 0x7F := by
  have hphs : headersOf lateElf = [textHeader] := by decide +kernel
  have hwf : WellFormed lateElf := by
    refine wellFormed_single hphs (by constructor <;> decide +kernel) ?_ ?_ ?_ <;> decide +kernel
  have hdata : (fileOf lateElf).buf = lateElf.take 512 := rfl
  have hseen : proghdrs (placed (lateElf.take 512) fun _ => 0) = [⟨0, 0, 0, 0, 0, 0⟩] := by
    decide +kernel
  have hbound : Bounded (start (fun _ => none) 0 fun _ _ => 0).parent 0 := fun p pte hp => by
    cases hp
  obtain ⟨w1, w, hrun, -⟩ := spawn_enough (fileOf lateElf) (fun _ => 0) hbound
    (show fdAlloc (fun _ => none) = some 0 by decide) (show ArgsFit [] by unfold ArgsFit; decide)
    (show ¬ isNeg 0x1001 by decide) (by rw [hdata]; decide +kernel) (by rw [hdata]; decide +kernel)
    (by
      rw [hdata, hseen]
      exact List.forall_mem_singleton.mpr fun hload => absurd hload (by decide))
  obtain ⟨k, hrun', -, hbytes⟩ := loadIcode_wellFormed hwf (fun _ => 0) 0 fun _ _ => 0
  refine ⟨hwf, w, k, hrun, hrun', ?_, ?_⟩
  · obtain ⟨file, hfile, -, hspawned⟩ := spawned_of_ok hbound hrun (by decide)
    cases hfile
    rw [hdata, hseen] at hspawned
    have hnone : w.child (0x800000 / 4096) = none := by
      rw [← Option.not_isSome_iff_eq_none, hspawned.mapped]
      rintro (⟨ph, hph, hload, -⟩ | hstack | ⟨pte, -, hpte, -⟩)
      · obtain rfl := List.mem_singleton.mp hph
        exact absurd hload (by decide)
      · exact absurd hstack (by decide)
      · cases hpte
    rw [World.load, World.space, hnone]
    rfl
  · have hbyte := hbytes textHeader (by rw [hphs]; exact List.mem_singleton_self _) rfl 0
      (by decide)
    rw [show segmentByte lateElf textHeader 0 = 0x7F by decide +kernel] at hbyte
    exact hbyte

section Segments

open Kern.Syscall

variable {mem : Nat → Bool} {P : Space} {n : Nat} {entry perm : Word} {image : Image}
  {w w' : World} {content : List Byte} {ph : Proghdr}

/-- When `map_segment` returns 0, the pages of the segment are mapped with `perm` to frames of
their own, and they hold the bytes of the file followed by zeros. -/
theorem mapSegment_loads (hw : Clear P n entry image w) (hseg : Segment content ph)
    (hrun : mapSegment mem (fileOf content) ph.pVa ph.pMemsz ph.pFilesz ph.pOffset perm w =
      some (0, w')) :
    (∀ p, Touches ph p → ∃ c, w'.child p = some c ∧ c.perm = perm ∧
      (∀ q d, w'.child q = some d → d.page = c.page → q = p) ∧
      ∀ q d, w'.parent q = some d → d.page ≠ c.page) ∧
    ∀ i < ph.pMemsz.toNat, w'.load .child (ph.pVa.toNat + i) = some (segmentByte content ph i) := by
  have hbelow := hseg.le
  obtain ⟨-, hclear, -, hpages, -⟩ := hw.mapPages (j := 0) (pgnum_sub_pgoff _) hrun not_isNeg_zero
  have hcovers : ∀ {p}, Touches ph p → Covers ph p := (covers_iff (by omega)).mpr
  refine ⟨fun p hp => ?_, fun i hi => ?_⟩
  · obtain ⟨c, hc, hperm, -, honly⟩ := hpages p (hcovers hp).1 (hcovers hp).2
    refine ⟨c, hc, hperm, honly, fun q d hd heq => ?_⟩
    have hown := (hclear.own p c hc).1
    by_cases hq : q = pgnum utemp
    · rw [hq, hclear.clear] at hd
      cases hd
    · have hold := hclear.old q d ((hclear.parent q hq).symm.trans hd)
      omega
  · have hp : Covers ph ((ph.pVa.toNat + i) / 4096) := hcovers (by rw [Touches]; omega)
    have himage := (hclear.image ((ph.pVa.toNat + i) / 4096)).trans (if_pos hp)
    rw [Nat.zero_add] at himage
    obtain ⟨c, hc, heq⟩ := Option.map_eq_some_iff.mp himage
    have hbyte := hseg.segmentImage_byte (x := ph.pVa.toNat + i) (by omega) (by omega)
    rw [Nat.add_sub_cancel_left] at hbyte
    rw [World.load, show w'.space .child = w'.child from rfl, hc, Option.map_some, heq]
    exact congrArg some hbyte

theorem mapSegment_loads_text : ∃ w', mapSegment enough (fileOf (smallElf textHeader))
      textHeader.pVa textHeader.pMemsz textHeader.pFilesz textHeader.pOffset 5 smallParent =
        some (0, w') ∧
    ∀ i < textHeader.pMemsz.toNat, w'.load .child (textHeader.pVa.toNat + i) =
      some (segmentByte (smallElf textHeader) textHeader i) := by
  have hw : Clear smallParent.parent 2 0 (fun _ => none) smallParent :=
    ⟨⟨fun _ _ => rfl, smallParent_bound, fun _ => rfl, fun p c hc => (by cases hc), le_rfl, rfl⟩,
      by decide⟩
  have hseg : Segment (smallElf textHeader) textHeader :=
    ⟨by decide +kernel, by decide, by decide, by decide, by decide +kernel⟩
  have hload := hseg.loadable
  obtain ⟨w', hrun⟩ := hw.mapPages_enough (j := 0) (show ¬ badPerm 5 by decide)
    (fun i _ hi => (hload i (by rwa [Nat.zero_add] at hi)).1)
    fun i _ hi => (hload i (by rwa [Nat.zero_add] at hi)).2
  exact ⟨w', hrun, (mapSegment_loads hw hseg hrun).2⟩

end Segments

end Mit6828.Lib.Loaders
