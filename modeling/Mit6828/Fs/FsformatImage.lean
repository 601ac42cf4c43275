import Mathlib.Data.List.TakeWhile
import Mit6828.Fs.FsformatSpec

namespace Mit6828.Fs.Fsformat

open CacheCoherence (booted coherent_booted)
open Kern.Mmu Library.FlatMemory

variable {m : Memory} {s s' : Format} {nblocks n p q i j a : Nat} {x : Input}
  {files : List Input} {w : Word}

section Disk

theorem opendisk_spec (hsize : nblocks ≤ 1024) (hzero : ∀ a, InMap a → m a = 0)
    (h : opendisk nblocks ⟨m, 0⟩ = some s) :
    s.diskpos = 3 * blksize ∧ Written nblocks [] 3 s.mem := by
  have hone : blocksFor blkint.toNat = 1 := rfl
  obtain ⟨⟨_, s1⟩, h1, h⟩ := Option.bind_eq_some_iff.mp h
  obtain ⟨heq, -⟩ := @alloc_eq_some ⟨m, 0⟩ nblocks 0 blkint _ (by decide) rfl h1
  obtain ⟨rfl, rfl⟩ := Prod.mk.inj heq
  obtain ⟨⟨_, s2⟩, h2, h⟩ := Option.bind_eq_some_iff.mp h
  obtain ⟨heq, hlt⟩ := @alloc_eq_some ⟨m, 1 * blksize⟩ nblocks 1 blkint _ (by decide) rfl h2
  obtain ⟨rfl, rfl⟩ := Prod.mk.inj heq
  have hbits : (nblocks + blkbitsize - 1) / blkbitsize = 1 := by grind
  obtain ⟨⟨_, s3⟩, h3, h⟩ := Option.bind_eq_some_iff.mp h
  rw [hbits] at h3 h
  obtain ⟨heq, hlt3⟩ := @alloc_eq_some ⟨m, 2 * blksize⟩ nblocks 2 _ _ (by decide) rfl h3
  obtain ⟨rfl, rfl⟩ := Prod.mk.inj heq
  cases h
  dsimp only
  have hword : ∀ a, a + 4 ≤ sRoot ∨ sRoot + 2 ≤ a → a + 4 ≤ bitmap → ∀ m,
      readWord (fill (writeBytes m sRoot [slash, 0]) bitmap blksize 0xFF) a = readWord m a :=
    fun a hname hbitmap m => (within_fill.readWord_eq (.inl hbitmap) _).trans
      (within_writeBytes.readWord_eq hname m)
  refine ⟨rfl, Nat.le_refl 3, hlt3, ?_, ?_, ?_, fun a halo hahi => if_pos ⟨halo, hahi⟩,
    fun a halo hahi => ?_, fun j hj => absurd hj (Nat.not_lt_zero j)⟩
  · refine (hword _ (by decide) (by decide) _).trans ?_
    rw [readWord_writeWord_of_ne (by decide), readWord_writeWord_of_ne (by decide)]
    exact readWord_writeWord_self
  · refine (hword _ (by decide) (by decide) _).trans ?_
    rw [readWord_writeWord_of_ne (by decide)]
    exact readWord_writeWord_self
  · exact (hword _ (by decide) (by decide) _).trans readWord_writeWord_self
  · rw [fill, if_neg (by grind), writeBytes,
      if_neg (by simp [blockAddr, blksize] at halo ⊢; omega), writeWord_outside, writeWord_outside,
      writeWord_outside]
    · exact hzero a ⟨by grind, hahi⟩
    all_goals grind

theorem clearBits_succ (n : Nat) (m : Memory) : clearBits (n + 1) m = take (clearBits n m) n := rfl

theorem isFree_clearBits : isFree (clearBits n m) i ↔ isFree m i ∧ n ≤ i := by
  induction n with
  | zero => simp [clearBits]
  | succ n ih =>
    rw [clearBits_succ, isFree_take, ih, and_assoc]
    refine and_congr_right fun _ => ?_
    omega

theorem clearBits_outside (hn : n ≤ 1024) (ha : ¬ (bitmap ≤ a ∧ a < bitmap + blksize)) :
    clearBits n m a = m a := by
  induction n with
  | zero => rfl
  | succ n ih =>
    rw [clearBits_succ, take, writeWord_outside, ih (by omega)]
    grind

theorem isFree_of_ones (h : ∀ a, bitmap ≤ a → a < bitmap + blksize → m a = 0xFF) (hi : i < 1024) :
    isFree m i := by
  have hword : readWord m (bitmapWord i) = BitVec.allOnes 32 := by
    have hbyte : ∀ k < 4, m (bitmapWord i + k) = 0xFF := fun k hk =>
      h _ (by grind) (by grind)
    have h0 := hbyte 0 (by omega)
    rw [Nat.add_zero] at h0
    rw [readWord, h0, hbyte 1 (by omega), hbyte 2 (by omega), hbyte 3 (by omega)]
    rfl
  rw [isFree, freeBit_iff, hword, BitVec.getLsbD_allOnes]
  exact decide_eq_true (Nat.mod_lt _ (by decide))

end Disk

abbrev rootBlocks (files : List Input) : Nat := blocksFor (files.length * sizeofFile)

/-- The disk map of the server holds an image with the files: the root has the blocks from `p` on,
and the blocks from `q` on are free. -/
structure Image (nblocks : Nat) (files : List Input) (p q : Nat) (m : Memory) : Prop where
  magic : readWord m (diskmap + blksize) = fsMagic
  lo : 3 ≤ p
  mid : p + rootBlocks files ≤ q
  hi : q < nblocks
  most : nblocks ≤ 1024
  few : files.length ≤ maxDirEnts
  count : readWord m sNblocks = BitVec.ofNat 32 nblocks
  free : ∀ b < nblocks, isFree m b ↔ q ≤ b
  root : readWord m (fType sRoot) = ftypeDir
  size : (readWord m (fSize sRoot)).toNat = rootBlocks files * blksize
  blocks : ∀ i < rootBlocks files, blockNo m sRoot i = BitVec.ofNat 32 (p + i)
  placed : ∀ j (hj : j < files.length),
    Placed m (blockAddr p + sizeofFile * j) q (files.get ⟨j, hj⟩)
  blank : ∀ j, files.length ≤ j → j < blkfiles * rootBlocks files →
    m (blockAddr p + sizeofFile * j) = 0

section Finishdir

theorem toNat_roundupInt (hpos : 0 < w.toNat) (hlt : w.toNat < 2 ^ 31) :
    (roundupInt w).toNat = blocksFor w.toNat * blksize := by
  have hone : (1 : Word).toNat = 1 := rfl
  have hblk : blkint.toNat = 4096 := rfl
  have hsub : (w - 1).toNat = w.toNat - 1 :=
    BitVec.toNat_sub_of_le (by rw [BitVec.le_def, hone]; omega)
  have hmod := toNat_srem_blkint (w := w - 1) (by omega)
  rw [roundupInt, BitVec.toNat_sub, BitVec.toNat_add, hmod, hsub, hblk]
  grind

theorem blocksFor_mul (n : Nat) : blocksFor (n * blksize) = n := by
  grind

variable (hw : Written nblocks files p s.mem) (hpos : s.diskpos = p * blksize)
  (hsize : nblocks ≤ 1024) (hfew : files.length ≤ maxDirEnts) (hne : files ≠ [])
  (h : finishdir nblocks files.length s = some s')
include hw hpos hsize hfew hne h

theorem finishdir_spec : ∃ q len, s'.diskpos = q * blksize ∧ q < nblocks ∧
      len.toNat = rootBlocks files * blksize ∧
      Finished sRoot p (p + rootBlocks files) q len
        (copy s.mem (blockAddr p) ents (files.length * sizeofFile)) s'.mem := by
  have hlo := hw.lo
  have hsome : 0 < files.length := List.length_pos_iff.mpr hne
  have hlen : (BitVec.ofNat 32 (files.length * sizeofFile)).toNat = files.length * sizeofFile := by
    rw [BitVec.toNat_ofNat]
    grind
  have hround := toNat_roundupInt (w := BitVec.ofNat 32 (files.length * sizeofFile))
    (by rw [hlen]; simp only [sizeofFile]; omega)
    (by rw [hlen]; simp only [sizeofFile, maxDirEnts] at hfew ⊢; omega)
  obtain ⟨⟨start, s1⟩, halloc, h⟩ := Option.bind_eq_some_iff.mp h
  obtain ⟨heq, hroom⟩ := alloc_eq_some
    (by rw [hlen]; simp only [sizeofFile, maxDirEnts] at hfew ⊢; omega) hpos halloc
  cases heq
  rw [hlen] at hroom hround h
  obtain ⟨q, hpos', hlt, hfin⟩ :=
    finishfile_spec hsize (q := p + rootBlocks files) (by
      rw [hround]
      simp only [blocksFor, sizeofFile, maxDirEnts, maxfilesize, ndirect, nindirect,
        blksize] at hfew ⊢
      omega)
    (by omega) rfl hroom (.inl (by grind)) h
  rw [show blockof (p * blksize) = p from Nat.mul_div_cancel _ (by decide)] at hfin
  exact ⟨q, _, hpos', hlt, hround, hfin⟩

theorem finish_spec (hm : ∀ a, InMap a → m a = (finishdisk s').mem a) :
    ∃ q, Image nblocks files p q m := by
  have hlo := hw.lo
  obtain ⟨q, len, hpos', hq, hlen, hfin⟩ := finishdir_spec hw hpos hsize hfew hne h
  rw [finishdisk, hpos', show blockof (q * blksize) = q from Nat.mul_div_cancel _ (by decide)] at hm
  dsimp only at hm
  have hle := hfin.le
  have hroot : rootBlocks files ≤ 8 := by grind
  have hcover : files.length * sizeofFile ≤ rootBlocks files * blksize := by
    grind
  have hkept : ∀ a, InMap a → ¬ (bitmap ≤ a ∧ a < bitmap + blksize) → m a = s'.mem a :=
    fun a hmap ha => (hm a hmap).trans (clearBits_outside (by omega) ha)
  have hsuper : ∀ a, diskmap ≤ a → a + 4 ≤ bitmap → readWord m a = readWord s'.mem a := by
    intro a halo hahi
    refine readWord_congr fun x hxlo hxhi => hkept x ⟨by omega, ?_⟩ (by omega)
    grind
  have hlow : ∀ a, diskmap ≤ a → a < blockAddr 3 → ¬ (fSize sRoot ≤ a ∧ a < fSize sRoot + 4) →
      ¬ (fDirect sRoot 0 ≤ a ∧ a < fIndirect sRoot + 4) → s'.mem a = s.mem a := by
    intro a halo hahi hasize hadirect
    rw [hfin.frame a hasize hadirect, copy, if_neg]
    all_goals grind
  have hword : ∀ a, diskmap ≤ a →
    a + 4 ≤ fSize sRoot ∨ fSize sRoot + 4 ≤ a ∧ a + 4 ≤ fDirect sRoot 0 →
      readWord m a = readWord s.mem a := by
    intro a halo hahi
    have hend : a + 4 ≤ bitmap := by grind
    rw [hsuper a halo hend]
    refine readWord_congr fun x hxlo hxhi => hlow x (by omega) ?_ ?_ ?_
    all_goals grind
  have hdata : ∀ a, blockAddr 3 ≤ a → a < blockAddr (p + rootBlocks files) →
      m a = copy s.mem (blockAddr p) ents (files.length * sizeofFile) a := by
    intro a halo hahi
    rw [hkept a, hfin.frame a]
    all_goals grind
  refine ⟨q, (hword _ (by decide) (by decide)).trans hw.magic, hlo, hle, hq, hsize, hfew, ?_,
    fun b hb => ?_, ?_, ?_, fun i hi => ?_, fun j hj => ?_, fun j hjlo hjhi => ?_⟩
  · exact (hword _ (by decide) (by decide)).trans hw.count
  · have hbit : isFree m b ↔ isFree (clearBits q s'.mem) b := by
      rw [isFree, isFree, readWord_congr fun x hxlo hxhi => hm x ?_]
      grind
    rw [hbit, isFree_clearBits]
    refine and_iff_right (isFree_of_ones (fun a halo hahi => ?_) (by omega))
    have hout : diskmap ≤ a ∧ a < blockAddr 3 ∧ sRoot + sizeofFile ≤ a := by grind
    rw [hlow a hout.1 hout.2.1, hw.free a halo hahi]
    · grind
    · grind
  · exact (hword _ (by decide) (by decide)).trans hw.root
  · rw [hsuper _ (by decide) (by decide), hfin.size, hlen]
  · have hblock := hfin.blocks i (by rw [hlen, blocksFor_mul]; exact hi)
    rw [blockNo, if_pos (by grind)] at hblock ⊢
    rw [hsuper _ (by grind) (by grind), hblock]
  · refine (hw.placed j hj).moved (fun k hk => ?_) (fun a halo hahi => ?_) (by omega) (by omega)
    · have hin : sizeofFile * j + k < files.length * sizeofFile := by grind
      rw [hdata, copy, if_pos ⟨by omega, by omega⟩]
      · congr 1
        omega
      · have := blockAddr_le hlo
        omega
      · grind
    · rw [hdata a halo, copy, if_neg (by omega)]
      exact hahi.trans_le (blockAddr_le (by omega))
  · have hin : sizeofFile * j < rootBlocks files * blksize := by grind
    rw [hdata, copy, if_neg]
    · refine hw.empty _ (by omega) ?_
      grind
    · grind
    · have := blockAddr_le hlo
      omega
    · grind

end Finishdir

section Server

variable {name : List Byte}

section

variable (h : Image nblocks files p q m)
include h

theorem Image.nblocks_eq : Fs.nblocks m = nblocks := by
  have hmost := h.most
  rw [Fs.nblocks, h.count, BitVec.toNat_ofNat]
  omega

theorem Image.used (hi : i < q) : Used m i := by
  have hq := h.hi
  exact ⟨by rw [h.nblocks_eq]; omega, by rw [h.free i (by omega)]; omega⟩

theorem Image.sane : Sane m := by
  have hlo := h.lo
  have hmid := h.mid
  have hhi := h.hi
  have hmost := h.most
  refine ⟨by rw [h.nblocks_eq]; omega, ?_, fun b hb => (h.used ?_).taken⟩
  · rw [h.nblocks_eq]
    grind
  · rw [reserved, h.nblocks_eq] at hb
    omega

theorem Image.blockOk (hlo : 3 ≤ w.toNat) (hhi : w.toNat < q) : BlockOk m w := by
  refine ⟨?_, h.used hhi⟩
  rintro rfl
  exact absurd hlo (by decide)

theorem Image.toNat_block (hi : i < rootBlocks files) : (blockNo m sRoot i).toNat = p + i := by
  have hmid := h.mid
  have hhi := h.hi
  have hmost := h.most
  rw [h.blocks i hi, toNat_ofNat_lt (by omega)]

theorem Image.dirBlocks_eq : dirBlocks m sRoot = rootBlocks files := by
  rw [dirBlocks, h.size, Nat.mul_div_cancel _ (by decide)]

theorem Image.solid : Solid m sRoot := by
  have hlo := h.lo
  have hmid := h.mid
  have hfew : rootBlocks files ≤ 8 := by
    have := h.few
    grind
  refine ⟨fun x hxlo hxhi => ?_, by rw [h.size, Nat.mul_mod_left], ?_, fun i hi => ?_⟩
  · have hblock : blockOf x = 1 := by grind
    refine ⟨?_, by rw [hblock]; exact h.used (by omega)⟩
    grind
  · rw [h.size]
    grind
  · rw [h.dirBlocks_eq] at hi
    refine ⟨⟨by grind, fun hten => ?_⟩, ?_⟩
    · grind
    · have hblock := h.toNat_block hi
      exact h.blockOk (by omega) (by omega)

theorem Image.mem_entries {e : Nat} : e ∈ entries m sRoot ↔
    ∃ j < blkfiles * rootBlocks files, e = blockAddr p + sizeofFile * j := by
  rw [Fs.mem_entries, h.dirBlocks_eq]
  constructor
  · rintro ⟨k, hk, j, hj, rfl⟩
    refine ⟨blkfiles * k + j, ?_, ?_⟩
    · grind
    · rw [h.toNat_block hk]
      grind
  · rintro ⟨j, hj, rfl⟩
    have hk : j / blkfiles < rootBlocks files := Nat.div_lt_of_lt_mul hj
    refine ⟨j / blkfiles, hk, j % blkfiles, Nat.mod_lt _ (by decide), ?_⟩
    rw [h.toNat_block hk]
    grind

end

theorem lt_entries (hj : j < n) : j < blkfiles * blocksFor (n * sizeofFile) := by
  grind

theorem Image.tree (h : Image nblocks files p q m) :
    Tree m fun f => f = sRoot ∨ ∃ j < files.length, f = blockAddr p + sizeofFile * j where
  root := .inl rfl
  header := by
    rintro f (rfl | ⟨j, hj, rfl⟩)
    · exact h.solid.header
    · exact h.solid.header_entry h.sane (h.mem_entries.mpr ⟨j, lt_entries hj, rfl⟩)
  solid := by
    rintro d (rfl | ⟨j, hj, rfl⟩) hdir
    · exact h.solid
    · exact absurd ((h.placed j hj).type.symm.trans hdir) (by decide)
  child := by
    rintro d e (rfl | ⟨j, hj, rfl⟩) hdir he hsome
    · obtain ⟨j, hj, rfl⟩ := h.mem_entries.mp he
      refine .inr ⟨j, ?_, rfl⟩
      by_contra hge
      exact hsome (h.blank j (Nat.not_lt.mp hge) hj)
    · exact absurd ((h.placed j hj).type.symm.trans hdir) (by decide)

theorem cstring_inj {name name' : List Byte} (hzero : ∀ c ∈ name, c ≠ 0)
    (hzero' : ∀ c ∈ name', c ≠ 0) (h : cstring m a name = true) (h' : cstring m a name' = true) :
    name = name' := by
  induction name generalizing a name' with
  | nil =>
    rw [cstring, beq_iff_eq] at h
    cases name' with
    | nil => rfl
    | cons c cs =>
      rw [cstring, Bool.and_eq_true, beq_iff_eq] at h'
      exact absurd (h'.1.symm.trans h) (hzero' c List.mem_cons_self)
  | cons c cs ih =>
    rw [cstring, Bool.and_eq_true, beq_iff_eq] at h
    cases name' with
    | nil =>
      rw [cstring, beq_iff_eq] at h'
      exact absurd (h.1.symm.trans h') (hzero c List.mem_cons_self)
    | cons c' cs' =>
      rw [cstring, Bool.and_eq_true, beq_iff_eq] at h'
      rw [h.1.symm.trans h'.1, ih (fun d hd => hzero d (List.mem_cons_of_mem _ hd))
        (fun d hd => hzero' d (List.mem_cons_of_mem _ hd)) h.2 h'.2]

structure IsName (name : List Byte) : Prop where
  ne : name ≠ []
  zero : ∀ c ∈ name, c ≠ 0
  slash : ∀ c ∈ name, c ≠ slash

section

variable (h : Image nblocks files p q m) (hgood : ∀ x ∈ files, IsName x.last)
include h hgood

theorem Image.of_cstring
    (hname : IsName name) (hj : j < blkfiles * rootBlocks files)
    (hstr : cstring m (blockAddr p + sizeofFile * j) name = true) :
    ∃ hj : j < files.length, (files.get ⟨j, hj⟩).last = name := by
  have hlt : j < files.length := by
    by_contra hge
    have hblank := h.blank j (Nat.not_lt.mp hge) hj
    cases name with
    | nil => exact hname.ne rfl
    | cons c cs =>
      rw [cstring, Bool.and_eq_true, beq_iff_eq, hblank] at hstr
      exact hname.zero c List.mem_cons_self hstr.1.symm
  exact ⟨hlt, cstring_inj (hgood _ (List.get_mem _ _)).zero hname.zero (h.placed j hlt).name hstr⟩

theorem Image.lookup_file (hnames : (files.map Input.last).Nodup) (hj : j < files.length) :
    lookupIn m sRoot (files.get ⟨j, hj⟩).last = some (blockAddr p + sizeofFile * j) := by
  cases hfind : lookupIn m sRoot (files.get ⟨j, hj⟩).last with
  | none =>
    have hall := List.find?_eq_none.mp hfind (blockAddr p + sizeofFile * j)
      (h.mem_entries.mpr ⟨j, lt_entries hj, rfl⟩)
    exact absurd (h.placed j hj).name hall
  | some e =>
    obtain ⟨hmem, hstr⟩ := lookupIn_mem hfind
    obtain ⟨k, hk, rfl⟩ := h.mem_entries.mp hmem
    obtain ⟨hk', hlast⟩ := h.of_cstring hgood (hgood _ (List.get_mem _ _)) hk hstr
    have heq : k = j := by
      have hlen : (files.map Input.last).length = files.length := List.length_map _
      have hinj : (⟨k, hlen ▸ hk'⟩ : Fin (files.map Input.last).length) = ⟨j, hlen ▸ hj⟩ :=
        hnames.get_inj_iff.mp (by simpa using hlast)
      exact congrArg Fin.val hinj
    rw [heq]

theorem Image.lookup_other
    (hname : IsName name) (hother : ∀ x ∈ files, x.last ≠ name) : lookupIn m sRoot name = none := by
  cases hfind : lookupIn m sRoot name with
  | none => rfl
  | some e =>
    obtain ⟨hmem, hstr⟩ := lookupIn_mem hfind
    obtain ⟨k, hk, rfl⟩ := h.mem_entries.mp hmem
    obtain ⟨hk', hlast⟩ := h.of_cstring hgood hname hk hstr
    exact absurd hlast (hother _ (List.get_mem _ _))

end

theorem IsName.takeWhile_eq (h : IsName name) : name.takeWhile (· != Fs.slash) = name :=
  List.takeWhile_eq_self_iff.mpr fun c hc => bne_iff_ne.mpr (h.slash c hc)

theorem IsName.dropWhile_eq (h : IsName name) : name.dropWhile (· != Fs.slash) = [] :=
  List.dropWhile_eq_nil_iff.mpr fun c hc => bne_iff_ne.mpr (h.slash c hc)

theorem walkIn_nil (n dir f : Nat) : walkIn m n [] dir f = ⟨0, dir, f, []⟩ := by
  cases n <;> rfl

theorem walk_name (hdir : isDir m sRoot) (hname : IsName name) : walk m (slash :: name) =
    if maxnamelen ≤ name.length then ⟨-eBadPath, 0, 0, []⟩
    else match lookupIn m sRoot name with
      | some f => ⟨0, sRoot, f, []⟩
      | none => ⟨-eNotFound, sRoot, 0, name⟩ := by
  have hskip : skipSlash (slash :: name) = name := by
    cases name with
    | nil => exact absurd rfl hname.ne
    | cons c cs =>
      have hc : ¬ (c == slash) = true := by simpa using hname.slash c List.mem_cons_self
      simp [skipSlash, hc]
  rw [walk, hskip, List.length_cons, walkIn, if_neg hname.ne, hname.takeWhile_eq,
    hname.dropWhile_eq]
  dsimp only
  rw [if_pos hdir, show skipSlash [] = [] from rfl]
  split
  · rfl
  · cases lookupIn m sRoot name with
    | none => rfl
    | some f => exact walkIn_nil _ _ _

theorem Image.hasBlock (h : Image nblocks files p q m) {f : Nat} (hx : Placed m f q x)
    (hi : i < blocksFor x.data.length) : HasBlock m f i where
  slot := by
    refine ⟨?_, fun hten => ?_⟩
    · have := hx.fits
      grind
    · have hind := hx.indirect (by omega)
      exact h.blockOk hind.1 hind.2
  block := h.blockOk (hx.blocks i hi).1 (hx.blocks i hi).2

end Server

section Agreement

variable {garbage image other : Memory} {pte : Nat → Word} {t : Cache}

theorem image_of_fsformat (other : Memory) (pte : Nat → Word) (hne : files ≠ [])
    (hshort : ∀ x ∈ files, x.last.length < maxnamelen)
    (h : fsformat nblocks files garbage = some image) :
    ∃ p q, Image nblocks files p q (booted image other pte).mem := by
  rw [fsformat] at h
  split at h
  · cases h
  rename_i hblocks
  have hsize : nblocks ≤ 1024 := by omega
  obtain ⟨s1, hopen, h⟩ := Option.bind_eq_some_iff.mp h
  obtain ⟨s2, hwrite, h⟩ := Option.bind_eq_some_iff.mp h
  obtain ⟨s3, hdir, h⟩ := Option.bind_eq_some_iff.mp h
  cases h
  obtain ⟨hpos1, hw1⟩ := opendisk_spec hsize (fun a ha => if_pos ha) hopen
  obtain ⟨hfew, p, hpos2, hw2⟩ :=
    writefiles_spec hsize hshort hw1 hpos1 (Nat.zero_le _) hwrite
  obtain ⟨q, himage⟩ := finish_spec hw2 hpos2 hsize hfew hne hdir
    (m := (booted (finishdisk s3).mem other pte).mem) fun a ha => if_pos ha
  exact ⟨p, q, himage⟩

def Usable (t : Cache) (pn : Nat) : Prop := t.pte pn &&& pteP ≠ 0 ∧ t.pte pn &&& pteW ≠ 0

theorem ready_booted (disk other : Memory) (pte : Nat → Word) :
    Ready (Usable (booted disk other pte)) (booted disk other pte) where
  coherent := coherent_booted disk other pte
  pages := fun _ hpn => hpn.1
  super := show ptePuw &&& pteP ≠ 0 by decide
  bitmap := show ptePuw &&& pteP ≠ 0 by decide
  writable := by
    rintro va (hva | hva) hmapped
    · exact hva.2
    simp only [booted] at hmapped ⊢
    split
    · decide
    · rename_i hnot
      simp only [InMap, diskmap, disksize] at hva
      rw [if_neg hnot, if_pos (by grind)] at hmapped
      exact absurd rfl hmapped

/-- The server finds the file of the input, with its size, and reads what was in it. -/
def Finds (t : Cache) (x : Input) : Prop :=
  ∃ f t', (fileOpen (slash :: x.last)).run.run t = some (.ok f, t') ∧
    (readWord t'.mem (fSize f)).toNat = x.data.length ∧
    ∀ buf, Buffer (Usable t) buf x.data.length →
      ∃ t'', (fileRead f buf (readWord t'.mem (fSize f)) 0).run.run t' =
          some (.ok (readWord t'.mem (fSize f)), t'') ∧
        ∀ i (hi : i < x.data.length), t''.mem (buf + i) = x.data.get ⟨i, hi⟩

/-- What the server answers for a name that is not there. -/
def Misses (t : Cache) (name : List Byte) : Prop :=
  ∃ t', (fileOpen (slash :: name)).run.run t =
    some (.error (if name.length < maxnamelen then -eNotFound else -eBadPath), t')

section

variable (h : Image nblocks files p q t.mem) (ht : Ready (Usable t) t)
  (hgood : ∀ x ∈ files, IsName x.last)
include h ht hgood

theorem Image.finds (hnames : (files.map Input.last).Nodup)
    (hj : j < files.length) : Finds t (files.get ⟨j, hj⟩) := by
  have hx := h.placed j hj
  have hlookup := h.lookup_file hgood hnames hj
  have hname := hgood _ (List.get_mem files ⟨j, hj⟩)
  generalize files.get ⟨j, hj⟩ = x at hx hlookup hname
  generalize hf : blockAddr p + sizeofFile * j = f at hx hlookup
  have hheader : Header t.mem f := h.tree.header f (.inr ⟨j, hj, hf.symm⟩)
  have hlen : (BitVec.ofNat 32 x.data.length).toNat = x.data.length := by
    have := hx.fits
    grind
  have hwalk : walk t.mem (slash :: x.last) = ⟨0, sRoot, f, []⟩ := by
    rw [walk_name h.root hname, if_neg (Nat.not_le.mpr hx.short), hlookup]
  have hopen : Does (Usable t) True (fileOpen (slash :: x.last)) t.mem fun r m' =>
      r = .ok f ∧ m' = t.mem := by
    refine does_fileOpen h.sane h.tree (List.forall_mem_cons.mpr ⟨by decide, hname.zero⟩) ?_
    rw [hwalk]
    exact ⟨rfl, rfl⟩
  obtain ⟨r, t', hrun, ht', rfl, hmem⟩ := hopen.returns trivial ht rfl
  have hsize : readWord t'.mem (fSize f) = BitVec.ofNat 32 x.data.length := by
    rw [hmem]
    exact hx.size
  refine ⟨f, t', hrun, by rw [hsize, hlen], fun buf hbuf => ?_⟩
  have hall : readLen (readWord t.mem (fSize f)).toNat (0 : Word).toNat
      (readWord t.mem (fSize f)).toNat = x.data.length := by
    rw [hx.size, hlen, readLen]
    simp
  have hread : Does (Usable t) True (fileRead f buf (readWord t'.mem (fSize f)) 0) t.mem fun r m' =>
      r = .ok (readWord t'.mem (fSize f)) ∧ m' = readInto t.mem f 0 buf x.data.length := by
    rw [hmem]
    refine does_fileRead h.sane hheader ?_ (by decide) (fun i _ hi => ?_) ?_ ?_
    · rw [hx.size, hlen]
      have := hx.fits
      grind
    · rw [hall, show (0 : Word).toNat = 0 from rfl, Nat.zero_add] at hi
      refine h.hasBlock hx (lt_blocksFor.mpr ?_)
      have := Nat.div_mul_le_self i blksize
      omega
    · rw [hall]
      exact hbuf
    · rw [hall]
      exact ⟨by rw [hx.size], rfl⟩
  obtain ⟨r, t'', hrun', -, rfl, hmem'⟩ := hread.returns trivial ht' hmem
  refine ⟨t'', hrun', fun i hi => ?_⟩
  rw [hmem', readInto, if_pos ⟨by omega, by omega⟩, Nat.add_sub_cancel_left, Nat.zero_add]
  exact hx.bytes i hi

theorem Image.misses {name : List Byte} (hname : IsName name)
    (hother : ∀ x ∈ files, x.last ≠ name) : Misses t name := by
  have hopen : Does (Usable t) True (fileOpen (slash :: name)) t.mem fun r _ =>
      r = .error (if name.length < maxnamelen then -eNotFound else -eBadPath) := by
    refine does_fileOpen h.sane h.tree (List.forall_mem_cons.mpr ⟨by decide, hname.zero⟩) ?_
    rw [walk_name h.root hname, h.lookup_other hgood hname hother]
    by_cases hlong : maxnamelen ≤ name.length
    · rw [if_pos hlong, if_neg (Nat.not_lt.mpr hlong)]
      rfl
    · rw [if_neg hlong, if_pos (Nat.not_le.mp hlong)]
      rfl
  obtain ⟨r, t', hrun, -, rfl⟩ := hopen.returns trivial ht rfl
  exact ⟨t', hrun⟩

end

theorem Input.isName (hne : x.last ≠ []) (hzero : ∀ c ∈ x.last, c ≠ 0) : IsName x.last :=
  ⟨hne, hzero, fun c hc => by simpa using List.mem_takeWhile_imp (List.mem_reverse.mp hc)⟩

/-- If `fsformat` does not panic, the image passes the checks of `fs_init`, each file is found
under its name and read back, and no other name is there. -/
theorem fsformat_agrees (hne : files ≠ []) (hnames : (files.map Input.last).Nodup)
    (hgood : ∀ x ∈ files, x.last ≠ [] ∧ (∀ c ∈ x.last, c ≠ 0) ∧ x.last.length < maxnamelen)
    (h : fsformat nblocks files garbage = some image) :
    readWord (booted image other pte).mem (diskmap + blksize) = fsMagic ∧
      Sane (booted image other pte).mem ∧
      (∀ x ∈ files, Finds (booted image other pte) x) ∧
      ∀ name, IsName name → (∀ x ∈ files, x.last ≠ name) →
        Misses (booted image other pte) name := by
  obtain ⟨p, q, himage⟩ := image_of_fsformat other pte hne (fun x hx => (hgood x hx).2.2) h
  have hready := ready_booted image other pte
  have hisName : ∀ x ∈ files, IsName x.last := fun x hx =>
    Input.isName (hgood x hx).1 (hgood x hx).2.1
  refine ⟨himage.magic, himage.sane, fun x hx => ?_, fun name hname hother =>
    himage.misses hready hisName hname hother⟩
  obtain ⟨⟨j, hj⟩, rfl⟩ := List.get_of_mem hx
  exact himage.finds hready hisName hnames hj

/-- A disk of eight blocks with the file `a`. -/
theorem fsformat_agrees_small : ∃ image, fsformat 8 [⟨[0x61], [1, 2]⟩] (fun _ => 0) = some image ∧
      readWord (booted image (fun _ => 0) fun _ => ptePuw).mem (diskmap + blksize) = fsMagic ∧
      Sane (booted image (fun _ => 0) fun _ => ptePuw).mem ∧
      (∀ x ∈ [(⟨[0x61], [1, 2]⟩ : Input)], Finds (booted image (fun _ => 0) fun _ => ptePuw) x) ∧
      ∀ name, IsName name → (∀ x ∈ [(⟨[0x61], [1, 2]⟩ : Input)], x.last ≠ name) →
        Misses (booted image (fun _ => 0) fun _ => ptePuw) name := by
  have hsome : (fsformat 8 [⟨[0x61], [1, 2]⟩] fun _ => 0).isSome = true := by decide
  obtain ⟨image, himage⟩ := Option.isSome_iff_exists.mp hsome
  exact ⟨image, himage, fsformat_agrees (by decide) (by decide) (by decide) himage⟩

end Agreement

end Mit6828.Fs.Fsformat
