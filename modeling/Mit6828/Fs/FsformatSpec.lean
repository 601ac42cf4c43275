import Mit6828.Fs.CacheCoherence
import Mit6828.Fs.Fsformat
import Mit6828.Fs.Lookup
import Mit6828.Fs.Transfer

namespace Mit6828.Fs.Fsformat

open CacheCoherence (booted coherent_booted)
open Kern.Mmu Library.FlatMemory

variable {m m' : Memory} {s s' : Format} {nblocks n p q f start i a a' p' : Nat} {len bytes : Word}
  {x : Input}

section Loops

@[grind unfold]
def blocksFor (n : Nat) : Nat := (n + (blksize - 1)) / blksize

/-- Also for 0, where `n - 1` wraps around. -/
theorem toNat_roundup (hlen : len.toNat < 2 ^ 31) :
    (roundup len).toNat = blocksFor len.toNat * blksize := by
  have hone : (1 : Word).toNat = 1 := rfl
  have hblk : blkint.toNat = 4096 := rfl
  have hmod : ((len - 1) % blkint).toNat = (len - 1).toNat % 4096 := by
    rw [BitVec.toNat_umod, hblk]
  rw [roundup, BitVec.toNat_sub, BitVec.toNat_add, hmod, BitVec.toNat_sub, hone, hblk]
  simp only [blocksFor, blksize]
  omega

theorem lt_blocksFor : i < blocksFor n ↔ i * blksize < n := by
  grind

theorem alloc_eq_some {r : Nat × Format} (hlen : bytes.toNat < 2 ^ 31)
    (hpos : s.diskpos = p * blksize) (h : alloc nblocks bytes s = some r) :
    r = (p * blksize, { s with diskpos := (p + blocksFor bytes.toNat) * blksize }) ∧
      p + blocksFor bytes.toNat < nblocks := by
  rw [alloc, toNat_roundup hlen, hpos, ← Nat.add_mul, blockof,
    Nat.mul_div_cancel _ (by decide)] at h
  split at h
  · cases h
  · cases h
    exact ⟨rfl, by omega⟩

theorem numberBlocks_spec (p start n : Nat) (m : Memory) :
    (∀ i < n, readWord (numberBlocks p start n m) (p + 4 * i) = BitVec.ofNat 32 (start + i)) ∧
      ∀ a, ¬ (p ≤ a ∧ a < p + 4 * n) → numberBlocks p start n m a = m a := by
  induction n with
  | zero => exact ⟨fun i hi => absurd hi (Nat.not_lt_zero i), fun a _ => rfl⟩
  | succ n ih =>
    refine ⟨fun i hi => ?_, fun a ha => ?_⟩
    · rw [numberBlocks]
      by_cases hin : i = n
      · rw [hin, readWord_writeWord_self]
      · rw [readWord_writeWord_of_ne (by omega)]
        exact ih.1 i (by omega)
    · rw [numberBlocks, writeWord_outside (by omega)]
      exact ih.2 a (by omega)

end Loops

section Finish

theorem toNat_ofNat_lt (hn : n < 1024) : (BitVec.ofNat 32 n).toNat = n := by
  grind

theorem blockVa_ofNat (hn : n < 1024) : blockVa (BitVec.ofNat 32 n) = blockAddr n := by
  rw [blockVa_eq, toNat_ofNat_lt hn]
  rw [toNat_ofNat_lt hn]
  grind

/-- What `finishfile` does to the `struct File` at `f` and with the block after the last one in
use, which becomes the indirect block if there are ten direct ones. -/
structure Finished (f start q q' : Nat) (len : Word) (m m' : Memory) : Prop where
  le : q ≤ q'
  size : readWord m' (fSize f) = len
  blocks : ∀ i < blocksFor len.toNat, blockNo m' f i = BitVec.ofNat 32 (start + i)
  indirect : ndirect ≤ blocksFor len.toNat → readWord m' (fIndirect f) = BitVec.ofNat 32 q ∧ q < q'
  frame : ∀ a, ¬ (fSize f ≤ a ∧ a < fSize f + 4) → ¬ (fDirect f 0 ≤ a ∧ a < fIndirect f + 4) →
    ¬ (blockAddr q ≤ a ∧ a < blockAddr q') → m' a = m a

theorem finishfile_spec (hsize : nblocks ≤ 1024) (hlen : len.toNat < maxfilesize) (hq : 3 ≤ q)
    (hpos : s.diskpos = q * blksize) (hlt : q < nblocks)
    (hf : f + sizeofFile ≤ blockAddr q ∨ blockAddr (q + 1) ≤ f)
    (h : finishfile nblocks f start len s = some s') :
    ∃ q', s'.diskpos = q' * blksize ∧ q' < nblocks ∧ Finished f start q q' len s.mem s'.mem := by
  have hmax : blocksFor len.toNat ≤ ndirect + nindirect := by grind
  have hn : (roundup len).toNat / blksize = blocksFor len.toNat := by
    rw [toNat_roundup (by grind), Nat.mul_div_cancel _ (by decide)]
  rw [finishfile] at h
  dsimp only at h
  rw [hn] at h
  generalize hnum : numberBlocks (fDirect f 0) start (min (blocksFor len.toNat) ndirect)
    (writeWord s.mem (fSize f) len) = m1 at h
  obtain ⟨hdirect, hframe⟩ := numberBlocks_spec (fDirect f 0) start
    (min (blocksFor len.toNat) ndirect) (writeWord s.mem (fSize f) len)
  rw [hnum] at hdirect hframe
  have hsize1 : readWord m1 (fSize f) = len := by
    rw [← readWord_writeWord_self (m := s.mem) (a := fSize f) (w := len)]
    refine readWord_congr fun x hlo hhi => hframe x ?_
    grind
  have hframe1 : ∀ a, ¬ (fSize f ≤ a ∧ a < fSize f + 4) →
      ¬ (fDirect f 0 ≤ a ∧ a < fIndirect f + 4) → m1 a = s.mem a := by
    intro a hasize hadirect
    rw [hframe a, writeWord_outside hasize]
    grind
  split at h
  · rename_i hten
    obtain ⟨⟨ind, s1⟩, halloc, h⟩ := Option.bind_eq_some_iff.mp h
    obtain ⟨heq, hroom⟩ := @alloc_eq_some ⟨m1, s.diskpos⟩ _ _ _ _ (by decide) hpos halloc
    have hone : blocksFor blkint.toNat = 1 := rfl
    rw [hone] at heq hroom
    cases heq
    cases h
    dsimp only
    rw [show diskmap + q * blksize = blockAddr q from rfl,
      show blockof (q * blksize) = q from Nat.mul_div_cancel _ (by decide)]
    obtain ⟨hind, hframe2⟩ := numberBlocks_spec (blockAddr q) (start + ndirect)
      (blocksFor len.toNat - ndirect) (writeWord m1 (fIndirect f) (BitVec.ofNat 32 q))
    generalize numberBlocks (blockAddr q) (start + ndirect) (blocksFor len.toNat - ndirect)
      (writeWord m1 (fIndirect f) (BitVec.ofNat 32 q)) = m2 at hind hframe2
    have hin : ∀ a, f ≤ a → a < f + sizeofFile →
        ¬ (blockAddr q ≤ a ∧ a < blockAddr q + 4 * (blocksFor len.toNat - ndirect)) := by
      intro a hlo hhi
      grind
    have hindword : readWord m2 (fIndirect f) = BitVec.ofNat 32 q := by
      refine Eq.trans (readWord_congr fun x hlo hhi => hframe2 x (hin x ?_ ?_))
        readWord_writeWord_self
      · grind
      · grind
    have hfield : ∀ a, f ≤ a → a + 4 ≤ fIndirect f → readWord m2 a = readWord m1 a := by
      intro a hlo hhi
      simp only [fIndirect] at hhi
      refine readWord_congr fun x hxlo hxhi => ?_
      rw [hframe2 x (hin x (by omega) (by grind)), writeWord_outside]
      grind
    refine ⟨q + 1, rfl, hroom, by omega, ?_, fun i hi => ?_, fun _ => ⟨hindword, by omega⟩,
      fun a hasize hadirect hablock => ?_⟩
    · rw [hfield _ (by grind) (by grind), hsize1]
    · rw [blockNo]
      split
      · rename_i hlow
        rw [hfield _ (by grind)
          (by grind)]
        exact hdirect i (by omega)
      rename_i hhigh
      have hne : BitVec.ofNat 32 q ≠ 0 := by
        intro hzero
        have := congrArg BitVec.toNat hzero
        grind
      rw [hindword, if_neg hne, blockVa_ofNat (by omega), hind (i - ndirect) (by omega)]
      congr 1
      omega
    · rw [hframe2 a, writeWord_outside, hframe1 a hasize hadirect]
      · grind
      · grind
  · rename_i hten
    cases h
    refine ⟨q, hpos, hlt, Nat.le_refl q, hsize1, fun i hi => ?_, fun hge => by omega,
      fun a hasize hadirect _ => hframe1 a hasize hadirect⟩
    rw [blockNo, if_pos (by omega)]
    exact hdirect i (by omega)

end Finish

section Placed

/-- The `struct File` at `f` is the one of the input, and its blocks are among those from block 3
to before block `p`. -/
structure Placed (m : Memory) (f p : Nat) (x : Input) : Prop where
  short : x.last.length < maxnamelen
  fits : x.data.length < maxfilesize
  name : cstring m f x.last = true
  type : readWord m (fType f) = ftypeReg
  size : readWord m (fSize f) = BitVec.ofNat 32 x.data.length
  indirect : ndirect < blocksFor x.data.length →
    3 ≤ (readWord m (fIndirect f)).toNat ∧ (readWord m (fIndirect f)).toNat < p
  blocks : ∀ i < blocksFor x.data.length, 3 ≤ (blockNo m f i).toNat ∧ (blockNo m f i).toNat < p
  bytes : ∀ i (hi : i < x.data.length), byteAt m f i = x.data.get ⟨i, hi⟩

theorem cstring_congr {name : List Byte} (h : ∀ j ≤ name.length, m' (a' + j) = m (a + j)) :
    cstring m' a' name = cstring m a name := by
  induction name generalizing a a' with
  | nil =>
    have h0 := h 0 (Nat.le_refl _)
    rw [Nat.add_zero, Nat.add_zero] at h0
    rw [cstring, cstring, h0]
  | cons c cs ih =>
    have h0 := h 0 (Nat.zero_le _)
    rw [Nat.add_zero, Nat.add_zero] at h0
    rw [cstring, cstring, h0]
    congr 1
    refine ih fun j hj => ?_
    have hj := h (j + 1) (by simpa using hj)
    rw [Nat.add_comm j 1] at hj
    simpa only [Nat.add_assoc] using hj

theorem readWord_moved (h : ∀ j < 4, m' (a' + j) = m (a + j)) : readWord m' a' = readWord m a := by
  have h0 := h 0 (by omega)
  rw [Nat.add_zero, Nat.add_zero] at h0
  rw [readWord, readWord, h0, h 1 (by omega), h 2 (by omega), h 3 (by omega)]

theorem Placed.moved {f' : Nat} (h : Placed m f p x)
    (hstruct : ∀ j < sizeofFile, m' (f' + j) = m (f + j))
    (hblocks : ∀ a, blockAddr 3 ≤ a → a < blockAddr p → m' a = m a) (hp : p ≤ p')
    (hp' : p' ≤ 1024) :
    Placed m' f' p' x := by
  have hfield : ∀ k, k + 4 ≤ sizeofFile → readWord m' (f' + k) = readWord m (f + k) := fun k hk =>
    readWord_moved fun j hj => by
      rw [Nat.add_assoc, Nat.add_assoc]
      exact hstruct (k + j) (by omega)
  have hind : readWord m' (fIndirect f') = readWord m (fIndirect f) := hfield 176 (by decide)
  have hno : ∀ i < blocksFor x.data.length, blockNo m' f' i = blockNo m f i := by
    intro i hi
    rw [blockNo, blockNo, hind]
    split
    · rename_i hlt
      simp only [fDirect, Nat.add_assoc]
      exact hfield _ (by simp only [ndirect] at hlt; simp only [sizeofFile]; omega)
    rename_i hge
    split
    · rfl
    have hin := h.indirect (by omega)
    have hfits := h.fits
    rw [blockVa_eq (by grind)]
    refine readWord_moved fun j hj => hblocks _ ?_ ?_
    · simp only [blockAddr]
      have := Nat.mul_le_mul_right blksize hin.1
      omega
    · grind
  refine ⟨h.short, h.fits, ?_, ?_, ?_, fun hi => ?_, fun i hi => ?_, fun i hi => ?_⟩
  · rw [cstring_congr fun j hj => hstruct j ?_]
    · exact h.name
    · have := h.short
      grind
  · exact (hfield 132 (by decide)).trans h.type
  · exact (hfield 128 (by decide)).trans h.size
  · rw [hind]
    have := h.indirect hi
    omega
  · rw [hno i hi]
    have := h.blocks i hi
    omega
  · have hlt : i / blksize < blocksFor x.data.length :=
      lt_blocksFor.mpr (by have := Nat.div_mul_le_self i blksize; omega)
    have hin := h.blocks _ hlt
    rw [byteAt, hno _ hlt, hblocks]
    · exact h.bytes i hi
    · have := Nat.mul_le_mul_right blksize hin.1
      grind
    · have := Nat.mul_le_mul_right blksize (Nat.succ_le_of_lt hin.2)
      grind

end Placed

/-- The memory after some of the files: the blocks before `p` are taken. -/
structure Written (nblocks : Nat) (done : List Input) (p : Nat) (m : Memory) : Prop where
  lo : 3 ≤ p
  hi : p < nblocks
  magic : readWord m (diskmap + blksize) = fsMagic
  count : readWord m sNblocks = BitVec.ofNat 32 nblocks
  root : readWord m (fType sRoot) = ftypeDir
  free : ∀ a, bitmap ≤ a → a < bitmap + blksize → m a = 0xFF
  empty : ∀ a, blockAddr p ≤ a → a < diskmap + disksize → m a = 0
  placed : ∀ j (hj : j < done.length), Placed m (ents + sizeofFile * j) p (done.get ⟨j, hj⟩)

section Writefile

variable {done : List Input}

theorem Written.kept (h : Written nblocks done p m) (hlast : done.length ≤ maxDirEnts)
    (hsize : nblocks ≤ 1024) (hp : p ≤ p') (hp' : p' < nblocks)
    (hframe : ∀ a, ¬ (ents + sizeofFile * done.length ≤ a ∧ a < ents + sizeofFile * maxDirEnts) →
      ¬ (blockAddr p ≤ a ∧ a < blockAddr p') → m' a = m a) : Written nblocks done p' m' := by
  have hlo := h.lo
  have hbelow : ∀ a, diskmap ≤ a → a < blockAddr 3 → m' a = m a := by
    intro a halo hahi
    apply hframe
    · grind
    · grind
  have hword : ∀ a, diskmap ≤ a → a + 4 ≤ blockAddr 3 → readWord m' a = readWord m a :=
    fun a halo hahi => readWord_congr fun x hxlo hxhi => hbelow x (by omega) (by omega)
  refine ⟨by omega, hp', (hword _ (by decide) (by decide)).trans h.magic,
    (hword _ (by decide) (by decide)).trans h.count, (hword _ (by decide) (by decide)).trans h.root,
    fun a halo hahi => ?_, fun a halo hahi => ?_, fun j hj => ?_⟩
  · rw [hbelow a, h.free a halo hahi]
    · grind
    · grind
  · rw [hframe a, h.empty a _ hahi]
    · have := Nat.mul_le_mul_right blksize hp
      grind
    · grind
    · omega
  · refine (h.placed j hj).moved (fun k hk => hframe _ ?_ ?_) (fun a halo hahi => hframe a ?_ ?_) hp
      (by omega)
    · grind
    · grind
    · grind
    · omega

theorem cstring_writeBytes (m : Memory) (a : Nat) (name : List Byte) :
    cstring (writeBytes m a (name ++ [0])) a name = true := by
  suffices h : ∀ (done rest : List Byte),
      cstring (writeBytes m a (done ++ rest ++ [0])) (a + done.length) rest = true from h [] name
  intro done rest
  induction rest generalizing done with
  | nil =>
    rw [cstring, writeBytes, if_pos ⟨by omega, by simp⟩]
    simp
  | cons c cs ih =>
    rw [cstring, Bool.and_eq_true]
    refine ⟨?_, ?_⟩
    · rw [writeBytes, if_pos ⟨by omega, by simp⟩]
      simp
    · have hrest := ih (done ++ [c])
      rw [List.append_assoc done [c] cs, List.length_append] at hrest
      simpa [Nat.add_assoc] using hrest

/-- The stores of `writefile` before `finishfile`. -/
def entered (m : Memory) (f p : Nat) (x : Input) : Memory :=
  writeBytes (writeWord (writeBytes m f (x.last ++ [0])) (fType f) ftypeReg) (blockAddr p) x.data

theorem entered_outside (hshort : x.last.length < maxnamelen)
    (hstruct : ¬ (f ≤ a ∧ a < f + sizeofFile))
    (hblock : ¬ (blockAddr p ≤ a ∧ a < blockAddr p + x.data.length)) : entered m f p x a = m a := by
  rw [entered, writeBytes, if_neg hblock, writeWord_outside, writeBytes, if_neg]
  · simp only [List.length_append, List.length_singleton]
    grind
  · grind

theorem toNat_length (hfits : x.data.length < maxfilesize) :
    (BitVec.ofNat 32 x.data.length).toNat = x.data.length := by
  rw [BitVec.toNat_ofNat]
  grind

theorem placed_new {q' : Nat} (hshort : x.last.length < maxnamelen)
    (hfits : x.data.length < maxfilesize) (hf : f + sizeofFile ≤ diskmap) (hp : 3 ≤ p)
    (hq' : q' ≤ 1024)
    (h : Finished f p (p + blocksFor x.data.length) q' (BitVec.ofNat 32 x.data.length)
      (entered m f p x) m') : Placed m' f q' x := by
  have hlen := toNat_length hfits
  have hle := h.le
  obtain ⟨hblocks, hindirect⟩ := And.intro h.blocks h.indirect
  rw [hlen] at hblocks hindirect
  have hlow : ∀ a, f ≤ a → a < f + sizeofFile → ∀ q, ¬ (blockAddr q ≤ a ∧ a < blockAddr q') ∧
      ¬ (blockAddr q ≤ a ∧ a < blockAddr q + x.data.length) := by
    intro a halo hahi q
    grind
  refine ⟨hshort, hfits, ?_, ?_, h.size, fun hi => ?_, fun i hi => ?_, fun i hi => ?_⟩
  · rw [cstring_congr (m := writeBytes m f (x.last ++ [0])) fun j hj => ?_]
    · exact cstring_writeBytes m f x.last
    · have hj' : j < maxnamelen := by omega
      simp only [maxnamelen] at hj'
      have hbelow := hlow (f + j) (by omega) (by grind)
      rw [h.frame, entered, writeBytes, if_neg (hbelow p).2, writeWord_outside]
      · grind
      · grind
      · grind
      · exact (hbelow _).1
  · have hself : readWord (writeWord (writeBytes m f (x.last ++ [0])) (fType f) ftypeReg)
      (fType f) = ftypeReg := readWord_writeWord_self
    refine Eq.trans (readWord_congr fun a halo hahi => ?_) hself
    simp only [fType] at halo hahi
    have hbelow := hlow a (by omega) (by grind)
    rw [h.frame, entered, writeBytes, if_neg (hbelow p).2]
    · grind
    · grind
    · exact (hbelow _).1
  · obtain ⟨hind, hlt⟩ := hindirect (by omega)
    grind
  · grind
  · have hlt : i / blksize < blocksFor x.data.length :=
      lt_blocksFor.mpr (by have := Nat.div_mul_le_self i blksize; omega)
    have hbyte : blockAddr (p + i / blksize) + i % blksize = blockAddr p + i := by grind
    rw [byteAt, hblocks _ hlt, toNat_ofNat_lt (by omega), hbyte, h.frame, entered, writeBytes,
      if_pos ⟨by omega, by omega⟩, Nat.add_sub_cancel_left, List.getD_eq_getElem _ _ hi]
    · rfl
    · grind
    · grind
    · grind

theorem writefile_spec (hsize : nblocks ≤ 1024) (hshort : x.last.length < maxnamelen)
    (hw : Written nblocks done p s.mem) (hpos : s.diskpos = p * blksize)
    (h : writefile nblocks done.length x s = some s') :
    done.length < maxDirEnts ∧
      ∃ p', s'.diskpos = p' * blksize ∧ Written nblocks (done ++ [x]) p' s'.mem := by
  have hlo := hw.lo
  rw [writefile] at h
  split at h
  · cases h
  rename_i hfits
  have hfits : x.data.length < maxfilesize := Nat.not_le.mp hfits
  have hlen := toNat_length hfits
  obtain ⟨⟨f, s1⟩, hadd, h⟩ := Option.bind_eq_some_iff.mp h
  rw [diradd] at hadd
  split at hadd
  · cases hadd
  rename_i hroom
  cases hadd
  obtain ⟨⟨start, s2⟩, halloc, h⟩ := Option.bind_eq_some_iff.mp h
  obtain ⟨heq, hlt⟩ := alloc_eq_some (by
    rw [hlen]
    simp only [maxfilesize, ndirect, nindirect, blksize] at hfits
    omega) (by exact hpos) halloc
  cases heq
  rw [hlen] at hlt h
  dsimp only at h
  have hf : ents + sizeofFile * done.length + sizeofFile ≤ diskmap := by grind
  obtain ⟨q', hpos', hlt', hfin⟩ := finishfile_spec hsize (by rw [hlen]; exact hfits) (by omega) rfl
    hlt (.inl (by grind)) h
  rw [show blockof (p * blksize) = p from Nat.mul_div_cancel _ (by decide)] at hfin
  have hle := hfin.le
  have hkept : Written nblocks done q' s'.mem := by
    refine hw.kept (by omega) hsize (by omega) hlt' fun a hastruct hablock => ?_
    have hout : ¬ (ents + sizeofFile * done.length ≤ a ∧
        a < ents + sizeofFile * done.length + sizeofFile) := by
      grind
    rw [hfin.frame a]
    · refine entered_outside hshort hout ?_
      have := Nat.mul_le_mul_right blksize hle
      rw [Nat.add_mul] at this
      grind
    · grind
    · grind
    · exact fun hin => hablock ⟨(blockAddr_le (Nat.le_add_right _ _)).trans hin.1, hin.2⟩
  refine ⟨by omega, q', hpos', { hkept with placed := fun j hj => ?_ }⟩
  rw [List.length_append, List.length_singleton] at hj
  by_cases hnew : j = done.length
  · subst hnew
    rw [List.get_eq_getElem, List.getElem_concat_length rfl]
    exact placed_new hshort hfits hf hlo (by omega) hfin
  · have hj : j < done.length := by omega
    have hold := hkept.placed j hj
    rw [List.get_eq_getElem] at hold ⊢
    rwa [List.getElem_append_left hj]

theorem writefiles_spec {files : List Input} (hsize : nblocks ≤ 1024)
    (hshort : ∀ x ∈ files, x.last.length < maxnamelen) (hw : Written nblocks done p s.mem)
    (hpos : s.diskpos = p * blksize) (hlen : done.length ≤ maxDirEnts)
    (h : writefiles nblocks done.length files s = some s') :
    (done ++ files).length ≤ maxDirEnts ∧
      ∃ p', s'.diskpos = p' * blksize ∧ Written nblocks (done ++ files) p' s'.mem := by
  induction files generalizing done p s with
  | nil =>
    cases h
    rw [List.append_nil]
    exact ⟨hlen, p, hpos, hw⟩
  | cons x xs ih =>
    obtain ⟨s1, hfirst, hrest⟩ := Option.bind_eq_some_iff.mp h
    obtain ⟨hroom, p1, hpos1, hw1⟩ :=
      writefile_spec hsize (hshort x List.mem_cons_self) hw hpos hfirst
    rw [show done.length + 1 = (done ++ [x]).length by simp] at hrest
    have hall := ih (fun y hy => hshort y (List.mem_cons_of_mem _ hy)) hw1 hpos1
      (by grind) hrest
    rwa [List.append_assoc, List.singleton_append] at hall

end Writefile

end Mit6828.Fs.Fsformat
