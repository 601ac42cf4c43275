import Mit6828.Fs.Layout

namespace Mit6828.Fs

open Kern.Mmu Library Library.FlatMemory

variable {m m' : Memory} {P : Nat → Prop} {ok : Prop} {f buf off count k n : Nat} {pos fin : Word}

/-- The bytes that the turn of the loop after `k` bytes moves. -/
def piece (off count k : Nat) : Nat := min (blksize - (off + k) % blksize) (count - k)

theorem piece_pos (hk : k < count) : 0 < piece off count k := by
  have := Nat.mod_lt (off + k) (show 0 < blksize by decide)
  rw [piece]
  omega

theorem piece_le (off count k : Nat) : piece off count k ≤ count - k ∧
    (off + k) % blksize + piece off count k ≤ blksize := by
  have := Nat.mod_lt (off + k) (show 0 < blksize by decide)
  rw [piece]
  omega

theorem toNat_chunk (hpos : pos.toNat = off + k) (hfin : fin.toNat = off + count) (hk : k < count)
    (hbound : off + count < 2 ^ 31) : (chunk pos fin).toNat = piece off count k := by
  have hmod := Nat.mod_lt (off + k) (show 0 < blksize by decide)
  have hrem : (blkint - pos.srem blkint).toNat = blksize - (off + k) % blksize := by
    have hsrem := toNat_srem_blkint (w := pos) (by omega)
    rw [hpos] at hsrem
    have hblk : blkint.toNat = blksize := rfl
    rw [BitVec.toNat_sub_of_le (by rw [BitVec.le_def, hsrem, hblk]; omega), hsrem, hblk]
  have hrest : (fin - pos).toNat = count - k := by grind
  rw [chunk, piece]
  split
  · rename_i hle
    rw [BitVec.le_def] at hle
    omega
  · rename_i hle
    rw [BitVec.le_def] at hle
    omega

theorem inBlock_eq {blk : Nat} (hpos : pos.toNat < 2 ^ 31) (hblk : blk + blksize ≤ 2 ^ 32) :
    inBlock blk pos = blk + pos.toNat % blksize := by
  have hmod := Nat.mod_lt pos.toNat (show 0 < blksize by decide)
  rw [inBlock, BitVec.toNat_add, BitVec.toNat_ofNat, toNat_srem_blkint hpos,
    Nat.mod_eq_of_lt (a := blk) (by omega), Nat.mod_eq_of_lt (by omega)]

theorem does_transfer {J : Nat → Memory → Prop} {Q : Except Word Unit → Memory → Prop}
    {move : Nat → Nat → Nat → FsM Unit} (hbound : off + count < 2 ^ 31)
    (hstep : ∀ k m, k < count → J k m →
      Does P ok (fileGetBlock f (BitVec.ofNat 32 ((off + k) / blksize))) m fun r m =>
        match r with
        | .ok blk => blk + blksize ≤ 2 ^ 32 ∧
            Does P ok (move (buf + k) (blk + (off + k) % blksize) (piece off count k)) m fun r m =>
              match r with
              | .ok _ => J (k + piece off count k) m
              | .error e => Q (.error e) m
        | .error e => Q (.error e) m)
    (hdone : ∀ m, J count m → Q (.ok ()) m) (hfin : fin.toNat = off + count)
    (hpos : pos.toNat = off + k) (hk : k ≤ count) (hn : count - k ≤ n) (hm : J k m) :
    Does P ok (transfer f fin move n pos (buf + k)) m Q := by
  induction n generalizing k pos m with
  | zero =>
    have hkc : k = count := by omega
    exact .pure (hdone m (hkc ▸ hm))
  | succ n ih =>
    rw [transfer]
    by_cases hkc : k = count
    · rw [if_neg (by rw [BitVec.lt_def]; omega)]
      exact .pure (hdone m (hkc ▸ hm))
    have hlt : k < count := by omega
    have hdiv : pos.sdiv blkint = BitVec.ofNat 32 ((off + k) / blksize) := by
      apply BitVec.eq_of_toNat_eq
      rw [toNat_sdiv_blkint (by omega), hpos, BitVec.toNat_ofNat, Nat.mod_eq_of_lt]
      have := Nat.div_le_self (off + k) blksize
      omega
    have hchunk := toNat_chunk hpos hfin hlt hbound
    have hpiece := piece_le off count k
    rw [if_pos (by rw [BitVec.lt_def]; omega), hdiv]
    refine .bind ((hstep k m hlt hm).mono fun r m1 hr => ?_)
    cases r with
    | error e => exact hr
    | ok blk =>
      obtain ⟨hblk, hmove⟩ := hr
      refine .bind ?_
      rw [inBlock_eq (by omega) hblk, hchunk, hpos]
      refine hmove.mono fun r m2 hr => ?_
      cases r with
      | error e => exact hr
      | ok _ =>
        rw [Nat.add_assoc]
        have hpos' : 0 < piece off count k := piece_pos hlt
        refine ih ?_ (by omega) (by omega) hr
        grind

section SameDisk

def SameDisk (m m' : Memory) : Prop := ∀ x, InMap x → m' x = m x

variable {a b i : Nat} {w : Word} (h : SameDisk m m')
include h

theorem SameDisk.readWord (ha : InMap a) (ha' : InMap (a + 3)) : readWord m' a = readWord m a :=
  readWord_congr fun x hlo hhi => h x ⟨by have := ha.1; omega, by have := ha'.2; omega⟩

theorem SameDisk.nblocks : nblocks m' = nblocks m := by
  rw [Fs.nblocks, Fs.nblocks, h.readWord ⟨by decide, by decide⟩ ⟨by decide, by decide⟩]

theorem SameDisk.isFree (hb : b < disksize / blksize) : isFree m' b ↔ isFree m b := by
  rw [Fs.isFree, Fs.isFree, h.readWord]
  all_goals grind

theorem SameDisk.field (hf : Header m f) (hlo : f ≤ a)
    (hhi : a + 4 ≤ f + sizeofFile) : FlatMemory.readWord m' a = FlatMemory.readWord m a :=
  h.readWord (hf a hlo (by omega)).1 (hf (a + 3) (by omega) (by omega)).1

theorem SameDisk.indirect (hf : Header m f) :
    FlatMemory.readWord m' (fIndirect f) = FlatMemory.readWord m (fIndirect f) :=
  h.field hf (by grind) (by grind)

variable (hsane : Sane m)
include hsane

theorem SameDisk.used (hb : Used m b) : Used m' b where
  lt := by rw [h.nblocks]; exact hb.lt
  taken := by rw [h.isFree (Nat.lt_of_lt_of_le hb.lt hsane.fits)]; exact hb.taken

theorem SameDisk.sane : Sane m' where
  more := by rw [h.nblocks]; exact hsane.more
  fits := by rw [h.nblocks]; exact hsane.fits
  reserved := by
    intro b hb
    rw [Fs.reserved, h.nblocks] at hb
    rw [h.isFree]
    · exact hsane.reserved b hb
    · have hfits := hsane.fits
      grind

theorem SameDisk.live {x : Nat} (hx : Live m x) : Live m' x :=
  ⟨hx.1, h.used hsane hx.2⟩

theorem SameDisk.header (hf : Header m f) : Header m' f :=
  fun x hlo hhi => h.live hsane (hf x hlo hhi)

theorem SameDisk.blockOk (hw : BlockOk m w) : BlockOk m' w :=
  ⟨hw.ne, h.used hsane hw.used⟩

variable (hf : Header m f)
include hf

theorem SameDisk.hasSlot (hslot : HasSlot m f i) : HasSlot m' f i where
  lt := hslot.lt
  indirect := fun hi => by
    rw [h.indirect hf]
    exact h.blockOk hsane (hslot.indirect hi)

theorem SameDisk.blockNo (hslot : HasSlot m f i) : blockNo m' f i = blockNo m f i := by
  rw [hslot.blockNo_eq hsane, (h.hasSlot hsane hf hslot).blockNo_eq (h.sane hsane)]
  have hsame : slotVa m' f i = slotVa m f i := by
    rw [slotVa, slotVa, h.indirect hf]
  rw [hsame]
  exact h.readWord (hslot.live hsane hf (Nat.le_refl _) (by omega)).1
    (hslot.live hsane hf (by omega) (by omega)).1

theorem SameDisk.hasBlock (hb : HasBlock m f i) : HasBlock m' f i where
  slot := h.hasSlot hsane hf hb.slot
  block := by
    rw [h.blockNo hsane hf hb.slot]
    exact h.blockOk hsane hb.block

end SameDisk

def byteAt (m : Memory) (f x : Nat) : Byte :=
  m (blockAddr (blockNo m f (x / blksize)).toNat + x % blksize)

/-- The first `k` bytes of `f` from `off` on have been read to `buf`. -/
def readInto (m : Memory) (f off buf k : Nat) : Memory :=
  fun a => if buf ≤ a ∧ a < buf + k then byteAt m f (off + (a - buf)) else m a

def Buffer (P : Nat → Prop) (buf n : Nat) : Prop :=
  ∀ x, buf ≤ x → x < buf + n → P (x / blksize) ∧ ¬ InMap x

theorem sameDisk_readInto (hbuf : Buffer P buf count) (hk : k ≤ count) :
    SameDisk m (readInto m f off buf k) := by
  intro x hx
  rw [readInto, if_neg]
  rintro ⟨hlo, hhi⟩
  exact (hbuf x hlo (by omega)).2 hx

theorem HasBlock.addr_add_le {i : Nat} (h : HasBlock m f i) (hsane : Sane m) :
    blockAddr (blockNo m f i).toNat + blksize ≤ 2 ^ 32 := by
  have hlt := h.block.used.lt
  have hfits := hsane.fits
  grind

theorem copy_readInto (hb : HasBlock m f ((off + k) / blksize)) (hsane : Sane m)
    (hbuf : Buffer P buf count) (hk : k < count) :
    copy (readInto m f off buf k) (buf + k)
      (blockAddr (blockNo m f ((off + k) / blksize)).toNat + (off + k) % blksize)
      (piece off count k) = readInto m f off buf (k + piece off count k) := by
  have hpiece := piece_le off count k
  funext a
  by_cases hin : buf + k ≤ a ∧ a < buf + k + piece off count k
  · obtain ⟨hlo, hhi⟩ := hin
    have hdiv : (off + (a - buf)) / blksize = (off + k) / blksize := by grind
    have hmod : (off + (a - buf)) % blksize = (off + k) % blksize + (a - (buf + k)) := by grind
    have hlive : InMap (blockAddr (blockNo m f ((off + k) / blksize)).toNat +
        (off + k) % blksize + (a - (buf + k))) :=
      (hb.block.live hsane (by omega) (by omega)).1
    rw [copy, if_pos ⟨hlo, hhi⟩, sameDisk_readInto hbuf (Nat.le_of_lt hk) _ hlive, readInto,
      if_pos ⟨by omega, by omega⟩, byteAt, hdiv, hmod, Nat.add_assoc]
  · rw [copy, if_neg hin, readInto, readInto]
    by_cases hlow : buf ≤ a ∧ a < buf + k
    · rw [if_pos hlow, if_pos ⟨hlow.1, by omega⟩]
    · rw [if_neg hlow, if_neg (by omega)]

def readLen (size off count : Nat) : Nat := min count (size - off)

theorem does_fileRead {Q : Except Word Word → Memory → Prop} {c offset : Word} (hsane : Sane m)
    (hf : Header m f) (hsize : (readWord m (fSize f)).toNat < 2 ^ 31) (hoff : offset.toNat < 2 ^ 31)
    (hblocks : ∀ x, offset.toNat ≤ x →
      x < offset.toNat + readLen (readWord m (fSize f)).toNat offset.toNat c.toNat →
      HasBlock m f (x / blksize))
    (hbuf : Buffer P buf (readLen (readWord m (fSize f)).toNat offset.toNat c.toNat))
    (h : Q (.ok (BitVec.ofNat 32 (readLen (readWord m (fSize f)).toNat offset.toNat c.toNat)))
      (readInto m f offset.toNat buf (readLen (readWord m (fSize f)).toNat offset.toNat c.toNat))) :
    Does P ok (fileRead f buf c offset) m Q := by
  let size := readWord m (fSize f)
  have hsize : size.toNat < 2 ^ 31 := hsize
  refine .bind (does_loadField hsane hf (by grind)
    (by grind) ?_)
  change Does P ok (if size.sle offset then _ else _) m Q
  have hle : size.sle offset = decide (size.toNat ≤ offset.toNat) := by
    rw [BitVec.sle_eq_decide, BitVec.toInt_eq_toNat_of_lt (by omega),
      BitVec.toInt_eq_toNat_of_lt (by omega)]
    simp
  by_cases hend : size.toNat ≤ offset.toNat
  · have hlen : readLen size.toNat offset.toNat c.toNat = 0 := by
      rw [readLen]
      omega
    rw [hlen] at h
    rw [hle, if_pos (by simpa using hend)]
    refine .pure ?_
    have hsame : readInto m f offset.toNat buf 0 = m := by
      funext a
      rw [readInto, if_neg (by omega)]
    rwa [hsame] at h
  · rw [hle, if_neg (by simpa using hend)]
    have hsub : (size - offset).toNat = size.toNat - offset.toNat :=
      BitVec.toNat_sub_of_le (by rw [BitVec.le_def]; omega)
    have hcount : (if c ≤ size - offset then c else size - offset).toNat =
        readLen size.toNat offset.toNat c.toNat := by
      rw [readLen]
      split
      · rename_i hc
        rw [BitVec.le_def] at hc
        omega
      · rename_i hc
        rw [BitVec.le_def] at hc
        omega
    generalize (if c ≤ size - offset then c else size - offset) = c' at hcount
    generalize hn : readLen size.toNat offset.toNat c.toNat = len at hcount
    have hlen : len ≤ size.toNat - offset.toNat := by
      rw [← hn, readLen]
      omega
    rw [show BitVec.ofNat 32 (readLen (readWord m (fSize f)).toNat offset.toNat c.toNat) = c' by
      rw [hn, ← hcount, BitVec.ofNat_toNat, BitVec.setWidth_eq], hn] at h
    rw [hn] at hbuf hblocks
    refine .bind ?_
    have hbound : offset.toNat + len < 2 ^ 31 := by omega
    refine does_transfer (k := 0) (J := fun k m' => m' = readInto m f offset.toNat buf k) hbound
      ?_ ?_ ?_ rfl
      (Nat.zero_le _) (by omega) ?_
    · rintro k _ hk rfl
      have hsame : SameDisk m (readInto m f offset.toNat buf k) :=
        sameDisk_readInto hbuf (Nat.le_of_lt hk)
      have hi : (BitVec.ofNat 32 ((offset.toNat + k) / blksize)).toNat =
          (offset.toNat + k) / blksize := by
        rw [BitVec.toNat_ofNat, Nat.mod_eq_of_lt]
        have := Nat.div_le_self (offset.toNat + k) blksize
        omega
      have hb : HasBlock m f ((offset.toNat + k) / blksize) :=
        hblocks _ (by omega) (by omega)
      refine does_fileGetBlock (hsame.sane hsane) (hsame.header hsane hf) ?_ ?_
      · rw [hi]
        exact hsame.hasBlock hsane hf hb
      rw [hi, hsame.blockNo hsane hf hb.slot]
      refine ⟨hb.addr_add_le hsane, does_memmove (hsame.sane hsane) ?_ ?_ ?_⟩
      · intro x hlo hhi
        have hpiece := piece_le offset.toNat len k
        exact (hsame.live hsane (hb.block.live hsane (by omega) (by omega))).acc
      · intro x hlo hhi
        have hpiece := piece_le offset.toNat len k
        exact .inl (hbuf x (by omega) (by omega)).1
      · exact copy_readInto hb hsane hbuf hk
    · rintro _ rfl
      exact .pure h
    · grind
    · funext a
      rw [readInto, if_neg (by omega)]

end Mit6828.Fs
