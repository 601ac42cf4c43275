import Mathlib.Data.Set.Card
import Mit6828.Fs.AllocBlock
import Mit6828.Fs.Layout

namespace Mit6828.Fs

open Kern.Mmu Library.FlatMemory

variable {m m' : Memory} {P : Nat → Prop} {ok : Prop} {A : Set Nat} {a b f i j n x : Nat} {w : Word}
  {s : Cache} {Q : Except Word Nat → Memory → Prop}

/-- Outside of the head of the super block and of the bitmap. -/
def Off (m : Memory) (x : Nat) : Prop := sRoot ≤ x ∧ x < bitmap ∨ blockAddr (reserved m) ≤ x

/-- The blocks of `A` are taken. -/
structure Takes (A : Set Nat) (m m' : Memory) : Prop where
  nblocks : nblocks m' = nblocks m
  free : ∀ b < Fs.nblocks m, isFree m' b ↔ isFree m b ∧ b ∉ A

namespace Takes

theorem refl (m : Memory) : Takes ∅ m m := ⟨rfl, fun _ _ => by simp⟩

variable (h : Takes A m m')
include h

theorem reserved : reserved m' = reserved m := by rw [Fs.reserved, Fs.reserved, h.nblocks]

theorem freeBlocks : freeBlocks m' = freeBlocks m \ A := by
  ext b
  constructor
  · rintro ⟨hpos, hlt, hfree⟩
    rw [h.nblocks] at hlt
    obtain ⟨hfree, hnot⟩ := (h.free b hlt).mp hfree
    exact ⟨⟨hpos, hlt, hfree⟩, hnot⟩
  · rintro ⟨⟨hpos, hlt, hfree⟩, hnot⟩
    exact ⟨hpos, h.nblocks.symm ▸ hlt, (h.free b hlt).mpr ⟨hfree, hnot⟩⟩

theorem used (hb : Used m b) : Used m' b :=
  ⟨h.nblocks.symm ▸ hb.lt, fun hfree => hb.taken ((h.free b hb.lt).mp hfree).1⟩

theorem live (hx : Live m x) : Live m' x := ⟨hx.1, h.used hx.2⟩

theorem sane (hsane : Sane m) : Sane m' where
  more := h.nblocks.symm ▸ hsane.more
  fits := h.nblocks.symm ▸ hsane.fits
  reserved b hb hfree := by
    rw [h.reserved] at hb
    have hlt : b < Fs.nblocks m := by
      have := hsane.more
      rw [Fs.reserved] at hb
      omega
    exact hsane.reserved b hb ((h.free b hlt).mp hfree).1

/-- A write to other places takes no block. -/
theorem within {g : Memory → Memory} (hg : Within a n g)
    (hoff : ∀ x, a ≤ x → x < a + n → Off m x) : Takes A m (g m') where
  nblocks := by
    rw [Fs.nblocks, readWord_congr fun x hlo hhi => hg m' x fun hx => ?_]
    · exact h.nblocks
    · have := hoff x hx.1 hx.2
      simp only [Off, sNblocks, sRoot, bitmap, blockAddr, Fs.reserved, diskmap,
        blksize] at this hlo hhi
      omega
  free b hb := by
    rw [isFree, readWord_congr fun x hlo hhi => hg m' x fun hx => ?_]
    · exact h.free b hb
    · have := hoff x hx.1 hx.2
      simp only [Off, bitmapWord, sRoot, bitmap, blockAddr, Fs.reserved, diskmap,
        blksize] at this hlo hhi
      omega

theorem blockOk (hw : BlockOk m w) : BlockOk m' w := ⟨hw.ne, h.used hw.used⟩

end Takes

theorem takes_take (m : Memory) (j : Nat) : Takes {j} m (take m j) where
  nblocks := by
    rw [nblocks, nblocks, take, readWord_writeWord_of_ne]
    grind
  free _ _ := isFree_take

theorem readWord_take (hoff : ∀ x, a ≤ x → x < a + 4 → Off m x) (hj : j < nblocks m) :
    readWord (take m j) a = readWord m a := by
  refine readWord_congr fun x hlo hhi => writeWord_outside fun hx => ?_
  have := hoff x hlo hhi
  simp only [Off, bitmapWord, sRoot, bitmap, blockAddr, reserved, diskmap, blksize] at this hx
  omega

section Rules

theorem does_flushBlock {Q : Except Word Unit → Memory → Prop} (ha : InMap a) (h : Q (.ok ()) m) :
    Does P ok (flushBlock a) m Q := by
  rintro s hs rfl
  refine (runs_flushBlock fun _ => ha).mono ?_ id
  rintro _ s' ⟨rfl, -, hflush⟩
  exact ⟨hs.of_keeps (hflush.coherent hs.coherent) hflush.keeps, hflush.mem ▸ h⟩

theorem does_allocBlock {Q : Except Word Word → Memory → Prop} (hsane : Sane m)
    (h : ∀ j, IsLeast (freeBlocks m) j → Q (.ok (BitVec.ofNat 32 j)) (take m j))
    (hfull : freeBlocks m = ∅ → Q (.ok (-eNoDisk)) m) : Does P ok allocBlock m Q := by
  rintro s hs rfl
  refine (runs_allocBlock hs hsane.fits).mono ?_ fun _ => trivial
  rintro r s' ⟨hs', ⟨j, hj, rfl, hmem, -⟩ | ⟨hempty, rfl, hmem⟩⟩
  · exact ⟨hs', hmem ▸ h j hj⟩
  · exact ⟨hs', hmem ▸ hfull hempty⟩

theorem does_diskaddr_fails (hsane : Sane m)
    (hge : nblocks m ≤ w.toNat) (hok : ¬ ok) : Does P ok (diskaddr w) m Q := by
  rw [diskaddr]
  split
  · exact .fail hok
  · refine .bind (does_load hsane (acc_nblocks hsane) ?_)
    dsimp only
    rw [if_pos (BitVec.le_def.mpr hge)]
    exact .fail hok

theorem toNat_block (hsane : Sane m) (hj : j < nblocks m) : (BitVec.ofNat 32 j).toNat = j := by
  have := hsane.fits
  simp only [disksize, blksize] at this
  exact Nat.mod_eq_of_lt (by omega)

theorem blockOk_taken (hsane : Sane m) (h : Takes A m m') (hj : j ∈ freeBlocks m) (hA : j ∈ A) :
    BlockOk m' (BitVec.ofNat 32 j) := by
  have hnat := toNat_block hsane hj.2.1
  refine ⟨fun hzero => ?_, ?_, ?_⟩
  · have := hj.1
    rw [hzero] at hnat
    exact absurd hnat (by simp; omega)
  · rw [hnat, h.nblocks]
    exact hj.2.1
  · rw [hnat, h.free j hj.2.1]
    exact fun hfree => hfree.2 hA

/-- The end of `file_get_block`, with the slot at `a`. -/
theorem does_slot (hsane : Sane m)
    (hlive : ∀ x, a ≤ x → x < a + 4 → Live m x) (hoff : ∀ x, a ≤ x → x < a + 4 → Off m x)
    (hb : readWord m a ≠ 0 → BlockOk m (readWord m a))
    (hfull : readWord m a = 0 → freeBlocks m = ∅ → Q (.error (-eNoDisk)) m)
    (hok : ∀ A m' w, Takes A m m' → BlockOk m' w → (readWord m a = 0 → freeBlocks m ≠ ∅) →
      (∀ c, c + 4 ≤ a ∨ a + 4 ≤ c → (∀ x, c ≤ x → x < c + 4 → Off m x) →
        readWord m' c = readWord m c) → Q (.ok (blockAddr w.toNat)) m') : Does P ok (do
      allocSlot a
      let b ← load a
      diskaddr b) m Q := by
  refine .bind (.bind (does_load hsane (fun x hlo hhi => (hlive x hlo hhi).acc) ?_))
  dsimp only
  by_cases hzero : readWord m a = 0
  · rw [if_neg (not_not_intro hzero)]
    refine .bind (does_allocBlock hsane (fun j hj => ?_) fun hempty => ?_)
    · have htake := takes_take m j
      have hsane1 := htake.sane hsane
      have hnat := toNat_block hsane hj.1.2.1
      have hnot : ¬ isNeg (BitVec.ofNat 32 j) := by
        have := hj.1.2.1
        have := hsane.fits
        simp only [disksize, blksize] at this
        rw [isNeg, BitVec.toInt_eq_toNat_of_lt (by omega)]
        omega
      dsimp only
      rw [if_neg hnot]
      have hwrite : Takes {j} m (writeWord (take m j) a (BitVec.ofNat 32 j)) :=
        htake.within within_writeWord hoff
      have hblock := blockOk_taken hsane hwrite hj.1 rfl
      have hsane2 := hwrite.sane hsane
      refine does_storeRange hsane1 within_writeWord
        (fun x hlo hhi => (htake.live (hlive x hlo hhi)).acc)
        (.bind (does_load hsane2 (fun x hlo hhi => (hwrite.live (hlive x hlo hhi)).acc) ?_))
      rw [readWord_writeWord_self]
      refine does_diskaddr hsane2 hblock.ne hblock.used.lt
        (hok _ _ _ hwrite hblock (fun _ hempty => ?_) fun c hc hcoff => ?_)
      · rw [hempty] at hj
        exact hj.1
      · rw [readWord_writeWord_of_ne (by omega), readWord_take hcoff hj.1.2.1]
    · dsimp only
      rw [if_pos (by decide)]
      exact .throw (hfull hzero hempty)
  · rw [if_pos hzero]
    refine .pure (.bind (does_load hsane (fun x hlo hhi => (hlive x hlo hhi).acc) ?_))
    exact does_diskaddr hsane hzero (hb hzero).used.lt
      (hok ∅ m _ (.refl m) (hb hzero) (fun h => absurd h hzero) fun _ _ _ => rfl)

end Rules

/-- The `struct File` at `f` is in use, and its block pointers are null or in range. -/
structure FileOk (m : Memory) (f : Nat) : Prop where
  sane : Sane m
  header : Header m f
  off : ∀ x, f ≤ x → x < f + sizeofFile → Off m x
  indirect : readWord m (fIndirect f) ≠ 0 → BlockOk m (readWord m (fIndirect f)) ∧
    reserved m ≤ (readWord m (fIndirect f)).toNat ∧
    ∀ x, f ≤ x → x < f + sizeofFile → blockOf x ≠ (readWord m (fIndirect f)).toNat
  block : ∀ i < ndirect + nindirect, blockNo m f i ≠ 0 → BlockOk m (blockNo m f i)

/-- The number of blocks that file block `i` of `f` lacks. -/
def missing (m : Memory) (f i : Nat) : Nat :=
  (if ndirect ≤ i ∧ readWord m (fIndirect f) = 0 then 1 else 0) + if blockNo m f i = 0 then 1 else 0

/-- What `file_get_block` is to return and to leave. -/
structure Exact (m : Memory) (f i : Nat) (r : Except Word Nat) (m' : Memory) : Prop where
  inval : r = .error (-eInval) ↔ ndirect + nindirect ≤ i
  noDisk : r = .error (-eNoDisk) ↔
    i < ndirect + nindirect ∧ (freeBlocks m).ncard < missing m f i
  block : r = .error (-eInval) ∨ r = .error (-eNoDisk) ∨
    ∃ w, r = .ok (blockAddr w.toNat) ∧ BlockOk m' w
  indirect : readWord m' (fIndirect f) ≠ 0 → BlockOk m' (readWord m' (fIndirect f))

def GetsBlock (f : Nat) (filebno : Word) (s : Cache) : Prop :=
  ∃ r s', (fileGetBlock f filebno).run.run s = some (r, s') ∧ Exact s.mem f filebno.toNat r s'.mem

theorem exact_noDisk (hi : i < ndirect + nindirect) (hfew : (freeBlocks m).ncard < missing m f i)
    (hind : readWord m' (fIndirect f) ≠ 0 → BlockOk m' (readWord m' (fIndirect f))) :
    Exact m f i (.error (-eNoDisk)) m' where
  inval := iff_of_false (fun h => absurd (Except.error.inj h) (by decide)) (by omega)
  noDisk := iff_of_true rfl ⟨hi, hfew⟩
  block := .inr (.inl rfl)
  indirect := hind

theorem exact_ok (hi : i < ndirect + nindirect) (henough : missing m f i ≤ (freeBlocks m).ncard)
    (hw : BlockOk m' w)
    (hind : readWord m' (fIndirect f) ≠ 0 → BlockOk m' (readWord m' (fIndirect f))) :
    Exact m f i (.ok (blockAddr w.toNat)) m' where
  inval := iff_of_false (fun h => by cases h) (by omega)
  noDisk := iff_of_false (fun h => by cases h) (by omega)
  block := .inr (.inr ⟨w, rfl, hw⟩)
  indirect := hind

theorem finite_freeBlocks (m : Memory) : (freeBlocks m).Finite :=
  (Set.finite_lt_nat (nblocks m)).subset fun _ h => h.2.1

theorem indirect_field (hlo : fIndirect f ≤ x) (hhi : x < fIndirect f + 4) :
    f ≤ x ∧ x < f + sizeofFile := by
  grind

theorem FileOk.indirect_off (hf : FileOk m f) (x : Nat) (hlo : fIndirect f ≤ x)
    (hhi : x < fIndirect f + 4) : Off m x :=
  hf.off x (indirect_field hlo hhi).1 (indirect_field hlo hhi).2

theorem FileOk.indirect_live (hf : FileOk m f) (x : Nat) (hlo : fIndirect f ≤ x)
    (hhi : x < fIndirect f + 4) : Live m x :=
  hf.header x (indirect_field hlo hhi).1 (indirect_field hlo hhi).2

theorem FileOk.apart_free (hf : FileOk m f) (hj : isFree m j) (x : Nat) (hlo : fIndirect f ≤ x)
    (hhi : x < fIndirect f + 4) : blockOf x ≠ j := fun heq =>
  (hf.indirect_live x hlo hhi).2.taken (heq ▸ hj)

theorem FileOk.slot_off (hf : FileOk m f) (hslot : HasSlot m f i) (hlo : slotVa m f i ≤ x)
    (hhi : x < slotVa m f i + 4) : Off m x := by
  rw [slotVa] at hlo hhi
  split at hlo
  · rename_i hlt
    rw [if_pos hlt] at hhi
    simp only [fDirect, ndirect] at hlo hhi hlt
    exact hf.off x (by omega) (by grind)
  · rename_i hge
    obtain ⟨-, hres, -⟩ := hf.indirect (hslot.indirect (Nat.not_lt.mp hge)).ne
    exact .inr ((blockAddr_le hres).trans (by omega))

theorem apart_of_block {c k : Nat} (h : ∀ x, a ≤ x → x < a + n → blockOf x ≠ b)
    (hlo : blockAddr b ≤ c) (hhi : c + k ≤ blockAddr b + blksize) (hn : 0 < n) (hk : 0 < k) :
    a + n ≤ c ∨ c + k ≤ a := by
  by_contra hboth
  exact h (max a c) (by omega) (by omega) (blockOf_eq (by omega) (by omega))

theorem FileOk.slot_apart (hf : FileOk m f) (hslot : HasSlot m f i) :
    fIndirect f + 4 ≤ slotVa m f i ∨ slotVa m f i + 4 ≤ fIndirect f := by
  by_cases hlt : i < ndirect
  · rw [slotVa, if_pos hlt]
    grind
  obtain ⟨-, -, hapart⟩ := hf.indirect (hslot.indirect (Nat.not_lt.mp hlt)).ne
  have hi := hslot.lt
  rw [slotVa, if_neg hlt]
  refine apart_of_block
    (fun x hlo hhi => hapart x (indirect_field hlo hhi).1 (indirect_field hlo hhi).2)
    (Nat.le_add_right _ _) ?_ (by decide) (by decide)
  grind

/-- The slot is there. -/
theorem does_getBlock_slot (hf : FileOk m f) (hslot : HasSlot m f w.toNat) :
    Does P ok (fileGetBlock f w) m (Exact m f w.toNat) := by
  have hno := hslot.blockNo_eq hf.sane
  have hmissing : missing m f w.toNat = if readWord m (slotVa m f w.toNat) = 0 then 1 else 0 := by
    rw [missing, if_neg fun h => (hslot.indirect h.1).ne h.2, hno, Nat.zero_add]
  refine .bind (does_fileBlockWalk hf.sane hf.header hslot (does_slot hf.sane
    (fun x => hslot.live hf.sane hf.header) (fun x => hf.slot_off hslot)
    (fun hne => hno ▸ hf.block _ hslot.lt (hno ▸ hne)) (fun hzero hempty => ?_)
    fun A m' w' htakes hw henough hframe => ?_))
  · refine exact_noDisk hslot.lt ?_ fun hne => (hf.indirect hne).1
    rw [hmissing, if_pos hzero, hempty, Set.ncard_empty]
    exact Nat.one_pos
  refine exact_ok hslot.lt ?_ hw fun hne => ?_
  · rw [hmissing]
    split
    · rename_i hzero
      exact (Set.ncard_pos (finite_freeBlocks m)).mpr
        (Set.nonempty_iff_ne_empty.mpr (henough hzero))
    · exact Nat.zero_le _
  · rw [hframe (fIndirect f) (hf.slot_apart hslot) hf.indirect_off] at hne ⊢
    exact htakes.blockOk (hf.indirect hne).1

/-- After `file_block_walk` has made `j` the indirect block of `f`. -/
def withIndirect (m : Memory) (f j : Nat) : Memory :=
  fill (writeWord (take m j) (fIndirect f) (BitVec.ofNat 32 j)) (blockAddr j) blksize 0

section

variable (hf : FileOk m f) (hge : ndirect ≤ w.toNat) (hlt : w.toNat < ndirect + nindirect)
  (hzero : readWord m (fIndirect f) = 0) (hfull : freeBlocks m = ∅ → ¬ ok)
include hf hge hlt hzero hfull

theorem does_fileBlockWalk_alloc
    (h : ∀ j ∈ freeBlocks m, reserved m ≤ j → Takes {j} m (withIndirect m f j) →
      readWord (withIndirect m f j) (fIndirect f) = BitVec.ofNat 32 j →
      Q (.ok (blockAddr j + 4 * (w.toNat - ndirect))) (withIndirect m f j)) :
    Does P ok (fileBlockWalk f w true) m Q := by
  have hfield : ∀ {A m'}, Takes A m m' → ∀ x, fIndirect f ≤ x → x < fIndirect f + 4 → Acc P m' x :=
    fun htakes x hlo hhi => (htakes.live (hf.indirect_live x hlo hhi)).acc
  rw [fileBlockWalk, if_neg (by omega), if_neg (by omega)]
  refine .bind (does_load hf.sane (hfield (.refl m)) (.bind ?_))
  rw [if_neg (not_not_intro hzero), if_pos rfl]
  refine .bind (does_allocBlock hf.sane (fun j hj => ?_) fun hempty => ?_)
  · obtain ⟨hj, -⟩ := hj
    have htake := takes_take m j
    have hstore : Takes {j} m (writeWord (take m j) (fIndirect f) (BitVec.ofNat 32 j)) :=
      htake.within within_writeWord hf.indirect_off
    have hnat := toNat_block hf.sane hj.2.1
    have hres : reserved m ≤ j := Nat.not_lt.mp fun hlt => hf.sane.reserved j hlt hj.2.2
    have hnew : Takes {j} m (withIndirect m f j) :=
      hstore.within within_fill fun x hlo _ => .inr ((blockAddr_le hres).trans hlo)
    have hblock := blockOk_taken hf.sane hstore hj rfl
    have hblock' := blockOk_taken hf.sane hnew hj rfl
    have hdata := fun x => hblock.live (x := x) (hstore.sane hf.sane)
    rw [hnat] at hdata
    have hread : readWord (withIndirect m f j) (fIndirect f) = BitVec.ofNat 32 j := by
      rw [withIndirect, within_fill.readWord_eq, readWord_writeWord_self]
      exact apart_of_block (hf.apart_free hj.2.2) (Nat.le_refl _) (Nat.le_refl _) (by decide)
        (by decide)
    refine .bind (does_storeRange (htake.sane hf.sane) within_writeWord (hfield htake) (.bind
      (does_diskaddr (hstore.sane hf.sane) hblock.ne hblock.used.lt (.bind ?_))))
    rw [hnat]
    refine does_storeRange (hstore.sane hf.sane) within_fill
      (fun x hlo hhi => (hdata x hlo hhi).acc)
      (.bind (does_diskaddr (hnew.sane hf.sane) hblock'.ne hblock'.used.lt ?_))
    refine does_flushBlock ?_ (.bind (does_load (hnew.sane hf.sane) (hfield hnew) (.bind ?_)))
    · rw [hnat]
      exact (hdata _ (Nat.le_refl _) (by grind)).1
    · rw [← withIndirect, hread]
      refine does_diskaddr (hnew.sane hf.sane) hblock'.ne hblock'.used.lt (.pure ?_)
      rw [hnat]
      exact h j hj hres hnew hread
  · -- `-E_NO_DISK` becomes a block number
    have hstore : Takes ∅ m (writeWord m (fIndirect f) (-eNoDisk)) :=
      (Takes.refl m).within within_writeWord hf.indirect_off
    refine .bind (does_storeRange hf.sane within_writeWord (hfield (.refl m)) (.bind
      (does_diskaddr_fails (hstore.sane hf.sane) ?_ (hfull hempty))))
    rw [hstore.nblocks]
    exact hf.sane.fits.trans (by decide)

theorem does_getBlock_missing : Does P ok (fileGetBlock f w) m (Exact m f w.toNat) := by
  have hno : blockNo m f w.toNat = 0 := by
    rw [blockNo, if_neg (by omega), if_pos hzero]
  have hmissing : missing m f w.toNat = 2 := by
    rw [missing, if_pos ⟨hge, hzero⟩, if_pos hno]
  refine .bind (does_fileBlockWalk_alloc hf hge hlt hzero hfull fun j hj hres hnew hread => ?_)
  have hnat := toNat_block hf.sane hj.2.1
  have hblock := blockOk_taken hf.sane hnew hj rfl
  have hin : ∀ x, blockAddr j + 4 * (w.toNat - ndirect) ≤ x →
      x < blockAddr j + 4 * (w.toNat - ndirect) + 4 →
        blockAddr j ≤ x ∧ x < blockAddr j + blksize := by
    grind
  have hempty : readWord (withIndirect m f j) (blockAddr j + 4 * (w.toNat - ndirect)) = 0 :=
    readWord_eq_zero fun x hlo hhi => if_pos (hin x hlo hhi)
  refine does_slot (hnew.sane hf.sane) (fun x hlo hhi => ?_) (fun x hlo hhi => .inr ?_)
    (fun hne => absurd hempty hne) (fun _ hnone => ?_) fun A m' w' htakes hw henough hframe => ?_
  · exact hblock.live (hnew.sane hf.sane) (hnat.symm ▸ (hin x hlo hhi).1)
      (hnat.symm ▸ (hin x hlo hhi).2)
  · rw [hnew.reserved]
    exact (blockAddr_le hres).trans (hin x hlo hhi).1
  · refine exact_noDisk hlt ?_ fun _ => hread.symm ▸ hblock
    rw [hnew.freeBlocks, Set.sdiff_eq_empty] at hnone
    rw [hmissing]
    exact Nat.lt_succ_of_le ((Set.ncard_le_ncard hnone).trans (Set.ncard_singleton j).le)
  have henough := henough hempty
  rw [hnew.freeBlocks, ← Set.nonempty_iff_ne_empty] at henough
  obtain ⟨k, hk, hkj⟩ := henough
  refine exact_ok hlt ?_ hw fun _ => ?_
  · rw [hmissing]
    exact (Set.one_lt_ncard (finite_freeBlocks m)).mpr ⟨k, hk, j, hj, hkj⟩
  rw [hframe (fIndirect f) ?_ fun x hlo hhi => ?_, hread]
  · exact htakes.blockOk hblock
  · refine apart_of_block (hf.apart_free hj.2.2) (Nat.le_add_right _ _) ?_ (by decide) (by decide)
    grind
  · have := hf.indirect_off x hlo hhi
    rwa [Off, hnew.reserved]

end

theorem getBlock_panics (hs : Ready P s) (hf : FileOk s.mem f) (hge : ndirect ≤ w.toNat)
    (hlt : w.toNat < ndirect + nindirect) (hzero : readWord s.mem (fIndirect f) = 0)
    (hempty : freeBlocks s.mem = ∅) (r : Except Word Nat) (s' : Cache) :
    (fileGetBlock f w).run.run s ≠ some (r, s') := by
  intro hrun
  have hdoes : Does P False (fileGetBlock f w) s.mem fun _ _ => False :=
    .bind (does_fileBlockWalk_alloc hf hge hlt hzero (fun _ => id)
      fun j hj => by simp [hempty] at hj)
  exact (hdoes.result hs rfl hrun).2

/-- The panic of `diskaddr` is reached exactly if the indirect block is missing and no block is
free. -/
theorem fileGetBlock_exact_iff (hs : Ready P s) (hf : FileOk s.mem f) :
    GetsBlock f w s ↔ ¬ (ndirect ≤ w.toNat ∧ w.toNat < ndirect + nindirect ∧
      readWord s.mem (fIndirect f) = 0 ∧ freeBlocks s.mem = ∅) := by
  constructor
  · rintro ⟨r, s', hrun, -⟩ ⟨hge, hlt, hzero, hempty⟩
    exact getBlock_panics hs hf hge hlt hzero hempty r s' hrun
  intro hnot
  have hdoes : Does P True (fileGetBlock f w) s.mem (Exact s.mem f w.toNat) := by
    by_cases hge : ndirect + nindirect ≤ w.toNat
    · refine .bind ?_
      rw [fileBlockWalk, if_neg (by omega), if_pos hge]
      refine .throw ⟨iff_of_true rfl hge, iff_of_false (fun h => ?_) (by omega), .inl rfl,
        fun hne => (hf.indirect hne).1⟩
      exact absurd (Except.error.inj h) (by decide)
    · by_cases hmiss : ndirect ≤ w.toNat ∧ readWord s.mem (fIndirect f) = 0
      · exact does_getBlock_missing hf hmiss.1 (by omega) hmiss.2 fun hempty _ =>
          hnot ⟨hmiss.1, by omega, hmiss.2, hempty⟩
      · refine does_getBlock_slot hf ⟨by omega, fun hind => (hf.indirect fun hzero => ?_).1⟩
        exact hmiss ⟨hind, hzero⟩
  obtain ⟨r, s', hrun, -, hexact⟩ := hdoes.returns trivial hs rfl
  exact ⟨r, s', hrun, hexact⟩

/-- A disk of three blocks, all in use, on which the root directory has no blocks. -/
def fullDisk : Cache where
  mem := writeWord (fun _ => 0) sNblocks 3
  disk := writeWord (fun _ => 0) sNblocks 3
  pte := fun _ => ptePuw

theorem fullDisk_word (ha : a + 4 ≤ sNblocks ∨ sNblocks + 4 ≤ a) : readWord fullDisk.mem a = 0 := by
  rw [fullDisk, readWord_writeWord_of_ne (by omega)]
  exact readWord_eq_zero fun _ _ _ => rfl

theorem fullDisk_used (b : Nat) : ¬ isFree fullDisk.mem b := by
  rw [isFree, freeBit, fullDisk_word]
  · exact not_not_intro BitVec.zero_and
  · grind

theorem fileOk_fullDisk : FileOk fullDisk.mem sRoot := by
  have hn : nblocks fullDisk.mem = 3 := by
    rw [nblocks, fullDisk, readWord_writeWord_self]
    rfl
  have hind : readWord fullDisk.mem (fIndirect sRoot) = 0 :=
    fullDisk_word (by grind)
  refine ⟨⟨by omega, by rw [hn]; decide, fun b _ => fullDisk_used b⟩,
    fun x hlo hhi => ⟨?_, ?_, fullDisk_used _⟩,
    fun x hlo hhi => .inl ⟨hlo, ?_⟩, fun hne => absurd hind hne, fun i _ hne => absurd ?_ hne⟩
  · grind
  · grind
  · grind
  · rw [blockNo]
    split
    · exact fullDisk_word (by grind)
    · rfl

theorem fileGetBlock_exact_iff_fullDisk : GetsBlock sRoot 0 fullDisk ↔
    ¬ (ndirect ≤ (0 : Word).toNat ∧ (0 : Word).toNat < ndirect + nindirect ∧
      readWord fullDisk.mem (fIndirect sRoot) = 0 ∧ freeBlocks fullDisk.mem = ∅) :=
  fileGetBlock_exact_iff (ready_mapped _) fileOk_fullDisk

/-- Block 10 of the root directory: `alloc_block` fails and `diskaddr` panics. -/
theorem full_disk_panics : Ready (fun _ => False) fullDisk ∧ FileOk fullDisk.mem sRoot ∧
    ¬ GetsBlock sRoot 10 fullDisk := by
  refine ⟨ready_mapped _, fileOk_fullDisk, ?_⟩
  rintro ⟨r, s', hrun, -⟩
  refine getBlock_panics (ready_mapped _) fileOk_fullDisk (by decide) (by decide) ?_ ?_ r s' hrun
  · exact fullDisk_word (by grind)
  · exact Set.eq_empty_of_forall_notMem fun b hb => fullDisk_used b hb.2.2

end Mit6828.Fs
