import Mathlib.Order.Bounds.Basic
import Mit6828.Fs.BlockCacheSpec
import Mit6828.Fs.FileSystem

namespace Mit6828.Fs

open Kern.Mmu Library Library.FlatMemory

variable {s s' : Cache} {m d : Memory} {P : Nat → Prop} {a i n : Nat}

section Word

theorem pagesOf_word (ha : a % 4 = 0) : pagesOf a 4 = [a / blksize] := by
  have hlast : (a + 4 - 1) / blksize = a / blksize := by grind
  rw [pagesOf, if_neg (by decide), hlast, Nat.sub_self]
  rfl

section

variable (ha : a % 4 = 0) (hs : Coherent s)
  (hacc : ∃ s', access faultDepth (a / blksize * blksize) s = some s')
include ha hs hacc

theorem runs_touchWord : Command.Runs True (touchRange a 4) s fun r s' => r = .ok () ∧ Loaded s s' ∧
      ∀ pn ∈ pagesOf a 4, s'.pte pn &&& pteP ≠ 0 := by
  obtain ⟨s', hs'⟩ := hacc
  obtain ⟨hload, hmapped⟩ := access_loaded hs hs'
  have hrun : (touch (a / blksize * blksize)).run.run s = some (.ok (), s') := by
    change (access faultDepth _ s).map _ = _
    rw [hs']
    rfl
  rw [vaIsMapped, Nat.mul_div_cancel _ (by decide)] at hmapped
  rw [touchRange, pagesOf_word ha, touchPages, Command.runs_bind, Command.Runs, hrun]
  exact ⟨rfl, hload, by simpa using hmapped⟩

theorem runs_loadWord :
    Command.Runs True (load a) s fun r s' => r = .ok (readWord s.mem a) ∧ Loaded s s' ∧
      vaIsMapped s' a := by
  rw [load, Command.runs_bind]
  refine (runs_touchWord ha hs hacc).mono ?_ id
  rintro _ s' ⟨rfl, hload, hmapped⟩
  rw [pagesOf_word ha] at hmapped
  refine ⟨?_, hload, hmapped _ (List.mem_singleton_self _)⟩
  rw [← hload.mem]

end

theorem access_mapped (h : vaIsMapped s a) :
    ∃ s', access faultDepth (a / blksize * blksize) s = some s' := by
  refine ⟨s, access_of_mapped ?_ _⟩
  rwa [vaIsMapped, Nat.mul_div_cancel _ (by decide)]

end Word

/-- What `check_super` and `check_bitmap` have read in stays; the block of the bitmap with the bit
of block `i` is in use. -/
theorem access_bitmapWord (hs : Ready P s) (hi : i < nblocks s.mem)
    (hfits : nblocks s.mem ≤ disksize / blksize)
    (hused : 32768 ≤ i → ¬ isFree s.mem (2 + i / 32768)) :
    ∃ s', access faultDepth (bitmapWord i / blksize * blksize) s = some s' := by
  by_cases hmapped : vaIsMapped s (bitmapWord i)
  · exact access_mapped hmapped
  have hge : 32768 ≤ i := by
    by_contra hlt
    refine hmapped ?_
    have hpage : bitmapWord i / blksize = bitmap / blksize := by grind
    rw [vaIsMapped, hpage]
    exact hs.bitmap
  have hmap : InMap (bitmapWord i / blksize * blksize) := by grind
  have hblock : blockOf (bitmapWord i / blksize * blksize) = 2 + i / 32768 := by
    simp only [blockOf, bitmapWord, bitmap, blksize, diskmap]
    omega
  have hfirst : bitmapWord (2 + i / 32768) / blksize = bitmap / blksize := by grind
  refine ⟨_, access_fault hs.super hmap ?_ hs.coherent ?_ ?_⟩
  · rwa [vaIsMapped, Nat.mul_div_cancel _ (by decide)]
  · rw [hblock, vaIsMapped, hfirst]
    exact hs.bitmap
  · rw [hblock]
    exact ⟨by omega, hused hge⟩

theorem bitmapWord_aligned (i : Nat) : bitmapWord i % 4 = 0 := by
  grind

theorem runs_blockIsFree (hs : Ready P s) (hi : i < nblocks s.mem)
    (hfits : nblocks s.mem ≤ disksize / blksize)
    (hused : 32768 ≤ i → ¬ isFree s.mem (2 + i / 32768)) :
    Command.Runs True (blockIsFree i) s fun r s' => r = .ok (decide (isFree s.mem i)) ∧
      Loaded s s' ∧ vaIsMapped s' (bitmapWord i) := by
  rw [blockIsFree, Command.runs_bind]
  refine (runs_loadWord (by decide) hs.coherent (access_mapped hs.super)).mono ?_ id
  rintro _ s1 ⟨rfl, hload1, -⟩
  have hlt : ¬ (readWord s.mem sNblocks).toNat ≤ i := Nat.not_le.mpr hi
  have hmem := hload1.mem
  dsimp only
  rw [if_neg hlt, Command.runs_bind]
  have hready := hload1.ready hs
  refine (runs_loadWord (bitmapWord_aligned i) hready.coherent
    (access_bitmapWord hready (hmem ▸ hi) (hmem ▸ hfits) (hmem ▸ hused))).mono ?_ id
  rintro _ s2 ⟨rfl, hload2, hmapped⟩
  refine ⟨?_, hload1.trans hload2, hmapped⟩
  rw [hmem]
  rfl

/-- The bit is cleared in the cache, and `flush_block(bitmap)` writes the first block of the
bitmap only. -/
theorem runs_takeBlock (hs : Ready P s) (hmapped : vaIsMapped s (bitmapWord i))
    (hfits : i < disksize / blksize) :
    Command.Runs True (do
      let w ← load (bitmapWord i)
      store (bitmapWord i) (w &&& ~~~bit i)
      flushBlock bitmap
      return BitVec.ofNat 32 i) s fun r s' => r = .ok (BitVec.ofNat 32 i) ∧
        Ready P s' ∧ s'.mem = take s.mem i ∧
        (isFree s'.disk i ↔ 32768 ≤ i ∧ isFree s.disk i) := by
  have hword := bitmapWord_aligned i
  refine Command.runs_bind.mpr
    ((runs_loadWord hword hs.coherent (access_mapped hmapped)).mono ?_ id)
  rintro _ s1 ⟨rfl, hload1, hmapped1⟩
  have hs1 := hload1.ready hs
  have hmap : ∀ x, bitmapWord i ≤ x → x < bitmapWord i + 4 → InMap x := by
    intro x hlo hhi
    grind
  refine Command.runs_bind.mpr ((runs_stored (runs_touchWord hword hs1.coherent
    (access_mapped hmapped1)) fun _ x hlo hhi => hs1.writable x (.inr (hmap x hlo hhi))).mono ?_ id)
  rintro _ s2 ⟨rfl, s1', hload1', hstore⟩
  have hmem : s2.mem = take s.mem i := by
    rw [hstore.mem, hload1'.mem, hload1.mem]
    rfl
  have hdisk : s2.disk = s.disk := by
    rw [hstore.disk, hload1'.disk, hload1.disk]
  refine Command.runs_bind.mpr ((runs_flushBlock fun _ => by simp only [InMap]; decide).mono ?_ id)
  rintro _ s3 ⟨rfl, -, hflush⟩
  have hs2 := (hload1'.ready hs1).of_keeps
    (hstore.coherent within_writeWord (hload1'.coherent hs1.coherent)) hstore.keeps
  refine ⟨rfl, hs2.of_keeps (hflush.coherent hs2.coherent) hflush.keeps, hflush.mem.trans hmem, ?_⟩
  have hpage : ∀ x, bitmapWord i ≤ x → x < bitmapWord i + 4 →
      (x / blksize = bitmap / blksize ↔ i < 32768) := by
    intro x hlo hhi
    grind
  have hdirty : Dirty s2 (bitmapWord i / blksize) := by
    rw [hstore.dirty, pagesOf_word hword]
    exact .inl (List.mem_singleton_self _)
  by_cases hlt : i < 32768
  · have hsame : readWord s3.disk (bitmapWord i) = readWord s2.mem (bitmapWord i) :=
      readWord_congr fun x hlo hhi => hflush.written x ((hpage x hlo hhi).mpr hlt) (by
        rwa [← (hpage _ (Nat.le_refl _) (by omega)).mpr hlt])
    rw [isFree, hsame, hmem]
    exact iff_of_false (fun hfree => (isFree_take.mp hfree).2 rfl) (by omega)
  · have hsame : readWord s3.disk (bitmapWord i) = readWord s2.disk (bitmapWord i) :=
      readWord_congr fun x hlo hhi => hflush.kept x fun hx => hlt ((hpage x hlo hhi).mp hx.1)
    rw [isFree, hsame, hdisk]
    exact ⟨fun hfree => ⟨by omega, hfree⟩, And.right⟩

def freeBlocks (m : Memory) : Set Nat := {i | 1 ≤ i ∧ i < nblocks m ∧ isFree m i}

/-- The end of `alloc_block` that started with cache `m` and disk `d`. -/
def Allocates (m d : Memory) (r : Except Word Word) (s' : Cache) : Prop :=
  (∃ i, IsLeast (freeBlocks m) i ∧ r = .ok (BitVec.ofNat 32 i) ∧ s'.mem = take m i ∧
      (isFree s'.disk i ↔ 32768 ≤ i ∧ isFree d i)) ∨
    freeBlocks m = ∅ ∧ r = .ok (-eNoDisk) ∧ s'.mem = m

theorem runs_allocFrom (hs : Ready P s) (hfits : nblocks s.mem ≤ disksize / blksize)
    (hn : i + n = max i (nblocks s.mem)) (hi : 1 ≤ i) (hbefore : ∀ j ∈ freeBlocks s.mem, i ≤ j) :
    Command.Runs True (allocFrom n i) s fun r s' => Ready P s' ∧ Allocates s.mem s.disk r s' := by
  induction n generalizing i s with
  | zero =>
    refine ⟨hs, .inr ⟨Set.eq_empty_of_forall_notMem fun j hj => ?_, rfl, rfl⟩⟩
    have := hbefore j hj
    have := hj.2.1
    omega
  | succ n ih =>
    have hlt : i < nblocks s.mem := by omega
    rw [allocFrom, Command.runs_bind]
    refine (runs_blockIsFree hs hlt hfits fun hge hfree => ?_).mono ?_ id
    · have := hbefore (2 + i / 32768) ⟨by omega, by omega, hfree⟩
      omega
    rintro _ s1 ⟨rfl, hload, hmapped⟩
    have hs1 := hload.ready hs
    rw [← hload.mem, ← hload.disk]
    rw [← hload.mem] at hfits hlt hn hbefore
    dsimp only
    by_cases hfree : isFree s1.mem i
    · rw [decide_eq_true hfree, if_pos rfl]
      refine (runs_takeBlock hs1 hmapped (by omega)).mono ?_ id
      rintro r s' ⟨rfl, hs', hmem, hdisk⟩
      exact ⟨hs', .inl ⟨i, ⟨⟨hi, hlt, hfree⟩, hbefore⟩, rfl, hmem, hdisk⟩⟩
    rw [decide_eq_false hfree, if_neg (by simp)]
    refine ih hs1 hfits (by omega) (by omega) fun j hj => ?_
    have := hbefore j hj
    have hne : j ≠ i := by
      rintro rfl
      exact hfree hj.2.2
    omega

theorem runs_allocBlock (hs : Ready P s) (hfits : nblocks s.mem ≤ disksize / blksize) :
    Command.Runs True allocBlock s fun r s' => Ready P s' ∧ Allocates s.mem s.disk r s' := by
  rw [allocBlock, Command.runs_bind]
  refine (runs_loadWord (by decide) hs.coherent (access_mapped hs.super)).mono ?_ id
  rintro _ s1 ⟨rfl, hload, -⟩
  have hn : 1 + (nblocks s.mem - 1) = max 1 (nblocks s.mem) := by omega
  rw [← hload.mem] at hfits hn
  rw [← hload.mem, ← hload.disk]
  exact runs_allocFrom (hload.ready hs) hfits hn (Nat.le_refl 1) fun j hj => hj.1

/-- What `alloc_block` is for. -/
def TakesFirst (s : Cache) : Prop :=
  ∃ r s', allocBlock.run.run s = some (.ok r, s') ∧
    ((∃ i, IsLeast (freeBlocks s.mem) i ∧ r = BitVec.ofNat 32 i ∧
        (∀ c, isFree s'.mem c ↔ isFree s.mem c ∧ c ≠ i) ∧ ¬ isFree s'.disk i) ∨
      freeBlocks s.mem = ∅ ∧ r = -eNoDisk ∧ ∀ c, isFree s'.mem c ↔ isFree s.mem c)

theorem not_takesFirst (hs : Ready P s) (hfits : nblocks s.mem ≤ disksize / blksize)
    (hleast : IsLeast (freeBlocks s.mem) i) (hge : 32768 ≤ i) (hfree : isFree s.disk i) :
    ¬ TakesFirst s := by
  rintro ⟨r, s', hrun, h⟩
  have hruns := runs_allocBlock hs hfits
  rw [Command.Runs, hrun] at hruns
  rcases hruns.2 with ⟨i', hleast', -, -, hdisk⟩ | ⟨hempty, -⟩
  · rw [hleast'.unique hleast] at hdisk
    rcases h with ⟨j, hj, -, -, hnot⟩ | ⟨hempty, -⟩
    · rw [hj.unique hleast] at hnot
      exact hnot (hdisk.mpr ⟨hge, hfree⟩)
    · exact absurd hleast.1 (by simp [hempty])
  · exact absurd hleast.1 (by simp [hempty])

/-- `alloc_block` does so exactly if the block that it takes has its bit in the first block of the
bitmap, or the bit is already clear on disk. -/
theorem allocBlock_takesFirst_iff (hs : Ready P s) (hfits : nblocks s.mem ≤ disksize / blksize) :
    TakesFirst s ↔ ∀ i, IsLeast (freeBlocks s.mem) i → i < 32768 ∨ ¬ isFree s.disk i := by
  constructor
  · intro h i hleast
    by_contra hnot
    push Not at hnot
    exact not_takesFirst hs hfits hleast hnot.1 hnot.2 h
  intro h
  have hruns := runs_allocBlock hs hfits
  unfold Command.Runs at hruns
  split at hruns
  · exact absurd trivial hruns
  rename_i r s' hrun
  rcases hruns.2 with ⟨i, hleast, rfl, hmem, hdisk⟩ | ⟨hempty, rfl, hmem⟩
  · refine ⟨_, s', hrun, .inl ⟨i, hleast, rfl, fun c => ?_, fun hfree => ?_⟩⟩
    · rw [hmem]
      exact isFree_take
    · obtain ⟨hge, hfree'⟩ := hdisk.mp hfree
      exact (h i hleast).elim (fun hlt => by omega) fun hnot => hnot hfree'
  · exact ⟨_, s', hrun, .inr ⟨hempty, rfl, fun c => by rw [hmem]⟩⟩

theorem ready_mapped (m : Memory) : Ready (fun _ => False) ⟨m, m, fun _ => ptePuw⟩ :=
  ⟨fun _ _ _ => rfl, fun _ h => h.elim, show ptePuw &&& pteP ≠ 0 by decide,
    show ptePuw &&& pteP ≠ 0 by decide, fun _ _ _ => show ptePuw &&& pteW ≠ 0 by decide⟩

/-- A disk with two bitmap blocks, of which block 32768 alone is free; all pages are mapped. -/
def lastBlockFree : Cache where
  mem := writeWord (writeWord (fun _ => 0) sNblocks 32769) (bitmapWord 32768) 1
  disk := writeWord (writeWord (fun _ => 0) sNblocks 32769) (bitmapWord 32768) 1
  pte := fun _ => ptePuw

theorem ready_lastBlockFree : Ready (fun _ => False) lastBlockFree := ready_mapped _

theorem nblocks_lastBlockFree : nblocks lastBlockFree.mem = 32769 := by
  rw [nblocks, lastBlockFree, readWord_writeWord_of_ne (by decide), readWord_writeWord_self]
  rfl

theorem allocBlock_takesFirst_iff_lastBlockFree : TakesFirst lastBlockFree ↔
    ∀ i, IsLeast (freeBlocks lastBlockFree.mem) i → i < 32768 ∨ ¬ isFree lastBlockFree.disk i :=
  allocBlock_takesFirst_iff ready_lastBlockFree (by rw [nblocks_lastBlockFree]; decide)

/-- Block 32768 is taken, and its bit stays set on disk. -/
theorem second_bitmap_block_not_flushed : Ready (fun _ => False) lastBlockFree ∧
    nblocks lastBlockFree.mem ≤ disksize / blksize ∧ ¬ TakesFirst lastBlockFree := by
  have hfits : nblocks lastBlockFree.mem ≤ disksize / blksize := by
    rw [nblocks_lastBlockFree]
    decide
  refine ⟨ready_lastBlockFree, hfits, ?_⟩
  have hlast : ∀ i ∈ freeBlocks lastBlockFree.mem, 32768 ≤ i := by
    rintro i ⟨-, -, hfree⟩
    by_contra hlt
    rw [isFree, lastBlockFree, readWord_writeWord_of_ne, readWord_writeWord_of_ne] at hfree
    · rw [readWord_eq_zero fun _ _ _ => rfl] at hfree
      exact hfree BitVec.zero_and
    all_goals grind
  have hfree : 32768 ∈ freeBlocks lastBlockFree.mem := by
    refine ⟨by decide, by rw [nblocks_lastBlockFree]; decide, ?_⟩
    rw [isFree, lastBlockFree, readWord_writeWord_self]
    decide
  exact not_takesFirst ready_lastBlockFree hfits ⟨hfree, hlast⟩ (Nat.le_refl _) hfree.2.2

end Mit6828.Fs
