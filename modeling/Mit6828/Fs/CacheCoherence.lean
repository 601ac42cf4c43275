import Mit6828.Fs.Layout

namespace Mit6828.Fs.CacheCoherence

open Kern.Mmu Library Library.FlatMemory

/-- What the server can do with the cache: accesses to byte `off` of block `b`, and flushes. -/
inductive Op where
  | load (b : Word) (off : Fin 4096)
  | store (b : Word) (off : Fin 4096) (v : Byte)
  | flush (va : Nat)
  | fileFlush (f : Nat)
  | fsSync

def perform : Op → FsM (Option Byte)
  | .load b off => do
    let va ← diskaddr b
    let v ← loadByte (va + off)
    return some v
  | .store b off v => do
    let va ← diskaddr b
    storeByte (va + off) v
    return none
  | .flush va => do
    flushBlock va
    return none
  | .fileFlush f => do
    fileFlush f
    return none
  | .fsSync => do
    fsSync
    return none

inductive Run : Cache → List Op → List (Option Byte) → Cache → Prop
  | nil (s : Cache) : Run s [] [] s
  | cons {s s1 s' : Cache} {op : Op} {v : Option Byte} {ops : List Op} {outs : List (Option Byte)}
      (hop : (perform op).run.run s = some (.ok v, s1)) (hrest : Run s1 ops outs s') :
      Run s (op :: ops) (v :: outs) s'

def apply (m : Memory) : Op → Memory
  | .store b off v => fill m (blockVa b + off) 1 v
  | _ => m

def answer (m : Memory) : Op → Option Byte
  | .load b off => some (m (blockVa b + off))
  | _ => none

/-- What the operations return on a plain memory: a load returns the byte last stored there, or
the one that was there at the start. -/
def answers : Memory → List Op → List (Option Byte)
  | _, [] => []
  | m, op :: ops => answer m op :: answers (apply m op) ops

/-- After `fs_init` the super block and the first block of the bitmap are mapped, and nothing has
been stored.  `disk` is the disk image, and outside the disk map the memory is `other`. -/
def booted (disk other : Memory) (pte : Nat → Word) : Cache where
  mem := fun a => if diskmap ≤ a ∧ a < diskmap + disksize then disk a else other a
  disk := disk
  pte := fun pn =>
    if pn = sNblocks / blksize ∨ pn = bitmap / blksize then ptePuw
    else if diskmap / blksize ≤ pn ∧ pn < (diskmap + disksize) / blksize then 0
    else pte pn

theorem coherent_booted (disk other : Memory) (pte : Nat → Word) :
    Coherent (booted disk other pte) := fun _ ha _ => if_pos ha

def OnDisk (s : Cache) (va : Nat) : Prop := ∀ x, x / blksize = va / blksize → s.disk x = s.mem x

/-- The data blocks of file `f`, its indirect block and the block with the `struct File` are on
disk. -/
structure FileOnDisk (s : Cache) (f : Nat) : Prop where
  data : ∀ i : Nat, ((i * blksize : Nat) : Int) < (readWord s.mem (fSize f)).toInt →
    i < ndirect + nindirect →
    blockNo s.mem f i ≠ 0 → OnDisk s (blockVa (blockNo s.mem f i))
  file : OnDisk s f
  indirect : readWord s.mem (fIndirect f) ≠ 0 → OnDisk s (blockVa (readWord s.mem (fIndirect f)))

def SizeFits (s : Cache) (f : Nat) : Prop := (readWord s.mem (fSize f)).toInt ≤ 0x7FFFF000

structure Lawful (m0 : Memory) (ops : List Op) (outs : List (Option Byte)) (s : Cache) : Prop where
  loads : outs = answers m0 ops
  clean : ∀ a, InMap a → vaIsMapped s a → ¬ vaIsDirty s a → s.mem a = s.disk a
  flushed : ∀ f s', (perform (.fileFlush f)).run.run s = some (.ok none, s') → SizeFits s f →
    FileOnDisk s' f
  synced : ∀ s', (perform .fsSync).run.run s = some (.ok none, s') →
    ∀ b : Word, b ≠ 0 → b.toNat < nblocks s'.mem → OnDisk s' (blockVa b)

section Rules

abbrev View := Memory × (Nat → Prop)

def view (s : Cache) : View := (s.mem, Dirty s)

abbrev Sees {α : Type} (c : FsM α) (v : View) (Q : Except Word α → View → Prop) : Prop :=
  Command.Does Coherent view False c v Q

variable {m : Memory} {D : Nat → Prop} {a n va f : Nat} {Q : Except Word Unit → View → Prop}

theorem view_loaded {s s' : Cache} (h : Loaded s s') : view s' = view s := by
  rw [view, view, h.mem]
  congr 1
  funext pn
  exact propext (h.dirty pn)

theorem sees_touchRange (h : Q (.ok ()) (m, D)) : Sees (touchRange a n) (m, D) Q := by
  intro s hs hv
  refine (runs_touchRange hs False.elim).mono ?_ id
  rintro _ s' ⟨rfl, hload, -⟩
  refine ⟨hload.coherent hs, ?_⟩
  rw [view_loaded hload, hv]
  exact h

theorem sees_load {Q : Except Word Word → View → Prop} (h : Q (.ok (readWord m a)) (m, D)) :
    Sees (load a) (m, D) Q := by
  refine .bind (sees_touchRange ?_)
  intro s hs hv
  refine ⟨hs, ?_⟩
  change Q (.ok (readWord s.mem a)) (view s)
  rw [hv, show s.mem = m from congrArg Prod.fst hv]
  exact h

theorem sees_loadByte {Q : Except Word Byte → View → Prop} (h : Q (.ok (m a)) (m, D)) :
    Sees (loadByte a) (m, D) Q := by
  refine .bind ?_
  intro s hs hv
  refine (runs_touch hs False.elim).mono ?_ id
  rintro _ s' ⟨rfl, hload, -⟩
  refine ⟨hload.coherent hs, ?_⟩
  rw [view_loaded hload, hv]
  intro s'' hs'' hv''
  refine ⟨hs'', ?_⟩
  change Q (.ok (s''.mem a)) (view s'')
  rw [hv'', show s''.mem = m from congrArg Prod.fst hv'']
  exact h

theorem sees_storeRange {g : Memory → Memory} (hg : Within a n g)
    (h : ∀ D', Q (.ok ()) (g m, D')) : Sees (storeRange a n g) (m, D) Q := by
  intro s hs hv
  refine (runs_storeRange hs False.elim).mono ?_ id
  rintro _ s' ⟨rfl, s1, hload, hstore⟩
  refine ⟨hstore.coherent hg (hload.coherent hs), ?_⟩
  rw [view, hstore.mem, hload.mem, show s.mem = m from congrArg Prod.fst hv]
  exact h _

def Clean (v : View) (va : Nat) : Prop := InMap va ∧ ¬ v.2 (va / blksize)

theorem sees_flushBlock (h : ∀ D' : Nat → Prop, (∀ p, D' p → D p) → Clean (m, D') va →
    Q (.ok ()) (m, D')) : Sees (flushBlock va) (m, D) Q := by
  intro s hs hv
  refine (runs_flushBlock False.elim).mono ?_ id
  rintro _ s' ⟨rfl, hmap, hflush⟩
  refine ⟨hflush.coherent hs, ?_⟩
  have hview : view s' = (m, Dirty s') := by
    rw [view, hflush.mem, show s.mem = m from congrArg Prod.fst hv]
  rw [hview]
  refine h _ (fun p hp => ?_) ⟨hmap, fun hdirty => ((hflush.dirty _).mp hdirty).2 rfl⟩
  rw [← show Dirty s = D from congrArg Prod.snd hv]
  exact ((hflush.dirty p).mp hp).1

theorem sees_diskaddr {Q : Except Word Nat → View → Prop} {b : Word}
    (h : b ≠ 0 → b.toNat < nblocks m → Q (.ok (blockVa b)) (m, D)) :
    Sees (diskaddr b) (m, D) Q := by
  rw [diskaddr]
  split
  · exact .fail id
  rename_i hne
  refine .bind (sees_load ?_)
  dsimp only
  split
  · exact .fail id
  · rename_i hle
    rw [BitVec.le_def, Nat.not_le] at hle
    exact .pure (h hne hle)

theorem sees_fileBlockWalk {Q : Except Word Nat → View → Prop} {w : Word}
    (hok : ∀ p, readWord m p = blockNo m f w.toNat → Q (.ok p) (m, D))
    (herr : ∀ e, (w.toNat < ndirect + nindirect → blockNo m f w.toNat = 0) → Q (.error e) (m, D)) :
    Sees (fileBlockWalk f w false) (m, D) Q := by
  rw [fileBlockWalk]
  split
  · rename_i hlt
    exact .pure (hok _ (by rw [blockNo, if_pos hlt]))
  rename_i hge
  split
  · exact .throw (herr _ fun _ => by omega)
  refine .bind (sees_load ?_)
  refine .bind ?_
  by_cases hind : readWord m (fIndirect f) = 0
  · rw [if_neg (not_not.mpr hind), if_neg (by decide)]
    exact .throw (herr _ fun _ => by rw [blockNo, if_neg hge, if_pos hind])
  · rw [if_pos hind]
    refine .pure (.bind (sees_load (.bind (sees_diskaddr fun _ _ => .pure (hok _ ?_)))))
    rw [blockNo, if_neg hge, if_neg hind]

theorem Clean.mono {D' : Nat → Prop} (h : Clean (m, D) va) (hsub : ∀ p, D' p → D p) :
    Clean (m, D') va := ⟨h.1, fun hdirty => h.2 (hsub _ hdirty)⟩

theorem sees_flushFrom {i : Nat} (hn : i + n ≤ 2 ^ 32) :
    Sees (flushFrom f n i) (m, D) fun r v => r = .ok () ∧ v.1 = m ∧ (∀ p, v.2 p → D p) ∧
      ∀ j, i ≤ j → j < i + n → j < ndirect + nindirect → blockNo m f j ≠ 0 →
        Clean v (blockVa (blockNo m f j)) := by
  induction n generalizing i D with
  | zero => exact .pure ⟨rfl, rfl, fun _ hp => hp, fun j _ _ => by omega⟩
  | succ n ih =>
    have hi : (BitVec.ofNat 32 i).toNat = i := by grind
    have hrest : ∀ D' : Nat → Prop, (∀ p, D' p → D p) →
        (i < ndirect + nindirect → blockNo m f i ≠ 0 → Clean (m, D') (blockVa (blockNo m f i))) →
        Sees (flushFrom f n (i + 1)) (m, D') fun r v => r = .ok () ∧ v.1 = m ∧
          (∀ p, v.2 p → D p) ∧ ∀ j, i ≤ j → j < i + (n + 1) → j < ndirect + nindirect →
            blockNo m f j ≠ 0 → Clean v (blockVa (blockNo m f j)) := by
      intro D' hsub hclean
      refine (ih (D := D') (i := i + 1) (by omega)).mono ?_
      rintro r ⟨m', D''⟩ ⟨hr, rfl, hv, hdone⟩
      refine ⟨hr, rfl, fun p hp => hsub p (hv p hp), fun j hlo hhi hj hne => ?_⟩
      by_cases hji : j = i
      · subst hji
        exact (hclean hj hne).mono hv
      · exact hdone j (by omega) (by omega) hj hne
    rw [flushFrom]
    refine .bind (.attempt (sees_fileBlockWalk ?_ ?_))
    · intro p hp
      rw [hi] at hp
      refine .bind (sees_load ?_)
      rw [hp]
      dsimp only
      split
      · rename_i hzero
        exact hrest D (fun _ hp => hp) fun _ hne => absurd hzero hne
      · refine .bind (sees_diskaddr fun _ _ => .bind (sees_flushBlock fun D' hsub hclean => ?_))
        exact hrest D' hsub fun _ _ => hclean
    · intro e he
      rw [hi] at he
      exact hrest D (fun _ hp => hp) fun hlt hne => absurd (he hlt) hne

theorem lt_nblocksOf {size : Word} {i : Nat} (hfits : size.toInt ≤ 0x7FFFF000)
    (hi : ((i * blksize : Nat) : Int) < size.toInt) : i < (nblocksOf size).toInt.toNat := by
  have hlt := size.isLt
  have hsize : size.toInt = size.toNat ∧ size.toNat ≤ 0x7FFFF000 := by
    rw [BitVec.toInt_eq_toNat_cond] at hfits hi ⊢
    split at hfits <;> omega
  have hcount := toNat_nblocksOf hsize.2
  rw [hsize.1] at hi
  rw [BitVec.toInt_eq_toNat_of_lt (by grind)]
  grind

theorem sees_fileFlush : Sees (fileFlush f) (m, D) fun r v => r = .ok () ∧ v.1 = m ∧ Clean v f ∧
    (readWord m (fIndirect f) ≠ 0 → Clean v (blockVa (readWord m (fIndirect f)))) ∧
    ∀ i < (nblocksOf (readWord m (fSize f))).toInt.toNat, i < ndirect + nindirect →
      blockNo m f i ≠ 0 → Clean v (blockVa (blockNo m f i)) := by
  rw [fileFlush]
  refine .bind (sees_load (.bind ((sees_flushFrom ?_).mono ?_)))
  · have := (nblocksOf (readWord m (fSize f))).toInt_lt
    omega
  rintro r ⟨m', D1⟩ ⟨rfl, rfl, -, hdone⟩
  refine .bind (sees_flushBlock fun D2 hsub2 hfile => .bind (sees_load ?_))
  dsimp only at hdone ⊢
  have hdata : ∀ i < (nblocksOf (readWord m' (fSize f))).toInt.toNat, i < ndirect + nindirect →
      blockNo m' f i ≠ 0 → Clean (m', D2) (blockVa (blockNo m' f i)) := fun i hi hlt hne =>
    (hdone i (Nat.zero_le _) (by omega) hlt hne).mono hsub2
  split
  · rename_i hzero
    exact .pure ⟨rfl, rfl, hfile, fun hne => absurd hzero hne, hdata⟩
  · refine .bind (sees_diskaddr fun _ _ => sees_flushBlock fun D3 hsub3 hind => ?_)
    exact ⟨rfl, rfl, hfile.mono hsub3, fun _ => hind,
      fun i hi hlt hne => (hdata i hi hlt hne).mono hsub3⟩

theorem sees_syncFrom {i : Nat} (hn : i + n ≤ 2 ^ 32) :
    Sees (syncFrom n i) (m, D) fun r v => r = .ok () ∧ v.1 = m ∧ (∀ p, v.2 p → D p) ∧
      ∀ b : Word, i ≤ b.toNat → b.toNat < i + n → Clean v (blockVa b) := by
  induction n generalizing i D with
  | zero => exact .pure ⟨rfl, rfl, fun _ hp => hp, fun b _ _ => by omega⟩
  | succ n ih =>
    rw [syncFrom]
    refine .bind (sees_diskaddr fun _ _ => .bind (sees_flushBlock fun D' hsub hclean => ?_))
    refine (ih (D := D') (i := i + 1) (by omega)).mono ?_
    rintro r ⟨m', D''⟩ ⟨hr, rfl, hv, hdone⟩
    refine ⟨hr, rfl, fun p hp => hsub p (hv p hp), fun b hlo hhi => ?_⟩
    by_cases hb : b.toNat = i
    · rw [← hb, BitVec.ofNat_toNat, BitVec.setWidth_eq] at hclean
      exact hclean.mono hv
    · exact hdone b (by omega) (by omega)

theorem sees_fsSync : Sees fsSync (m, D) fun r v => r = .ok () ∧ v.1 = m ∧
    ∀ b : Word, b ≠ 0 → b.toNat < nblocks m → Clean v (blockVa b) := by
  rw [fsSync]
  refine .bind (sees_load ((sees_syncFrom ?_).mono ?_))
  · have := (readWord m sNblocks).isLt
    omega
  rintro r v ⟨hr, hm, -, hdone⟩
  refine ⟨hr, hm, fun b hne hlt => hdone b ?_ ?_⟩
  · have hpos : b.toNat ≠ 0 := fun h => hne (BitVec.eq_of_toNat_eq h)
    omega
  · rw [nblocks] at hlt
    omega

end Rules

variable {s s' : Cache} {m : Memory} {va : Nat} {op : Op} {ops : List Op}
  {outs : List (Option Byte)}

theorem sees_perform (op : Op) (v : View) :
    Sees (perform op) v fun r v' => r = .ok (answer v.1 op) ∧ v'.1 = apply v.1 op := by
  obtain ⟨m, D⟩ := v
  cases op with
  | load b off =>
    exact .bind (sees_diskaddr fun _ _ => .bind (sees_loadByte (.pure ⟨rfl, rfl⟩)))
  | store b off w =>
    exact .bind (sees_diskaddr fun _ _ => .bind (sees_storeRange within_fill fun _ =>
      .pure ⟨rfl, rfl⟩))
  | flush va => exact .bind (sees_flushBlock fun _ _ _ => .pure ⟨rfl, rfl⟩)
  | fileFlush f =>
    refine .bind (sees_fileFlush.mono ?_)
    rintro r v ⟨rfl, hm, -⟩
    exact .pure ⟨rfl, hm⟩
  | fsSync =>
    refine .bind (sees_fsSync.mono ?_)
    rintro r v ⟨rfl, hm, -⟩
    exact .pure ⟨rfl, hm⟩

theorem onDisk_of_clean (hs : Coherent s) (hclean : Clean (view s) va) : OnDisk s va := by
  intro x hx
  refine (hs x (inMap_of_page hx hclean.1) ?_).symm
  rw [hx]
  exact hclean.2

theorem run_coherent (hs : Coherent s) (hrun : Run s ops outs s') :
    outs = answers s.mem ops ∧ Coherent s' := by
  induction hrun with
  | nil s => exact ⟨rfl, hs⟩
  | @cons s s1 s' op v ops outs hop _ ih =>
    obtain ⟨hs1, hv, hm⟩ := (sees_perform op (view s)).result hs rfl hop
    obtain ⟨hout, hs'⟩ := ih hs1
    cases hv
    rw [hout, show s1.mem = apply s.mem op from hm]
    exact ⟨rfl, hs'⟩

theorem fileOnDisk (hs : Coherent s) {f : Nat} (hfits : SizeFits s f)
    (hrun : (perform (.fileFlush f)).run.run s = some (.ok none, s')) : FileOnDisk s' f := by
  have hsees : Sees (perform (.fileFlush f)) (view s) fun _ v => v.1 = s.mem ∧ Clean v f ∧
      (readWord s.mem (fIndirect f) ≠ 0 → Clean v (blockVa (readWord s.mem (fIndirect f)))) ∧
      ∀ i < (nblocksOf (readWord s.mem (fSize f))).toInt.toNat, i < ndirect + nindirect →
        blockNo s.mem f i ≠ 0 → Clean v (blockVa (blockNo s.mem f i)) := by
    refine .bind (sees_fileFlush.mono ?_)
    rintro r v ⟨rfl, hrest⟩
    exact .pure hrest
  obtain ⟨hs', hmem, hfile, hind, hdata⟩ := hsees.result hs rfl hrun
  rw [show s.mem = s'.mem from hmem.symm] at hind hdata
  refine ⟨fun i hi hlt hne => ?_, onDisk_of_clean hs' hfile,
    fun hne => onDisk_of_clean hs' (hind hne)⟩
  refine onDisk_of_clean hs' (hdata i (lt_nblocksOf ?_ hi) hlt hne)
  rw [show s'.mem = s.mem from hmem]
  exact hfits

/-- From the start of the server, loads and stores through the cache act as on one memory, clean
blocks agree with the disk, `file_flush` brings a file whose size can be rounded up to disk, and
`fs_sync` all blocks. -/
theorem cache_is_coherent {disk other : Memory} {pte : Nat → Word}
    (hrun : Run (booted disk other pte) ops outs s) :
    Lawful (booted disk other pte).mem ops outs s := by
  obtain ⟨hout, hs⟩ := run_coherent (coherent_booted disk other pte) hrun
  refine ⟨hout, fun a ha _ hclean => hs a ha fun hdirty => hclean hdirty.2,
    fun f s' hflush hfits => fileOnDisk hs hfits hflush, fun s' hsync b hne hlt => ?_⟩
  have hsees : Sees (perform .fsSync) (view s) fun _ v => v.1 = s.mem ∧
      ∀ b : Word, b ≠ 0 → b.toNat < nblocks s.mem → Clean v (blockVa b) := by
    refine .bind (sees_fsSync.mono ?_)
    rintro r v ⟨rfl, hrest⟩
    exact .pure hrest
  obtain ⟨hs', hmem, hall⟩ := hsees.result hs rfl hsync
  rw [show s'.mem = s.mem from hmem] at hlt
  exact onDisk_of_clean hs' (hall b hne hlt)

/-- A disk of four blocks; the root has the given size and block 3 as its first one. -/
def fourBlocks (size : Word) : Memory :=
  writeWord (writeWord (writeWord (fun _ => 0) sNblocks 4) (fSize sRoot) size) (fDirect sRoot 0) 3

/-- Block 3 is read in, stored to and read. -/
theorem cache_is_coherent_stored : ∃ s,
    Run (booted (fourBlocks 1) (fun _ => 0) fun _ => 0) [.store 3 0 1, .load 3 0] [none, some 1] s ∧
      Lawful (booted (fourBlocks 1) (fun _ => 0) fun _ => 0).mem [.store 3 0 1, .load 3 0]
        [none, some 1] s := by
  have hrun : ∃ s, Run (booted (fourBlocks 1) (fun _ => 0) fun _ => 0) [.store 3 0 1, .load 3 0]
      [none, some 1] s := ⟨_, .cons rfl (.cons rfl (.nil _))⟩
  obtain ⟨s, hs⟩ := hrun
  exact ⟨s, hs, cache_is_coherent hs⟩

/-- With a size of `0x7FFFFFFF` the loop of `file_flush` does not run: `f_size + BLKSIZE - 1` is
negative, and block 3 stays dirty. -/
theorem fileFlush_skips : ∃ s s',
    Run (booted (fourBlocks 0x7FFFFFFF) (fun _ => 0) fun _ => 0) [.store 3 0 1] [none] s ∧
      (perform (.fileFlush sRoot)).run.run s = some (.ok none, s') ∧ ¬ FileOnDisk s' sRoot := by
  refine ⟨_, _, .cons rfl (.nil _), rfl, fun hdisk => ?_⟩
  have hblock := hdisk.data 0 (by decide) (by decide) (by decide) (blockVa 3) rfl
  exact absurd hblock (by decide)

end Mit6828.Fs.CacheCoherence
