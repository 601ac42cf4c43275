import Mit6828.Xv6.Files
import Mit6828.Xv6.LogSpace

namespace Mit6828.Xv6

open Library.BlockTree Xv6.Fs FsTree

def chunk : Nat := (maxopblocks - 1 - 1 - 2) / 2 * bsize

/-- The disk, `f->off`, `i`, and the calls of `log_write` of each section so far. -/
structure Filewrite where
  fs : Fs
  off : Word
  i : Nat
  sections : List (List Nat)

def Filewrite.loop (sb : Superblock) (inum : Nat) (addr : Nat → Byte) (n : Nat) :
    Nat → Filewrite → Option Filewrite
  | 0, w => some w
  | fuel + 1, w =>
    if w.i < n then
      let n1 := min (n - w.i) chunk
      (writei sb { w.fs with logged := [] } inum (fun x => addr (w.i + x)) w.off
      (BitVec.ofNat 32 n1)).bind
        fun out =>
          let w : Filewrite := { w with fs := out.1, sections := w.sections ++ [out.1.logged] }
          if out.2.slt 0 then some w
          else if out.2 ≠ BitVec.ofNat 32 n1 then none
          else loop sb inum addr n fuel { w with off := w.off + out.2, i := w.i + n1 }
    else some w

def Fs.filewrite (sb : Superblock) (fs : Fs) (inum : Nat) (addr : Nat → Byte) (off : Word)
    (n : Nat) :
    Option (Filewrite × Int) :=
  (Filewrite.loop sb inum addr n n ⟨fs, off, 0, []⟩).map fun w => (w, if w.i = n then n else -1)

/-- The index blocks that get a pointer when block `bn` is added to a file. -/
def indexBlocks (inum bn : Nat) : List (Slot Nat) :=
  if bn < ndirect then []
  else if bn - ndirect < nindirect then [indirect inum]
  else if (bn - ndirect - nindirect) % nindirect = 0 then [double inum, table inum bn]
  else [table inum bn]

/-- The index blocks that get a pointer, and the bitmap blocks of the blocks that are taken, when a
file grows from `k` to `k'` blocks. -/
abbrev pointerBlocks (inum k k' : Nat) : Finset (Slot Nat) :=
  (Finset.Ico k k').biUnion fun bn => (indexBlocks inum bn).toFinset

abbrev bitmapBlocks (sb : Superblock) (free : List Nat) (k k' : Nat) : Finset Nat :=
  (free.take (need k k')).toFinset.image (bblock sb)

/-- The blocks that are logged if `n` bytes are written at `off` to a file of the given size. -/
def sectionBlocks (sb : Superblock) (free : List Nat) (inum size off n : Nat) : Nat :=
  let k := blocks size
  let k' := grown k off n
  (blocks (off + n) - off / bsize) + (pointerBlocks inum k k').card +
    (bitmapBlocks sb free k k').card + if size < off + n then 1 else 0

/-- The same for all sections of a `filewrite`; one that fails logs nothing and is the last. -/
def reserved (sb : Superblock) (inum : Nat) : Nat → List Nat → Nat → Nat → Nat → List Nat
  | 0, _, _, _, _ => []
  | fuel + 1, free, size, off, n =>
    if n = 0 then []
    else
      let n1 := min n chunk
      if off > size ∨ off + n1 > maxfile * bsize then [0]
      else sectionBlocks sb free inum size off n1 ::
        reserved sb inum fuel
          (free.drop (need (blocks size) (grown (blocks size) off n1)))
          (max size (off + n1)) (off + n1) (n - n1)

def Room (sb : Superblock) (fs : Fs) (inum off n : Nat) : Prop :=
  need (blocks (fs.length inum)) (max (blocks (fs.length inum)) (min maxfile (blocks (off + n)))) ≤
    (fs.free sb).length

variable {sb : Superblock} {R : Set Nat} {fs fs' fs1 : Fs} {k : Nat → Nat} {inum bn off n x : Nat}
  {src : Nat → Byte} {s q : Slot Nat}

section Index

theorem indexBlocks_of_mem_way (h : s ∈ way inum bn) (hfirst : first s = bn) :
    (s = dataSlot inum bn ∨ s ∈ indexBlocks inum bn) ∧ ∀ q j, s = q.child j →
    q ∈ indexBlocks inum bn := by
  rw [way] at h
  rw [dataSlot, indexBlocks]
  split at h
  · rename_i hlt
    obtain rfl := List.mem_singleton.mp h
    simp [hlt, Slot.child]
  rename_i hge
  split at h
  · rename_i hlt
    rcases List.mem_pair.mp h with rfl | rfl
    · simp [hge, hlt, Slot.child]
    · rw [if_neg hge, if_pos hlt]
      refine ⟨.inl rfl, fun q j hqj => ?_⟩
      rw [← (Slot.child_inj (s := indirect inum) hqj).1]
      simp [hge, hlt]
  rename_i hge'
  simp only [List.mem_cons, List.not_mem_nil, or_false] at h
  rw [if_neg hge, if_neg hge', if_neg hge, if_neg hge']
  rcases h with rfl | rfl | rfl
  · obtain rfl : ndirect + nindirect = bn := hfirst
    simp [Slot.child]
  · have hmod : (bn - ndirect - nindirect) % nindirect = 0 := by grind [first]
    rw [if_pos hmod]
    refine ⟨.inr (by simp), fun q j hqj => ?_⟩
    rw [← (Slot.child_inj (s := double inum) hqj).1]
    simp
  · refine ⟨.inl rfl, fun q j hqj => ?_⟩
    rw [← (Slot.child_inj (s := table inum bn) hqj).1]
    split <;> simp

theorem exists_child_of_mem_indexBlocks (h : q ∈ indexBlocks inum bn) :
    ∃ j, q.child j ∈ way inum bn ∧ first (q.child j) = bn := by
  rw [indexBlocks] at h
  rw [way]
  split at h
  · cases h
  rename_i hge
  split at h
  · rename_i hlt
    obtain rfl := List.mem_singleton.mp h
    refine ⟨bn - ndirect, by simp [hge, hlt, Slot.child], ?_⟩
    grind [Slot.child, first]
  rename_i hge'
  rw [if_neg hge, if_neg hge']
  have hlast : ∃ j, (table inum bn).child j ∈ [double inum, table inum bn,
      (table inum bn).child ((bn - ndirect - nindirect) % nindirect)] ∧
      first ((table inum bn).child j) = bn :=
    ⟨(bn - ndirect - nindirect) % nindirect, by simp, by grind [Slot.child, first]⟩
  split at h
  · rename_i hmod
    rcases List.mem_pair.mp h with rfl | rfl
    · refine ⟨(bn - ndirect - nindirect) / nindirect, by simp [Slot.child], ?_⟩
      grind [Slot.child, first]
    · exact hlast
  · rw [List.mem_singleton.mp h]
    exact hlast

end Index

theorem mem_touched (hn : 0 < n) :
    bn ∈ touched off n ↔ bn ∈ Finset.Ico (off / bsize) (blocks (off + n)) := by
  rw [Finset.mem_Ico]
  constructor
  · rintro ⟨x, hle, hlt, rfl⟩
    grind
  · intro hbn
    exact ⟨max off (bsize * bn), by grind, by grind, by grind⟩

namespace FsTree

variable (h : Mapped sb R k fs) (hR : inum ∈ R) (hinum : inum < sb.ninodes)
  (hmax : off + n ≤ maxfile * bsize) (hoff : off ≤ bsize * k inum) (hn : 0 < n)
  (hw : Wrote sb R inum k src off n fs fs1)

include h hR hw

omit h in
theorem Wrote.view_ne_iff (hs : s ∈ slots sb) (howner : s.owner = inum) :
    view fs1 s ≠ 0 ↔ first s < grown (k inum) off n := by
  rw [hw.mapped.view_ne_iff (howner ▸ hR) hs, howner, Function.update_self]

theorem Wrote.new_iff (hs : s ∈ slots sb) (howner : s.owner = inum) :
    view fs s = 0 ∧ view fs1 s ≠ 0 ↔ first s ∈ Finset.Ico (k inum) (grown (k inum) off n) := by
  rw [hw.view_ne_iff hR hs howner, Finset.mem_Ico]
  refine and_congr_left' ?_
  have hiff := h.view_ne_iff (howner ▸ hR) hs
  rw [howner] at hiff
  rw [← not_iff_not, not_le]
  exact hiff

omit h hR in
theorem Wrote.mem_taken (b : Nat) : (b ∈ fs.free sb ∧ b ∉ fs1.free sb) ↔
    b ∈ (fs.free sb).take (need (k inum) (grown (k inum) off n)) := by
  rw [hw.free]
  generalize need _ _ = t
  have hnodup := nodup_free sb fs
  rw [← List.take_append_drop t (fs.free sb), List.nodup_append'] at hnodup
  constructor
  · rintro ⟨hb, hb'⟩
    rw [← List.take_append_drop t (fs.free sb), List.mem_append] at hb
    exact hb.resolve_right hb'
  · intro hb
    exact ⟨List.mem_of_mem_take hb, hnodup.2.2 hb⟩

include hinum hmax hoff hn

theorem Wrote.toFinset_logged (hlogged : fs.logged = []) : fs1.logged.toFinset =
    (Finset.Ico (off / bsize) (blocks (off + n))).image (fun bn => view fs1 (dataSlot inum bn)) ∪
    (pointerBlocks inum (k inum) (grown (k inum) off n)).image (view fs1) ∪
    bitmapBlocks sb (fs.free sb) (k inum) (grown (k inum) off n) := by
  have hlt : ∀ bn ∈ Finset.Ico (k inum) (grown (k inum) off n), bn < maxfile := by
    intro bn hbn
    grind
  ext x
  rw [List.mem_toFinset, hw.ext.logged, hlogged]
  simp only [List.not_mem_nil, false_or, Finset.mem_union, Finset.mem_image, Finset.mem_biUnion,
    List.mem_toFinset]
  constructor
  · rintro (⟨bn, hbn, rfl⟩ | ⟨b, hb, hb', rfl⟩ | ⟨s, hs, howner, hzero, hne, hx⟩)
    · exact .inl (.inl ⟨bn, (mem_touched hn).mp hbn, rfl⟩)
    · exact .inr ⟨b, (hw.mem_taken b).mp ⟨hb, hb'⟩, rfl⟩
    · have hnew := (hw.new_iff h hR hs howner).mp ⟨hzero, hne⟩
      have hway := mem_way_first hs
      rw [howner] at hway
      obtain ⟨hself, hparent⟩ := indexBlocks_of_mem_way hway rfl
      rcases hx with rfl | ⟨q, j, heq, rfl⟩
      · rcases hself with hself | hself
        · refine .inl (.inl ⟨first s, ?_, by rw [← hself]⟩)
          grind
        · exact .inl (.inr ⟨s, ⟨_, hnew, hself⟩, rfl⟩)
      · exact .inl (.inr ⟨q, ⟨_, hnew, hparent q j heq⟩, rfl⟩)
  · rintro ((⟨bn, hbn, rfl⟩ | ⟨q, ⟨bn, hbn, hq⟩, rfl⟩) | ⟨b, hb, rfl⟩)
    · exact .inl ⟨bn, (mem_touched hn).mpr hbn, rfl⟩
    · obtain ⟨j, hway, hfirst⟩ := exists_child_of_mem_indexBlocks hq
      have hs := mem_slots_of_mem_way hinum (hlt bn hbn) hway
      have howner := owner_of_mem_way hway
      obtain ⟨hzero, hne⟩ := (hw.new_iff h hR hs howner).mpr (by rwa [hfirst])
      exact .inr (.inr ⟨_, hs, howner, hzero, hne, .inr ⟨q, j, rfl, rfl⟩⟩)
    · obtain ⟨hb, hb'⟩ := (hw.mem_taken b).mpr hb
      exact .inr (.inl ⟨b, hb, hb', rfl⟩)

theorem Wrote.card_logged (hlayout : Layout sb) (hlogged : fs.logged = []) {size : Nat} :
    (fs1.logged ++ if size < off + n then [iblock sb inum] else []).toFinset.card =
      (blocks (off + n) - off / bsize) + (pointerBlocks inum (k inum) (grown (k inum) off n)).card +
      (bitmapBlocks sb (fs.free sb) (k inum) (grown (k inum) off n)).card +
      if size < off + n then 1 else 0 := by
  obtain ⟨A, htree, -⟩ := hw.mapped
  have hdata : ∀ bn ∈ Finset.Ico (off / bsize) (blocks (off + n)),
      dataSlot inum bn ∈ slots sb ∧ view fs1 (dataSlot inum bn) ≠ 0 :=
    fun bn hbn => hw.ext.written bn ((mem_touched hn).mpr hbn)
  have hindex : ∀ q ∈ pointerBlocks inum (k inum) (grown (k inum) off n),
      q ∈ slots sb ∧ view fs1 q ≠ 0 ∧ ¬ Leaf q := by
    intro q hq
    simp only [Finset.mem_biUnion, List.mem_toFinset] at hq
    obtain ⟨bn, hbn, hq⟩ := hq
    obtain ⟨j, hway, hfirst⟩ := exists_child_of_mem_indexBlocks hq
    have hbn' := Finset.mem_Ico.mp hbn
    have hlt : bn < maxfile := by grind
    have hs := mem_slots_of_mem_way hinum hlt hway
    have hne := (hw.view_ne_iff hR hs (owner_of_mem_way hway)).mpr (by rw [hfirst]; exact hbn'.2)
    exact ⟨closed_slots sb q j hs, view_parent_ne hne, not_leaf_of_child hs⟩
  have hbitmap : ∀ b ∈ (fs.free sb).take (need (k inum) (grown (k inum) off n)),
      bblock sb b < sb.data :=
      fun b hb => hlayout.bitmap b (mem_free.mp (List.mem_of_mem_take hb)).1
  have hlow := hlayout.inodes inum hinum
  have hmap : ∀ s ∈ slots sb, view fs1 s ≠ 0 → sb.bmapstart ≤ view fs1 s :=
    fun s hs hne => bmapstart_le_view hlayout htree hs hne
  rw [List.toFinset_append, hw.toFinset_logged h hR hinum hmax hoff hn hlogged,
    Finset.card_union_of_disjoint, Finset.card_union_of_disjoint, Finset.card_union_of_disjoint,
    Finset.card_image_of_injOn, Finset.card_image_of_injOn, Nat.card_Ico]
  · split <;> rfl
  · intro q hq q' hq' heq
    exact htree.exclusive q (hindex q hq).1 q' (hindex q' hq').1 heq (hindex q hq).2.1
  · intro bn hbn bn' hbn' heq
    exact (dataSlot_inj (htree.exclusive _ (hdata bn hbn).1 _ (hdata bn' hbn').1 heq
      (hdata bn hbn).2)).2
  · simp only [Finset.disjoint_left, Finset.mem_image]
    rintro x ⟨bn, hbn, rfl⟩ ⟨q, hq, heq⟩
    obtain ⟨hs, hne, hleaf⟩ := hindex q hq
    rw [htree.exclusive q hs _ (hdata bn hbn).1 heq hne] at hleaf
    exact hleaf (leaf_dataSlot inum bn)
  · simp only [Finset.disjoint_left, Finset.mem_union, Finset.mem_image, List.mem_toFinset]
    rintro x hx ⟨b, hb, rfl⟩
    have hlt := hbitmap b hb
    rcases hx with ⟨bn, hbn, heq⟩ | ⟨q, hq, heq⟩
    · have hge := (htree.range _ (hdata bn hbn).1 (hdata bn hbn).2).1
      omega
    · have hge := (htree.range q (hindex q hq).1 (hindex q hq).2.1).1
      omega
  · split
    · simp only [List.toFinset_cons, List.toFinset_nil, insert_empty_eq,
        Finset.disjoint_singleton_right,
        Finset.mem_union, Finset.mem_image, not_or, not_exists, not_and]
      refine ⟨⟨fun bn hbn heq => ?_, fun q hq heq => ?_⟩, fun b _ heq => ?_⟩
      · have hge := hmap _ (hdata bn hbn).1 (hdata bn hbn).2
        omega
      · have hge := hmap q (hindex q hq).1 (hindex q hq).2.1
        omega
      · have hge := bmapstart_le_bblock sb b
        omega
    · exact Finset.disjoint_empty_right _

end FsTree

section Sections

theorem Wf.begin_section (hlayout : Layout sb) (h : Wf sb R fs) :
    Wf sb R { fs with logged := [] } where
  regular := h.regular
  mapped := by
    have hsame : SameTree sb fs { fs with logged := [] } := ⟨fun _ _ => rfl, fun _ _ _ _ => rfl⟩
    exact hsame.mapped hlayout h.mapped
  size := h.size
  disk := h.disk

variable (hlayout : Layout sb) (h : Wf sb R fs) (hR : inum ∈ R)

include hlayout h hR

theorem Wf.section_eq (src : Nat → Byte) (off n : Word) (hoff : off.toNat ≤ fs.length inum)
    (hmax : off.toNat + n.toNat ≤ maxfile * bsize) (hn : 0 < n.toNat)
    (hfree : need (blocks (fs.length inum)) (grown (blocks (fs.length inum)) off.toNat n.toNat) ≤
      (fs.free sb).length) :
    ∃ fs', writei sb { fs with logged := [] } inum src off n = some (fs', n) ∧ Wf sb R fs' ∧
      fs'.length inum = max (fs.length inum) (off.toNat + n.toNat) ∧
      fs'.free sb = (fs.free sb).drop
        (need (blocks (fs.length inum)) (grown (blocks (fs.length inum)) off.toNat n.toNat)) ∧
      fs'.logged.toFinset.card =
        sectionBlocks sb (fs.free sb) inum (fs.length inum) off.toNat n.toNat := by
  have hover : off.toNat + n.toNat < 2 ^ 32 := hmax.trans_lt (by decide)
  have h' := h.begin_section hlayout
  obtain ⟨fs', hwrite, hwritten⟩ := h'.writei_eq hlayout hR src hoff hover hmax hfree
  obtain ⟨fs1, hw, hsame, hlogged⟩ := hwritten.loop
  refine ⟨fs', hwrite, hwritten.wf, hwritten.length, ?_, ?_⟩
  · rw [hsame.free_eq, hw.free]
    rfl
  have hoff' : off.toNat ≤ bsize * blocks (fs.length inum) := by grind
  rw [hlogged]
  exact hw.card_logged h'.mapped hR (h.regular inum hR).1 hmax hoff' hn hlayout rfl

end Sections

theorem Filewrite.loop_eq (hlayout : Layout sb) (hR : inum ∈ R) (addr : Nat → Byte) (fuel : Nat) :
    ∀ w : Filewrite, Wf sb R w.fs → n - w.i ≤ fuel → Room sb w.fs inum w.off.toNat (n - w.i) →
      ∃ w', Filewrite.loop sb inum addr n fuel w = some w' ∧
        w'.sections.map (fun ws => ws.toFinset.card) =
          w.sections.map (fun ws => ws.toFinset.card) ++
          reserved sb inum fuel (w.fs.free sb) (w.fs.length inum) w.off.toNat (n - w.i) := by
  induction fuel with
  | zero =>
    intro w _ _ _
    exact ⟨w, rfl, (List.append_nil _).symm⟩
  | succ fuel ih =>
    intro w h hfuel hroom
    rw [Filewrite.loop, reserved]
    by_cases hlt : w.i < n
    swap
    · rw [if_neg hlt, if_pos (by omega), List.append_nil]
      exact ⟨w, rfl, rfl⟩
    rw [if_pos hlt, if_neg (by omega)]
    dsimp only
    generalize hn1 : min (n - w.i) chunk = n1
    simp only [show chunk = 1536 from rfl] at hn1
    have hword : (BitVec.ofNat 32 n1).toNat = n1 := by grind
    have hnonneg : (BitVec.ofNat 32 n1).slt 0 = false := by
      rw [BitVec.slt_eq_decide, decide_eq_false_iff_not, BitVec.toInt_eq_toNat_of_lt (by omega)]
      exact not_lt.mpr (Int.natCast_nonneg _)
    by_cases hfail : w.off.toNat > w.fs.length inum ∨ w.off.toNat + n1 > maxfile * bsize
    · have hneg : writei sb { w.fs with logged := [] } inum (fun x => addr (w.i + x)) w.off
          (BitVec.ofNat 32 n1) = some ({ w.fs with logged := [] }, -1) :=
        writei_eq_neg_one (hfail.imp id fun hgt => .inr (hword.symm ▸ hgt))
      rw [if_pos hfail, hneg, Option.bind_some, if_pos (show BitVec.slt (-1) 0 = true by decide)]
      refine ⟨_, rfl, ?_⟩
      simp
    rw [if_neg hfail]
    rw [not_or, not_lt, not_lt] at hfail
    obtain ⟨hoff, hmax⟩ := hfail
    have hblocks : blocks (w.off.toNat + n1) ≤ min maxfile (blocks (w.off.toNat + (n - w.i))) := by
      grind
    rw [Room] at hroom
    generalize hK : min maxfile (blocks (w.off.toNat + (n - w.i))) = K at *
    have hle : grown (blocks (w.fs.length inum)) w.off.toNat n1 ≤
        max (blocks (w.fs.length inum)) K := max_le_max_left _ hblocks
    have hneed := need_add (le_grown _ _ _) hle
    obtain ⟨fs', hwrite, hwf, hlength, hfree, hcard⟩ :=
      h.section_eq hlayout hR (fun x => addr (w.i + x))
      w.off (BitVec.ofNat 32 n1) hoff (by rwa [hword]) (by omega) (by grind)
    rw [hword] at hlength hfree hcard
    have hoff' : (w.off + BitVec.ofNat 32 n1).toNat = w.off.toNat + n1 := by
      have hbound : maxfile * bsize < 2 ^ 32 := by decide
      rw [BitVec.toNat_add, hword, Nat.mod_eq_of_lt (by omega)]
    have hk' : blocks (max (w.fs.length inum) (w.off.toNat + n1)) =
        grown (blocks (w.fs.length inum)) w.off.toNat n1 := by
      grind
    rw [hwrite, Option.bind_some]
    dsimp only
    rw [hnonneg, if_neg (by decide), if_neg (by simp)]
    have hroom' : Room sb fs' inum (w.off + BitVec.ofNat 32 n1).toNat (n - (w.i + n1)) := by
      rw [Room, hoff', hlength, hk', hfree, List.length_drop,
        show w.off.toNat + n1 + (n - (w.i + n1)) = w.off.toNat + (n - w.i) by omega, hK,
        show max (grown _ _ n1) K = max (blocks (w.fs.length inum)) K by
          rw [grown, max_assoc, max_eq_right hblocks]]
      omega
    obtain ⟨w', hloop, hsections⟩ := ih
      ⟨fs', w.off + BitVec.ofNat 32 n1, w.i + n1, w.sections ++ [fs'.logged]⟩ hwf
        (by dsimp only; omega) hroom'
    refine ⟨w', hloop, ?_⟩
    rw [hsections, List.map_append, List.append_assoc, List.map_singleton, hcard,
      List.singleton_append]
    dsimp only
    rw [hoff', hlength, hfree, Nat.sub_sub]

/-- What is logged between `begin_op` and `end_op` of a call of `filewrite`, all of whose sections
log at most `m` blocks by the formula.  The calls may see different states of the disk: what another
call allocates in between is in use from the start. -/
def Logs (sb : Superblock) (m : Nat) (ws : List Nat) : Prop :=
  ∃ R fs inum addr off n w r, Wf sb R fs ∧ inum ∈ R ∧ Room sb fs inum off.toNat n ∧
    (∀ c ∈ reserved sb inum n (fs.free sb) (fs.length inum) off.toNat n, c ≤ m) ∧
    fs.filewrite sb inum addr off n = some (w, r) ∧ ws ∈ w.sections

theorem Wf.filewrite_eq (hlayout : Layout sb) (h : Wf sb R fs) (hR : inum ∈ R) (addr : Nat → Byte)
    (off : Word)
    (hroom : Room sb fs inum off.toNat n) : ∃ w r, fs.filewrite sb inum addr off n = some (w, r) ∧
      w.sections.map (fun ws => ws.dedup.length) =
        reserved sb inum n (fs.free sb) (fs.length inum) off.toNat n := by
  obtain ⟨w, hloop, hsections⟩ :=
    Filewrite.loop_eq hlayout hR addr n ⟨fs, off, 0, []⟩ h (Nat.sub_le _ _) hroom
  refine ⟨w, _, by rw [Fs.filewrite, hloop, Option.map_some], ?_⟩
  simp only [← List.card_toFinset]
  exact hsections

theorem Logs.length_le (hlayout : Layout sb) {m : Nat} {ws : List Nat} (h : Logs sb m ws) :
    ws.dedup.length ≤ m := by
  obtain ⟨R, fs, inum, addr, off, n, w, r, hwf, hR, hroom, hle, hcall, hws⟩ := h
  obtain ⟨w', r', hcall', hsections⟩ := hwf.filewrite_eq hlayout hR addr off hroom
  obtain ⟨rfl, rfl⟩ := Prod.mk.inj (Option.mem_unique hcall hcall')
  refine hle _ ?_
  rw [← hsections]
  exact List.mem_map_of_mem hws

/-- The sections of `filewrite` keep to `MAXOPBLOCKS` exactly if the numbers of `reserved` do; and
if they are smaller, no `log_write` of any calls that run at the same time panics. -/
theorem filewrite_log_space (hlayout : Layout sb) :
    (∀ R fs, Wf sb R fs → ∀ inum ∈ R, ∀ addr (off : Word) n, Room sb fs inum off.toNat n →
      ∃ w r, fs.filewrite sb inum addr off n = some (w, r) ∧
        ((∀ ws ∈ w.sections, ws.dedup.length ≤ maxopblocks) ↔
          ∀ c ∈ reserved sb inum n (fs.free sb) (fs.length inum) off.toNat n, c ≤ maxopblocks)) ∧
      ∀ s, LogSpace.Reachable { ws | Logs sb (maxopblocks - 1) ws } s → ¬ s.Panics := by
  refine ⟨fun R fs h inum hR addr off n hroom => ?_,
    fun s hreach => hreach.not_panics fun ws hws => ?_⟩
  · obtain ⟨w, r, hcall, hsections⟩ := h.filewrite_eq hlayout hR addr off hroom
    refine ⟨w, r, hcall, ?_⟩
    rw [← hsections]
    simp only [List.forall_mem_map]
  · rw [List.card_toFinset]
    exact Nat.lt_of_le_pred (by decide) (Logs.length_le hlayout hws)

theorem filewrite_log_space_smallDisk :
    ∃ w r, smallFs.filewrite smallDisk 1 (fun _ => 0) 0 2000 = some (w, r) ∧
      ∀ ws ∈ w.sections, ws.dedup.length ≤ maxopblocks := by
  have hfree : smallFs.free smallDisk = _ := free_freshDisk
  obtain ⟨w, r, hcall, hiff⟩ :=
    (filewrite_log_space layout_smallDisk).1 _ _ wf_smallFs 1 (by decide) (fun _ => 0) 0
    2000 (by rw [Room, hfree]; decide +kernel)
  refine ⟨w, r, hcall, hiff.mpr ?_⟩
  rw [hfree]
  decide +kernel

def fullDisk : Superblock := ⟨fssize, 200, 32, 58, 63⟩

theorem layout_fullDisk : Layout fullDisk where
  inodes := by
    intro inum (hinum : inum < 200)
    simp only [iblock, fullDisk, show ipb = 8 from rfl]
    omega
  bitmap := by
    intro b (hb : b < 20000)
    simp only [bblock, fullDisk, show bpb = 4096 from rfl]
    omega
  pos := by decide
  size := by decide

/-- Few blocks are free, the last ones with different bitmap blocks. -/
def scattered : List Nat := List.range' 63 139 ++ [4096, 8192, 12288, 16384]

theorem free_scattered :
    (freshDisk fullDisk 1 fun b => b ∉ scattered).free fullDisk = scattered := by
  rw [free_freshDisk]
  refine List.Perm.eq_of_pairwise' (r := (· < ·)) (List.pairwise_lt_range.filter _)
    (by decide +kernel) ?_
  rw [List.perm_ext_iff_of_nodup (List.nodup_range.filter _) (by decide +kernel)]
  intro b
  have hsize : ∀ b ∈ scattered, b < fullDisk.size := by decide +kernel
  simp only [List.mem_filter, List.mem_range, decide_not, Bool.not_not, decide_eq_true_eq]
  exact ⟨And.right, fun hb => ⟨hsize b hb, hb⟩⟩

/-- The chunk goes from the single indirect to the double indirect blocks: 4 data blocks, 3 index
blocks, 5 blocks of the bitmap and the inode. -/
theorem filewrite_exceeds : ∃ R fs w r, Wf fullDisk R fs ∧ 1 ∈ R ∧
    fs.filewrite fullDisk 1 (fun _ => 0) 69888 1536 = some (w, r) ∧
    w.sections.map (fun ws => ws.dedup.length) = [13] ∧ maxopblocks < 13 := by
  have hwf : Wf fullDisk { e | e < 200 } (freshDisk fullDisk 1 fun b => b ∉ scattered) :=
    wf_freshDisk layout_fullDisk (by decide +kernel)
  have hR : 1 ∈ { e | e < 200 } := by decide
  obtain ⟨fs, -, h, hlength, hfree, -⟩ := hwf.section_eq layout_fullDisk hR (fun _ => 0) 0 69888
    (by decide) (by decide) (by decide) (by rw [free_scattered]; decide +kernel)
  rw [free_scattered] at hfree
  have hlength' : fs.length 1 = 69888 := hlength
  have hfree' : fs.free fullDisk = [201, 4096, 8192, 12288, 16384] := by
    rw [hfree]
    decide +kernel
  obtain ⟨w, r, hcall, hsections⟩ :=
    h.filewrite_eq layout_fullDisk hR (fun _ => 0) 69888 (n := 1536)
    (by rw [Room, hfree', hlength']; decide +kernel)
  refine ⟨_, fs, w, r, h, hR, hcall, ?_, by decide⟩
  rw [hsections, hfree', hlength']
  decide +kernel

end Mit6828.Xv6
