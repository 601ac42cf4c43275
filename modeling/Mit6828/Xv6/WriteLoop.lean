import Mathlib.Algebra.BigOperators.Intervals
import Mit6828.Xv6.FsTree

namespace Mit6828.Xv6.FsTree

open Library Library.BlockTree Xv6.Fs Function

section Bmap

def way (inum bn : Nat) : List (Slot Nat) :=
  if bn < ndirect then [⟨inum, bn, []⟩]
  else if bn - ndirect < nindirect then [indirect inum, ⟨inum, ndirect, [bn - ndirect]⟩]
  else [double inum, table inum bn, (table inum bn).child ((bn - ndirect - nindirect) % nindirect)]

def cost (bn : Nat) : Nat := (way 0 bn).countP fun s => first s = bn

open Classical in
structure Adds (sb : Superblock) (inum : Nat) (A : Set (Slot Nat)) (fs : Fs) (l : List (Slot Nat))
    (fs' : Fs) : Prop where
  tree : Tree sb fs' (A ∪ { s | s ∈ l })
  ext : Extends sb inum ∅ fs fs'
  free : fs'.free sb = (fs.free sb).drop (l.countP fun s => s ∉ A)

variable {sb : Superblock} {fs fs' fs1 : Fs} {A B : Set (Slot Nat)} {s t : Slot Nat}
  {l : List (Slot Nat)} {inum bn b i j : Nat}

section Way

theorem first_le_of_mem_way (h : s ∈ way inum bn) : first s ≤ bn := by
  rw [way] at h
  split at h
  · rw [List.mem_singleton.mp h]
    grind [first, Slot.child]
  split at h
  · rcases List.mem_pair.mp h with rfl | rfl <;> grind [first, Slot.child]
  · simp only [List.mem_cons, List.not_mem_nil, or_false] at h
    rcases h with rfl | rfl | rfl <;> grind [first, Slot.child]

theorem owner_of_mem_way (h : s ∈ way inum bn) : s.owner = inum := by
  rw [way] at h
  split at h
  · rw [List.mem_singleton.mp h]
  · split at h
    · rcases List.mem_pair.mp h with rfl | rfl <;> rfl
    · simp only [List.mem_cons, List.not_mem_nil, or_false] at h
      rcases h with rfl | rfl | rfl <;> rfl

theorem mem_slots_of_mem_way (hinum : inum < sb.ninodes) (hbn : bn < maxfile)
    (h : s ∈ way inum bn) :
    s ∈ slots sb := by
  have hmem := dataSlot_mem hinum hbn
  rw [way] at h
  rw [dataSlot] at hmem
  split at h
  · rename_i hlt
    rw [if_pos hlt] at hmem
    rwa [List.mem_singleton.mp h]
  rename_i hge
  rw [if_neg hge] at hmem
  split at h
  · rename_i hlt
    rw [if_pos hlt] at hmem
    rcases List.mem_pair.mp h with rfl | rfl
    · exact closed_slots sb _ _ hmem
    · exact hmem
  · rename_i hge'
    rw [if_neg hge'] at hmem
    simp only [List.mem_cons, List.not_mem_nil, or_false] at h
    rcases h with rfl | rfl | rfl
    · exact closed_slots sb _ _ (closed_slots sb _ _ hmem)
    · exact closed_slots sb _ _ hmem
    · exact hmem

theorem mem_way_first (hs : s ∈ slots sb) : s ∈ way s.owner (first s) := by
  obtain ⟨e, r, js⟩ := s
  obtain ⟨-, hroot, hlength, hpath⟩ := hs
  rw [depth] at hlength
  dsimp only at *
  rcases js with _ | ⟨l, _ | ⟨j, _ | ⟨_, js⟩⟩⟩
  · grind [first, way, Slot.child]
  · have hl := hpath l List.mem_cons_self
    obtain rfl | rfl : r = ndirect ∨ r = ndirect + 1 := by grind
    · grind [first, way, Slot.child]
    · grind [first, way, Slot.child]
  · obtain rfl : r = ndirect + 1 := by grind
    have hl := hpath l List.mem_cons_self
    grind [first, way, Slot.child]
  · grind

end Way

section Mapped

theorem rootPtr_mapped (h : view fs ⟨inum, i, []⟩ ≠ 0) :
    fs.rootPtr sb inum i = some (fs, view fs ⟨inum, i, []⟩) := by
  have hne : (fs.inode inum).addrs i ≠ 0 := fun hzero => h (congrArg BitVec.toNat hzero)
  rw [rootPtr, if_neg hne]
  rfl

theorem entryPtr_mapped (h : view fs (s.child j) ≠ 0) :
    fs.entryPtr sb (view fs s) j = some (fs, view fs (s.child j)) := by
  have hs := view_parent_ne h
  rw [view_child, if_neg hs] at h
  have hne : FlatMemory.readWord (fs.block (view fs s)) (4 * j) ≠ 0 :=
    fun hzero => h (congrArg BitVec.toNat hzero)
  rw [entryPtr, if_neg hne, view_child, if_neg hs]

theorem bmap_mapped (hbn : bn < maxfile) (h : view fs (dataSlot inum bn) ≠ 0) :
    fs.bmap sb inum bn = some (fs, view fs (dataSlot inum bn)) := by
  rw [maxfile] at hbn
  simp only [bmap]
  by_cases hdirect : bn < ndirect
  · rw [dataSlot, if_pos hdirect] at h ⊢
    rw [if_pos hdirect, rootPtr_mapped h]
  rw [dataSlot, if_neg hdirect] at h ⊢
  rw [if_neg hdirect]
  by_cases hindirect : bn - ndirect < nindirect
  · rw [if_pos hindirect] at h ⊢
    rw [if_pos hindirect, rootPtr_mapped (view_parent_ne (s := indirect inum) h), Option.bind_some]
    exact entryPtr_mapped (s := indirect inum) h
  rw [if_neg hindirect] at h ⊢
  have h' := view_parent_ne (s := table inum bn) h
  rw [if_neg hindirect, if_pos (by omega),
    rootPtr_mapped (view_parent_ne (s := double inum) h'), Option.bind_some]
  rw [show fs.entryPtr sb _ _ = some _ from entryPtr_mapped (s := double inum) h', Option.bind_some]
  exact entryPtr_mapped (s := table inum bn) h

end Mapped

theorem Tree.congr (h : Tree sb fs A) (hAB : ∀ s ∈ slots sb, s ∈ A ↔ s ∈ B) : Tree sb fs B :=
  { h with alloc := fun s hs => (h.alloc s hs).trans (hAB s hs) }

section Adds

theorem Adds.nil (h : Tree sb fs A) : Adds sb inum A fs [] fs := by
  refine ⟨h.congr fun s _ => ?_, Extends.refl sb inum fs, ?_⟩
  · simp
  · rw [List.countP_nil, List.drop_zero]

theorem Adds.snoc (h : Adds sb inum A fs l fs1) (ht : t ∉ l) (hs : t ∈ slots sb)
    {out : Option (Fs × Nat)} (hmapped : view fs1 t ≠ 0 → out = some (fs1, view fs1 t))
    (hgrow : view fs1 t = 0 → ∀ b rest, fs1.free sb = b :: rest →
      ∃ fs', out = some (fs', b) ∧ Tree sb fs' (insert t (A ∪ { s | s ∈ l })) ∧
        Extends sb inum ∅ fs1 fs' ∧ view fs' t = b ∧ fs'.free sb = rest)
    (hfree : open Classical in (l ++ [t]).countP (fun s => s ∉ A) ≤ (fs.free sb).length) :
    ∃ fs', out = some (fs', view fs' t) ∧ Adds sb inum A fs (l ++ [t]) fs' := by
  classical
  have hset : ∀ s, s ∈ insert t (A ∪ { s | s ∈ l }) ↔ s ∈ A ∪ { s | s ∈ l ++ [t] } := by
    intro s
    simp only [Set.mem_insert_iff, Set.mem_union, Set.mem_ofPred_eq, List.mem_append,
      List.mem_singleton]
    tauto
  have hcount : (l ++ [t]).countP (fun s => s ∉ A) =
      l.countP (fun s => s ∉ A) + if t ∈ A then 0 else 1 := by
    rw [List.countP_append, List.countP_singleton]
    simp
  have halloc : view fs1 t ≠ 0 ↔ t ∈ A := by
    rw [h.tree.alloc t hs]
    simp [ht]
  by_cases hzero : view fs1 t = 0
  · have htA : t ∉ A := fun htA => halloc.mpr htA hzero
    rw [hcount, if_neg htA] at hfree
    obtain ⟨b, rest, hcons⟩ : ∃ b rest, fs1.free sb = b :: rest := by
      refine List.exists_cons_of_length_pos ?_
      rw [h.free, List.length_drop]
      omega
    obtain ⟨fs', hout, htree, hext, hview, hrest⟩ := hgrow hzero b rest hcons
    refine ⟨fs', by rw [hout,
      hview], htree.congr fun s _ => hset s, Set.union_self ∅ ▸ h.ext.trans hext, ?_⟩
    rw [hrest, hcount, if_neg htA, ← List.drop_drop, ← h.free, hcons, List.drop_one, List.tail_cons]
  · have htA : t ∈ A := halloc.mp hzero
    refine ⟨fs1, hmapped hzero, h.tree.congr fun s _ => ?_, h.ext, ?_⟩
    · rw [← hset, Set.insert_eq_of_mem (Set.mem_union_left _ htA)]
    · rw [h.free, hcount, if_pos htA, Nat.add_zero]

theorem Adds.root (hlayout : Layout sb) (h : Tree sb fs A) (hs : ⟨inum, i, []⟩ ∈ slots sb)
    (hfree : open Classical in [(⟨inum, i, []⟩ : Slot Nat)].countP (fun s => s ∉ A) ≤
    (fs.free sb).length) :
    ∃ fs', fs.rootPtr sb inum i = some (fs', view fs' ⟨inum, i, []⟩) ∧
      Adds sb inum A fs [⟨inum, i, []⟩] fs' := by
  have hnil : Adds sb inum A fs [] fs := Adds.nil h
  refine hnil.snoc List.not_mem_nil hs rootPtr_mapped (fun hzero _ _ hcons => ?_) hfree
  exact rootPtr_grow hlayout hnil.tree hs hzero hcons

theorem Adds.entry (hlayout : Layout sb) (h : Adds sb s.owner A fs l fs1) (hl : s ∈ l)
    (ht : s.child j ∉ l) (hs : s.child j ∈ slots sb)
    (hfree : open Classical in (l ++ [s.child j]).countP (fun s => s ∉ A) ≤ (fs.free sb).length) :
    ∃ fs', fs1.entryPtr sb (view fs1 s) j = some (fs', view fs' (s.child j)) ∧
      Adds sb s.owner A fs (l ++ [s.child j]) fs' := by
  have hne : view fs1 s ≠ 0 := (h.tree.alloc s (closed_slots sb s j hs)).mpr (.inr hl)
  refine h.snoc ht hs entryPtr_mapped (fun hzero _ _ hcons => ?_) hfree
  exact entryPtr_grow hlayout h.tree hs hne hzero hcons

open Classical in
theorem bmap_adds (hlayout : Layout sb) (h : Tree sb fs A) (hinum : inum < sb.ninodes)
    (hbn : bn < maxfile) (hfree : (way inum bn).countP (fun s => s ∉ A) ≤ (fs.free sb).length) :
    ∃ fs', fs.bmap sb inum bn = some (fs', view fs' (dataSlot inum bn)) ∧
      Adds sb inum A fs (way inum bn) fs' := by
  have hmem : ∀ s ∈ way inum bn, s ∈ slots sb := fun s => mem_slots_of_mem_way hinum hbn
  rw [maxfile] at hbn
  by_cases hdirect : bn < ndirect
  · simp only [bmap, way, dataSlot, if_pos hdirect] at *
    exact Adds.root hlayout h (hmem _ List.mem_cons_self) hfree
  by_cases hindirect : bn - ndirect < nindirect
  · simp only [bmap, way, dataSlot, if_neg hdirect, if_pos hindirect] at *
    obtain ⟨fs1, hroot, hadds⟩ := Adds.root hlayout h (hmem _ List.mem_cons_self)
      (le_trans (List.Sublist.countP_le (by simp)) hfree)
    rw [hroot, Option.bind_some]
    exact Adds.entry (s := indirect inum) hlayout hadds (by simp) (by simp [Slot.child])
      (hmem _ (by simp [Slot.child])) hfree
  simp only [bmap, way, dataSlot, if_neg hdirect, if_neg hindirect,
    if_pos (show bn - ndirect - nindirect < ndindirect by omega)] at *
  obtain ⟨fs1, hroot, hadds⟩ := Adds.root hlayout h (hmem _ List.mem_cons_self)
    (le_trans (List.Sublist.countP_le (by simp)) hfree)
  obtain ⟨fs2, hentry, hadds⟩ :=
    Adds.entry (s := double inum) (j := (bn - ndirect - nindirect) / nindirect) hlayout
    hadds (by simp) (by simp [Slot.child]) (hmem _ (by simp [Slot.child]))
    (le_trans (List.Sublist.countP_le (by simp [Slot.child])) hfree)
  rw [hroot, Option.bind_some, hentry, Option.bind_some]
  exact Adds.entry (s := table inum bn) hlayout hadds (by simp [Slot.child])
    (by simp [Slot.child]) (hmem _ (by simp [Slot.child])) hfree

end Adds

end Bmap

@[grind unfold]
def blocks (size : Nat) : Nat := (size + bsize - 1) / bsize

/-- The number of blocks of a file of `k` blocks after a write of `n` bytes at `off`. -/
@[grind unfold]
def grown (k off n : Nat) : Nat := max k (blocks (off + n))

theorem div_lt_blocks {x size : Nat} (h : x < size) : x / bsize < blocks size := by
  grind

/-- Of each file in `R`, the first `k` blocks are there, and no others. -/
def Mapped (sb : Superblock) (R : Set Nat) (k : Nat → Nat) (fs : Fs) : Prop :=
  ∃ A, Tree sb fs A ∧ ∀ s ∈ slots sb, s.owner ∈ R → (s ∈ A ↔ first s < k s.owner)

def byte (fs : Fs) (inum x : Nat) : Byte :=
  fs.block (view fs (dataSlot inum (x / bsize))) (x % bsize)

/-- The blocks that a file takes to grow from `k` to `k'` blocks, those of the index included. -/
def need (k k' : Nat) : Nat := ∑ bn ∈ Finset.Ico k k', cost bn

def touched (off n : Nat) : Set Nat := { bn | ∃ x, off ≤ x ∧ x < off + n ∧ x / bsize = bn }

structure Wrote (sb : Superblock) (R : Set Nat) (inum : Nat) (k : Nat → Nat) (src : Nat → Byte)
    (off n : Nat) (fs fs' : Fs) : Prop where
  mapped : Mapped sb R (update k inum (grown (k inum) off n)) fs'
  ext : Extends sb inum (touched off n) fs fs'
  free : fs'.free sb = (fs.free sb).drop (need (k inum) (grown (k inum) off n))
  inside : ∀ x, off ≤ x → x < off + n → byte fs' inum x = src (x - off)
  outside : ∀ x, x / bsize < k inum → ¬ (off ≤ x ∧ x < off + n) → byte fs' inum x = byte fs inum x

variable {sb : Superblock} {fs fs' fs1 : Fs} {R : Set Nat} {k : Nat → Nat} {m : FlatMemory.Memory}
  {A : Set (Slot Nat)} {D : Set Nat} {inum bn e x off n : Nat} {src : Nat → Byte}

section Mapped

theorem Mapped.view_ne_iff (h : Mapped sb R k fs) {s : Slot Nat} (hR : s.owner ∈ R)
    (hs : s ∈ slots sb) :
    view fs s ≠ 0 ↔ first s < k s.owner := by
  obtain ⟨A, htree, hA⟩ := h
  rw [htree.alloc s hs, hA s hs hR]

theorem Mapped.view_ne (h : Mapped sb R k fs) (hR : inum ∈ R) (hmem : dataSlot inum bn ∈ slots sb)
    (hbn : bn < k inum) : view fs (dataSlot inum bn) ≠ 0 := by
  rw [h.view_ne_iff (by rwa [owner_dataSlot]) hmem, first_dataSlot, owner_dataSlot]
  exact hbn

theorem countP_way (inum bn : Nat) : (way inum bn).countP (fun s => first s = bn) = cost bn := by
  rw [cost, way, way]
  split
  · rfl
  · split <;> rfl

open Classical in
theorem countP_missing (hA : ∀ s ∈ slots sb, s.owner = inum → (s ∈ A ↔ first s < k inum))
    (hinum : inum < sb.ninodes) (hbn : bn < maxfile) (hle : bn ≤ k inum) :
    (way inum bn).countP (fun s => s ∉ A) = need (k inum) (max (k inum) (bn + 1)) := by
  have hmem : ∀ s ∈ way inum bn, s ∈ A ↔ first s < k inum := fun s hs =>
    hA s (mem_slots_of_mem_way hinum hbn hs) (owner_of_mem_way hs)
  rcases hle.eq_or_lt with heq | hlt
  · rw [need, ← heq, max_eq_right (Nat.le_succ _), Nat.Ico_succ_singleton, Finset.sum_singleton,
      ← countP_way inum]
    refine List.countP_congr fun s hs => ?_
    have hfirst := first_le_of_mem_way hs
    grind
  · rw [need, max_eq_left (by omega), Finset.Ico_self, Finset.sum_empty, List.countP_eq_zero]
    intro s hs
    have hfirst := first_le_of_mem_way hs
    grind

theorem Mapped.bmap (h : Mapped sb R k fs) (hlayout : Layout sb) (hinum : inum < sb.ninodes)
    (hR : inum ∈ R) (hbn : bn < maxfile) (hle : bn ≤ k inum)
    (hfree : need (k inum) (max (k inum) (bn + 1)) ≤ (fs.free sb).length) :
    ∃ fs', fs.bmap sb inum bn = some (fs', view fs' (dataSlot inum bn)) ∧
      Mapped sb R (update k inum (max (k inum) (bn + 1))) fs' ∧ Extends sb inum ∅ fs fs' ∧
      fs'.free sb = (fs.free sb).drop (need (k inum) (max (k inum) (bn + 1))) := by
  classical
  obtain ⟨A, htree, hA⟩ := h
  have hown : ∀ s ∈ slots sb, s.owner = inum → (s ∈ A ↔ first s < k inum) := by
    rintro s hs rfl
    exact hA s hs hR
  rw [← countP_missing hown hinum hbn hle] at hfree ⊢
  obtain ⟨fs', hbmap, hadds⟩ := bmap_adds hlayout htree hinum hbn hfree
  refine ⟨fs', hbmap, ⟨_, hadds.tree, fun s hs hsR => ?_⟩, hadds.ext, hadds.free⟩
  simp only [Set.mem_union, Set.mem_ofPred_eq, hA s hs hsR]
  by_cases howner : s.owner = inum
  · rw [howner, update_self]
    constructor
    · rintro (hlt | hway)
      · exact lt_max_of_lt_left hlt
      · exact lt_max_of_lt_right (Nat.lt_succ_of_le (first_le_of_mem_way hway))
    intro hlt
    by_cases hfirst : first s < k inum
    · exact .inl hfirst
    · have hs' := mem_way_first hs
      rw [howner, show first s = bn by omega] at hs'
      exact .inr hs'
  · rw [update_of_ne howner]
    exact or_iff_left fun hway => howner (owner_of_mem_way hway)

end Mapped

section Data

abbrev dataWrite (fs : Fs) (inum bn : Nat) (m : FlatMemory.Memory) : Fs :=
  fs.logWrite (view fs (dataSlot inum bn)) m

variable (hlayout : Layout sb) (h : Tree sb fs A) (hmem : dataSlot inum bn ∈ slots sb)
  (hne : view fs (dataSlot inum bn) ≠ 0)

include h hmem

theorem Tree.view_write (m : FlatMemory.Memory) :
    ∀ s ∈ slots sb, view (dataWrite fs inum bn m) s = view fs s := by
  refine view_congr (closed_slots sb) (fun _ _ _ => rfl) fun s j hs hsne => ?_
  change (FlatMemory.readWord ((dataWrite fs inum bn m).block (view fs s)) _).toNat = _
  rw [logWrite_of_ne]
  · rfl
  · intro heq
    refine not_leaf_of_child hs ?_
    rw [h.exclusive s (closed_slots sb s j hs) _ hmem heq hsne]
    exact leaf_dataSlot inum bn

include hlayout hne

theorem Tree.bitSet_write (m : FlatMemory.Memory) {c : Nat} (hc : c < sb.size) :
    (dataWrite fs inum bn m).bitSet sb c = fs.bitSet sb c := by
  have hmap := hlayout.bitmap c hc
  have hge := (h.range _ hmem hne).1
  rw [bitSet, bitSet, logWrite_of_ne (by omega)]

theorem Tree.free_write (m : FlatMemory.Memory) :
    (dataWrite fs inum bn m).free sb = fs.free sb := by
  refine List.filter_congr fun c hc => ?_
  rw [h.bitSet_write hlayout hmem hne m (List.mem_range.mp hc)]

theorem Tree.write (m : FlatMemory.Memory) :
    Tree sb (dataWrite fs inum bn m) A := by
  have hview := h.view_write hmem m
  refine ⟨fun s hs t ht => ?_, fun s hs => ?_, fun s hs => ?_, fun s hs => ?_, fun c hc => ?_⟩
  · rw [hview s hs, hview t ht]
    exact h.exclusive s hs t ht
  · rw [hview s hs]
    exact h.alloc s hs
  · rw [hview s hs]
    intro hsne
    rw [h.bitSet_write hlayout hmem hne m (h.range s hs hsne).2]
    exact h.used s hs hsne
  · rw [hview s hs]
    exact h.range s hs
  · have hrange := h.range _ hmem hne
    rw [h.bitSet_write hlayout hmem hne m (by omega)]
    exact h.reserved c hc

theorem Tree.extends_write (m : FlatMemory.Memory) :
    Extends sb inum {bn} fs (dataWrite fs inum bn m) := by
  have hview := h.view_write hmem m
  refine ⟨fun s hs _ => hview s hs, fun s hs _ hsne hs' => ?_, ?_, fun b hb => ?_, fun _ _ => rfl,
    ⟨_, rfl⟩, fun b hb => ?_, fun x => ?_⟩
  · exact logWrite_of_ne fun heq => hs' bn rfl (h.exclusive s hs _ hmem heq hsne)
  · rintro _ rfl
    rw [hview _ hmem]
    exact ⟨hmem, hne⟩
  · have hrange := h.range _ hmem hne
    have hmap := hlayout.bitmap _ hrange.2
    have hstart := bmapstart_le_bblock sb (view fs (dataSlot inum bn))
    exact logWrite_of_ne (by omega)
  · rwa [← h.free_write hlayout hmem hne m]
  · rw [show (dataWrite fs inum bn m).logged =
      fs.logged ++ [view fs (dataSlot inum bn)] from rfl, List.mem_append, List.mem_singleton]
    refine or_congr_right ⟨fun hx => .inl ⟨bn, rfl, ?_⟩, ?_⟩
    · rw [hview _ hmem]
      exact hx
    rintro (⟨_, rfl, hx⟩ | ⟨b, hb, hb', -⟩ | ⟨s, hs, -, hzero, hsne, -⟩)
    · rw [hx, hview _ hmem]
    · rw [h.free_write hlayout hmem hne] at hb'
      exact absurd hb hb'
    · rw [hview s hs] at hsne
      exact absurd hzero hsne

end Data

theorem Extends.byte_eq (h : Extends sb inum D fs fs') (hmem : dataSlot e (x / bsize) ∈ slots sb)
    (hne : view fs (dataSlot e (x / bsize)) ≠ 0) (hD : e = inum → x / bsize ∉ D) :
    byte fs' e x = byte fs e x := by
  rw [byte, byte, h.view_eq _ hmem hne, h.data _ hmem (leaf_dataSlot _ _) hne]
  intro bn hbn heq
  obtain ⟨rfl, rfl⟩ := dataSlot_inj heq
  exact hD rfl hbn

theorem Tree.byte_write (h : Tree sb fs A) (hmem : dataSlot inum bn ∈ slots sb)
    (hx : x / bsize = bn) :
    byte (dataWrite fs inum bn m) inum x = m (x % bsize) := by
  rw [byte, hx, h.view_write hmem m _ hmem, logWrite_self]

section Loop

theorem need_add {a b c : Nat} (hab : a ≤ b) (hbc : b ≤ c) : need a b + need b c = need a c :=
  Finset.sum_Ico_consecutive _ hab hbc

theorem grown_grown (k off m n : Nat) :
    grown (grown k off m) (off + m) n = grown k off (m + n) := by
  grind

theorem le_grown (k off n : Nat) : k ≤ grown k off n := le_max_left _ _

theorem need_grown (k off m n : Nat) : need k (grown k off m) +
    need (grown k off m) (grown k off (m + n)) = need k (grown k off (m + n)) :=
  need_add (le_grown _ _ _) (by grind)

theorem touched_union (off m n : Nat) :
    touched off m ∪ touched (off + m) n = touched off (m + n) := by
  ext bn
  simp only [touched, Set.mem_union, Set.mem_ofPred_eq]
  constructor
  · rintro (⟨x, hle, hlt, heq⟩ | ⟨x, hle, hlt, heq⟩)
    · exact ⟨x, hle, by omega, heq⟩
    · exact ⟨x, by omega, by omega, heq⟩
  · rintro ⟨x, hle, hlt, heq⟩
    by_cases hx : x < off + m
    · exact .inl ⟨x, hle, hx, heq⟩
    · exact .inr ⟨x, by omega, by omega, heq⟩

theorem touched_zero (off : Nat) : touched off 0 = ∅ := by
  rw [touched, Set.eq_empty_iff_forall_notMem]
  rintro bn ⟨x, hle, hlt, -⟩
  omega

theorem touched_turn (hn : 0 < n) (hle : n ≤ bsize - off % bsize) :
    touched off n = {off / bsize} := by
  ext bn
  simp only [touched, Set.mem_ofPred_eq, Set.mem_singleton_iff]
  constructor
  · rintro ⟨x, hx, hlt, rfl⟩
    grind
  · rintro rfl
    exact ⟨off, le_refl _, by omega, rfl⟩

theorem Wrote.nil (h : Mapped sb R k fs) (hoff : off ≤ bsize * k inum) :
    Wrote sb R inum k src off 0 fs fs := by
  have hblocks : grown (k inum) off 0 = k inum := by grind
  refine ⟨?_, ?_, ?_, fun x _ _ => by omega, fun _ _ _ => rfl⟩
  · rwa [hblocks, update_eq_self]
  · rw [touched_zero]
    exact Extends.refl sb inum fs
  · rw [hblocks, need, Finset.Ico_self, Finset.sum_empty, List.drop_zero]

theorem Wrote.append {m : Nat} (h : Wrote sb R inum k src off m fs fs1)
    (h' : Wrote sb R inum (update k inum (grown (k inum) off m)) (fun x => src (x + m))
      (off + m) n fs1 fs') : Wrote sb R inum k src off (m + n) fs fs' := by
  obtain ⟨hmapped, hext, hfree, hinside, houtside⟩ := h'
  rw [update_self, grown_grown] at *
  rw [update_idem] at hmapped
  refine ⟨hmapped, ?_, ?_, fun x hle hlt => ?_, fun x hx hout => ?_⟩
  · rw [← touched_union]
    exact h.ext.trans hext
  · rw [hfree, h.free, List.drop_drop, need_grown]
  · by_cases hx : x < off + m
    · rw [houtside x ?_ (by omega), h.inside x hle hx]
      grind
    · rw [hinside x (by omega) (by omega), show x - (off + m) + m = x - off by omega]
  · rw [houtside x (lt_max_of_lt_left hx) (by omega), h.outside x hx (by omega)]

theorem Mapped.turn (h : Mapped sb R k fs) (hlayout : Layout sb) (hinum : inum < sb.ninodes)
    (hR : inum ∈ R)
    (hk : k inum ≤ maxfile) (src : Nat → Byte) (hoff : off ≤ bsize * k inum) (hn : 0 < n)
    (hle : n ≤ bsize - off % bsize) (hmax : off + n ≤ maxfile * bsize)
    (hfree : need (k inum) (grown (k inum) off n) ≤ (fs.free sb).length) :
    ∃ fs1, fs.bmap sb inum (off / bsize) = some (fs1, view fs1 (dataSlot inum (off / bsize))) ∧
      Wrote sb R inum k src off n fs (fs1.logWrite (view fs1 (dataSlot inum (off / bsize)))
        (FlatMemory.writeBytes (fs1.block (view fs1 (dataSlot inum (off / bsize)))) (off % bsize)
          ((List.range n).map src))) := by
  have hblocks : blocks (off + n) = off / bsize + 1 := by grind
  have hbn : off / bsize < maxfile := by grind
  obtain ⟨fs1, hbmap, hmapped, hext, hfree1⟩ :=
    h.bmap hlayout hinum hR hbn (by grind) (hblocks ▸ hfree)
  refine ⟨fs1, hbmap, ?_⟩
  generalize hbytes : FlatMemory.writeBytes _ _ _ = bytes
  have hmem := dataSlot_mem hinum hbn
  have hne : view fs1 (dataSlot inum (off / bsize)) ≠ 0 := by
    refine hmapped.view_ne hR hmem ?_
    grind
  rw [← hblocks, ← grown] at hmapped hfree1
  obtain ⟨A, htree, hA⟩ := hmapped
  have hbyte : ∀ x, bytes x = if off % bsize ≤ x ∧ x < off % bsize + n then src (x - off % bsize)
      else fs1.block (view fs1 (dataSlot inum (off / bsize))) x := by
    intro x
    rw [← hbytes, FlatMemory.writeBytes, List.length_map, List.length_range]
    split
    · rw [List.getD_eq_getElem?_getD, List.getElem?_map, List.getElem?_range (by omega)]
      rfl
    · rfl
  refine ⟨⟨A, htree.write hlayout hmem hne _, hA⟩, ?_, ?_, fun x hx hlt => ?_, fun x hx hout => ?_⟩
  · rw [touched_turn hn hle, ← Set.empty_union {off / bsize}]
    exact hext.trans (htree.extends_write hlayout hmem hne _)
  · rw [htree.free_write hlayout hmem hne, hfree1]
  · rw [htree.byte_write hmem (by grind), hbyte, if_pos (by grind)]
    congr 1
    grind
  · have hxmem := dataSlot_mem hinum (hx.trans_le hk)
    have hxne := h.view_ne hR hxmem hx
    rw [← hext.byte_eq hxmem hxne fun _ hempty => hempty.elim]
    by_cases hsame : x / bsize = off / bsize
    · rw [htree.byte_write hmem hsame, hbyte, if_neg (by grind), byte, hsame]
    · exact (htree.extends_write hlayout hmem hne _).byte_eq hxmem (hext.view_ne hxmem hxne)
        fun _ => hsame

theorem writeLoop_spec (hlayout : Layout sb) (hinum : inum < sb.ninodes) (hR : inum ∈ R)
    (fuel : Nat) :
    ∀ (fs : Fs) (k : Nat → Nat) (src : Nat → Byte) (off n : Nat), Mapped sb R k fs →
      k inum ≤ maxfile →
      off ≤ bsize * k inum → off + n ≤ maxfile * bsize → n ≤ fuel →
      need (k inum) (grown (k inum) off n) ≤ (fs.free sb).length →
      ∃ fs', writeLoop sb inum fuel fs src off n = some fs' ∧
        Wrote sb R inum k src off n fs fs' := by
  induction fuel with
  | zero =>
    intro fs k src off n h hk hoff hmax hfuel hfree
    obtain rfl : n = 0 := by omega
    exact ⟨fs, rfl, Wrote.nil h hoff⟩
  | succ fuel ih =>
    intro fs k src off n h hk hoff hmax hfuel hfree
    rw [writeLoop]
    by_cases hn : n = 0
    · subst hn
      exact ⟨fs, if_pos rfl, Wrote.nil h hoff⟩
    rw [if_neg hn]
    dsimp only
    generalize hm : min n (bsize - off % bsize) = m
    obtain ⟨hmn, hmpos, hmle⟩ : m ≤ n ∧ 0 < m ∧ m ≤ bsize - off % bsize := by grind
    obtain ⟨n, rfl⟩ := Nat.exists_eq_add_of_le hmn
    have hneed := need_grown (k inum) off m n
    obtain ⟨fs1, hbmap, hwrote⟩ :=
      h.turn hlayout hinum hR hk src hoff hmpos hmle (by omega) (by omega)
    rw [hbmap, Option.bind_some]
    have hk' : grown (k inum) off m ≤ maxfile := by grind
    have hoff' : off + m ≤ bsize * grown (k inum) off m := by grind
    obtain ⟨fs', hloop, hrest⟩ :
      ∃ fs', writeLoop sb inum fuel _ (fun x => src (x + m)) (off + m) (m + n - m) =
        some fs' ∧ _ := by
      rw [Nat.add_sub_cancel_left]
      refine ih _ _ _ _ _ hwrote.mapped ?_ ?_ (by omega) (by omega) ?_
      · rwa [update_self]
      · rwa [update_self]
      · rw [update_self, hwrote.free, List.length_drop, grown_grown]
        omega
    exact ⟨fs', hloop, hwrote.append hrest⟩

end Loop

end Mit6828.Xv6.FsTree
