import Mit6828.Xv6.Files

namespace Mit6828.Xv6

open Library Library.BlockTree Xv6.Fs FsTree

def owned (sb : Superblock) (inum : Nat) (fs : Fs) : Set Nat :=
  { b | b ≠ 0 ∧ ∃ s ∈ slots sb, s.owner = inum ∧ view fs s = b }

/-- The blocks of the inode are free, and of the others the same ones as before. -/
def Released (sb : Superblock) (inum : Nat) (fs fs' : Fs) : Prop :=
  ∀ b, fs'.bitSet sb b = true ↔ fs.bitSet sb b = true ∧ b ∉ owned sb inum fs

def Reachable (sb : Superblock) (fs : Fs) : Prop :=
  ∀ b < sb.size, sb.data ≤ b → fs.bitSet sb b = true →
    ∃ s ∈ slots sb, (fs.inode s.owner).type ≠ 0 ∧ view fs s = b

structure Freed (sb : Superblock) (inum : Nat) (fs : Fs) (S : Set (Slot Nat)) (fs' : Fs) :
    Prop where
  bits : ∀ b, fs'.bitSet sb b = true ↔ fs.bitSet sb b = true ∧ ∀ s ∈ S, view fs s ≠ 0 →
    view fs s ≠ b
  block : ∀ b, sb.data ≤ b → fs'.block b = fs.block b
  others : ∀ e, e ≠ inum → fs'.inode e = fs.inode e
  addrs : ∀ i, ⟨inum, i, []⟩ ∉ S → (fs'.inode inum).addrs i = (fs.inode inum).addrs i

variable {sb : Superblock} {R : Set Nat} {fs fs' fs1 : Fs} {A S S' : Set (Slot Nat)} {s : Slot Nat}
  {inum i j : Nat}

section Freed

theorem Freed.refl (fs : Fs) : Freed sb inum fs ∅ fs :=
  ⟨by simp, fun _ _ => rfl, fun _ _ => rfl, fun _ _ => rfl⟩

theorem Freed.mono (h : Freed sb inum fs S fs1) (hle : S ⊆ S')
    (hzero : ∀ s ∈ S', s ∉ S → view fs s = 0) :
    Freed sb inum fs S' fs1 := by
  refine { h with bits := fun b => ?_, addrs := fun i hi => h.addrs i fun hmem => hi (hle hmem) }
  rw [h.bits]
  refine and_congr_right fun _ => ⟨fun hS t ht hne => hS t ?_ hne, fun hS t ht => hS t (hle ht)⟩
  by_contra hnot
  exact hne (hzero t ht hnot)

theorem Freed.insert_of_zero (h : Freed sb inum fs S fs1) (hzero : view fs s = 0) :
    Freed sb inum fs (insert s S) fs1 := by
  refine h.mono (Set.subset_insert s S) fun t ht hnot => ?_
  rwa [ht.resolve_right hnot]

theorem Freed.setInode (h : Freed sb inum fs S fs1) (hi : ⟨inum, i, []⟩ ∈ S) (ip : Inode)
    (hip : ip.addrs = (fs1.inode inum).addrs) (a : Word) :
    Freed sb inum fs S (fs1.setInode inum { ip with addrs := Function.update ip.addrs i a }) := by
  refine ⟨h.bits, h.block, fun e he => ?_, fun i' hi' => ?_⟩
  · rw [setInode_of_ne he, h.others e he]
  · have hne : i' ≠ i := fun heq => hi' (heq ▸ hi)
    rw [setInode_self, ← h.addrs i' hi', ← hip]
    exact Function.update_of_ne hne _ _

variable (hlayout : Layout sb) (htree : Tree sb fs A)

include hlayout htree

theorem Freed.bfree (h : Freed sb inum fs S fs1) (hS : S ⊆ slots sb) (hs : s ∈ slots sb)
    (hnot : s ∉ S) (hne : view fs s ≠ 0) :
    ∃ fs2, fs1.bfree sb (view fs s) = some fs2 ∧ fs2.inode = fs1.inode ∧
      Freed sb inum fs (insert s S) fs2 := by
  have hset : fs1.bitSet sb (view fs s) = true := by
    refine (h.bits _).mpr ⟨htree.used s hs hne, fun t ht htne heq => hnot ?_⟩
    rwa [← htree.exclusive t (hS ht) s hs heq htne]
  obtain ⟨fs2, hbfree, hinode, hblock, hbits⟩ := bfree_eq hset
  refine ⟨fs2, hbfree, hinode, ⟨fun b => ?_, fun b hb => ?_, fun e he => ?_, fun i hi => ?_⟩⟩
  · rw [hbits, Bool.and_eq_true, Bool.not_eq_true', decide_eq_false_iff_not, h.bits, and_assoc]
    refine and_congr_right
      fun _ => ⟨fun ⟨hSb, hb⟩ t ht htne => ?_, fun hall => ⟨fun t ht => hall t (.inr ht), ?_⟩⟩
    · rcases ht with rfl | ht
      · exact Ne.symm hb
      · exact hSb t ht htne
    · exact (hall s (.inl rfl) hne).symm
  · have hmap := hlayout.bitmap _ (htree.range s hs hne).2
    rw [hblock b (by omega), h.block b hb]
  · rw [hinode, h.others e he]
  · rw [hinode, h.addrs i fun hmem => hi (.inr hmem)]

omit hlayout htree in
theorem Freed.foldlM (f : Fs → Nat → Option Fs) (slot : Nat → Slot Nat) (l : List Nat)
    (hf : ∀ i ∈ l, ∀ S fs1, Freed sb inum fs S fs1 → S ⊆ slots sb → slot i ∉ S → slot i ∈ slots sb →
      ∃ fs2, f fs1 i = some fs2 ∧ Freed sb inum fs (insert (slot i) S) fs2)
    (hslots : ∀ i ∈ l, slot i ∈ slots sb) (hnodup : (l.map slot).Nodup) :
    ∀ S fs1, Freed sb inum fs S fs1 → S ⊆ slots sb → (∀ i ∈ l, slot i ∉ S) →
      ∃ fs2, l.foldlM f fs1 = some fs2 ∧
        Freed sb inum fs (S ∪ { s | ∃ i ∈ l, s = slot i }) fs2 := by
  induction l with
  | nil =>
    intro S fs1 h _ _
    exact ⟨fs1, rfl, by simpa using h⟩
  | cons i l ih =>
    intro S fs1 h hS hnot
    rw [List.map_cons, List.nodup_cons] at hnodup
    obtain ⟨fs2, hstep, h2⟩ := hf i List.mem_cons_self S fs1 h hS (hnot i List.mem_cons_self)
      (hslots i List.mem_cons_self)
    have hnot' : ∀ i' ∈ l, slot i' ∉ insert (slot i) S := by
      rintro i' hi' (heq | hmem)
      · exact hnodup.1 (List.mem_map.mpr ⟨i', hi', heq⟩)
      · exact hnot i' (List.mem_cons_of_mem _ hi') hmem
    obtain ⟨fs3, hrest, h3⟩ := ih (fun i hi => hf i (List.mem_cons_of_mem _ hi))
      (fun i hi => hslots i (List.mem_cons_of_mem _ hi)) hnodup.2 _ fs2 h2
      (Set.insert_subset (hslots i List.mem_cons_self) hS) hnot'
    refine ⟨fs3, by rw [List.foldlM_cons, hstep, Option.bind_eq_bind, Option.bind_some, hrest], ?_⟩
    have hset : S ∪ { s | ∃ i' ∈ i :: l, s = slot i' } =
      insert (slot i) S ∪ { s | ∃ i' ∈ l, s = slot i' } := by
      ext s
      simp only [Set.mem_union, Set.mem_ofPred_eq, List.mem_cons, exists_eq_or_imp,
        Set.mem_insert_iff]
      tauto
    rwa [hset]

end Freed

def directSlots (inum : Nat) : Set (Slot Nat) := { s | ∃ i < ndirect, s = ⟨inum, i, []⟩ }

def entrySlots (inum : Nat) : Set (Slot Nat) := { s | ∃ j < nindirect, s = (indirect inum).child j }

section Itrunc

section

variable (hinum : inum < sb.ninodes)
include hinum

theorem directSlots_subset : directSlots inum ⊆ slots sb := by
  rintro s ⟨i, hi, rfl⟩
  exact ⟨hinum, by dsimp only; omega, by simp, by simp⟩

theorem entrySlots_subset : entrySlots inum ⊆ slots sb := by
  rintro s ⟨j, hj, rfl⟩
  exact ⟨hinum, by simp [Slot.child], by simp [Slot.child, depth], by simpa [Slot.child] using hj⟩

theorem indirect_mem_slots : indirect inum ∈ slots sb :=
  closed_slots sb _ 0 (entrySlots_subset hinum ⟨0, by decide, rfl⟩)

theorem double_mem_slots : double inum ∈ slots sb := ⟨hinum, by simp, by simp, by simp⟩

theorem mem_visited_iff : s ∈ insert (indirect inum) (directSlots inum ∪ entrySlots inum) ↔
      s ∈ slots sb ∧ s.owner = inum ∧ s.root ≤ ndirect := by
  constructor
  · rintro (rfl | ⟨i, hi, rfl⟩ | ⟨j, hj, rfl⟩)
    · exact ⟨indirect_mem_slots hinum, rfl, by simp⟩
    · exact ⟨directSlots_subset hinum ⟨i, hi, rfl⟩, rfl, by dsimp only; omega⟩
    · exact ⟨entrySlots_subset hinum ⟨j, hj, rfl⟩, rfl, by simp [Slot.child]⟩
  obtain ⟨e, r, js⟩ := s
  rintro ⟨⟨-, -, hlength, hpath⟩, rfl, hlow⟩
  rw [depth] at hlength
  dsimp only at *
  rcases js with _ | ⟨j, _ | ⟨_, js⟩⟩
  · obtain hr | rfl : r < ndirect ∨ r = ndirect := by omega
    · exact .inr (.inl ⟨r, hr, rfl⟩)
    · exact .inl rfl
  · simp only [List.length_singleton] at hlength
    obtain rfl : r = ndirect := by omega
    exact .inr (.inr ⟨j, hpath j List.mem_cons_self, rfl⟩)
  · grind

end

variable (hlayout : Layout sb) (htree : Tree sb fs A) (hinum : inum < sb.ninodes)

include hlayout htree

theorem Freed.itruncDirect (h : Freed sb inum fs S fs1) (hS : S ⊆ slots sb)
    (hnot : ⟨inum, i, []⟩ ∉ S) (hs : ⟨inum, i, []⟩ ∈ slots sb) :
    ∃ fs2, itruncDirect sb fs1 inum i = some fs2 ∧
      Freed sb inum fs (insert ⟨inum, i, []⟩ S) fs2 := by
  have haddr : ((fs1.inode inum).addrs i).toNat = view fs ⟨inum, i, []⟩ := by
    rw [h.addrs i hnot]
    rfl
  rw [Fs.itruncDirect]
  by_cases hzero : (fs1.inode inum).addrs i = 0
  · refine ⟨fs1, if_pos hzero, h.insert_of_zero ?_⟩
    rw [← haddr, hzero]
    rfl
  · have hne : view fs ⟨inum, i, []⟩ ≠ 0 := fun heq => hzero (BitVec.toNat_eq.mpr (haddr.trans heq))
    obtain ⟨fs2, hbfree, hinode, h2⟩ := h.bfree hlayout htree hS hs hnot hne
    rw [if_neg hzero, haddr, hbfree, Option.map_some]
    refine ⟨_, rfl, h2.setInode (.inl rfl) _ ?_ 0⟩
    rw [hinode]

theorem Freed.itruncEntry (h : Freed sb inum fs S fs1) (hS : S ⊆ slots sb) (hne : view fs s ≠ 0)
    (hnot : s.child j ∉ S) (hs : s.child j ∈ slots sb) :
    ∃ fs2, itruncEntry sb (view fs s) fs1 j = some fs2 ∧
      Freed sb inum fs (insert (s.child j) S) fs2 := by
  have hs' := closed_slots sb s j hs
  have haddr : (FlatMemory.readWord (fs1.block (view fs s)) (4 * j)).toNat =
    view fs (s.child j) := by
    rw [h.block _ (htree.range s hs' hne).1, FsTree.view_child, if_neg hne]
  rw [Fs.itruncEntry]
  by_cases hzero : FlatMemory.readWord (fs1.block (view fs s)) (4 * j) = 0
  · refine ⟨fs1, if_pos hzero, h.insert_of_zero ?_⟩
    rw [← haddr, hzero]
    rfl
  · have hchild : view fs (s.child j) ≠ 0 :=
      fun heq => hzero (BitVec.toNat_eq.mpr (haddr.trans heq))
    obtain ⟨fs2, hbfree, -, h2⟩ := h.bfree hlayout htree hS hs hnot hchild
    rw [if_neg hzero, haddr, hbfree]
    exact ⟨fs2, rfl, h2⟩

include hinum

theorem itrunc_direct :
    ∃ fs1, (List.range ndirect).foldlM (fun fs i => Fs.itruncDirect sb fs inum i) fs = some fs1 ∧
    Freed sb inum fs (directSlots inum) fs1 := by
  have hslots : ∀ i ∈ List.range ndirect, (⟨inum, i, []⟩ : Slot Nat) ∈ slots sb := fun i hi =>
    directSlots_subset hinum ⟨i, List.mem_range.mp hi, rfl⟩
  have hnodup : ((List.range ndirect).map fun i => (⟨inum, i, []⟩ : Slot Nat)).Nodup :=
    List.nodup_range.map fun i i' heq => (Slot.mk.inj heq).2.1
  obtain ⟨fs1, hloop, h⟩ := Freed.foldlM _ (fun i => ⟨inum, i, []⟩) _
    (fun i _ S fs1 h hS hnot hs => h.itruncDirect hlayout htree hS hnot hs) hslots hnodup ∅ fs
    (Freed.refl fs) (Set.empty_subset _) fun _ _ => Set.notMem_empty _
  refine ⟨fs1, hloop, ?_⟩
  rw [Set.empty_union] at h
  simpa only [directSlots, List.mem_range] using h

theorem Freed.itrunc_entries (h : Freed sb inum fs (directSlots inum) fs1)
    (hne : view fs (indirect inum) ≠ 0) :
    ∃ fs2,
      (List.range nindirect).foldlM (Fs.itruncEntry sb (view fs (indirect inum))) fs1 = some fs2 ∧
      Freed sb inum fs (directSlots inum ∪ entrySlots inum) fs2 := by
  have hchild : ∀ j ∈ List.range nindirect, (indirect inum).child j ∈ slots sb := fun j hj =>
    entrySlots_subset hinum ⟨j, List.mem_range.mp hj, rfl⟩
  have hnodup : ((List.range nindirect).map fun j => (indirect inum).child j).Nodup :=
    List.nodup_range.map fun j j' heq => (Slot.child_inj heq).2
  have hnot : ∀ j ∈ List.range nindirect, (indirect inum).child j ∉ directSlots inum := by
    rintro j - ⟨i, -, heq⟩
    simp [Slot.child] at heq
  obtain ⟨fs2, hloop, h2⟩ := Freed.foldlM _ (fun j => (indirect inum).child j) _
    (fun j _ S fs1 h hS hnot hs => h.itruncEntry hlayout htree hS hne hnot hs) hchild hnodup _ fs1 h
    (directSlots_subset hinum) hnot
  refine ⟨fs2, hloop, ?_⟩
  simpa only [entrySlots, List.mem_range] using h2

theorem Freed.itruncIndirect (h : Freed sb inum fs (directSlots inum) fs1) :
    ∃ fs2, fs1.itruncIndirect sb inum = some fs2 ∧
      Freed sb inum fs (insert (indirect inum) (directSlots inum ∪ entrySlots inum)) fs2 := by
  have hroot : indirect inum ∉ directSlots inum := by
    rintro ⟨i, hi, heq⟩
    have := (Slot.mk.inj heq).2.1
    omega
  have hroot' : indirect inum ∉ directSlots inum ∪ entrySlots inum := by
    rintro (hmem | ⟨j, -, heq⟩)
    · exact hroot hmem
    · exact Slot.child_ne _ j heq.symm
  have haddr : ((fs1.inode inum).addrs ndirect).toNat = view fs (indirect inum) := by
    rw [h.addrs _ hroot]
    rfl
  rw [Fs.itruncIndirect]
  by_cases hzero : (fs1.inode inum).addrs ndirect = 0
  · have hview : view fs (indirect inum) = 0 := by
      rw [← haddr, hzero]
      rfl
    refine ⟨fs1, if_pos hzero, h.mono (fun s hs => .inr (.inl hs)) ?_⟩
    rintro s (rfl | hs | ⟨j, -, rfl⟩) hnot
    · exact hview
    · exact absurd hs hnot
    · rw [FsTree.view_child, if_pos hview]
  · have hne : view fs (indirect inum) ≠ 0 :=
      fun heq => hzero (BitVec.toNat_eq.mpr (haddr.trans heq))
    obtain ⟨fs2, hloop, h2⟩ := h.itrunc_entries hlayout htree hinum hne
    obtain ⟨fs3, hbfree, hinode, h3⟩ := h2.bfree hlayout htree
      (Set.union_subset (directSlots_subset hinum) (entrySlots_subset hinum))
      (indirect_mem_slots hinum) hroot' hne
    rw [if_neg hzero, haddr, hloop, Option.bind_some, hbfree, Option.map_some]
    exact ⟨_, rfl, h3.setInode (.inl rfl) _ rfl 0⟩

end Itrunc

structure Deleted (sb : Superblock) (inum : Nat) (fs fs' : Fs) : Prop where
  bits : ∀ b, fs'.bitSet sb b = true ↔ fs.bitSet sb b = true ∧
    ∀ s ∈ slots sb, s.owner = inum → s.root ≤ ndirect → view fs s ≠ 0 → view fs s ≠ b
  view_eq : ∀ s ∈ slots sb, s.owner ≠ inum → view fs' s = view fs s
  others : ∀ e, e ≠ inum → fs'.inode e = fs.inode e
  type : (fs'.inode inum).type = 0

section Iput

theorem bitSet_iupdate (hlayout : Layout sb) (hinum : inum < sb.ninodes) (fs : Fs) (b : Nat) :
    (fs.iupdate sb inum).bitSet sb b = fs.bitSet sb b := by
  have hlt := hlayout.inodes inum hinum
  have hge := bmapstart_le_bblock sb b
  rw [bitSet, bitSet, iupdate, logWrite_of_ne (by omega)]

theorem iupdate_of_le (hlayout : Layout sb) (hinum : inum < sb.ninodes) (fs : Fs) {b : Nat}
    (hb : sb.bmapstart ≤ b) : (fs.iupdate sb inum).block b = fs.block b := by
  have hlt := hlayout.inodes inum hinum
  rw [iupdate, logWrite_of_ne (by omega)]

theorem iput_deleted (hlayout : Layout sb) (htree : Tree sb fs A) (hinum : inum < sb.ninodes)
    (hnlink : (fs.inode inum).nlink = 0) :
    ∃ fs', fs.iput sb inum = some fs' ∧ Deleted sb inum fs fs' := by
  obtain ⟨fs1, hdirect, h1⟩ := itrunc_direct hlayout htree hinum
  obtain ⟨fs2, hindirect, h2⟩ := h1.itruncIndirect hlayout htree hinum
  let fs3 := (fs2.setInode inum { fs2.inode inum with size := 0 }).iupdate sb inum
  let fs4 := (fs3.setInode inum { fs3.inode inum with type := 0 }).iupdate sb inum
  have hiput : fs.iput sb inum = some fs4 := by
    rw [iput, if_pos hnlink, itrunc, hdirect, Option.bind_some, hindirect, Option.map_some,
      Option.map_some]
  have hbits : ∀ b, fs4.bitSet sb b = fs2.bitSet sb b := fun b =>
    (bitSet_iupdate hlayout hinum _ b).trans (bitSet_iupdate hlayout hinum _ b)
  have hblock : ∀ b, sb.bmapstart ≤ b → fs4.block b = fs2.block b := fun b hb =>
    (iupdate_of_le hlayout hinum _ hb).trans (iupdate_of_le hlayout hinum _ hb)
  have hothers : ∀ e, e ≠ inum → fs4.inode e = fs.inode e := fun e he =>
    (setInode_of_ne he _).trans ((setInode_of_ne he _).trans (h2.others e he))
  refine ⟨fs4, hiput, ⟨fun b => ?_, ?_, hothers, congrArg Inode.type (setInode_self _ _ _)⟩⟩
  · rw [hbits, h2.bits]
    refine and_congr_right fun _ => ⟨fun hS s hs howner hroot => ?_, fun hall s hmem => ?_⟩
    · exact hS s ((mem_visited_iff hinum).mpr ⟨hs, howner, hroot⟩)
    · obtain ⟨hs, howner, hroot⟩ := (mem_visited_iff hinum).mp hmem
      exact hall s hs howner hroot
  intro s hs hne
  refine view_congr (T := { s | s ∈ slots sb ∧ s.owner ≠ inum }) ?_ ?_ ?_ s ⟨hs, hne⟩
  · rintro s j ⟨hs, hne⟩
    exact ⟨closed_slots sb s j hs, hne⟩
  · rintro e i ⟨-, hne⟩
    exact congrArg (fun ip : Inode => (ip.addrs i).toNat) (hothers e hne)
  · rintro s j ⟨hs, -⟩ hne
    have hs' := closed_slots sb s j hs
    change (FlatMemory.readWord (fs4.block (view fs s)) _).toNat = _
    rw [hblock _ (bmapstart_le_view hlayout htree hs' hne), h2.block _ (htree.range s hs' hne).1]
    rfl

theorem view_eq_zero_of_root (h : view fs ⟨inum, i, []⟩ = 0) (js : List Nat) :
    view fs ⟨inum, i, js⟩ = 0 := by
  induction js with
  | nil => exact h
  | cons j js ih => exact (FsTree.view_child fs ⟨inum, i, js⟩ j).trans (if_pos ih)

theorem root_lt_of_view_ne (hs : s ∈ slots sb) (howner : s.owner = inum)
    (hzero : view fs (double inum) = 0) (hne : view fs s ≠ 0) : s.root ≤ ndirect := by
  obtain ⟨e, r, js⟩ := s
  have hroot : r < ndirect + 2 := hs.2.1
  dsimp only at *
  subst howner
  by_contra hge
  obtain rfl : r = ndirect + 1 := by omega
  exact hne (view_eq_zero_of_root hzero js)

variable (htree : Tree sb fs A) (hinum : inum < sb.ninodes) (hdel : Deleted sb inum fs fs')

include htree hinum hdel

theorem Deleted.bitSet_double (hne : view fs (double inum) ≠ 0) :
    fs'.bitSet sb (view fs (double inum)) = true := by
  have hmem : double inum ∈ slots sb := double_mem_slots hinum
  refine (hdel.bits _).mpr ⟨htree.used _ hmem hne, fun s hs _ hroot hsne heq => ?_⟩
  rw [htree.exclusive s hs _ hmem heq hsne] at hroot
  exact absurd hroot (by simp)

theorem Deleted.released_iff : Released sb inum fs fs' ↔ view fs (double inum) = 0 := by
  constructor
  · intro hrel
    by_contra hne
    exact ((hrel _).mp (hdel.bitSet_double htree hinum hne)).2
      ⟨hne, _, double_mem_slots hinum, rfl, rfl⟩
  intro hzero b
  rw [hdel.bits]
  refine and_congr_right fun _ => ⟨?_, fun hnot s hs howner _ hne heq => ?_⟩
  · rintro hall ⟨hb, s, hs, howner, rfl⟩
    exact hall s hs howner (root_lt_of_view_ne hs howner hzero hb) hb rfl
  · exact hnot ⟨heq ▸ hne, s, hs, howner, heq⟩

theorem Deleted.reachable_iff (hpos : 0 < sb.data) (hreach : Reachable sb fs) :
    Reachable sb fs' ↔ view fs (double inum) = 0 := by
  constructor
  · intro hreach'
    by_contra hne
    have hmem : double inum ∈ slots sb := double_mem_slots hinum
    have hrange := htree.range _ hmem hne
    obtain ⟨s, hs, htype, hview⟩ := hreach' _ hrange.2 hrange.1 (hdel.bitSet_double htree hinum hne)
    have howner : s.owner ≠ inum := fun heq => htype (heq ▸ hdel.type)
    rw [hdel.view_eq s hs howner] at hview
    exact howner (congrArg Slot.owner (htree.exclusive s hs _ hmem hview (hview ▸ hne)))
  · intro hzero b hb hdata hbit
    obtain ⟨hbit, hall⟩ := (hdel.bits b).mp hbit
    obtain ⟨s, hs, htype, rfl⟩ := hreach b hb hdata hbit
    have hne : view fs s ≠ 0 := by omega
    have howner : s.owner ≠ inum := fun heq =>
      hall s hs heq (root_lt_of_view_ne hs heq hzero hne) hne rfl
    exact ⟨s, hs, by rwa [hdel.others _ howner], hdel.view_eq s hs howner⟩

end Iput

/-- `iput` frees exactly the blocks of a file, and every block in use stays reachable, if the file
has no block behind the double indirect one. -/
theorem iput_releases_iff (hlayout : Layout sb) (h : Wf sb R fs) (hR : inum ∈ R)
    (hnlink : (fs.inode inum).nlink = 0) :
    ∃ fs', fs.iput sb inum = some fs' ∧
      (Released sb inum fs fs' ↔ fs.length inum ≤ (ndirect + nindirect) * bsize) ∧
      (Reachable sb fs → (Reachable sb fs' ↔ fs.length inum ≤ (ndirect + nindirect) * bsize)) := by
  have hinum := (h.regular inum hR).1
  have hsize : fs.length inum ≤ (ndirect + nindirect) * bsize ↔ view fs (double inum) = 0 := by
    rw [← not_iff_not, ← ne_eq (FsTree.view _ _), h.mapped.view_ne_iff hR (double_mem_slots hinum)]
    grind [first]
  obtain ⟨A, htree, -⟩ := h.mapped
  obtain ⟨fs', hiput, hdel⟩ := iput_deleted hlayout htree hinum hnlink
  rw [hsize]
  exact ⟨fs', hiput, hdel.released_iff htree hinum, hdel.reachable_iff htree hinum hlayout.pos⟩

def leakDisk : Superblock := ⟨200, 8, 2, 3, 8⟩

theorem layout_leakDisk : Layout leakDisk := ⟨by decide, by decide +kernel, by decide, by decide⟩

def leakFs : Fs := freshDisk leakDisk 0 fun b => b < 8

theorem wf_leakFs : Wf leakDisk { e | e < 8 } leakFs := wf_freshDisk layout_leakDisk (by decide)

theorem writei_leakFs (n : Word) (hmax : n.toNat ≤ maxfile * bsize)
    (hfree : need 0 (grown 0 0 n.toNat) ≤ 192) :
    ∃ fs, leakFs.writei leakDisk 1 (fun _ => 0) 0 n = some (fs, n) ∧
      Written leakDisk { e | e < 8 } 1 (fun _ => 0) 0 n.toNat leakFs fs :=
  wf_leakFs.writei_eq layout_leakDisk (show 1 < 8 by decide) _ (by decide)
    ((Nat.zero_add _).trans_lt n.isLt) ((Nat.zero_add _).trans_le hmax)
    (by rw [leakFs, free_freshDisk]; exact hfree)

/-- A file of fourteen blocks, the last three behind the indirect block. -/
theorem iput_releases_leakFs : ∃ fs fs',
    leakFs.writei leakDisk 1 (fun _ => 0) 0 7000 = some (fs, 7000) ∧
      fs.iput leakDisk 1 = some fs' ∧ Released leakDisk 1 fs fs' := by
  obtain ⟨fs, hwrite, hw⟩ := writei_leakFs 7000 (by decide) (by decide +kernel)
  obtain ⟨fs', hiput, hrel, -⟩ :=
    iput_releases_iff layout_leakDisk hw.wf (show 1 < 8 by decide) (hw.nlink 1)
  refine ⟨fs, fs', hwrite, hiput, hrel.mpr ?_⟩
  rw [show fs.length 1 = 7000 from hw.length]
  decide

/-- One byte behind the double indirect block is enough. -/
theorem iput_leaks : ∃ fs fs', leakFs.writei leakDisk 1 (fun _ => 0) 0 71169 = some (fs, 71169) ∧
    (fs.inode 1).nlink = 0 ∧ fs.iput leakDisk 1 = some fs' ∧ ¬ Released leakDisk 1 fs fs' := by
  obtain ⟨fs, hwrite, hw⟩ := writei_leakFs 71169 (by decide) (by decide +kernel)
  have hlen : fs.length 1 = 71169 := hw.length
  have hmem : double 1 ∈ slots leakDisk := double_mem_slots (by decide)
  have hne : view fs (double 1) ≠ 0 := by
    rw [hw.wf.mapped.view_ne_iff (s := double 1) (show 1 < 8 by decide) hmem, hlen]
    decide
  obtain ⟨A, htree, -⟩ := hw.wf.mapped
  obtain ⟨fs', hiput, hdel⟩ :=
    iput_deleted layout_leakDisk htree (show 1 < 8 by decide) (hw.nlink 1)
  exact ⟨fs, fs', hwrite, hw.nlink 1, hiput,
    fun hrel => hne ((hdel.released_iff htree (by decide)).mp hrel)⟩

end Mit6828.Xv6
