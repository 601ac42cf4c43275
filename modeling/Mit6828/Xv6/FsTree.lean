import Mit6828.Xv6.Balloc

namespace Mit6828.Xv6.FsTree

open Library Library.BlockTree Xv6.Fs Function

def depth (root : Nat) : Nat := root + 1 - ndirect

def slots (sb : Superblock) : Set (Slot Nat) :=
  { s | s.owner < sb.ninodes ∧ s.root < ndirect + 2 ∧ s.path.length ≤ depth s.root ∧
    ∀ j ∈ s.path, j < nindirect }

abbrev indirect (inum : Nat) : Slot Nat := ⟨inum, ndirect, []⟩

abbrev double (inum : Nat) : Slot Nat := ⟨inum, ndirect + 1, []⟩

/-- The block behind the double indirect one that leads to block `bn`. -/
abbrev table (inum bn : Nat) : Slot Nat :=
  ⟨inum, ndirect + 1, [(bn - ndirect - nindirect) / nindirect]⟩

def Leaf (s : Slot Nat) : Prop := s.path.length = depth s.root

def first (s : Slot Nat) : Nat :=
  match s.path with
  | [] => if s.root ≤ ndirect then s.root else ndirect + nindirect
  | [j] => if s.root = ndirect then ndirect + j else ndirect + nindirect + nindirect * j
  | l :: j :: _ => ndirect + nindirect + nindirect * j + l

def dataSlot (inum bn : Nat) : Slot Nat :=
  if bn < ndirect then ⟨inum, bn, []⟩
  else if bn - ndirect < nindirect then ⟨inum, ndirect, [bn - ndirect]⟩
  else (table inum bn).child ((bn - ndirect - nindirect) % nindirect)

def view (fs : Fs) : Slot Nat → Nat :=
  BlockTree.view (fun inum i => ((fs.inode inum).addrs i).toNat)
    fun b j => (FlatMemory.readWord (fs.block b) (4 * j)).toNat

/-- The slots in `A` have blocks, different ones, and the bitmap has them in use. -/
structure Tree (sb : Superblock) (fs : Fs) (A : Set (Slot Nat)) : Prop where
  exclusive : Exclusive (slots sb) (view fs)
  alloc : ∀ s ∈ slots sb, view fs s ≠ 0 ↔ s ∈ A
  used : ∀ s ∈ slots sb, view fs s ≠ 0 → fs.bitSet sb (view fs s) = true
  range : ∀ s ∈ slots sb, view fs s ≠ 0 → sb.data ≤ view fs s ∧ view fs s < sb.size
  reserved : ∀ b < sb.data, fs.bitSet sb b = true

/-- What writing to the blocks `D` of one inode does to the disk: pointers are added, and the other
data blocks are left alone. -/
structure Extends (sb : Superblock) (inum : Nat) (D : Set Nat) (fs fs' : Fs) : Prop where
  view_eq : ∀ s ∈ slots sb, view fs s ≠ 0 → view fs' s = view fs s
  data : ∀ s ∈ slots sb, Leaf s → view fs s ≠ 0 → (∀ bn ∈ D, s ≠ dataSlot inum bn) →
    fs'.block (view fs s) = fs.block (view fs s)
  written : ∀ bn ∈ D, dataSlot inum bn ∈ slots sb ∧ view fs' (dataSlot inum bn) ≠ 0
  low : ∀ b < sb.bmapstart, fs'.block b = fs.block b
  others : ∀ e, e ≠ inum → fs'.inode e = fs.inode e
  self : ∃ addrs, fs'.inode inum = { fs.inode inum with addrs }
  free : ∀ b ∈ fs'.free sb, b ∈ fs.free sb
  logged : ∀ x, x ∈ fs'.logged ↔ x ∈ fs.logged ∨ (∃ bn ∈ D, x = view fs' (dataSlot inum bn)) ∨
    (∃ b ∈ fs.free sb, b ∉ fs'.free sb ∧ x = bblock sb b) ∨
    ∃ s ∈ slots sb, s.owner = inum ∧ view fs s = 0 ∧ view fs' s ≠ 0 ∧
      (x = view fs' s ∨ ∃ q j, s = q.child j ∧ x = view fs' q)

variable {sb : Superblock} {fs fs' fs1 fs2 : Fs} {A : Set (Slot Nat)} {s q : Slot Nat}
  {inum bn b c i j : Nat} {rest : List Nat} {D D' : Set Nat}

section Slots

theorem closed_slots (sb : Superblock) : Closed (slots sb) := by
  rintro ⟨e, r, js⟩ j ⟨howner, hroot, hlength, hpath⟩
  simp only [Slot.child, List.length_cons, List.mem_cons, forall_eq_or_imp] at *
  exact ⟨howner, hroot, by dsimp only; omega, hpath.2⟩

theorem entry_lt (h : s.child j ∈ slots sb) : j < nindirect := h.2.2.2 j List.mem_cons_self

theorem not_leaf_of_child (h : s.child j ∈ slots sb) : ¬ Leaf s := by
  have hlength := h.2.2.1
  simp only [Slot.child, List.length_cons] at hlength
  rw [Leaf]
  omega

theorem dataSlot_mem (hinum : inum < sb.ninodes) (hbn : bn < maxfile) :
    dataSlot inum bn ∈ slots sb := by
  rw [maxfile, ndindirect] at hbn
  rw [dataSlot]
  split
  · exact ⟨hinum, by dsimp only; omega, by simp [depth], by simp⟩
  split
  · refine ⟨hinum, by simp, by simp [depth], fun j hj => ?_⟩
    grind
  refine ⟨hinum, by simp [Slot.child], le_rfl, fun j hj => ?_⟩
  rcases List.mem_pair.mp hj with heq | heq
  · rw [heq]
    exact Nat.mod_lt _ (by decide)
  · rw [heq]
    exact Nat.div_lt_of_lt_mul (by omega)

theorem leaf_dataSlot (inum bn : Nat) : Leaf (dataSlot inum bn) := by
  rw [dataSlot, Leaf]
  split
  · rw [depth]
    dsimp only [List.length_nil]
    omega
  · split <;> rfl

theorem owner_dataSlot (inum bn : Nat) : (dataSlot inum bn).owner = inum := by
  rw [dataSlot]
  split
  · rfl
  · split <;> rfl

theorem first_dataSlot (inum bn : Nat) : first (dataSlot inum bn) = bn := by
  rw [dataSlot]
  split
  · rw [first]
    dsimp only
    rw [if_pos (by omega)]
  split
  · rw [first]
    dsimp only
    rw [if_pos rfl]
    omega
  · rw [Slot.child, first]
    dsimp only
    rw [Nat.add_assoc, Nat.div_add_mod]
    omega

theorem dataSlot_inj {inum' bn' : Nat} (h : dataSlot inum bn = dataSlot inum' bn') :
    inum = inum' ∧ bn = bn' := by
  constructor
  · rw [← owner_dataSlot inum bn, h, owner_dataSlot]
  · rw [← first_dataSlot inum bn, h, first_dataSlot]

end Slots

section Extends

theorem view_child (fs : Fs) (s : Slot Nat) (j : Nat) : view fs (s.child j) =
    if view fs s = 0 then 0 else (FlatMemory.readWord (fs.block (view fs s)) (4 * j)).toNat := rfl

theorem view_parent_ne (h : view fs (s.child j) ≠ 0) : view fs s ≠ 0 := by
  intro hzero
  rw [view_child, if_pos hzero] at h
  exact h rfl

theorem Extends.refl (sb : Superblock) (inum : Nat) (fs : Fs) : Extends sb inum ∅ fs fs where
  view_eq := fun _ _ _ => rfl
  data := fun _ _ _ _ _ => rfl
  written := fun _ h => h.elim
  low := fun _ _ => rfl
  others := fun _ _ => rfl
  self := ⟨_, rfl⟩
  free := fun _ h => h
  logged := by
    intro x
    refine ⟨.inl, fun h => h.elim id ?_⟩
    rintro (⟨bn, hbn, -⟩ | ⟨b, hb, hb', -⟩ | ⟨s, -, -, hzero, hne, -⟩)
    · exact hbn.elim
    · exact absurd hb hb'
    · exact absurd hzero hne

theorem Extends.view_ne (h : Extends sb inum D fs fs') (hs : s ∈ slots sb) (hne : view fs s ≠ 0) :
    view fs' s ≠ 0 := by
  rw [h.view_eq s hs hne]
  exact hne

theorem Extends.logged_trans (h : Extends sb inum D fs fs1) (h' : Extends sb inum D' fs1 fs2)
    (x : Nat) :
    x ∈ fs2.logged ↔ x ∈ fs.logged ∨ (∃ bn ∈ D ∪ D', x = view fs2 (dataSlot inum bn)) ∨
      (∃ b ∈ fs.free sb, b ∉ fs2.free sb ∧ x = bblock sb b) ∨
      ∃ s ∈ slots sb, s.owner = inum ∧ view fs s = 0 ∧ view fs2 s ≠ 0 ∧
        (x = view fs2 s ∨ ∃ q j, s = q.child j ∧ x = view fs2 q) := by
  have hwritten : ∀ bn ∈ D, view fs2 (dataSlot inum bn) = view fs1 (dataSlot inum bn) :=
    fun bn hbn =>
    h'.view_eq _ (h.written bn hbn).1 (h.written bn hbn).2
  rw [h'.logged, h.logged]
  constructor
  · rintro ((hx | ⟨bn, hbn, rfl⟩ | ⟨b, hb, hb', hx⟩ | ⟨s, hs, howner, hzero, hne, hx⟩) |
      ⟨bn, hbn, hx⟩ |
      ⟨b, hb, hb', hx⟩ | ⟨s, hs, howner, hzero, hne, hx⟩)
    · exact .inl hx
    · exact .inr (.inl ⟨bn, .inl hbn, (hwritten bn hbn).symm⟩)
    · exact .inr (.inr (.inl ⟨b, hb, fun hmem => hb' (h'.free b hmem), hx⟩))
    · refine .inr (.inr (.inr ⟨s, hs, howner, hzero, h'.view_ne hs hne, ?_⟩))
      rw [h'.view_eq s hs hne]
      refine hx.imp id ?_
      rintro ⟨q, j, rfl, rfl⟩
      exact ⟨q, j, rfl, (h'.view_eq q (closed_slots sb q j hs) (view_parent_ne hne)).symm⟩
    · exact .inr (.inl ⟨bn, .inr hbn, hx⟩)
    · exact .inr (.inr (.inl ⟨b, h.free b hb, hb', hx⟩))
    · refine .inr (.inr (.inr ⟨s, hs, howner, ?_, hne, hx⟩))
      by_contra hne'
      exact h.view_ne hs hne' hzero
  · rintro (hx | ⟨bn, hbn | hbn, hx⟩ | ⟨b, hb, hb', hx⟩ | ⟨s, hs, howner, hzero, hne, hx⟩)
    · exact .inl (.inl hx)
    · exact .inl (.inr (.inl ⟨bn, hbn, hx.trans (hwritten bn hbn)⟩))
    · exact .inr (.inl ⟨bn, hbn, hx⟩)
    · by_cases hmid : b ∈ fs1.free sb
      · exact .inr (.inr (.inl ⟨b, hmid, hb', hx⟩))
      · exact .inl (.inr (.inr (.inl ⟨b, hb, hmid, hx⟩)))
    · by_cases hmid : view fs1 s = 0
      · exact .inr (.inr (.inr ⟨s, hs, howner, hmid, hne, hx⟩))
      · refine .inl (.inr (.inr (.inr ⟨s, hs, howner, hzero, hmid, ?_⟩)))
        rw [h'.view_eq s hs hmid] at hx
        refine hx.imp id ?_
        rintro ⟨q, j, rfl, rfl⟩
        exact ⟨q, j, rfl, h'.view_eq q (closed_slots sb q j hs) (view_parent_ne hmid)⟩

theorem Extends.trans (h : Extends sb inum D fs fs1) (h' : Extends sb inum D' fs1 fs2) :
    Extends sb inum (D ∪ D') fs fs2 where
  view_eq := fun s hs hne => (h'.view_eq s hs (h.view_ne hs hne)).trans (h.view_eq s hs hne)
  data := by
    intro s hs hleaf hne hD
    have hview := h.view_eq s hs hne
    have hdata := h'.data s hs hleaf (h.view_ne hs hne) fun bn hbn => hD bn (.inr hbn)
    rw [hview] at hdata
    exact hdata.trans (h.data s hs hleaf hne fun bn hbn => hD bn (.inl hbn))
  written := by
    rintro bn (hbn | hbn)
    · exact ⟨(h.written bn hbn).1, h'.view_ne (h.written bn hbn).1 (h.written bn hbn).2⟩
    · exact h'.written bn hbn
  low := fun b hb => (h'.low b hb).trans (h.low b hb)
  others := fun e he => (h'.others e he).trans (h.others e he)
  self := by
    obtain ⟨addrs, haddrs⟩ := h.self
    obtain ⟨addrs', haddrs'⟩ := h'.self
    exact ⟨addrs', by rw [haddrs', haddrs]⟩
  free := fun b hb => h.free b (h'.free b hb)
  logged := h.logged_trans h'

end Extends

section Grow

theorem readWord_zero (halloc : Allocated sb fs b fs') (hj : j < nindirect) :
    FlatMemory.readWord (fs'.block b) (4 * j) = 0 :=
  FlatMemory.readWord_eq_zero fun x _ hx => halloc.zero x (by grind)

variable (hlayout : Layout sb)

include hlayout

section

variable (h : Tree sb fs A)
include h

theorem Tree.fresh (halloc : Allocated sb fs b fs') (hq : q ∈ slots sb) : view fs q ≠ b := by
  rintro rfl
  have hpos := hlayout.pos
  have hdata := halloc.data
  have hclear := halloc.clear
  rw [h.used q hq (by omega)] at hclear
  cases hclear

theorem Tree.view_ne_bblock (halloc : Allocated sb fs b fs') (hq : q ∈ slots sb)
    (hne : view fs q ≠ 0) : view fs q ≠ bblock sb b := by
  have hlt := hlayout.bitmap b halloc.size
  have hge := (h.range q hq hne).1
  omega

section

variable (halloc : Allocated sb fs b fs1) (hs : s ∈ slots sb) (hzero : view fs s = 0)
  (hview : ∀ q ∈ slots sb, view fs' q = update (view fs) s b q)
include halloc hs hzero hview

theorem Tree.insert
    (hbits : ∀ c < sb.size, fs'.bitSet sb c = fs1.bitSet sb c) : Tree sb fs' (insert s A) := by
  have hpos := hlayout.pos
  have hdata := halloc.data
  have hself : view fs' s = b := by rw [hview s hs, update_self]
  have hother : ∀ q ∈ slots sb, q ≠ s → view fs' q = view fs q := by
    intro q hq hne
    rw [hview q hq, update_of_ne hne]
  have hset : ∀ c < sb.size, fs.bitSet sb c = true → fs'.bitSet sb c = true := by
    intro c hc hbit
    rw [hbits c hc, halloc.bits c hc, hbit, Bool.true_or]
  refine ⟨fun q hq q' hq' heq hne => ?_, fun q hq => ?_, fun q hq hne => ?_, fun q hq hne => ?_,
    fun c hc => ?_⟩
  · by_cases hqs : q = s
    · by_cases hqs' : q' = s
      · rw [hqs, hqs']
      · rw [hqs, hself, hother q' hq' hqs'] at heq
        exact absurd heq.symm (h.fresh hlayout halloc hq')
    · by_cases hqs' : q' = s
      · rw [hqs', hself, hother q hq hqs] at heq
        exact absurd heq (h.fresh hlayout halloc hq)
      · rw [hother q hq hqs, hother q' hq' hqs'] at heq
        rw [hother q hq hqs] at hne
        exact h.exclusive q hq q' hq' heq hne
  · by_cases hqs : q = s
    · subst hqs
      rw [hself]
      exact ⟨fun _ => Set.mem_insert _ _, fun _ => by omega⟩
    · rw [hother q hq hqs, h.alloc q hq, Set.mem_insert_iff]
      exact ⟨.inr, fun hor => hor.resolve_left hqs⟩
  · by_cases hqs : q = s
    · rw [hqs, hself, hbits b halloc.size, halloc.bits b halloc.size, decide_eq_true rfl,
        Bool.or_true]
    · rw [hother q hq hqs] at hne ⊢
      exact hset _ (h.range q hq hne).2 (h.used q hq hne)
  · by_cases hqs : q = s
    · rw [hqs, hself]
      exact ⟨hdata, halloc.size⟩
    · rw [hother q hq hqs] at hne ⊢
      exact h.range q hq hne
  · have hsize := halloc.size
    exact hset c (by omega) (h.reserved c hc)

theorem Tree.extends
    (hblock : ∀ c, c ≠ b → c ≠ bblock sb b → (∀ q j, s = q.child j → c ≠ view fs q) →
      fs'.block c = fs.block c) (hothers : ∀ e, e ≠ s.owner → fs'.inode e = fs.inode e)
    (hself : ∃ addrs, fs'.inode s.owner = { fs.inode s.owner with addrs })
    (hfree : fs.free sb = b :: fs'.free sb)
    (hlogged : ∀ x, x ∈ fs'.logged ↔ x ∈ fs.logged ∨ x = b ∨ x = bblock sb b ∨
      ∃ q j, s = q.child j ∧ x = view fs q)
    (hparent : ∀ q j, s = q.child j → view fs q ≠ 0) : Extends sb s.owner ∅ fs fs' := by
  have hother : ∀ q ∈ slots sb, q ≠ s → view fs' q = view fs q := by
    intro q hq hne
    rw [hview q hq, update_of_ne hne]
  have hself' : view fs' s = b := by rw [hview s hs, update_self]
  have hup : ∀ q j, s = q.child j → view fs' q = view fs q := by
    rintro q j rfl
    exact hother q (closed_slots sb q j hs) (Slot.child_ne q j).symm
  refine ⟨fun q hq hne => ?_, fun q hq hleaf hne _ => ?_, fun _ h => h.elim, fun c hc => ?_,
    hothers, hself, fun c hc => ?_, fun x => ?_⟩
  · refine hother q hq ?_
    rintro rfl
    exact hne hzero
  · refine hblock _ (h.fresh hlayout halloc hq) (h.view_ne_bblock hlayout halloc hq hne) ?_
    rintro p j rfl heq
    rw [h.exclusive q hq p (closed_slots sb p j hs) heq hne] at hleaf
    exact not_leaf_of_child hs hleaf
  · have hdata := halloc.data
    have hstart := bmapstart_le_bblock sb b
    have hmap := hlayout.bitmap b halloc.size
    refine hblock c (by omega) (by omega) fun q j hqj => ?_
    have hge := (h.range q (closed_slots sb q j (hqj ▸ hs)) (hparent q j hqj)).1
    omega
  · rw [hfree]
    exact List.mem_cons_of_mem _ hc
  · have hpos := hlayout.pos
    have hdata := halloc.data
    have hnodup := nodup_free sb fs
    rw [hfree, List.nodup_cons] at hnodup
    rw [hlogged]
    refine or_congr_right ⟨?_, ?_⟩
    · rintro (rfl | rfl | ⟨q, j, heq, rfl⟩)
      · exact .inr (.inr ⟨s, hs, rfl, hzero, by omega, .inl hself'.symm⟩)
      · exact .inr (.inl ⟨b, hfree ▸ List.mem_cons_self, hnodup.1, rfl⟩)
      · exact .inr (.inr ⟨s, hs, rfl, hzero, by omega, .inr ⟨q, j, heq, (hup q j heq).symm⟩⟩)
    rintro (⟨bn, hbn, -⟩ | ⟨c, hc, hc', rfl⟩ | ⟨t, ht, -, htzero, htne, hx⟩)
    · exact hbn.elim
    · rw [hfree] at hc
      rw [(List.mem_cons.mp hc).resolve_right hc']
      exact .inr (.inl rfl)
    have hts : t = s := by
      by_contra hne
      exact htne ((hother t ht hne).trans htzero)
    subst hts
    rw [hself'] at hx
    refine hx.imp id fun ⟨q, j, heq, hx⟩ => .inr ⟨q, j, heq, ?_⟩
    rw [hx, hup q j heq]

end

theorem Tree.kept (halloc : Allocated sb fs b fs') (hq : q ∈ slots sb)
    (hne : view fs q ≠ 0) : fs'.block (view fs q) = fs.block (view fs q) :=
  halloc.kept _ (h.fresh hlayout halloc hq) (h.view_ne_bblock hlayout halloc hq hne)

end

theorem toNat_ofNat_block (halloc : Allocated sb fs b fs') : (BitVec.ofNat 32 b).toNat = b :=
  (BitVec.toNat_ofNat _ _).trans (Nat.mod_eq_of_lt (halloc.size.trans hlayout.size))

theorem rootPtr_grow (h : Tree sb fs A) (hs : (⟨inum, i, []⟩ : Slot Nat) ∈ slots sb)
    (hzero : view fs ⟨inum, i, []⟩ = 0) (hfree : fs.free sb = b :: rest) :
    ∃ fs', fs.rootPtr sb inum i = some (fs', b) ∧ Tree sb fs' (insert ⟨inum, i, []⟩ A) ∧
      Extends sb inum ∅ fs fs' ∧ view fs' ⟨inum, i, []⟩ = b ∧ fs'.free sb = rest := by
  obtain ⟨fs1, hballoc, halloc⟩ := balloc_eq hlayout h.reserved hfree
  have hpos := hlayout.pos
  have hdata := halloc.data
  have haddr : (fs.inode inum).addrs i = 0 := BitVec.toNat_eq.mpr hzero
  let ip : Inode := { fs.inode inum with
    addrs := update (fs.inode inum).addrs i (BitVec.ofNat 32 b) }
  have hptr : fs.rootPtr sb inum i = some (fs1.setInode inum ip, b) := by
    rw [rootPtr, if_pos haddr, hballoc, Option.map_some]
  have hview : ∀ q ∈ slots sb,
    view (fs1.setInode inum ip) q = update (view fs) ⟨inum, i, []⟩ b q := by
    refine view_plant (closed_slots sb) hzero (by omega) ?_ (fun e' i' hne => ?_)
      (fun q j hq hne => ?_)
      fun j hj => ?_
    · simp only [setInode, update_self, ip]
      exact toNat_ofNat_block hlayout halloc
    · by_cases he : e' = inum
      · have hi : i' ≠ i := by
          rintro rfl
          exact hne (by rw [he])
        simp only [setInode, he, update_self, update_of_ne hi, ip]
      · simp only [setInode, update_of_ne he, halloc.inode]
    · change (FlatMemory.readWord (fs1.block (view fs q)) _).toNat = _
      rw [h.kept hlayout halloc (closed_slots sb q j hq) hne]
      rfl
    · exact congrArg BitVec.toNat (readWord_zero halloc (entry_lt hj))
  have hfree' : fs1.free sb = rest := (List.cons.inj (halloc.free.symm.trans hfree)).2
  refine ⟨_, hptr, h.insert hlayout halloc hs hzero hview fun _ _ => rfl,
    h.extends hlayout halloc hs hzero hview ?_ ?_ ?_ halloc.free ?_ ?_, ?_, hfree'⟩
  · intro c hcb hcm _
    exact halloc.kept c hcb hcm
  · intro e he
    exact (update_of_ne he _ _).trans (congrFun halloc.inode e)
  · exact ⟨ip.addrs, update_self _ _ _⟩
  · intro x
    rw [show (fs1.setInode inum ip).logged = fs1.logged from rfl, halloc.logged]
    simp only [List.mem_append, List.mem_cons, List.not_mem_nil, or_false, Slot.child,
      Slot.mk.injEq, reduceCtorEq, and_false, false_and, exists_false]
    tauto
  · intro q j hqj
    simp [Slot.child] at hqj
  · rw [hview _ hs, update_self]

theorem entryPtr_grow (h : Tree sb fs A) (hs : s.child j ∈ slots sb) (hne : view fs s ≠ 0)
    (hzero : view fs (s.child j) = 0) (hfree : fs.free sb = b :: rest) :
    ∃ fs', fs.entryPtr sb (view fs s) j = some (fs', b) ∧ Tree sb fs' (insert (s.child j) A) ∧
      Extends sb s.owner ∅ fs fs' ∧ view fs' (s.child j) = b ∧ fs'.free sb = rest := by
  obtain ⟨fs1, hballoc, halloc⟩ := balloc_eq hlayout h.reserved hfree
  have hpos := hlayout.pos
  have hdata := halloc.data
  have hs' := closed_slots sb s j hs
  have hrange := h.range s hs' hne
  have hentry : FlatMemory.readWord (fs.block (view fs s)) (4 * j) = 0 := by
    rw [view_child, if_neg hne] at hzero
    exact BitVec.toNat_eq.mpr hzero
  let fs2 := fs1.logWrite (view fs s)
    (FlatMemory.writeWord (fs1.block (view fs s)) (4 * j) (BitVec.ofNat 32 b))
  have hptr : fs.entryPtr sb (view fs s) j = some (fs2, b) := by
    rw [entryPtr, if_pos hentry, hballoc, Option.map_some]
  have hinode : fs2.inode = fs.inode := halloc.inode
  have hkept : ∀ c, c ≠ view fs s → fs2.block c = fs1.block c := fun c hc => logWrite_of_ne hc
  have hread : ∀ i, i ≠ j → FlatMemory.readWord (fs2.block (view fs s)) (4 * i) =
      FlatMemory.readWord (fs.block (view fs s)) (4 * i) := by
    intro i hi
    rw [logWrite_self, FlatMemory.readWord_writeWord_of_ne (by omega),
      h.kept hlayout halloc hs' hne]
  have hview : ∀ q ∈ slots sb, view fs2 q = update (view fs) (s.child j) b q := by
    rw [show view fs2 = BlockTree.view (fun inum i => ((fs.inode inum).addrs i).toNat)
      fun b j => (FlatMemory.readWord (fs2.block b) (4 * j)).toNat by rw [view, hinode]]
    refine view_grow (closed_slots sb) h.exclusive hs' hne hzero (by omega) ?_
      (fun q i hq hqne hqi => ?_)
      fun i hi => ?_
    · change (FlatMemory.readWord (fs2.block (view fs s)) _).toNat = b
      rw [logWrite_self, FlatMemory.readWord_writeWord_self]
      exact toNat_ofNat_block hlayout halloc
    · change (FlatMemory.readWord (fs2.block (view fs q)) _).toNat =
        (FlatMemory.readWord (fs.block (view fs q)) _).toNat
      by_cases hqs : view fs q = view fs s
      · rw [hqs, hread i fun hij => hqi ⟨hqs, hij⟩]
      · rw [hkept _ hqs, h.kept hlayout halloc (closed_slots sb q i hq) hqne]
    · rw [hkept b (h.fresh hlayout halloc hs').symm]
      exact congrArg BitVec.toNat (readWord_zero halloc (entry_lt hi))
  have hbits : ∀ c < sb.size, fs2.bitSet sb c = fs1.bitSet sb c := by
    intro c hc
    have hmap := hlayout.bitmap c hc
    rw [bitSet, bitSet, hkept _ (by omega)]
  have hfree' : fs2.free sb = rest := free_tail hfree fun c hc => by
    rw [hbits c hc, halloc.bits c hc]
  suffices hextends : Extends sb (s.child j).owner ∅ fs fs2 by
    refine ⟨_, hptr, h.insert hlayout halloc hs hzero hview hbits, hextends, ?_, hfree'⟩
    rw [hview _ hs, update_self]
  refine h.extends hlayout halloc hs hzero hview ?_ ?_ ?_ (by rw [hfree, hfree']) ?_ ?_
  · intro c hcb hcm hcs
    rw [hkept c (hcs s j rfl), halloc.kept c hcb hcm]
  · intro e _
    rw [hinode]
  · exact ⟨(fs.inode s.owner).addrs, congrFun hinode _⟩
  · intro x
    have hmem : x ∈ fs2.logged ↔ x ∈ fs1.logged ∨ x = view fs s := by
      rw [show fs2.logged = fs1.logged ++ [view fs s] from rfl, List.mem_append, List.mem_singleton]
    have hchild : (∃ q i, s.child j = q.child i ∧ x = view fs q) ↔ x = view fs s := by
      constructor
      · rintro ⟨q, i, hqi, rfl⟩
        rw [(Slot.child_inj hqi).1]
      · intro hx
        exact ⟨s, j, rfl, hx⟩
    rw [hmem, halloc.logged, hchild]
    simp only [List.mem_append, List.mem_cons, List.not_mem_nil, or_false]
    tauto
  · intro q i hqi
    rwa [← (Slot.child_inj hqi).1]

end Grow

end Mit6828.Xv6.FsTree
