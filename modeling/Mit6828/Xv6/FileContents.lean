import Mit6828.Xv6.WriteLoop

namespace Mit6828.Xv6

open Library Library.BlockTree Xv6.Fs FsTree Function

def tFile : BitVec 16 := 2

structure Inode.Agrees (ip ip' : Inode) : Prop where
  type : ip.type = ip'.type
  major : ip.major = ip'.major
  minor : ip.minor = ip'.minor
  nlink : ip.nlink = ip'.nlink
  size : ip.size = ip'.size
  addrs : ∀ i < ndirect + 2, ip.addrs i = ip'.addrs i

def Fs.length (fs : Fs) (inum : Nat) : Nat := (fs.inode inum).size.toNat

/-- The disk with the files `R`: each has the blocks for its size, and its inode is on the disk. -/
structure Wf (sb : Superblock) (R : Set Nat) (fs : Fs) : Prop where
  regular : ∀ e ∈ R, e < sb.ninodes ∧ (fs.inode e).type = tFile
  mapped : Mapped sb R (fun e => blocks (fs.length e)) fs
  size : ∀ e ∈ R, fs.length e ≤ maxfile * bsize
  disk : ∀ e ∈ R, (decode (fs.block (iblock sb e)) (dip e)).Agrees (fs.inode e)

def contents (fs : Fs) (inum : Nat) : List Byte := (List.range (fs.length inum)).map (byte fs inum)

variable {sb : Superblock} {R : Set Nat} {fs fs' fs1 : Fs} {k : Nat → Nat} {inum e off n bn : Nat}
  {src : Nat → Byte} {A : Set (Slot Nat)}

section Inodes

theorem toNat_size (fs : Fs) (inum : Nat) : (fs.inode inum).size.toNat = fs.length inum := rfl

theorem Inode.Agrees.refl (ip : Inode) : ip.Agrees ip := ⟨rfl, rfl, rfl, rfl, rfl, fun _ _ => rfl⟩

theorem decode_congr {m m' : FlatMemory.Memory} {a : Nat}
    (h : ∀ x, a ≤ x → x < a + 64 → m' x = m x) :
    (decode m' a).Agrees (decode m a) := by
  have hread : ∀ j < 16, FlatMemory.readWord m' (a + 4 * j) = FlatMemory.readWord m (a + 4 * j) :=
    fun j hj => FlatMemory.readWord_congr fun x hle hlt => h x (by omega) (by omega)
  have h0 := hread 0 (by decide)
  have h1 := hread 1 (by decide)
  have h2 := hread 2 (by decide)
  refine ⟨?_, ?_, ?_, ?_, h2, fun i hi => ?_⟩
  · exact congrArg (BitVec.extractLsb' 0 16) h0
  · exact congrArg (BitVec.extractLsb' 16 16) h0
  · exact congrArg (BitVec.extractLsb' 0 16) h1
  · exact congrArg (BitVec.extractLsb' 16 16) h1
  · have h3 := hread (i + 3) (by grind)
    rwa [show a + 4 * (i + 3) = a + 12 + 4 * i by omega] at h3

theorem decode_encode (m : FlatMemory.Memory) (a : Nat) (ip : Inode) :
    (decode (FlatMemory.writeWords m a (encode ip)) a).Agrees ip := by
  have hread : ∀ j w, (encode ip)[j]? = some w →
      FlatMemory.readWord (FlatMemory.writeWords m a (encode ip)) (a + 4 * j) = w := by
    intro j w hget
    obtain ⟨hj, rfl⟩ := List.getElem?_eq_some_iff.mp hget
    exact FlatMemory.readWord_writeWords hj
  have h0 := hread 0 _ rfl
  have h1 := hread 1 _ rfl
  rw [Nat.mul_zero, Nat.add_zero] at h0
  refine ⟨?_, ?_, ?_, ?_, hread 2 _ rfl, fun i hi => ?_⟩
  · rw [decode, h0, BitVec.extractLsb'_append_eq_right]
  · rw [decode, h0, BitVec.extractLsb'_append_eq_left]
  · rw [decode, h1, BitVec.extractLsb'_append_eq_right]
  · rw [decode, h1, BitVec.extractLsb'_append_eq_left]
  · have h3 := hread (i + 3) (ip.addrs i) (by simp [encode, hi])
    rwa [show a + 4 * (i + 3) = a + 12 + 4 * i by omega] at h3

theorem Inode.Agrees.trans {ip ip' ip'' : Inode} (h : ip.Agrees ip') (h' : ip'.Agrees ip'') :
    ip.Agrees ip'' where
  type := h.type.trans h'.type
  major := h.major.trans h'.major
  minor := h.minor.trans h'.minor
  nlink := h.nlink.trans h'.nlink
  size := h.size.trans h'.size
  addrs := fun i hi => (h.addrs i hi).trans (h'.addrs i hi)

theorem disk_iupdate_self (fs : Fs) (inum : Nat) :
    (decode ((fs.iupdate sb inum).block (iblock sb inum)) (dip inum)).Agrees (fs.inode inum) := by
  rw [iupdate, logWrite_self]
  exact decode_encode _ _ _

theorem disk_iupdate_of_ne (fs : Fs) (hne : e ≠ inum) :
    (decode ((fs.iupdate sb inum).block (iblock sb e)) (dip e)).Agrees
      (decode (fs.block (iblock sb e)) (dip e)) := by
  by_cases hblock : iblock sb e = iblock sb inum
  · rw [hblock, iupdate, logWrite_self]
    refine decode_congr fun x hle hlt => FlatMemory.within_writeWords _ _ ?_
    have hlength : (encode (fs.inode inum)).length = 16 := by simp [encode, ndirect]
    rw [hlength]
    simp only [iblock, dip, show ipb = 8 from rfl] at *
    omega
  · rw [iupdate, logWrite_of_ne hblock]
    exact Inode.Agrees.refl _

end Inodes

structure SameTree (sb : Superblock) (fs fs' : Fs) : Prop where
  block : ∀ b, sb.bmapstart ≤ b → fs'.block b = fs.block b
  addrs : ∀ e < sb.ninodes, ∀ i < ndirect + 2, (fs'.inode e).addrs i = (fs.inode e).addrs i

section SameTree

theorem SameTree.bitSet_eq (h : SameTree sb fs fs') (b : Nat) :
    fs'.bitSet sb b = fs.bitSet sb b := by
  rw [bitSet, bitSet, h.block _ (bmapstart_le_bblock sb b)]

theorem SameTree.free_eq (h : SameTree sb fs fs') : fs'.free sb = fs.free sb :=
  List.filter_congr fun b _ => by rw [h.bitSet_eq]

variable (hlayout : Layout sb)

include hlayout

theorem bmapstart_le_view (h : Tree sb fs A) {s : Slot Nat} (hs : s ∈ slots sb)
    (hne : view fs s ≠ 0) : sb.bmapstart ≤ view fs s := by
  have hrange := h.range s hs hne
  have hmap := hlayout.bitmap _ hrange.2
  have hstart := bmapstart_le_bblock sb (view fs s)
  omega

theorem SameTree.view_eq (h : SameTree sb fs fs') (htree : Tree sb fs A) :
    ∀ s ∈ slots sb, view fs' s = view fs s := by
  refine view_congr (closed_slots sb) (fun e i hs => ?_) fun s j hs hne => ?_
  · rw [h.addrs e hs.1 i hs.2.1]
  · change (FlatMemory.readWord (fs'.block (view fs s)) _).toNat = _
    rw [h.block _ (bmapstart_le_view hlayout htree (closed_slots sb s j hs) hne)]
    rfl

theorem SameTree.mapped (h : SameTree sb fs fs') (hmapped : Mapped sb R k fs) :
    Mapped sb R k fs' := by
  obtain ⟨A, htree, hA⟩ := hmapped
  have hview := h.view_eq hlayout htree
  refine ⟨A, ⟨fun s hs t ht => ?_, fun s hs => ?_, fun s hs => ?_, fun s hs => ?_, fun c hc => ?_⟩,
    hA⟩
  · rw [hview s hs, hview t ht]
    exact htree.exclusive s hs t ht
  · rw [hview s hs]
    exact htree.alloc s hs
  · rw [hview s hs, h.bitSet_eq]
    exact htree.used s hs
  · rw [hview s hs]
    exact htree.range s hs
  · rw [h.bitSet_eq]
    exact htree.reserved c hc

theorem SameTree.byte_eq (h : SameTree sb fs fs') (hmapped : Mapped sb R k fs) (hR : e ∈ R)
    {x : Nat}
    (hmem : dataSlot e (x / bsize) ∈ slots sb) (hx : x / bsize < k e) :
    byte fs' e x = byte fs e x := by
  have hne := hmapped.view_ne hR hmem hx
  obtain ⟨A, htree, hA⟩ := hmapped
  rw [byte, byte, h.view_eq hlayout htree _ hmem,
    h.block _ (bmapstart_le_view hlayout htree hmem hne)]

end SameTree

section Readi

section

variable (h : Wf sb R fs) (hR : inum ∈ R)
include h hR

theorem Wf.view_ne (hbn : bn < blocks (fs.length inum)) :
    dataSlot inum bn ∈ slots sb ∧ view fs (dataSlot inum bn) ≠ 0 := by
  have hsize := h.size inum hR
  have hmem : dataSlot inum bn ∈ slots sb := by
    refine dataSlot_mem (h.regular inum hR).1 ?_
    grind
  exact ⟨hmem, h.mapped.view_ne hR hmem hbn⟩

theorem Wf.bmap_eq (hbn : bn < blocks (fs.length inum)) :
    fs.bmap sb inum bn = some (fs, view fs (dataSlot inum bn)) := by
  refine bmap_mapped ?_ (h.view_ne hR hbn).2
  have hsize := h.size inum hR
  grind

theorem Wf.readLoop_eq (fuel : Nat) : ∀ off n, off + n ≤ fs.length inum → n ≤ fuel →
      readLoop sb inum fuel fs off n =
        some (fs, (List.range n).map fun x => byte fs inum (off + x)) := by
  induction fuel with
  | zero =>
    intro off n _ hfuel
    obtain rfl : n = 0 := by omega
    rfl
  | succ fuel ih =>
    intro off n hle hfuel
    rw [readLoop]
    by_cases hn : n = 0
    · subst hn
      rfl
    rw [if_neg hn]
    generalize hm : min n (bsize - off % bsize) = m
    have hbn : off / bsize < blocks (fs.length inum) := div_lt_blocks (by omega)
    rw [h.bmap_eq hR hbn, Option.bind_some, ih (off + m) (n - m) (by omega) (by grind),
      Option.map_some]
    have hsplit : List.range n = List.range m ++ (List.range (n - m)).map (m + ·) := by
      rw [← List.range_add, show m + (n - m) = n by omega]
    rw [hsplit, List.map_append, List.map_map]
    refine congrArg some (Prod.ext rfl (congrArg₂ _ (List.map_congr_left fun x hx => ?_)
      (List.map_congr_left fun x _ => ?_)))
    · have hlt := List.mem_range.mp hx
      rw [byte, show (off + x) / bsize = off / bsize by grind,
        show (off + x) % bsize = off % bsize + x by grind]
    · rw [Function.comp_apply, Nat.add_assoc]

end

end Readi

def splice (l : List Byte) (off : Nat) (bs : List Byte) : List Byte :=
  l.take off ++ bs ++ l.drop (off + bs.length)

structure Written (sb : Superblock) (R : Set Nat) (inum : Nat) (src : Nat → Byte) (off n : Nat)
    (fs fs' : Fs) :
    Prop where
  wf : Wf sb R fs'
  length : fs'.length inum = max (fs.length inum) (off + n)
  loop : ∃ fs1, Wrote sb R inum (fun e => blocks (fs.length e)) src off n fs fs1 ∧
    SameTree sb fs1 fs' ∧
    fs'.logged = fs1.logged ++ if fs.length inum < off + n then [iblock sb inum] else []
  free : (fs'.free sb).length = (fs.free sb).length - need (blocks (fs.length inum))
    (grown (blocks (fs.length inum)) off n)
  self : contents fs' inum = splice (contents fs inum) off ((List.range n).map src)
  others : ∀ e ∈ R, e ≠ inum → contents fs' e = contents fs e
  kept : ∀ e ∈ R, ∀ bn < blocks (fs.length e), view fs' (dataSlot e bn) = view fs (dataSlot e bn)
  nlink : ∀ e, (fs'.inode e).nlink = (fs.inode e).nlink

section Writei

theorem map_range_splice {f g : Nat → Byte} {size : Nat} (hoff : off ≤ size)
    (hinside : ∀ x, off ≤ x → x < off + n → g x = src (x - off))
    (houtside : ∀ x < size, ¬ (off ≤ x ∧ x < off + n) → g x = f x) :
    (List.range (max size (off + n))).map g =
      splice ((List.range size).map f) off ((List.range n).map src) := by
  rw [splice]
  refine List.ext_getElem ?_ fun x hx hx' => ?_
  · grind
  simp only [List.length_map, List.length_range] at hx
  simp only [List.getElem_append, List.getElem_map, List.getElem_range, List.getElem_take,
    List.getElem_drop, List.length_append, List.length_take, List.length_map, List.length_range]
  split_ifs with hlt hlt'
  · exact houtside x (by omega) (by omega)
  · rw [hinside x (by omega) (by omega)]
    congr 1
    omega
  · rw [houtside x (by omega) (by omega)]
    congr 1
    omega

variable (hlayout : Layout sb) (h : Wf sb R fs) (hR : inum ∈ R)

include hlayout h hR

theorem Wf.written (hoff : off ≤ fs.length inum) (hmax : off + n ≤ maxfile * bsize)
    (hw : Wrote sb R inum (fun e => blocks (fs.length e)) src off n fs fs1)
    (hsame : SameTree sb fs1 fs')
    (hself : ∃ addrs, ∃ size : Word, size.toNat = max (fs.length inum) (off + n) ∧
      fs'.inode inum = { fs.inode inum with size, addrs })
    (hothers : ∀ e, e ≠ inum → fs'.inode e = fs.inode e)
    (hdisk : ∀ e ∈ R, (decode (fs'.block (iblock sb e)) (dip e)).Agrees (fs'.inode e))
    (hlogged : fs'.logged = fs1.logged ++ if fs.length inum < off + n then [iblock sb inum]
    else []) :
    Written sb R inum src off n fs fs' := by
  obtain ⟨addrs, size, hsize, hself⟩ := hself
  have hlen : fs'.length inum = max (fs.length inum) (off + n) := by rw [Fs.length, hself, ← hsize]
  have hlen' : ∀ e, e ≠ inum → fs'.length e = fs.length e := fun e he => by
    rw [Fs.length, hothers e he, Fs.length]
  have hk : update (fun e => blocks (fs.length e)) inum
      (grown (blocks (fs.length inum)) off n) = fun e => blocks (fs'.length e) := by
    funext e
    by_cases he : e = inum
    · grind
    · rw [update_of_ne he, hlen' e he]
  have hmapped := hw.mapped
  rw [hk] at hmapped
  have hwf : Wf sb R fs' := by
    refine ⟨fun e he => ⟨(h.regular e he).1, ?_⟩, hsame.mapped hlayout hmapped, fun e he => ?_,
      hdisk⟩
    · by_cases hne : e = inum
      · rw [hne, hself]
        exact (h.regular inum hR).2
      · rw [hothers e hne]
        exact (h.regular e he).2
    · by_cases hne : e = inum
      · rw [hne, hlen]
        exact max_le (h.size inum hR) hmax
      · rw [hlen' e hne]
        exact h.size e he
  have hbyte : ∀ e ∈ R, ∀ x < fs'.length e, byte fs' e x = byte fs1 e x := by
    intro e he x hx
    have hbn := div_lt_blocks hx
    exact hsame.byte_eq hlayout hmapped he (hwf.view_ne he hbn).1 hbn
  refine ⟨hwf, hlen, ⟨fs1, hw, hsame, hlogged⟩, ?_, ?_, fun e he hne => ?_, fun e he bn hbn => ?_,
    fun e => ?_⟩
  · rw [hsame.free_eq, hw.free, List.length_drop]
  · rw [contents, List.map_congr_left fun x hx => hbyte inum hR x (List.mem_range.mp hx), hlen,
      contents]
    refine map_range_splice hoff hw.inside fun x hx hout => hw.outside x ?_ hout
    grind
  · rw [contents, contents, hlen' e hne]
    refine List.map_congr_left fun x hx => ?_
    have hlt := List.mem_range.mp hx
    have hbn := div_lt_blocks hlt
    obtain ⟨hmem, hview⟩ := h.view_ne he hbn
    rw [hbyte e he x (by rwa [hlen' e hne]), hw.ext.byte_eq hmem hview fun heq => absurd heq hne]
  · obtain ⟨hmem, hview⟩ := h.view_ne he hbn
    obtain ⟨A, htree, -⟩ := hmapped
    rw [hsame.view_eq hlayout htree _ hmem, hw.ext.view_eq _ hmem hview]
  · by_cases hne : e = inum
    · rw [hne, hself]
    · rw [hothers e hne]

omit hlayout in
theorem Wf.addrs_eq (hle : off + n ≤ fs.length inum)
    (hw : Wrote sb R inum (fun e => blocks (fs.length e)) src off n fs fs1) :
    ∀ i < ndirect + 2, (fs1.inode inum).addrs i = (fs.inode inum).addrs i := by
  intro i hi
  have hs : (⟨inum, i, []⟩ : Slot Nat) ∈ slots sb := ⟨(h.regular inum hR).1, hi, by simp, by simp⟩
  have hview : view fs1 ⟨inum, i, []⟩ = view fs ⟨inum, i, []⟩ := by
    by_cases hne : view fs ⟨inum, i, []⟩ = 0
    · have hblocks : grown (blocks (fs.length inum)) off n = blocks (fs.length inum) := by
        grind
      have hmapped := hw.mapped
      rw [hblocks, update_eq_self] at hmapped
      have hiff := (h.mapped.view_ne_iff hR hs).trans (hmapped.view_ne_iff hR hs).symm
      rw [hne]
      by_contra hne'
      exact hiff.mpr hne' hne
    · exact hw.ext.view_eq _ hs hne
  exact BitVec.toNat_eq.mpr hview

theorem Wf.writei_eq (src : Nat → Byte) {off n : Word} (hoff : off.toNat ≤ fs.length inum)
    (hover : off.toNat + n.toNat < 2 ^ 32) (hmax : off.toNat + n.toNat ≤ maxfile * bsize)
    (hfree : need (blocks (fs.length inum)) (grown (blocks (fs.length inum)) off.toNat n.toNat) ≤
      (fs.free sb).length) :
    ∃ fs', fs.writei sb inum src off n = some (fs', n) ∧
      Written sb R inum src off.toNat n.toNat fs fs' := by
  have hadd : (off + n).toNat = off.toNat + n.toNat := by
    rw [BitVec.toNat_add, Nat.mod_eq_of_lt hover]
  have hnover : ¬ off + n < off := by
    rw [BitVec.lt_def, hadd]
    omega
  have hsize := h.size inum hR
  have hinum := (h.regular inum hR).1
  have hk : blocks (fs.length inum) ≤ maxfile := by grind
  have hk' : off.toNat ≤ bsize * blocks (fs.length inum) := by grind
  obtain ⟨fs1, hloop, hw⟩ :=
    writeLoop_spec hlayout hinum hR n.toNat fs _ src off.toNat n.toNat h.mapped hk hk'
    hmax (le_refl _) hfree
  obtain ⟨addrs, haddrs⟩ := hw.ext.self
  have hlen : (fs1.inode inum).size.toNat = fs.length inum := by rw [haddrs, Fs.length]
  have hlow : ∀ e ∈ R, fs1.block (iblock sb e) = fs.block (iblock sb e) := fun e he =>
    hw.ext.low _ (hlayout.inodes e (h.regular e he).1)
  rw [writei, if_neg (by rw [← Fs.length]; exact not_or.mpr ⟨by omega, hnover⟩), if_neg (by omega),
    hloop, Option.map_some]
  by_cases hgrow : off.toNat + n.toNat > fs.length inum
  · -- the inode is written with the new size
    rw [if_pos (by omega)]
    let ip : Inode := { fs1.inode inum with size := off + n }
    have hlow' : ∀ b, sb.bmapstart ≤ b →
      ((fs1.setInode inum ip).iupdate sb inum).block b = fs1.block b := by
      intro b hb
      have hlt := hlayout.inodes inum hinum
      exact logWrite_of_ne (by omega)
    refine ⟨_, rfl, h.written hlayout hR hoff hmax hw ⟨hlow', fun e _ i _ => ?_⟩ ?_
      (fun e hne => ?_) ?_ ?_⟩
    · by_cases hne : e = inum
      · rw [hne]
        exact congrArg (fun ip => ip.addrs i) (update_self inum ip fs1.inode)
      · exact congrArg (fun ip => ip.addrs i) (update_of_ne hne ip fs1.inode)
    · refine ⟨addrs, off + n, ?_, ?_⟩
      · rw [hadd, max_eq_right (by omega)]
      · refine (update_self inum ip fs1.inode).trans ?_
        simp only [ip, haddrs]
    · exact (update_of_ne hne ip fs1.inode).trans (hw.ext.others e hne)
    · intro e he
      by_cases hne : e = inum
      · subst hne
        exact disk_iupdate_self _ _
      · refine (disk_iupdate_of_ne _ hne).trans ?_
        rw [show ((fs1.setInode inum ip).iupdate sb inum).inode e =
          fs1.inode e from update_of_ne hne _ _,
          hw.ext.others e hne, show (fs1.setInode inum ip).block = fs1.block from rfl, hlow e he]
        exact h.disk e he
    · rw [if_pos hgrow]
      rfl
  · rw [if_neg (by omega)]
    refine ⟨fs1, rfl, h.written hlayout hR hoff hmax hw
      ⟨fun _ _ => rfl, fun _ _ _ _ => rfl⟩ ?_ hw.ext.others ?_ ?_⟩
    · refine ⟨addrs, (fs.inode inum).size, ?_, haddrs⟩
      rw [max_eq_left (by omega), Fs.length]
    · intro e he
      rw [hlow e he]
      by_cases hne : e = inum
      · subst hne
        have hdisk := h.disk e he
        rw [haddrs]
        refine { hdisk with addrs := fun i hi => ?_ }
        rw [hdisk.addrs i hi, ← h.addrs_eq hR (by omega) hw i hi, haddrs]
      · rw [hw.ext.others e hne]
        exact h.disk e he
    · rw [if_neg hgrow, List.append_nil]

end Writei

end Mit6828.Xv6
