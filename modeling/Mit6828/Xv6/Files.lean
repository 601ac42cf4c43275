import Mit6828.Xv6.FileContents

namespace Mit6828.Xv6

open Library Library.BlockTree Xv6.Fs FsTree Function

/-- The calls on the files of one disk; `reload` is `ilock` after the inode has left the cache. -/
inductive Call where
  | write (inum : Nat) (src : Nat → Byte) (off n : Word)
  | read (inum : Nat) (off n : Word)
  | reload (inum : Nat)

inductive Result where
  | wrote (r : Word)
  | bytes (r : Option (List Byte))
  | reloaded

def Call.target : Call → Nat
  | write inum _ _ _ => inum
  | read inum _ _ => inum
  | reload inum => inum

def Fs.call (sb : Superblock) (fs : Fs) : Call → Option (Fs × Result)
  | .write inum src off n => (fs.writei sb inum src off n).map fun out => (out.1, .wrote out.2)
  | .read inum off n => (fs.readi sb inum off n).map fun out => (out.1, .bytes out.2)
  | .reload inum => some (fs.ilock sb inum, .reloaded)

def Fs.run (sb : Superblock) (fs : Fs) : List Call → Option (Fs × List Result)
  | [] => some (fs, [])
  | c :: cs => (fs.call sb c).bind fun out => (run sb out.1 cs).map
      fun rest => (rest.1, out.2 :: rest.2)

/-- What the disk is to its users: byte arrays, and some free blocks. -/
structure Files where
  data : Nat → List Byte
  avail : Nat

def Files.call (f : Files) : Call → Option (Files × Result)
  | .write inum src off n =>
    let size := (f.data inum).length
    if off.toNat > size ∨ 2 ^ 32 ≤ off.toNat + n.toNat ∨ maxfile * bsize < off.toNat + n.toNat then
      some (f, .wrote (-1))
    else
      let taken := need (blocks size) (grown (blocks size) off.toNat n.toNat)
      if taken ≤ f.avail then
        let bs := splice (f.data inum) off.toNat ((List.range n.toNat).map src)
        some (⟨update f.data inum bs, f.avail - taken⟩, .wrote n)
      else none
  | .read inum off n =>
    if off.toNat > (f.data inum).length ∨ 2 ^ 32 ≤ off.toNat + n.toNat then some (f, .bytes none)
    else some (f, .bytes (((f.data inum).drop off.toNat).take n.toNat))
  | .reload _ => some (f, .reloaded)

def Files.run (f : Files) : List Call → Option (Files × List Result)
  | [] => some (f, [])
  | c :: cs => (f.call c).bind fun out => (run out.1 cs).map fun rest => (rest.1, out.2 :: rest.2)

def files (sb : Superblock) (fs : Fs) : Files := ⟨contents fs, (fs.free sb).length⟩

structure Shows (sb : Superblock) (R : Set Nat) (fs : Fs) (f : Files) : Prop where
  data : ∀ e ∈ R, contents fs e = f.data e
  avail : (fs.free sb).length = f.avail

def Kept (R : Set Nat) (fs fs' : Fs) : Prop :=
  ∀ e ∈ R, fs.length e ≤ fs'.length e ∧
    ∀ bn < blocks (fs.length e), view fs' (dataSlot e bn) = view fs (dataSlot e bn)

section Simulation

variable {sb : Superblock} {R : Set Nat} {fs fs' fs1 : Fs} {inum : Nat} {src : Nat → Byte}

variable {f f' : Files} {r : Result} {c : Call} {off n : Word}

theorem add_lt_iff : off + n < off ↔ 2 ^ 32 ≤ off.toNat + n.toNat := by
  rw [BitVec.lt_def, BitVec.toNat_add]
  have := off.isLt
  have := n.isLt
  omega

theorem length_contents (fs : Fs) (inum : Nat) : (contents fs inum).length = fs.length inum := by
  rw [contents, List.length_map, List.length_range]

theorem Kept.refl (R : Set Nat) (fs : Fs) : Kept R fs fs := fun _ _ => ⟨le_refl _, fun _ _ => rfl⟩

theorem Kept.trans (h : Kept R fs fs1) (h' : Kept R fs1 fs') : Kept R fs fs' := by
  intro e he
  obtain ⟨hle, hview⟩ := h e he
  obtain ⟨hle', hview'⟩ := h' e he
  refine ⟨hle.trans hle', fun bn hbn => ?_⟩
  have hmono : blocks (fs.length e) ≤ blocks (fs1.length e) := by grind
  rw [hview' bn (by omega), hview bn hbn]

theorem writei_eq_neg_one (h : off.toNat > fs.length inum ∨ 2 ^ 32 ≤ off.toNat + n.toNat ∨
    maxfile * bsize < off.toNat + n.toNat) : fs.writei sb inum src off n = some (fs, -1) := by
  simp only [writei, add_lt_iff]
  by_cases hfirst : off.toNat > fs.length inum ∨ 2 ^ 32 ≤ off.toNat + n.toNat
  · exact if_pos hfirst
  · grind

theorem Written.kept_all {off n : Nat} (h : Written sb R inum src off n fs fs') :
    Kept R fs fs' := by
  refine fun e he => ⟨?_, h.kept e he⟩
  by_cases hne : e = inum
  · subst hne
    rw [h.length]
    exact le_max_left _ _
  · rw [← length_contents fs' e, h.others e he hne, length_contents]

theorem map_range_slice (g : Nat → Byte) (size off n : Nat) :
    (((List.range size).map g).drop off).take n =
    (List.range (min n (size - off))).map fun x => g (off + x) := by
  refine List.ext_getElem ?_ fun x _ _ => ?_
  · simp
  · simp

section Calls

variable (h : Wf sb R fs) (hR : inum ∈ R) (hf : Shows sb R fs f)

include h hR hf

theorem Wf.write_shows (hlayout : Layout sb)
    (hcall : f.call (.write inum src off n) = some (f', r)) :
    ∃ fs', fs.call sb (.write inum src off n) = some (fs', r) ∧ Wf sb R fs' ∧ Shows sb R fs' f' ∧
      Kept R fs fs' := by
  have hlen : (f.data inum).length = fs.length inum := by rw [← hf.data inum hR, length_contents]
  simp only [Files.call, hlen] at hcall
  split at hcall
  · rename_i hbad
    cases hcall
    exact ⟨fs, by rw [Fs.call, writei_eq_neg_one hbad, Option.map_some], h, hf, Kept.refl R fs⟩
  rename_i hgood
  simp only [not_or, not_lt, not_le] at hgood
  obtain ⟨hoff, hover, hmax⟩ := hgood
  obtain ⟨hfree, hsome⟩ := Option.ite_none_right_eq_some.mp hcall
  cases hsome
  rw [← hf.avail] at hfree
  obtain ⟨fs', hwrite, hwritten⟩ := h.writei_eq hlayout hR src hoff hover hmax hfree
  refine ⟨fs', by rw [Fs.call, hwrite, Option.map_some], hwritten.wf, ⟨fun e he => ?_, ?_⟩,
    hwritten.kept_all⟩
  · dsimp only
    by_cases hne : e = inum
    · rw [hne, update_self, hwritten.self, hf.data inum hR]
    · rw [update_of_ne hne, hwritten.others e he hne, hf.data e he]
  · rw [hwritten.free, hf.avail]

theorem Wf.read_shows (hcall : f.call (.read inum off n) = some (f', r)) :
    f' = f ∧ fs.call sb (.read inum off n) = some (fs, r) := by
  have hlen : (f.data inum).length = fs.length inum := by rw [← hf.data inum hR, length_contents]
  simp only [Files.call, hlen] at hcall
  rw [Fs.call, readi]
  split at hcall
  · rename_i hbad
    cases hcall
    have hbad' : off.toNat > (fs.inode inum).size.toNat ∨ off + n < off :=
      hbad.imp id add_lt_iff.mpr
    rw [if_pos hbad']
    exact ⟨rfl, rfl⟩
  rename_i hgood
  cases hcall
  rw [if_neg fun hor => hgood (hor.imp id add_lt_iff.mp)]
  simp only [not_or, not_lt, not_le] at hgood
  obtain ⟨hoff, hover⟩ := hgood
  have hn : (if (off + n).toNat > (fs.inode inum).size.toNat then
    (fs.inode inum).size.toNat - off.toNat
      else n.toNat) = min n.toNat (fs.length inum - off.toNat) := by
    rw [toNat_size, BitVec.toNat_add, Nat.mod_eq_of_lt hover]
    split <;> omega
  dsimp only
  rw [hn, h.readLoop_eq hR _ _ _ (by omega) (le_refl _)]
  refine ⟨rfl, ?_⟩
  rw [Option.map_some, Option.map_some, ← hf.data inum hR, contents, map_range_slice]

theorem Wf.reload_shows (hlayout : Layout sb) :
    Wf sb R (fs.ilock sb inum) ∧ Shows sb R (fs.ilock sb inum) f ∧
      Kept R fs (fs.ilock sb inum) := by
  have hagrees : ∀ e ∈ R, ((fs.ilock sb inum).inode e).Agrees (fs.inode e) := by
    intro e he
    by_cases hne : e = inum
    · subst hne
      rw [show (fs.ilock sb e).inode e = _ from update_self _ _ _]
      exact h.disk e he
    · rw [show (fs.ilock sb inum).inode e = _ from update_of_ne hne _ _]
      exact Inode.Agrees.refl _
  have hlen : ∀ e ∈ R, (fs.ilock sb inum).length e = fs.length e := fun e he => by
    rw [Fs.length, (hagrees e he).size, Fs.length]
  have hsame : SameTree sb fs (fs.ilock sb inum) := by
    refine ⟨fun _ _ => rfl, fun e _ i hi => ?_⟩
    by_cases hne : e = inum
    · subst hne
      exact (hagrees e hR).addrs i hi
    · rw [show (fs.ilock sb inum).inode e = _ from update_of_ne hne _ _]
  have hmapped : Mapped sb R (fun e => blocks (fs.length e)) (fs.ilock sb inum) :=
    hsame.mapped hlayout h.mapped
  obtain ⟨A, htree, -⟩ := h.mapped
  refine ⟨⟨fun e he => ?_, ?_, fun e he => ?_, fun e he => ?_⟩, ⟨fun e he => ?_, ?_⟩,
    fun e he => ?_⟩
  · rw [(hagrees e he).type]
    exact h.regular e he
  · obtain ⟨A, htree, hA⟩ := hmapped
    refine ⟨A, htree, fun s hs hsR => ?_⟩
    rw [hA s hs hsR]
    dsimp only
    rw [hlen _ hsR]
  · rw [hlen e he]
    exact h.size e he
  · by_cases hne : e = inum
    · subst hne
      rw [show (fs.ilock sb e).inode e = _ from update_self _ _ _]
      exact Inode.Agrees.refl _
    · rw [show (fs.ilock sb inum).inode e = _ from update_of_ne hne _ _]
      exact h.disk e he
  · rw [← hf.data e he, contents, contents, hlen e he]
    refine List.map_congr_left fun x hx => ?_
    have hbn := div_lt_blocks (List.mem_range.mp hx)
    exact hsame.byte_eq hlayout h.mapped he (h.view_ne he hbn).1 hbn
  · rw [hsame.free_eq, hf.avail]
  · refine ⟨(hlen e he).ge, fun bn hbn => ?_⟩
    exact hsame.view_eq hlayout htree _ (h.view_ne he hbn).1

end Calls

theorem Wf.call_shows (hlayout : Layout sb) (h : Wf sb R fs) (hf : Shows sb R fs f)
    (hc : c.target ∈ R) (hcall : f.call c = some (f', r)) :
    ∃ fs', fs.call sb c = some (fs', r) ∧ Wf sb R fs' ∧ Shows sb R fs' f' ∧ Kept R fs fs' := by
  cases c with
  | write inum src off n => exact h.write_shows hc hf hlayout hcall
  | read inum off n =>
    obtain ⟨rfl, hread⟩ := h.read_shows hc hf hcall
    exact ⟨fs, hread, h, hf, Kept.refl R fs⟩
  | reload inum =>
    cases hcall
    exact ⟨_, rfl, h.reload_shows hc hf hlayout⟩

theorem Wf.run_shows (hlayout : Layout sb) (calls : List Call) :
    ∀ {fs : Fs} {f f' : Files} {rs : List Result},
    Wf sb R fs → Shows sb R fs f → (∀ c ∈ calls, c.target ∈ R) → f.run calls = some (f', rs) →
      ∃ fs', fs.run sb calls = some (fs', rs) ∧ Wf sb R fs' ∧ Shows sb R fs' f' ∧
        Kept R fs fs' := by
  induction calls with
  | nil =>
    intro fs f f' rs h hf _ hrun
    cases hrun
    exact ⟨fs, rfl, h, hf, Kept.refl R fs⟩
  | cons c calls ih =>
    intro fs f f' rs h hf hcalls hrun
    obtain ⟨⟨f1, r⟩, hcall, hrest⟩ := Option.bind_eq_some_iff.mp hrun
    obtain ⟨⟨f2, rs'⟩, hrun', hout⟩ := Option.map_eq_some_iff.mp hrest
    cases hout
    obtain ⟨fs1, hcall', h1, hf1, hkept⟩ :=
      h.call_shows hlayout hf (hcalls c List.mem_cons_self) hcall
    obtain ⟨fs', hrest', h', hf', hkept'⟩ :=
      ih h1 hf1 (fun c hc => hcalls c (List.mem_cons_of_mem _ hc)) hrun'
    refine ⟨fs', ?_, h', hf', hkept.trans hkept'⟩
    rw [Fs.run, hcall', Option.bind_some, hrest', Option.map_some]

/-- Every sequence of `writei` and `readi` that the free blocks are enough for gives the results of
independent byte arrays, and the blocks of the files are all different and stay. -/
theorem files_are_arrays (hlayout : Layout sb) (h : Wf sb R fs) (calls : List Call)
    (hcalls : ∀ c ∈ calls, c.target ∈ R) {f : Files} {rs : List Result}
    (hrun : (files sb fs).run calls = some (f, rs)) :
    ∃ fs', fs.run sb calls = some (fs', rs) ∧ Wf sb R fs' ∧ (fs'.free sb).length = f.avail ∧
      (∀ e ∈ R, contents fs' e = f.data e ∧ (contents fs' e).length ≤ maxfile * bsize) ∧
      (∀ e ∈ R, ∀ bn < blocks (fs.length e), ∃ b, fs.bmap sb e bn = some (fs, b) ∧
        fs'.bmap sb e bn = some (fs', b)) ∧
      ∀ e ∈ R, ∀ e' ∈ R, ∀ bn < blocks (fs'.length e), ∀ bn' < blocks (fs'.length e'), ∀ b,
        fs'.bmap sb e bn = some (fs', b) → fs'.bmap sb e' bn' = some (fs', b) →
        e = e' ∧ bn = bn' := by
  obtain ⟨fs', hrun', h', hf, hkept⟩ := h.run_shows hlayout calls ⟨fun _ _ => rfl, rfl⟩ hcalls hrun
  refine ⟨fs', hrun', h', hf.avail, fun e he => ⟨hf.data e he, ?_⟩, fun e he bn hbn => ?_, ?_⟩
  · rw [length_contents]
    exact h'.size e he
  · obtain ⟨hle, hview⟩ := hkept e he
    have hbn' : bn < blocks (fs'.length e) := by grind
    refine ⟨_, h.bmap_eq he hbn, ?_⟩
    rw [h'.bmap_eq he hbn', hview bn hbn]
  · intro e he e' he' bn hbn bn' hbn' b hb hb'
    rw [h'.bmap_eq he hbn] at hb
    rw [h'.bmap_eq he' hbn', ← hb] at hb'
    obtain ⟨hmem, hne⟩ := h'.view_ne he hbn
    obtain ⟨A, htree, -⟩ := h'.mapped
    have heq : view fs' (dataSlot e bn) = view fs' (dataSlot e' bn') :=
      (Prod.mk.inj (Option.some.inj hb')).2.symm
    exact dataSlot_inj (htree.exclusive _ hmem _ (h'.view_ne he' hbn').1 heq hne)

end Simulation

def emptyFile (nlink : BitVec 16) : Inode := ⟨tFile, 0, 0, nlink, 0, fun _ => 0⟩

def bitmapByte (used : Nat → Bool) (base a : Nat) : Byte :=
  (BitVec.ofBoolListLE ((List.range 8).map fun i => used (base + 8 * a + i))).setWidth 8

/-- A disk of empty regular files, with any set of blocks in use. -/
def freshDisk (sb : Superblock) (nlink : BitVec 16) (used : Nat → Bool) : Fs where
  block b a :=
    if b < sb.bmapstart then ByteMemory.byte ((encode (emptyFile nlink)).getD (a % 64 / 4) 0)
      (a % 4)
    else bitmapByte used (bpb * (b - sb.bmapstart)) a
  logged := []
  inode _ := emptyFile nlink

variable {sb : Superblock} {nlink : BitVec 16} {used : Nat → Bool}

theorem bitSet_freshDisk (b : Nat) : (freshDisk sb nlink used).bitSet sb b = used b := by
  have hge : ¬ bblock sb b < sb.bmapstart := not_lt.mpr (bmapstart_le_bblock sb b)
  have hlt : b % 8 < 8 := Nat.mod_lt _ (by decide)
  rw [bitSet, freshDisk]
  dsimp only
  rw [if_neg hge, bitmapByte, BitVec.getLsbD_setWidth, decide_eq_true hlt, Bool.true_and,
    BitVec.getLsbD_ofBoolListLE, List.getD_eq_getElem?_getD, List.getElem?_map,
    List.getElem?_range hlt]
  refine congrArg used ?_
  rw [bblock, Nat.add_sub_cancel, show bpb = 4096 from rfl]
  omega

theorem free_freshDisk :
    (freshDisk sb nlink used).free sb = (List.range sb.size).filter fun b => !used b :=
  List.filter_congr fun b _ => by rw [bitSet_freshDisk]

theorem view_freshDisk (s : Slot Nat) : view (freshDisk sb nlink used) s = 0 := by
  obtain ⟨e, r, js⟩ := s
  induction js with
  | nil => rfl
  | cons j js ih => exact (view_child _ ⟨e, r, js⟩ j).trans (if_pos ih)

theorem wf_freshDisk (hlayout : Layout sb) (hused : ∀ b < sb.data, used b = true) :
    Wf sb { e | e < sb.ninodes } (freshDisk sb nlink used) := by
  refine ⟨fun e he => ⟨he, rfl⟩, ⟨∅, ⟨?_, ?_, ?_, ?_, ?_⟩, ?_⟩, fun _ _ => Nat.zero_le _,
    fun e he => ?_⟩
  · intro s _ t _ _ hne
    exact absurd (view_freshDisk s) hne
  · intro s _
    simp [view_freshDisk]
  · intro s _ hne
    exact absurd (view_freshDisk s) hne
  · intro s _ hne
    exact absurd (view_freshDisk s) hne
  · intro b hb
    rw [bitSet_freshDisk, hused b hb]
  · intro s _ _
    simp [blocks, bsize, Fs.length, freshDisk, emptyFile]
  · refine (decode_congr fun x hle hlt => ?_).trans
      (decode_encode (fun _ => 0) (dip e) (emptyFile nlink))
    have hlength : (encode (emptyFile nlink)).length = 16 := rfl
    have hlow := hlayout.inodes e he
    rw [dip, show ipb = 8 from rfl] at *
    rw [freshDisk, FlatMemory.writeWords, hlength, if_pos (by omega)]
    dsimp only
    rw [if_pos hlow, show (x - 64 * (e % 8)) / 4 = x % 64 / 4 by omega,
      show (x - 64 * (e % 8)) % 4 = x % 4 by omega]

def smallDisk : Superblock := ⟨32, 8, 2, 3, 8⟩

theorem layout_smallDisk : Layout smallDisk := ⟨by decide, by decide, by decide, by decide⟩

def smallFs : Fs := freshDisk smallDisk 1 fun b => b < 8

theorem wf_smallFs : Wf smallDisk { e | e < 8 } smallFs := wf_freshDisk layout_smallDisk (by decide)

theorem Files.call_write_nil {f : Files} (inum : Nat) (b : Byte) (n : Word)
    (hdata : f.data inum = [])
    (hmax : n.toNat ≤ maxfile * bsize) (hneed : need 0 (grown 0 0 n.toNat) ≤ f.avail) :
    ∃ avail, f.call (.write inum (fun _ => b) 0 n) =
      some (⟨update f.data inum (List.replicate n.toNat b), avail⟩, .wrote n) := by
  have hlt : ¬ 4294967296 ≤ n.toNat := not_le.mpr n.isLt
  refine ⟨f.avail - need 0 (grown 0 0 n.toNat), ?_⟩
  simp [Files.call, hdata, splice, not_lt.mpr hmax, hlt, show blocks 0 = 0 from rfl, hneed]

/-- The last byte is behind the indirect block. -/
theorem files_are_arrays_smallDisk : ∃ fs', smallFs.run smallDisk
    [.write 1 (fun _ => 7) 0 5633, .read 1 5631 9] =
      some (fs', [.wrote 5633, .bytes (some [7, 7])]) ∧ contents fs' 1 = List.replicate 5633 7 := by
  obtain ⟨avail, hwrite⟩ := Files.call_write_nil (f := files smallDisk smallFs) 1 7 5633
    rfl (by decide) (by
      rw [files, smallFs, free_freshDisk]
      decide +kernel)
  obtain ⟨fs', hrun, -, -, hdata, -⟩ := files_are_arrays layout_smallDisk wf_smallFs
    [.write 1 (fun _ => 7) 0 5633, .read 1 5631 9] (by simp [Call.target]) (by
      rw [Files.run, hwrite]
      simp only [Option.bind_some, Files.run, Files.call, update_self, List.length_replicate]
      rw [if_neg (by decide), List.drop_replicate, List.take_replicate]
      rfl : _ = some (_, [.wrote 5633, .bytes (some [7, 7])]))
  exact ⟨fs', hrun, (hdata 1 (by decide)).1⟩

end Mit6828.Xv6
