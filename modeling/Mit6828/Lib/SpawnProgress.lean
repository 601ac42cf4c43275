import Mit6828.Lib.SpawnMaps

namespace Mit6828.Lib.Spawn

open Kern.Mmu Kern.Syscall
open Mit6828.Lib.Fork (pteShare utext pftemp puw puw_ok vaOf)
open Mit6828.Lib.ForkSteps (pgnum_vaOf vaOf_not_badVa)
open Library.ByteMemory Function

def enough : Nat → Bool := fun _ => true

section Calls

variable {va srcva dstva perm : Word} {pte : Pte}

theorem sysPageAlloc_enough (who : Who) (w : World) (hva : ¬ badVa va) (hperm : ¬ badPerm perm) :
    ∃ w', sysPageAlloc enough who va perm w = (0, w') :=
  ⟨_, pageCall_succeeds (by simpa using hva) hperm⟩

theorem sysPageMap_enough {src : Who} (dst : Who) {w : World} (hsrc : ¬ badVa srcva)
    (hdst : ¬ badVa dstva) (hperm : ¬ badPerm perm) (hpte : w.space src (pgnum srcva) = some pte) :
    ∃ w', sysPageMap enough src srcva dst dstva perm w = (0, w') := by
  rw [sysPageMap, hpte]
  exact ⟨_, pageCall_succeeds (by simp [hsrc, hdst]) hperm⟩

end Calls

section Stack

variable {P : Space} {n : Nat} {entry : Word} {image : Image} {tmp : Nat → Byte} {pte : Pte}
  {w : World} {argv : List (List Byte)}

def argBytes : List (List Byte) → Nat
  | [] => 0
  | arg :: argv => arg.length + 1 + argBytes argv

def ArgsFit (argv : List (List Byte)) : Prop := argBytes argv + 4 * argv.length + 15 ≤ 4096

theorem toNat_stringSize (h : argBytes argv < 2 ^ 32) :
    (stringSize argv).toNat = argBytes argv := by
  have hfold : ∀ (argv : List (List Byte)) (n : Word), n.toNat + argBytes argv < 2 ^ 32 →
      (argv.foldl (fun n arg => n + BitVec.ofNat 32 arg.length + 1) n).toNat =
        n.toNat + argBytes argv := by
    intro argv
    induction argv with
    | nil => exact fun n _ => rfl
    | cons arg argv ih =>
      intro n hn
      rw [argBytes] at hn ⊢
      have hstep : (n + BitVec.ofNat 32 arg.length + 1).toNat = n.toNat + arg.length + 1 := by
        rw [BitVec.toNat_add, BitVec.toNat_add, BitVec.toNat_ofNat]
        change ((n.toNat + arg.length % 4294967296) % 4294967296 + 1) % 4294967296 = _
        omega
      rw [List.foldl_cons, ih _ (by omega), hstep]
      omega
  have hzero := hfold argv 0 (by change 0 + _ < _; omega)
  rw [stringSize, hzero]
  exact Nat.zero_add _

theorem argvStore_spec (h : ArgsFit argv) : (stringStore argv).toNat = 4198400 - argBytes argv ∧
      (argvStore argv).toNat = (4198400 - argBytes argv) / 4 * 4 - 4 * (argv.length + 1) := by
  rw [ArgsFit] at h
  have hstring : (stringStore argv).toNat = 4198400 - argBytes argv := by
    rw [stringStore, BitVec.toNat_sub, toNat_stringSize (by omega)]
    change (4294967296 - argBytes argv + 4198400) % 4294967296 = _
    omega
  refine ⟨hstring, ?_⟩
  have hround : (rounddown4 (stringStore argv)).toNat = (4198400 - argBytes argv) / 4 * 4 := by
    rw [rounddown4, BitVec.toNat_sub, BitVec.toNat_umod, hstring]
    change (4294967296 - (4198400 - argBytes argv) % 4 + _) % 4294967296 = _
    omega
  have hfour : ((4 : Word) * (BitVec.ofNat 32 argv.length + 1)).toNat = 4 * (argv.length + 1) := by
    rw [BitVec.toNat_mul, BitVec.toNat_add, BitVec.toNat_ofNat]
    change 4 * ((argv.length % 4294967296 + 1) % 4294967296) % 4294967296 = _
    omega
  rw [argvStore, BitVec.toNat_sub, hround, hfour]
  omega

theorem Busy.store_in {a : Word} (h : Busy P n entry image tmp pte w) (bs : List Byte)
    (hlo : 4194304 ≤ a.toNat) (hhi : a.toNat + bs.length ≤ 4198400) :
    ∃ w' tmp', w.store .parent a.toNat bs = some w' ∧ Busy P n entry image tmp' pte w' ∧
      ∀ q < n, w'.phys q = w.phys q := by
  obtain ⟨w', hstore, hbusy, hkept⟩ := h.store_page (x := a.toNat) bs
    (by rwa [show pgnum utemp = 1024 by decide]) (by rwa [show pgnum utemp = 1024 by decide])
  exact ⟨w', _, hstore, hbusy, hkept⟩

theorem Busy.copyArgs_in {store string : Word} (h : Busy P n entry image tmp pte w)
    (hstore : 4194304 ≤ store.toNat) (hstore' : store.toNat + 4 * argv.length ≤ 4198400)
    (hstring : 4194304 ≤ string.toNat) (hstring' : string.toNat + argBytes argv ≤ 4198400) :
    ∃ w' tmp', Spawn.copyArgs argv store string w = some w' ∧ Busy P n entry image tmp' pte w' ∧
      ∀ q < n, w'.phys q = w.phys q := by
  induction argv generalizing store string w tmp with
  | nil => exact ⟨w, tmp, rfl, h, fun _ _ => rfl⟩
  | cons arg argv ih =>
    rw [argBytes] at hstring'
    rw [List.length_cons] at hstore'
    obtain ⟨w1, tmp1, hfirst, h1, hkept1⟩ := h.store_in (bytes (utemp2ustack string)) hstore
      (by rw [length_bytes]; omega)
    obtain ⟨w2, tmp2, hsecond, h2, hkept2⟩ := h1.store_in (arg ++ [0]) hstring
      (by grind)
    have hnext : (store + 4).toNat = store.toNat + 4 := by
      rw [BitVec.toNat_add]
      change (store.toNat + 4) % 4294967296 = _
      omega
    have hnext' : (string + BitVec.ofNat 32 arg.length + 1).toNat =
      string.toNat + arg.length + 1 := by
      rw [BitVec.toNat_add, BitVec.toNat_add, BitVec.toNat_ofNat]
      change ((string.toNat + arg.length % 4294967296) % 4294967296 + 1) % 4294967296 = _
      omega
    obtain ⟨w3, tmp3, hrest, h3, hkept3⟩ := ih h2
      (show 4194304 ≤ (store + 4).toNat by omega) (by omega)
      (show 4194304 ≤ (string + BitVec.ofNat 32 arg.length + 1).toNat by omega) (by omega)
    refine ⟨w3, tmp3, ?_, h3, fun q hq => ?_⟩
    · simp only [Spawn.copyArgs, hfirst, hsecond, Option.bind_eq_bind, Option.bind_some, hrest]
    · rw [hkept3 q hq, hkept2 q hq, hkept1 q hq]

theorem Base.initStack_enough (h : Base P n entry image w) (hfit : ArgsFit argv) :
    ∃ w' stack, Spawn.initStack enough argv w = some (0, w') ∧
      Clear P n entry (update image (pgnum (ustacktop - pgsize)) (some stack)) w' ∧
      ∀ q < n, w'.phys q = w.phys q := by
  obtain ⟨hstring, hstore⟩ := argvStore_spec hfit
  rw [ArgsFit] at hfit
  have hless : ∀ k : Word, k.toNat ≤ 8 →
      (argvStore argv - k).toNat = (argvStore argv).toNat - k.toNat := by
    intro k hk
    rw [BitVec.toNat_sub]
    omega
  have height := hless 8 (by decide)
  have hfour := hless 4 (by decide)
  change _ = (argvStore argv).toNat - 8 at height
  change _ = (argvStore argv).toNat - 4 at hfour
  have hnull : (argvStore argv + 4 * BitVec.ofNat 32 argv.length).toNat =
      (argvStore argv).toNat + 4 * argv.length := by
    rw [BitVec.toNat_add, BitVec.toNat_mul, BitVec.toNat_ofNat]
    change ((argvStore argv).toNat + 4 * (argv.length % 4294967296) % 4294967296) % 4294967296 = _
    omega
  have hroom : ¬ argvStore argv - 8 < utemp := by
    rw [BitVec.lt_def, height, show utemp.toNat = 4194304 from rfl]
    omega
  obtain ⟨w1, halloc⟩ :=
    sysPageAlloc_enough .parent w (show ¬ badVa utemp by decide) puw_ok
  obtain ⟨hkept1, pte, hbusy1⟩ := h.alloc_temp halloc (by decide)
  obtain ⟨w2, _, hargs, hbusy2, hkept2⟩ := hbusy1.copyArgs_in
    (show 4194304 ≤ (argvStore argv).toNat by omega)
    (show (argvStore argv).toNat + 4 * argv.length ≤ 4198400 by omega)
    (show 4194304 ≤ (stringStore argv).toNat by omega) (by omega)
  obtain ⟨w3, _, hstore3, hbusy3, hkept3⟩ := hbusy2.store_in (bytes 0)
    (a := argvStore argv + 4 * BitVec.ofNat 32 argv.length) (by omega)
    (by rw [length_bytes]; omega)
  obtain ⟨w4, _, hstore4, hbusy4, hkept4⟩ := hbusy3.store_in
    (bytes (utemp2ustack (argvStore argv))) (a := argvStore argv - 4) (by omega)
    (by rw [length_bytes]; omega)
  obtain ⟨w5, stack, hstore5, hbusy5, hkept5⟩ := hbusy4.store_in
    (bytes (BitVec.ofNat 32 argv.length)) (a := argvStore argv - 8) (by omega)
    (by rw [length_bytes]; omega)
  have hbusy6 := hbusy5.setEsp (utemp2ustack (argvStore argv - 8))
  have hspace : World.space { w5 with esp := utemp2ustack (argvStore argv - 8) } .parent
      (pgnum utemp) = some pte := hbusy6.busy
  obtain ⟨w7, hmap⟩ := sysPageMap_enough .child (by decide)
    (show ¬ badVa (ustacktop - pgsize) by decide) puw_ok hspace
  obtain ⟨-, w8, hunmap, hphys, hclear⟩ := hbusy6.map_temp hmap (by decide)
  refine ⟨w8, stack, ?_, hclear, fun q hq => ?_⟩
  · rw [Spawn.initStack, if_neg hroom, halloc]
    dsimp only
    rw [if_neg (by decide), hargs]
    simp only [Option.bind_eq_bind, Option.bind_some, hstore3, hstore4, hstore5, hmap]
    rw [if_neg (by decide), hunmap]
  · rw [hphys]
    change w5.phys q = w.phys q
    rw [hkept5 q hq, hkept4 q hq, hkept3 q hq, hkept2 q hq, hkept1 q hq]

end Stack

section Segments

variable {P : Space} {n : Nat} {entry : Word} {image : Image} {w : World} {file : File}
  {va filesz fileoffset perm : Word} {left j : Nat}

theorem Clear.mapPages_enough (h : Clear P n entry image w) (hperm : ¬ badPerm perm)
    (hva : ∀ i, j ≤ i → i < j + left → ¬ badVa (va + vaOf i))
    (hread : ∀ i, j ≤ i → i < j + left → vaOf i < filesz →
      (file.read (fileoffset + vaOf i) (minWord pgsize (filesz - vaOf i))).isSome) :
    ∃ w', Spawn.mapPages enough file va filesz fileoffset perm left (vaOf j) w = some (0, w') := by
  induction left generalizing j w image with
  | zero => exact ⟨w, rfl⟩
  | succ left ih =>
    have hva0 := hva j le_rfl (by omega)
    have hrest : ∀ {image' : Image} {w1 : World}, Clear P n entry image' w1 → ∃ w',
        Spawn.mapPages enough file va filesz fileoffset perm left (vaOf (j + 1)) w1 =
        some (0, w') :=
      fun hclear => ih hclear (fun i hlo hhi => hva i (by omega) (by omega))
        fun i hlo hhi => hread i (by omega) (by omega)
    rw [Spawn.mapPages, vaOf_succ]
    by_cases hge : vaOf j ≥ filesz
    · obtain ⟨w1, halloc⟩ := sysPageAlloc_enough .child w hva0 hperm
      rw [if_pos hge, halloc]
      dsimp only
      rw [if_neg (by decide)]
      exact hrest (h.alloc_child halloc (by decide)).2.2
    obtain ⟨w1, halloc⟩ :=
      sysPageAlloc_enough .parent w (show ¬ badVa utemp by decide) puw_ok
    obtain ⟨-, pte, hbusy⟩ := h.toBase.alloc_temp halloc (by decide)
    obtain ⟨data, hdata⟩ := Option.isSome_iff_exists.mp
      (hread j le_rfl (by omega) (BitVec.not_le.mp hge))
    have hlen := (file.le hdata).trans (toNat_minWord_le _)
    obtain ⟨w2, hstore, hbusy2, -⟩ := hbusy.store_page (x := utemp.toNat) data
      (by decide) (by change 4194304 + _ ≤ 4194304 + 4096; omega)
    have hspace : w2.space .parent (pgnum utemp) = some pte := hbusy2.busy
    obtain ⟨w3, hmap⟩ := sysPageMap_enough .child (by decide) hva0 hperm hspace
    obtain ⟨-, w4, hunmap, -, hclear⟩ := hbusy2.map_temp hmap (by decide)
    rw [if_neg hge, halloc]
    dsimp only
    rw [if_neg (by decide), hdata]
    simp only [Option.bind_eq_bind, hstore, Option.bind_some, hmap]
    rw [if_neg (by decide), hunmap]
    exact hrest hclear

def Loadable (file : File) (ph : Proghdr) : Prop :=
  ∀ i, i < pagesFor (ph.pMemsz + pgoff ph.pVa) → ¬ badVa (ph.pVa - pgoff ph.pVa + vaOf i) ∧
    (vaOf i < ph.pFilesz + pgoff ph.pVa → (file.read (ph.pOffset - pgoff ph.pVa + vaOf i)
      (minWord pgsize (ph.pFilesz + pgoff ph.pVa - vaOf i))).isSome)

theorem not_badPerm_segmentPerm (ph : Proghdr) : ¬ badPerm (segmentPerm ph) := by
  unfold segmentPerm
  split
  · decide
  · decide

theorem Clear.mapSegments_enough {phs : List Proghdr} (h : Clear P n entry image w)
    (hload : ∀ ph ∈ phs, ph.pType = elfProgLoad → Loadable file ph) :
    ∃ w', Spawn.mapSegments enough file phs w = some (0, w') := by
  induction phs generalizing image w with
  | nil => exact ⟨w, rfl⟩
  | cons ph phs ih =>
    obtain ⟨hfirst, hrest⟩ := List.forall_mem_cons.mp hload
    rw [Spawn.mapSegments]
    by_cases htype : ph.pType = elfProgLoad
    · have hpages := hfirst htype
      obtain ⟨w1, hsegment⟩ := h.mapPages_enough (j := 0) (not_badPerm_segmentPerm ph)
        (fun i _ hi => (hpages i (by rwa [Nat.zero_add] at hi)).1)
        fun i _ hi => (hpages i (by rwa [Nat.zero_add] at hi)).2
      obtain ⟨-, hclear, -⟩ := h.mapPages rfl hsegment (by decide)
      have hsegment' : mapSegment enough file ph.pVa ph.pMemsz ph.pFilesz ph.pOffset
          (segmentPerm ph) w = some (0, w1) := hsegment
      rw [if_neg (not_not.mpr htype), hsegment']
      simp only [Option.bind_eq_bind, Option.bind_some]
      rw [if_neg (by decide)]
      exact ih hclear hrest
    · rw [if_pos htype]
      exact ih h hrest

end Segments

section Shared

variable {w : World}

theorem and_mask {perm mask : Word} (h : perm &&& mask ≠ 0) (hmask : pteSyscall &&& mask = mask) :
    perm &&& pteSyscall &&& mask ≠ 0 := by
  rwa [BitVec.and_assoc, hmask]

theorem Pte.not_badPerm (pte : Pte) : ¬ badPerm (pte.perm &&& pteSyscall) := by
  rw [badPerm, not_or, not_or, not_not]
  refine ⟨and_mask pte.user (by decide), and_mask pte.present (by decide), ?_⟩
  rw [BitVec.and_assoc, show pteSyscall &&& ~~~pteSyscall = 0 by decide]
  exact BitVec.and_zero

theorem copyShared_enough {left pn : Nat} (hend : pn + left ≤ pgnum ustacktop) :
    ∃ w', copyShared enough left pn w = (0, w') := by
  induction left generalizing pn w with
  | zero => exact ⟨w, rfl⟩
  | succ left ih =>
    unfold copyShared
    cases hpte : w.parent pn with
    | none => exact ih (by omega)
    | some pte =>
      dsimp only
      split
      · have hlow : pn < pgnum ustacktop := by omega
        have hva := vaOf_not_badVa hlow
        have hspace : w.space .parent (pgnum (vaOf pn)) = some pte := by
          rw [pgnum_vaOf (hlow.trans (by decide))]
          exact hpte
        obtain ⟨w1, hmap⟩ := sysPageMap_enough .child hva hva pte.not_badPerm hspace
        rw [hmap]
        dsimp only
        rw [if_neg (by decide)]
        exact ih (by omega)
      · exact ih (by omega)

theorem startChild_enough (child : Word) (w : World) :
    ∃ w', startChild enough child w = some (child, w') := by
  have hsum : pgnum utext + (pgnum ustacktop - pgnum utext) = pgnum ustacktop :=
    Nat.add_sub_cancel' (by decide)
  obtain ⟨w', hcopy⟩ := copyShared_enough (w := w) hsum.le
  unfold startChild copySharedPages
  rw [hcopy]
  dsimp only
  rw [if_neg (by decide)]
  exact ⟨_, rfl⟩

end Shared

theorem spawn_enough (file : File) {argv : List (List Byte)} {exofork : Word} (stack : Memory)
    {w : World} {fd : Nat} (hbound : Bounded w.parent w.next)
    (hfd : fdAlloc w.parent = some fd) (hfit : ArgsFit argv) (hfork : ¬ isNeg exofork)
    (hlen : file.buf.length = 512)
    (hmagic : (elfAt (placed file.buf stack) 0).eMagic = elfMagic)
    (hload : ∀ ph ∈ proghdrs (placed file.buf stack), ph.pType = elfProgLoad → Loadable file ph) :
    ∃ w1 w', spawn enough (some file) argv exofork stack w = some (exofork, w') ∧
      Filled file stack fd w w1 ∧ (∀ q < w.next, w1.phys q = w.phys q) ∧
      startChild enough exofork (closeFile fd w1) = some (exofork, w') := by
  obtain ⟨w1, first, hstack, hclear, hkept⟩ := (base_opened hbound fd
    (elfAt (placed file.buf stack) 0).eEntry).initStack_enough hfit
  obtain ⟨w2, hsegments⟩ := hclear.mapSegments_enough hload
  obtain ⟨-, hclear', hkept'⟩ := hclear.mapSegments hsegments (by decide)
  obtain ⟨w', hstart⟩ := startChild_enough exofork (closeFile fd w2)
  refine ⟨w2, w', ?_, ⟨first, hclear'⟩, fun q hq => ?_, hstart⟩
  · unfold spawn openFile
    simp only [hfd]
    rw [if_neg (not_or.mpr ⟨not_not.mpr hlen, not_not.mpr hmagic⟩), if_neg hfork]
    refine Option.bind_eq_some_iff.mpr ⟨(0, w1), hstack, ?_⟩
    refine (if_neg not_isNeg_zero).trans (Option.bind_eq_some_iff.mpr ⟨(0, w2), hsegments, ?_⟩)
    exact (if_neg not_isNeg_zero).trans hstart
  · rw [hkept' q (Nat.lt_succ_of_lt hq), hkept q (Nat.lt_succ_of_lt hq)]
    rfl

theorem Spawned.touches_iff {phs : List Proghdr} {w w' : World} (h : Spawned Covers phs w w') :
    Spawned Touches phs w w' ↔ ∀ ph ∈ phs, ph.pType = elfProgLoad →
      ph.pMemsz.toNat + ph.pVa.toNat % 4096 < 2 ^ 32 := by
  refine ⟨fun h ph hph hload => ?_, fun hfit => { h with mapped := fun p => ?_ }⟩
  · by_contra hwrap
    -- The segment has a page at `UTOP` or above.
    have htop : pgnum utop = 977920 := by decide
    have hp : Touches ph (max (ph.pVa.toNat / 4096) (pgnum utop)) := by
      rw [Touches]
      omega
    have hlt := h.below _ ((h.mapped _).mpr (.inl ⟨ph, hph, hload, hp⟩))
    omega
  · refine (h.mapped p).trans (or_congr_left (exists_congr fun ph => and_congr_right fun hph => ?_))
    exact and_congr_right fun hload => covers_iff (hfit ph hph hload)

/-- When `spawn` returns the child, the child maps the pages of the segments, the stack page and
the shared pages of the parent, and the parent maps what it did, exactly if the size of no
segment wraps when it is rounded and no page that `spawn` stores to is copy-on-write. -/
theorem spawn_maps_iff {mem : Nat → Bool} {stores : List Nat} {content : List Byte}
    {argv : List (List Byte)} {exofork r : Word} {stack : Memory} {w w' : World}
    (hbound : Bounded w.parent w.next)
    (htable : (headerOf content).ePhoff.toNat + 32 * (headerOf content).ePhnum.toNat ≤ 512)
    (hstores : ∀ p ∈ stores, p ≠ pgnum utemp ∧ p ≠ pgnum pftemp)
    (hrun : spawnStoring mem stores (some (fileOf content)) argv exofork stack w = some (r, w'))
    (hr : ¬ isNeg r) : Spawned Touches (headersOf content) w w' ↔
      (∀ ph ∈ headersOf content, ph.pType = elfProgLoad →
        ph.pMemsz.toNat + ph.pVa.toNat % 4096 < 2 ^ 32) ∧
      ∀ p ∈ stores, Writable w.parent p := by
  obtain ⟨w1, htouch, hrun⟩ := Option.bind_eq_some_iff.mp hrun
  obtain ⟨hstored, hwrites⟩ := foldlM_touch_ok hbound (fun p hp => (hstores p hp).2) htouch
  obtain ⟨file, hfile, hlen, hspawned⟩ := spawned_of_ok hstored.bound hrun hr
  cases hfile
  have hdata : (fileOf content).buf = content.take 512 := rfl
  rw [hdata] at hlen hspawned
  rw [← proghdrs_below (fun x hx => (placed_below rfl hlen stack (fun _ => 0) x hx).symm)
    (by decide) (by decide) htable] at hspawned
  have hsame : (∀ p ∈ stores, Writable w.parent p) → w1 = w := fun h =>
    Option.mem_unique htouch (foldlM_touch_writable h)
  constructor
  · intro h
    have hwrite : ∀ p ∈ stores, Writable w.parent p := by
      intro p hp
      have hne := (hstores p hp).1
      rw [Writable, ← h.parent p hne, hspawned.parent p hne]
      exact hwrites p hp
    obtain rfl := hsame hwrite
    exact ⟨hspawned.touches_iff.mp h, hwrite⟩
  · rintro ⟨hfit, hwrite⟩
    obtain rfl := hsame hwrite
    exact hspawned.touches_iff.mpr hfit

def smallParent : World :=
  start (update (update (fun _ => none) 0x900 (some ⟨0, fdPerm, fdPerm_user, fdPerm_present⟩))
    0x901 (some (.new 1 puw puw_ok))) 2 fun _ _ => 0

theorem smallParent_bound : Bounded smallParent.parent 2 := by
  have hnone : Bounded (fun _ => none) 2 := fun p pte hp => by cases hp
  exact (hnone.set le_rfl (by grind)).set le_rfl (by grind [Pte.new])

def smallElf (ph : Proghdr) : List Byte :=
  ([elfMagic, 0, 0, 0, 0, 0, 0x800020, 52, 0, 0, 0, 1, 0, ph.pType, ph.pOffset, ph.pVa, 0,
    ph.pFilesz, ph.pMemsz, ph.pFlags, 0].flatMap bytes) ++ List.replicate 428 0

theorem spawn_smallElf {ph : Proghdr} (hlen : (smallElf ph).length = 512)
    (hmagic : (headerOf (smallElf ph)).eMagic = elfMagic)
    (hphs : headersOf (smallElf ph) = [ph])
    (hload : Loadable (fileOf (smallElf ph)) ph) : ∃ w', spawn enough (some (fileOf (smallElf ph)))
      [] 0x1001 (fun _ => 0) smallParent = some (0x1001, w') := by
  have hdata : (fileOf (smallElf ph)).buf = smallElf ph :=
    List.take_of_length_le hlen.le
  have hfd : fdAlloc smallParent.parent = some 0 := by decide
  have hfork : ¬ isNeg 0x1001 := by decide
  obtain ⟨-, w', hrun, -⟩ :=
    spawn_enough (fileOf (smallElf ph)) (fun _ => 0) smallParent_bound hfd
    (show ArgsFit [] by unfold ArgsFit; decide) hfork (by rw [hdata, hlen]) (by rw [hdata, hmagic])
    (by
      rw [hdata, show proghdrs _ = _ from hphs]
      exact List.forall_mem_singleton.mpr fun _ => hload)
  exact ⟨w', hrun⟩

def textHeader : Proghdr := ⟨elfProgLoad, 0, 0x800000, 0x100, 0x200, 5⟩

theorem spawn_maps_small : ∃ w', spawnStoring enough [0x900, 0x901]
    (some (fileOf (smallElf textHeader))) [] 0x1001 (fun _ => 0) smallParent = some (0x1001, w') ∧
    Spawned Touches [textHeader] smallParent w' := by
  have hphs : headersOf (smallElf textHeader) = [textHeader] := by decide +kernel
  have hload : Loadable (fileOf (smallElf textHeader)) textHeader := by
    intro i hi
    rw [show pagesFor (textHeader.pMemsz + pgoff textHeader.pVa) = 1 by decide] at hi
    obtain rfl := Nat.lt_one_iff.mp hi
    exact ⟨by decide, fun _ => by decide⟩
  obtain ⟨w', hrun⟩ := spawn_smallElf (by decide +kernel) (by decide +kernel) hphs hload
  have hwrite : ∀ p ∈ [0x900, 0x901], Writable smallParent.parent p :=
    List.forall_mem_cons.mpr ⟨⟨_, rfl, by decide⟩,
      List.forall_mem_singleton.mpr ⟨_, rfl, by decide⟩⟩
  have hstoring : spawnStoring enough [0x900, 0x901] (some (fileOf (smallElf textHeader))) [] 0x1001
      (fun _ => 0) smallParent = some (0x1001, w') := by
    rw [spawnStoring, foldlM_touch_writable hwrite, Option.bind_some, hrun]
  have hmaps := spawn_maps_iff smallParent_bound (by decide +kernel) (by decide) hstoring
    (by decide)
  rw [hphs] at hmaps
  exact ⟨w', hstoring, hmaps.mpr ⟨List.forall_mem_singleton.mpr fun _ => by decide, hwrite⟩⟩

/-- A segment whose size wraps when it is rounded: `map_segment` maps no page. -/
def wrappingHeader : Proghdr := ⟨elfProgLoad, 4, 0x800004, 0, 0xFFFFFFFC, 5⟩

theorem wrapping_segment_unmapped : ∃ w', spawn enough (some (fileOf (smallElf wrappingHeader))) []
    0x1001 (fun _ => 0) smallParent = some (0x1001, w') ∧
    headersOf (smallElf wrappingHeader) = [wrappingHeader] ∧
    (wrappingHeader.pVa.toNat ≤ 0x801000 ∧
      0x801000 < wrappingHeader.pVa.toNat + wrappingHeader.pMemsz.toNat) ∧
    w'.child (pgnum 0x801000) = none := by
  have hphs : headersOf (smallElf wrappingHeader) = [wrappingHeader] := by
    decide +kernel
  have hpages : pagesFor (wrappingHeader.pMemsz + pgoff wrappingHeader.pVa) = 0 := by decide
  have hload : Loadable (fileOf (smallElf wrappingHeader)) wrappingHeader := by
    intro i hi
    rw [hpages] at hi
    exact absurd hi (Nat.not_lt_zero i)
  obtain ⟨w', hrun⟩ := spawn_smallElf (by decide +kernel) (by decide +kernel) hphs hload
  refine ⟨w', hrun, hphs, by decide, ?_⟩
  obtain ⟨file, hfile, -, hspawned⟩ := spawned_of_ok smallParent_bound hrun (by decide)
  cases hfile
  have hdata : (fileOf (smallElf wrappingHeader)).buf = smallElf wrappingHeader := by
    decide +kernel
  rw [hdata, show proghdrs _ = _ from hphs] at hspawned
  rw [← Option.not_isSome_iff_eq_none, hspawned.mapped]
  rintro (⟨ph, hph, -, hcovers⟩ | hstack | ⟨pte, -, hpte, -⟩)
  · obtain rfl := List.mem_singleton.mp hph
    have hhi := hcovers.2
    rw [hpages] at hhi
    exact absurd (hcovers.1.trans_lt hhi) (lt_irrefl _)
  · exact absurd hstack (by decide)
  · cases hpte

end Mit6828.Lib.Spawn
