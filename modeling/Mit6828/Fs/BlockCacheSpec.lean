import Mit6828.Fs.BlockCache

namespace Mit6828.Fs

open Kern.Mmu Library Library.FlatMemory Function

variable {s s' : Cache} {m : Memory} {va a n pn b depth x y : Nat} {blockno : Word}
  {g : Memory → Memory}

def InMap (va : Nat) : Prop := diskmap ≤ va ∧ va < diskmap + disksize

def blockOf (va : Nat) : Nat := (va - diskmap) / blksize

attribute [grind unfold] InMap blockOf

def nblocks (m : Memory) : Nat := (readWord m sNblocks).toNat

def isFree (m : Memory) (b : Nat) : Prop := freeBit (readWord m (bitmapWord b)) b
deriving Decidable

structure Used (m : Memory) (b : Nat) : Prop where
  lt : b < nblocks m
  taken : ¬ isFree m b

/-- The number of blocks before the first one that holds data: block 0, the super block and the
bitmap. -/
def reserved (m : Memory) : Nat := 2 + (nblocks m + 32767) / 32768

/-- What `check_super` and `check_bitmap` make sure of. -/
structure Sane (m : Memory) : Prop where
  more : 2 < nblocks m
  fits : nblocks m ≤ disksize / blksize
  reserved : ∀ b < reserved m, ¬ isFree m b

def Dirty (s : Cache) (pn : Nat) : Prop := s.pte pn &&& pteP ≠ 0 ∧ s.pte pn &&& pteD ≠ 0

def Writable (s : Cache) (pn : Nat) : Prop := s.pte pn &&& pteP ≠ 0 → s.pte pn &&& pteW ≠ 0

/-- A block that is not dirty agrees with the disk.  The memory of a page that is not mapped
cannot be observed; here it is what the page would be read in as. -/
def Coherent (s : Cache) : Prop := ∀ a, InMap a → ¬ Dirty s (a / blksize) → s.mem a = s.disk a

def Keeps (s s' : Cache) (pn : Nat) : Prop :=
  (s.pte pn &&& pteP ≠ 0 → s'.pte pn &&& pteP ≠ 0) ∧ (Writable s pn → Writable s' pn)

theorem Keeps.of_eq (h : s'.pte pn = s.pte pn) : Keeps s s' pn := by
  rw [Keeps, Writable, Writable, h]
  exact ⟨id, id⟩

structure Loaded (s s' : Cache) : Prop where
  mem : s'.mem = s.mem
  disk : s'.disk = s.disk
  keeps : ∀ pn, Keeps s s' pn
  dirty : ∀ pn, Dirty s' pn ↔ Dirty s pn

theorem Loaded.refl (s : Cache) : Loaded s s :=
  ⟨rfl, rfl, fun _ => ⟨id, id⟩, fun _ => Iff.rfl⟩

theorem Loaded.trans {s'' : Cache} (h : Loaded s s') (h' : Loaded s' s'') : Loaded s s'' where
  mem := h'.mem.trans h.mem
  disk := h'.disk.trans h.disk
  keeps := fun pn => ⟨(h'.keeps pn).1 ∘ (h.keeps pn).1, (h'.keeps pn).2 ∘ (h.keeps pn).2⟩
  dirty := fun pn => (h'.dirty pn).trans (h.dirty pn)

theorem Loaded.coherent (h : Loaded s s') (hs : Coherent s) : Coherent s' := by
  intro a ha hclean
  rw [h.mem, h.disk]
  exact hs a ha fun hdirty => hclean ((h.dirty _).mpr hdirty)

theorem remap_flags (w : Word) : ((w &&& pteSyscall) ||| pteP) &&& pteP ≠ 0 ∧
    ((w &&& pteSyscall) ||| pteP) &&& pteW = w &&& pteW ∧
    ((w &&& pteSyscall) ||| pteP) &&& pteD = 0 := by
  refine ⟨fun h => ?_, ?_, ?_⟩
  · have h0 := congrArg (fun w : Word => w.getLsbD 0) h
    simp [pteP, pteSyscall] at h0
  · rw [BitVec.and_comm, BitVec.and_or_distrib_left, show pteW &&& pteP = 0#32 from rfl,
      BitVec.or_zero, BitVec.and_comm w, ← BitVec.and_assoc,
      show pteW &&& pteSyscall = pteW from rfl, BitVec.and_comm]
  · rw [BitVec.and_comm, BitVec.and_or_distrib_left, show pteD &&& pteP = 0#32 from rfl,
      BitVec.or_zero, BitVec.and_comm w, ← BitVec.and_assoc,
      show pteD &&& pteSyscall = 0#32 from rfl]
    exact BitVec.zero_and

def readIn (pn : Nat) (s : Cache) : Cache := sysPageRemap pn (ideRead pn (sysPageAlloc pn s))

theorem readIn_pte_self : (readIn pn s).pte pn = ptePuw := by
  simp only [readIn, sysPageRemap, Cache.setPte, ideRead, Cache.setDirty, sysPageAlloc, update_self]
  rfl

theorem readIn_pte_of_ne (hx : x ≠ pn) : (readIn pn s).pte x = s.pte x := by
  simp [readIn, sysPageRemap, Cache.setPte, ideRead, Cache.setDirty, sysPageAlloc, update_of_ne hx]

theorem inMap_of_page (hpage : x / blksize = y / blksize) (hy : InMap y) : InMap x := by
  grind

theorem loaded_readIn (hs : Coherent s) (hva : InMap va) (hnot : ¬ Dirty s (va / blksize)) :
    Loaded s (readIn (va / blksize) s) := by
  refine ⟨?_, rfl, fun pn => ?_, fun pn => ?_⟩
  · funext x
    change pageFrom _ s.disk (fill s.mem _ _ 0) x = s.mem x
    by_cases hx : x / blksize = va / blksize
    · rw [pageFrom, if_pos hx]
      exact (hs x (inMap_of_page hx hva) (by rwa [hx])).symm
    · rw [pageFrom, if_neg hx, fill, if_neg]
      grind
  · by_cases hpn : pn = va / blksize
    · rw [Keeps, Writable, Writable, hpn, readIn_pte_self]
      exact ⟨fun _ => by decide, fun _ => by decide⟩
    · exact .of_eq (readIn_pte_of_ne hpn)
  · by_cases hpn : pn = va / blksize
    · rw [hpn]
      refine iff_of_false (fun hdirty => hdirty.2 ?_) hnot
      rw [readIn_pte_self]
      rfl
    · rw [Dirty, Dirty, readIn_pte_of_ne hpn]

theorem access_succ (depth va : Nat) (s : Cache) : access (depth + 1) va s =
    if vaIsMapped s va then some s
    else if va < diskmap ∨ diskmap + disksize ≤ va then none
    else (access depth sNblocks s).bind fun s =>
      if nblocks s.mem ≤ blockOf va then none
      else (access depth (bitmapWord (blockOf va)) (readIn (va / blksize) s)).bind fun s =>
        if isFree s.mem (blockOf va) then none else some s := rfl

theorem access_loaded (hs : Coherent s) (h : access depth va s = some s') :
    Loaded s s' ∧ vaIsMapped s' va := by
  induction depth generalizing va s s' with
  | zero =>
    rw [access] at h
    split at h
    · cases h
      exact ⟨.refl s, by assumption⟩
    · cases h
  | succ depth ih =>
    rw [access_succ] at h
    split at h
    · cases h
      exact ⟨.refl s, by assumption⟩
    rename_i hmapped
    split at h
    · cases h
    rename_i hmap
    have hva : InMap va := by grind
    obtain ⟨s1, h1, h⟩ := Option.bind_eq_some_iff.mp h
    obtain ⟨hload1, -⟩ := ih hs h1
    have hnot : ¬ Dirty s1 (va / blksize) := fun hdirty =>
      hmapped ((hload1.dirty _).mp hdirty).1
    have hread := loaded_readIn (hload1.coherent hs) hva hnot
    split at h
    · cases h
    obtain ⟨s2, h2, h⟩ := Option.bind_eq_some_iff.mp h
    obtain ⟨hload2, -⟩ := ih (hread.coherent (hload1.coherent hs)) h2
    split at h
    · cases h
    · cases h
      refine ⟨(hload1.trans hread).trans hload2, (hload2.keeps _).1 ?_⟩
      rw [readIn_pte_self]
      decide

theorem access_of_mapped (h : vaIsMapped s va) (depth : Nat) : access depth va s = some s := by
  cases depth with
  | zero => rw [access, if_pos h]
  | succ depth => rw [access_succ, if_pos h]

theorem access_fault (hsuper : vaIsMapped s sNblocks) (hva : InMap va) (hmapped : ¬ vaIsMapped s va)
    (hs : Coherent s) (hbit : vaIsMapped s (bitmapWord (blockOf va)))
    (hused : Used s.mem (blockOf va)) :
    access (depth + 1) va s = some (readIn (va / blksize) s) := by
  have hload := loaded_readIn hs hva fun hdirty => hmapped hdirty.1
  rw [access_succ, if_neg hmapped, if_neg (by grind),
    access_of_mapped hsuper, Option.bind_some, if_neg (Nat.not_le.mpr hused.lt),
    access_of_mapped ((hload.keeps _).1 hbit), Option.bind_some, if_neg]
  rw [hload.mem]
  exact hused.taken

theorem access_returns (hs : Coherent s) (hsane : Sane s.mem) (hsuper : vaIsMapped s sNblocks)
    (hbitmap : vaIsMapped s bitmap) (hacc : vaIsMapped s va ∨ InMap va ∧ Used s.mem (blockOf va)) :
    ∃ s', access (depth + 2) va s = some s' := by
  by_cases hmapped : vaIsMapped s va
  · exact ⟨s, access_of_mapped hmapped _⟩
  obtain ⟨hva, hused⟩ := hacc.resolve_left hmapped
  by_cases hbit : vaIsMapped s (bitmapWord (blockOf va))
  · exact ⟨_, access_fault hsuper hva hmapped hs hbit hused⟩
  have hload := loaded_readIn hs hva fun hdirty => hmapped hdirty.1
  have hlt := hused.lt
  have hsuper' : vaIsMapped (readIn (va / blksize) s) sNblocks := (hload.keeps _).1 hsuper
  have hblock : blockOf (bitmapWord (blockOf va)) = 2 + blockOf va / 32768 := by grind
  have hfirst : bitmapWord (2 + blockOf va / 32768) / blksize = bitmap / blksize := by grind
  have hword : InMap (bitmapWord (blockOf va)) := by grind
  have hused' : Used s.mem (2 + blockOf va / 32768) :=
    ⟨by have := hsane.more; omega, hsane.reserved _ (by rw [reserved]; omega)⟩
  rw [access_succ, if_neg hmapped, if_neg (by grind),
    access_of_mapped hsuper, Option.bind_some, if_neg (Nat.not_le.mpr hused.lt)]
  by_cases hbit' : vaIsMapped (readIn (va / blksize) s) (bitmapWord (blockOf va))
  · refine ⟨readIn (va / blksize) s, ?_⟩
    rw [access_of_mapped hbit', Option.bind_some, if_neg]
    rw [hload.mem]
    exact hused.taken
  have hcoh := hload.coherent hs
  have hstep : access (depth + 1) (bitmapWord (blockOf va)) (readIn (va / blksize) s) =
      some (readIn (bitmapWord (blockOf va) / blksize) (readIn (va / blksize) s)) := by
    apply access_fault hsuper' hword hbit' hcoh
    · rw [hblock, vaIsMapped, hfirst]
      exact (hload.keeps _).1 hbitmap
    · rw [hblock, hload.mem]
      exact hused'
  have hload' := loaded_readIn hcoh hword fun hdirty => hbit' hdirty.1
  refine ⟨readIn (bitmapWord (blockOf va) / blksize) (readIn (va / blksize) s), ?_⟩
  rw [hstep, Option.bind_some, if_neg]
  rw [hload'.mem, hload.mem]
  exact hused.taken

/-- An access to `va` does not panic: its page is mapped, or its block is in use. -/
structure Safe (s : Cache) (va : Nat) : Prop where
  sane : Sane s.mem
  super : vaIsMapped s sNblocks
  bitmap : vaIsMapped s bitmap
  page : vaIsMapped s va ∨ InMap va ∧ Used s.mem (blockOf va)

theorem Loaded.safe (h : Loaded s s') (hs : Safe s va) : Safe s' va where
  sane := h.mem ▸ hs.sane
  super := (h.keeps _).1 hs.super
  bitmap := (h.keeps _).1 hs.bitmap
  page := hs.page.imp (h.keeps _).1 fun hused => h.mem ▸ hused

theorem Safe.of_page (hpage : x / blksize = y / blksize) (hy : Safe s y) : Safe s x := by
  refine ⟨hy.sane, hy.super, hy.bitmap, hy.page.imp (fun hmapped => ?_) fun hused => ?_⟩
  · rwa [vaIsMapped, hpage]
  have hx := inMap_of_page hpage hused.1
  have hblock : blockOf x = blockOf y := by grind
  rw [hblock]
  exact ⟨hx, hused.2⟩

variable {ok : Prop}

theorem runs_touch (hs : Coherent s) (hsafe : ok → Safe s va) :
    Command.Runs ok (touch va) s fun r s' => r = .ok () ∧ Loaded s s' ∧ vaIsMapped s' va := by
  have hrun : (touch va).run.run s = (access faultDepth va s).map fun s' => (.ok (), s') := rfl
  unfold Command.Runs
  rw [hrun]
  cases hacc : access faultDepth va s with
  | none =>
    intro hok
    obtain ⟨hsane, hsuper, hbitmap, hpage⟩ := hsafe hok
    obtain ⟨s', hs'⟩ : ∃ s', access (2 + 2) va s = some s' :=
      access_returns hs hsane hsuper hbitmap hpage
    rw [show access faultDepth va s = some s' from hs'] at hacc
    cases hacc
  | some s' => exact ⟨rfl, access_loaded hs hacc⟩

theorem runs_touchPages {pns : List Nat} (hs : Coherent s)
    (hsafe : ok → ∀ pn ∈ pns, Safe s (pn * blksize)) :
    Command.Runs ok (touchPages pns) s fun r s' => r = .ok () ∧ Loaded s s' ∧
      ∀ pn ∈ pns, s'.pte pn &&& pteP ≠ 0 := by
  induction pns generalizing s with
  | nil => exact ⟨rfl, .refl s, by simp⟩
  | cons pn pns ih =>
    rw [touchPages, Command.runs_bind]
    refine (runs_touch hs fun hok => hsafe hok pn List.mem_cons_self).mono ?_ id
    rintro _ s1 ⟨rfl, hload, hmapped⟩
    refine (ih (hload.coherent hs) fun hok p hp =>
      hload.safe (hsafe hok p (List.mem_cons_of_mem _ hp))).mono ?_ id
    rintro r s2 ⟨rfl, hload', hmapped'⟩
    refine ⟨rfl, hload.trans hload', fun p hp => ?_⟩
    rcases List.mem_cons.mp hp with rfl | hp
    · refine (hload'.keeps p).1 ?_
      rwa [vaIsMapped, Nat.mul_div_cancel _ (by decide)] at hmapped
    · exact hmapped' p hp

theorem mem_pagesOf : pn ∈ pagesOf a n ↔ ∃ x, (a ≤ x ∧ x < a + n) ∧ x / blksize = pn := by
  rw [pagesOf]
  split
  · rename_i hn
    simp [hn]
  rename_i hn
  rw [List.mem_range'_1]
  constructor
  · intro hpn
    by_cases hfirst : pn * blksize < a
    · refine ⟨a, ⟨Nat.le_refl _, by omega⟩, ?_⟩
      grind
    · refine ⟨pn * blksize, ?_, Nat.mul_div_cancel _ (by decide)⟩
      grind
  · rintro ⟨x, hx, rfl⟩
    have hlo : a / blksize ≤ x / blksize := Nat.div_le_div_right hx.1
    have hhi : x / blksize ≤ (a + n - 1) / blksize := Nat.div_le_div_right (by omega)
    omega

theorem runs_touchRange (hs : Coherent s) (hsafe : ok → ∀ x, a ≤ x → x < a + n → Safe s x) :
    Command.Runs ok (touchRange a n) s fun r s' => r = .ok () ∧ Loaded s s' ∧
      ∀ pn ∈ pagesOf a n, s'.pte pn &&& pteP ≠ 0 := by
  refine runs_touchPages hs fun hok pn hpn => ?_
  obtain ⟨x, hx, rfl⟩ := mem_pagesOf.mp hpn
  exact Safe.of_page (Nat.mul_div_cancel _ (by decide)) (hsafe hok x hx.1 hx.2)

structure Stored (a n : Nat) (g : Memory → Memory) (s s' : Cache) : Prop where
  mem : s'.mem = g s.mem
  disk : s'.disk = s.disk
  keeps : ∀ pn, Keeps s s' pn
  dirty : ∀ pn, Dirty s' pn ↔ pn ∈ pagesOf a n ∨ Dirty s pn

theorem or_pteD_flags (w : Word) : ((w ||| pteD) &&& pteP = w &&& pteP) ∧
    ((w ||| pteD) &&& pteW = w &&& pteW) ∧ (w ||| pteD) &&& pteD ≠ 0 := by
  refine ⟨?_, ?_, fun h => ?_⟩
  · rw [BitVec.and_comm, BitVec.and_or_distrib_left, BitVec.and_comm w,
      show pteP &&& pteD = 0#32 from rfl, BitVec.or_zero]
  · rw [BitVec.and_comm, BitVec.and_or_distrib_left, BitVec.and_comm w,
      show pteW &&& pteD = 0#32 from rfl, BitVec.or_zero]
  · have h6 := congrArg (fun w : Word => w.getLsbD 6) h
    simp [pteD] at h6

theorem stored_spec (hmapped : ∀ p ∈ pagesOf a n, s.pte p &&& pteP ≠ 0) :
    Stored a n g s (stored a n g s) := by
  refine ⟨rfl, rfl, fun pn => ?_, fun pn => ?_⟩
  · simp only [Keeps, Writable, stored]
    split
    · rw [(or_pteD_flags _).1, (or_pteD_flags _).2.1]
      exact ⟨id, id⟩
    · exact ⟨id, id⟩
  · simp only [Dirty, stored]
    split
    · rename_i hin
      rw [(or_pteD_flags _).1]
      exact iff_of_true ⟨hmapped pn hin, (or_pteD_flags _).2.2⟩ (.inl hin)
    · rename_i hin
      simp [hin]

theorem Stored.coherent (h : Stored a n g s s') (hg : Within a n g) (hs : Coherent s) :
    Coherent s' := by
  intro x hx hclean
  have hnot : x / blksize ∉ pagesOf a n ∧ ¬ Dirty s (x / blksize) := by
    rwa [h.dirty, not_or] at hclean
  have hout : ¬ (a ≤ x ∧ x < a + n) := fun hin => hnot.1 (mem_pagesOf.mpr ⟨x, hin, rfl⟩)
  rw [h.mem, h.disk, hg _ _ hout]
  exact hs x hx hnot.2

theorem runs_stored
    (htouch : Command.Runs ok (touchRange a n) s fun r s' => r = .ok () ∧ Loaded s s' ∧
      ∀ pn ∈ pagesOf a n, s'.pte pn &&& pteP ≠ 0)
    (hwritable : ok → ∀ x, a ≤ x → x < a + n → Writable s (x / blksize)) :
    Command.Runs ok (storeRange a n g) s fun r s' => r = .ok () ∧
      ∃ s1, Loaded s s1 ∧ Stored a n g s1 s' := by
  rw [storeRange, Command.runs_bind]
  refine htouch.mono ?_ id
  rintro _ s1 ⟨rfl, hload, hmapped⟩
  refine Command.runs_bind.mpr ?_
  change Command.Runs ok (if ∀ pn ∈ pagesOf a n, s1.pte pn &&& pteW ≠ 0 then
    set (stored a n g s1) else Command.fail) s1 _
  split
  · exact ⟨rfl, s1, hload, stored_spec hmapped⟩
  · rename_i hnot
    refine fun hok => hnot fun pn hpn => ?_
    obtain ⟨x, hx, rfl⟩ := mem_pagesOf.mp hpn
    exact (hload.keeps _).2 (hwritable hok x hx.1 hx.2) (hmapped _ hpn)

theorem runs_storeRange (hs : Coherent s)
    (hsafe : ok → ∀ x, a ≤ x → x < a + n → Safe s x ∧ Writable s (x / blksize)) :
    Command.Runs ok (storeRange a n g) s fun r s' => r = .ok () ∧
      ∃ s1, Loaded s s1 ∧ Stored a n g s1 s' :=
  runs_stored (runs_touchRange hs fun hok x hlo hhi => (hsafe hok x hlo hhi).1)
    fun hok x hlo hhi => (hsafe hok x hlo hhi).2

structure Flushed (pn : Nat) (s s' : Cache) : Prop where
  mem : s'.mem = s.mem
  written : ∀ x, x / blksize = pn → Dirty s pn → s'.disk x = s.mem x
  kept : ∀ x, ¬ (x / blksize = pn ∧ Dirty s pn) → s'.disk x = s.disk x
  keeps : ∀ p, Keeps s s' p
  dirty : ∀ p, Dirty s' p ↔ Dirty s p ∧ p ≠ pn

theorem Flushed.coherent (h : Flushed pn s s') (hs : Coherent s) : Coherent s' := by
  intro x hx hclean
  rw [h.dirty] at hclean
  rw [h.mem]
  by_cases hpage : x / blksize = pn ∧ Dirty s pn
  · exact (h.written x hpage.1 hpage.2).symm
  · rw [h.kept x hpage]
    refine hs x hx fun hdirty => hclean ⟨hdirty, ?_⟩
    rintro rfl
    exact hpage ⟨rfl, hdirty⟩

theorem flushed_of_clean (hclean : ¬ Dirty s pn) : Flushed pn s s where
  mem := rfl
  written := fun _ _ hdirty => absurd hdirty hclean
  kept := fun _ _ => rfl
  keeps := fun _ => ⟨id, id⟩
  dirty := by
    intro p
    refine ⟨fun hdirty => ⟨hdirty, ?_⟩, And.left⟩
    rintro rfl
    exact hclean hdirty

theorem flushed_remap (hdirty : Dirty s pn) : Flushed pn s (sysPageRemap pn (ideWrite pn s)) := by
  have hself : (sysPageRemap pn (ideWrite pn s)).pte pn = (s.pte pn &&& pteSyscall) ||| pteP :=
    update_self _ _ _
  have hother : ∀ p, p ≠ pn → (sysPageRemap pn (ideWrite pn s)).pte p = s.pte p := fun p hp =>
    update_of_ne hp _ _
  refine ⟨rfl, fun x hx _ => if_pos hx, fun x hx => ?_, fun p => ?_, fun p => ?_⟩
  · exact if_neg fun heq => hx ⟨heq, hdirty⟩
  · by_cases hpn : p = pn
    · subst hpn
      rw [Keeps, Writable, Writable, hself, (remap_flags _).2.1]
      exact ⟨fun _ => (remap_flags _).1, fun hp _ => hp hdirty.1⟩
    · exact .of_eq (hother p hpn)
  · by_cases hpn : p = pn
    · subst hpn
      rw [Dirty, hself]
      exact iff_of_false (fun hboth => hboth.2 (remap_flags _).2.2) fun hboth => hboth.2 rfl
    · rw [Dirty, Dirty, hother p hpn]
      simp [hpn]

theorem runs_flushBlock (hmap : ok → InMap va) :
    Command.Runs ok (flushBlock va) s fun r s' => r = .ok () ∧ InMap va ∧
      Flushed (va / blksize) s s' := by
  rw [flushBlock]
  split
  · rename_i hout
    exact fun hok => by have := hmap hok; simp only [InMap] at this; omega
  rename_i hin
  refine ⟨rfl, by grind, ?_⟩
  change Flushed _ s (if _ then _ else _)
  split
  · rename_i hclean
    exact flushed_of_clean fun hdirty => hclean.elim (fun h => h hdirty.1) fun h => h hdirty.2
  · rename_i hdirty
    push Not at hdirty
    exact flushed_remap hdirty

section Does

/-- The cache is coherent, the super block, the first block of the bitmap and the pages in `P` are
mapped, and the pages in `P` and of the disk map can be stored to. -/
structure Ready (P : Nat → Prop) (s : Cache) : Prop where
  coherent : Coherent s
  pages : ∀ pn, P pn → s.pte pn &&& pteP ≠ 0
  super : vaIsMapped s sNblocks
  bitmap : vaIsMapped s bitmap
  writable : ∀ va, P (va / blksize) ∨ InMap va → Writable s (va / blksize)

def Acc (P : Nat → Prop) (m : Memory) (va : Nat) : Prop :=
  P (va / blksize) ∨ InMap va ∧ Used m (blockOf va)

abbrev Does {α : Type} (P : Nat → Prop) (ok : Prop) (c : FsM α) (m : Memory)
    (Q : Except Word α → Memory → Prop) : Prop := Command.Does (Ready P) Cache.mem ok c m Q

variable {P : Nat → Prop} {Q : Except Word Unit → Memory → Prop}

theorem Ready.safe (hs : Ready P s) (hsane : Sane s.mem) (hacc : Acc P s.mem va) : Safe s va :=
  ⟨hsane, hs.super, hs.bitmap, hacc.imp_left (hs.pages _)⟩

theorem Ready.of_keeps (hs : Ready P s) (hcoherent : Coherent s')
    (hkeeps : ∀ pn, Keeps s s' pn) : Ready P s' where
  coherent := hcoherent
  pages := fun pn hpn => (hkeeps pn).1 (hs.pages pn hpn)
  super := (hkeeps _).1 hs.super
  bitmap := (hkeeps _).1 hs.bitmap
  writable := fun va hva => (hkeeps _).2 (hs.writable va hva)

theorem Loaded.ready (h : Loaded s s') (hs : Ready P s) : Ready P s' :=
  hs.of_keeps (h.coherent hs.coherent) h.keeps

theorem does_touchRange (hsane : Sane m) (hacc : ∀ x, a ≤ x → x < a + n → Acc P m x)
    (h : Q (.ok ()) m) : Does P ok (touchRange a n) m Q := by
  rintro s hs rfl
  refine (runs_touchRange hs.coherent fun _ x hlo hhi => hs.safe hsane (hacc x hlo hhi)).mono ?_ id
  rintro _ s' ⟨rfl, hload, -⟩
  exact ⟨hload.ready hs, hload.mem ▸ h⟩

theorem does_storeRange (hsane : Sane m) (hg : Within a n g)
    (hacc : ∀ x, a ≤ x → x < a + n → Acc P m x) (h : Q (.ok ()) (g m)) :
    Does P ok (storeRange a n g) m Q := by
  rintro s hs rfl
  refine (runs_storeRange hs.coherent fun _ x hlo hhi => ⟨hs.safe hsane (hacc x hlo hhi),
    hs.writable x ((hacc x hlo hhi).imp_right And.left)⟩).mono ?_ id
  rintro _ s' ⟨rfl, s1, hload, hstore⟩
  have hs1 := hload.ready hs
  refine ⟨hs1.of_keeps (hstore.coherent hg hs1.coherent) hstore.keeps, ?_⟩
  rw [hstore.mem, hload.mem]
  exact h

theorem does_load {Q : Except Word Word → Memory → Prop} (hsane : Sane m)
    (hacc : ∀ x, a ≤ x → x < a + 4 → Acc P m x) (h : Q (.ok (readWord m a)) m) :
    Does P ok (load a) m Q := by
  refine .bind (does_touchRange hsane hacc ?_)
  rintro s hs rfl
  exact ⟨hs, h⟩

theorem does_memmove {dst src : Nat} (hsane : Sane m)
    (hsrc : ∀ x, src ≤ x → x < src + n → Acc P m x) (hdst : ∀ x, dst ≤ x → x < dst + n → Acc P m x)
    (h : Q (.ok ()) (copy m dst src n)) : Does P ok (memmove dst src n) m Q :=
  .bind (does_touchRange hsane hsrc (does_storeRange hsane within_copy hdst h))

theorem acc_super (hsane : Sane m) (hlo : diskmap + blksize ≤ x)
    (hhi : x < diskmap + 2 * blksize) : Acc P m x := by
  have hblock : blockOf x = 1 := by grind
  refine .inr ⟨?_, ?_⟩
  · grind
  · rw [hblock]
    exact ⟨by have := hsane.more; omega, hsane.reserved 1 (by rw [reserved]; omega)⟩

/-- `DISKMAP + b * BLKSIZE`. -/
@[grind unfold]
def blockAddr (b : Nat) : Nat := diskmap + b * blksize

theorem blockVa_eq (hlt : blockno.toNat < disksize / blksize) :
    blockVa blockno = blockAddr blockno.toNat := by
  simp only [blockVa, blockAddr, diskmap, blksize, disksize, BitVec.toNat_add, BitVec.toNat_mul,
    BitVec.toNat_ofNat] at hlt ⊢
  omega

theorem acc_nblocks (hsane : Sane m) (x : Nat) (hlo : sNblocks ≤ x) (hhi : x < sNblocks + 4) :
    Acc P m x := by
  simp only [sNblocks, diskmap, blksize] at hlo hhi
  exact acc_super hsane (by grind) (by grind)

theorem does_diskaddr {Q : Except Word Nat → Memory → Prop} (hsane : Sane m)
    (hne : blockno ≠ 0) (hlt : blockno.toNat < nblocks m)
    (h : Q (.ok (blockAddr blockno.toNat)) m) : Does P ok (diskaddr blockno) m Q := by
  have hnot : ¬ readWord m sNblocks ≤ blockno := by
    rw [BitVec.le_def]
    exact Nat.not_le.mpr hlt
  rw [diskaddr, if_neg hne]
  refine .bind (does_load hsane (acc_nblocks hsane) ?_)
  dsimp only
  rw [if_neg hnot, blockVa_eq (Nat.lt_of_lt_of_le hlt hsane.fits)]
  exact .pure h

end Does

section Bitmap

variable {c : Nat} {w : Word}

/-- `bitmap[b / 32] &= ~(1 << (b % 32))`. -/
def take (m : Memory) (b : Nat) : Memory :=
  writeWord m (bitmapWord b) (readWord m (bitmapWord b) &&& ~~~bit b)

theorem getLsbD_bit {i : Nat} (hi : i < 32) : (bit b).getLsbD i = decide (i = b % 32) := by
  rw [bit, BitVec.natCast_eq_ofNat, BitVec.getLsbD_ofNat, Nat.one_shiftLeft, Nat.testBit_two_pow]
  simp [hi, eq_comm]

theorem freeBit_iff : freeBit w b ↔ w.getLsbD (b % 32) = true := by
  have hb : b % 32 < 32 := Nat.mod_lt _ (by decide)
  rw [freeBit, ne_eq, BitVec.eq_of_getLsbD_eq_iff]
  constructor
  · intro h
    by_contra hbit
    refine h fun i hi => ?_
    rw [BitVec.getLsbD_and, getLsbD_bit hi]
    by_cases heq : i = b % 32
    · rw [heq, Bool.not_eq_true _ |>.mp hbit]
      simp
    · simp [heq]
  · intro hbit h
    have := h (b % 32) hb
    rw [BitVec.getLsbD_and, getLsbD_bit hb, hbit] at this
    simp at this

theorem eq_of_bit_eq (hword : b / 32 = c / 32) (hbit : b % 32 = c % 32) : b = c := by
  rw [← Nat.div_add_mod b 32, hword, hbit, Nat.div_add_mod]

theorem isFree_writeWord (h : b / 32 ≠ c / 32) :
    isFree (writeWord m (bitmapWord b) w) c ↔ isFree m c := by
  rw [isFree, isFree, readWord_writeWord_of_ne]
  grind

theorem isFree_take : isFree (take m b) c ↔ isFree m c ∧ c ≠ b := by
  by_cases hword : b / 32 = c / 32
  · have hc : c % 32 < 32 := Nat.mod_lt _ (by decide)
    have hsame : bitmapWord c = bitmapWord b := by rw [bitmapWord, bitmapWord, hword]
    rw [isFree, isFree, take, hsame, readWord_writeWord_self, freeBit_iff, freeBit_iff,
      BitVec.getLsbD_and, BitVec.getLsbD_not, getLsbD_bit hc]
    constructor
    · intro h
      refine ⟨by simp_all, ?_⟩
      rintro rfl
      simp at h
    · rintro ⟨hfree, hne⟩
      have : c % 32 ≠ b % 32 := fun heq => hne (eq_of_bit_eq hword heq.symm).symm
      simp [hfree, this, hc]
  · rw [take, isFree_writeWord hword]
    refine ⟨fun h => ⟨h, ?_⟩, And.left⟩
    rintro rfl
    exact hword rfl

end Bitmap

end Mit6828.Fs
