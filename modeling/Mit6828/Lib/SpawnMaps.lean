import Mit6828.Lib.SpawnSpec

namespace Mit6828.Lib.Spawn

open Kern.Mmu Kern.Syscall
open Mit6828.Lib.Fork (pteShare utext pftemp puw puw_ok vaOf)
open Mit6828.Lib.ForkSteps (toNat_pgoff)
open Library.ByteMemory Function

section Headers

variable {m m' : Memory} {a : Word} {bound : Nat}

section

variable (h : ∀ x : Word, x.toNat < bound → m x = m' x)
include h

theorem readWord_below (ha : a.toNat + 4 ≤ bound) : readWord m a = readWord m' a := by
  refine readWord_congr fun x hx => h x ?_
  rw [inRange_iff] at hx
  omega

theorem elfAt_below (hbound : 52 ≤ bound) : elfAt m 0 = elfAt m' 0 := by
  have hword : ∀ a : Word, a.toNat + 4 ≤ 52 → readWord m a = readWord m' a :=
    fun a ha => readWord_below h (ha.trans hbound)
  have hbyte : ∀ x : Word, x.toNat < 52 → m x = m' x := fun x hx => h x (hx.trans_le hbound)
  unfold elfAt
  rw [hword 0 (by decide), hword (0 + 24) (by decide), hword (0 + 28) (by decide),
    hbyte (0 + 45) (by decide), hbyte (0 + 44) (by decide)]

theorem proghdrAt_below (ha : a.toNat + 32 ≤ bound) : proghdrAt m a = proghdrAt m' a := by
  have hword : ∀ k : Word, k.toNat ≤ 28 → readWord m (a + k) = readWord m' (a + k) := by
    intro k hk
    refine readWord_below h ?_
    grind
  unfold proghdrAt
  rw [readWord_below h (by omega), hword 4 (by decide), hword 8 (by decide), hword 16 (by decide),
    hword 20 (by decide), hword 24 (by decide)]

end

theorem toNat_header {i n : Nat} (hi : i < n) (h : a.toNat + 32 * n ≤ 2 ^ 32) :
    (a + 32 * BitVec.ofNat 32 i).toNat = a.toNat + 32 * i := by
  have h32 : ((32 : Word) * BitVec.ofNat 32 i).toNat = 32 * i := by
    rw [BitVec.toNat_mul, BitVec.toNat_ofNat]
    change 32 * (i % 4294967296) % 4294967296 = 32 * i
    omega
  grind

theorem proghdrs_below (h : ∀ x : Word, x.toNat < bound → m x = m' x) (hbound : 52 ≤ bound)
    (hlt : bound < 2 ^ 32)
    (htable : (elfAt m 0).ePhoff.toNat + 32 * (elfAt m 0).ePhnum.toNat ≤ bound) :
    proghdrs m = proghdrs m' := by
  unfold proghdrs
  rw [← elfAt_below h hbound]
  refine List.map_congr_left fun i hi => proghdrAt_below h ?_
  have hi := List.mem_range.mp hi
  rw [toNat_header hi (by omega)]
  omega

theorem placed_below {content data : List Byte} (hdata : data = content.take 512)
    (hlen : data.length = 512) (stack other : Memory) (x : Word) (hx : x.toNat < 512) :
    placed data stack x = placed content other x := by
  have hle : x.toNat < content.length := by grind
  rw [placed, placed, List.getD_eq_getElem _ _ (by omega), List.getD_eq_getElem _ _ hle]
  subst hdata
  exact List.getElem_take

end Headers

variable {mem : Nat → Bool} {prog : Option File} {argv : List (List Byte)} {exofork r : Word}
  {stack : Memory} {w w' : World}

def fdPte (w : World) : Pte := ⟨w.next, fdPerm, fdPerm_user, fdPerm_present⟩

def opened (fd : Nat) (entry : Word) (w : World) : World :=
  { World.setPte { w with next := w.next + 1 } .parent (fdPage fd) (some (fdPte w)) with
    child := fun _ => none, eip := entry, runnable := false }

theorem Bounded.set {s : Space} {n m p : Nat} {e : Option Pte} (h : Bounded s n) (hle : n ≤ m)
    (he : ∀ pte, e = some pte → pte.page < m) : Bounded (update s p e) m :=
  (forall_update_iff s fun _ e => ∀ pte, e = some pte → pte.page < m).mpr
    ⟨he, fun q _ pte hq => (h q pte hq).trans_le hle⟩

theorem base_opened (hbound : Bounded w.parent w.next) (fd : Nat)
    (entry : Word) : Base (update w.parent (fdPage fd) (some (fdPte w))) (w.next + 1) entry
      (fun _ => none) (opened fd entry w) := by
  refine ⟨fun p _ => rfl, ?_, fun p => rfl, fun p pte hp => (by cases hp), le_rfl, rfl⟩
  exact hbound.set (Nat.le_succ _) fun pte hp => by cases hp; exact Nat.lt_succ_self _

/-- Before the descriptor is closed, the child has the pages of the program. -/
def Filled (file : File) (stack : Memory) (fd : Nat) (w w1 : World) : Prop :=
  ∃ first, Clear (update w.parent (fdPage fd) (some (fdPte w))) (w.next + 1)
    (elfAt (placed file.buf stack) 0).eEntry (programImage file (proghdrs (placed file.buf stack))
      (update (fun _ => none) (pgnum (ustacktop - pgsize)) (some first))) w1

theorem spawn_ok (hbound : Bounded w.parent w.next)
    (hrun : spawn mem prog argv exofork stack w = some (r, w')) (hr : ¬ isNeg r) :
    ∃ fd file w1, prog = some file ∧ fdAlloc w.parent = some fd ∧ file.buf.length = 512 ∧
      (∀ ph ∈ proghdrs (placed file.buf stack), ph.pType = elfProgLoad →
        ∀ p, Covers ph p → p < pgnum utop) ∧
      Filled file stack fd w w1 ∧ startChild mem exofork (closeFile fd w1) = some (r, w') := by
  unfold spawn openFile at hrun
  cases hfd : fdAlloc w.parent with
  | none =>
    simp only [hfd] at hrun
    cases hrun
    exact absurd (by decide) hr
  | some fd =>
    cases prog with
    | none =>
      simp only [hfd] at hrun
      cases hrun
      exact absurd (by decide) hr
    | some file =>
      simp only [hfd] at hrun
      obtain ⟨helf, hrun⟩ := past_error hrun (fun _ => by decide) hr
      rw [not_or, not_not] at helf
      obtain ⟨-, hrun⟩ := past_error hrun id hr
      obtain ⟨⟨r1, w1⟩, hstack, hrun⟩ := Option.bind_eq_some_iff.mp hrun
      obtain ⟨hr1, hrun⟩ := past_error hrun id hr
      obtain ⟨⟨r2, w2⟩, hsegments, hrun⟩ := Option.bind_eq_some_iff.mp hrun
      obtain ⟨hr2, hrun⟩ := past_error hrun id hr
      obtain ⟨first, hclear⟩ := (base_opened hbound fd _).initStack hstack hr1
      obtain ⟨hroom, hclear', -⟩ := hclear.mapSegments hsegments hr2
      exact ⟨fd, file, w2, rfl, rfl, helf.1, hroom, ⟨first, hclear'⟩, hrun⟩

def Touches (ph : Proghdr) (p : Nat) : Prop :=
  ph.pVa.toNat / 4096 ≤ p ∧ 4096 * p < ph.pVa.toNat + ph.pMemsz.toNat

theorem covers_iff {ph : Proghdr} {p : Nat}
    (h : ph.pMemsz.toNat + ph.pVa.toNat % 4096 < 2 ^ 32) : Covers ph p ↔ Touches ph p := by
  rw [Covers, Touches, pagesFor, BitVec.toNat_add, toNat_pgoff, Nat.mod_eq_of_lt h, pgnum_eq]
  omega

/-- What `spawn` has made of the two address spaces, for a program with the headers `phs` whose
segments have the pages `pages`. -/
structure Spawned (pages : Proghdr → Nat → Prop) (phs : List Proghdr) (w w' : World) : Prop where
  runnable : w'.runnable = true
  mapped : ∀ p, (w'.child p).isSome ↔ (∃ ph ∈ phs, ph.pType = elfProgLoad ∧ pages ph p) ∨
    p = pgnum (ustacktop - pgsize) ∨ ∃ pte, Shared w.parent p pte
  below : ∀ p, (w'.child p).isSome → p < pgnum utop
  shared : ∀ p pte, Shared w.parent p pte →
    ∃ c, w'.child p = some c ∧ c.page = pte.page ∧ c.perm = pte.perm &&& pteSyscall
  apart : ∀ p c, w'.child p = some c → (∀ pte, ¬ Shared w.parent p pte) →
    ∀ q pte, w'.parent q = some pte → pte.page ≠ c.page
  descriptor : ∃ fd, fdAlloc w.parent = some fd ∧ w'.parent (fdPage fd) = none ∧
    ∀ pte, ¬ Shared w.parent (fdPage fd) pte
  parent : ∀ p, p ≠ pgnum utemp → w'.parent p = w.parent p

theorem fdAlloc_none {s : Space} {fd : Nat} (h : fdAlloc s = some fd) :
    fd < 32 ∧ s (fdPage fd) = none := by
  have hmem := List.mem_of_find?_eq_some h
  have hnone := List.find?_some h
  exact ⟨List.mem_range.mp hmem, Option.isNone_iff_eq_none.mp hnone⟩

theorem startChild_ok {child : Word} (h : startChild mem child w = some (r, w')) : r = child ∧
    w'.runnable = true ∧ w'.parent = w.parent ∧ w'.phys = w.phys ∧ w'.eip = w.eip ∧
      ∀ p, Copied (pgnum utext) (pgnum ustacktop) p w w' := by
  unfold startChild at h
  generalize hcopy : copySharedPages mem w = res at h
  obtain ⟨r2, w2⟩ := res
  dsimp only at h
  by_cases hr2 : isNeg r2
  · rw [if_pos hr2] at h
    cases h
  rw [if_neg hr2] at h
  cases h
  unfold copySharedPages at hcopy
  have hsum : pgnum utext + (pgnum ustacktop - pgnum utext) = pgnum ustacktop :=
    Nat.add_sub_cancel' (by decide)
  obtain ⟨hparent, hphys, heip, hcopied⟩ := copyShared_ok hcopy hr2 (by rw [hsum]; decide)
  rw [hsum] at hcopied
  exact ⟨rfl, rfl, hparent, hphys, heip, hcopied⟩

theorem Clear.closeFile {fd n : Nat} {pte : Pte} {entry : Word} {image : Image} {w1 : World}
    (h : Clear (update w.parent (fdPage fd) (some pte)) n entry image w1)
    (hfd : fdAlloc w.parent = some fd) :
    (closeFile fd w1).parent (pgnum utemp) = none ∧
      ∀ p, p ≠ pgnum utemp → (closeFile fd w1).parent p = w.parent p := by
  obtain ⟨hlt, hnone⟩ := fdAlloc_none hfd
  have hne : pgnum utemp ≠ fdPage fd := by
    rw [fdPage, show pgnum utemp = 1024 by decide]
    omega
  refine ⟨(update_of_ne hne ..).trans h.clear, fun p hp => ?_⟩
  change update w1.parent (fdPage fd) none p = w.parent p
  by_cases hpage : p = fdPage fd
  · rw [hpage, update_self, hnone]
  · rw [update_of_ne hpage, h.parent p hp, update_of_ne hpage]

theorem ne_utemp {p : Nat} (hp : pgnum utext ≤ p) : p ≠ pgnum utemp := by
  rintro rfl
  exact absurd hp (by decide)

theorem spawned_of_ok (hbound : Bounded w.parent w.next)
    (hrun : spawn mem prog argv exofork stack w = some (r, w')) (hr : ¬ isNeg r) :
    ∃ file, prog = some file ∧ file.buf.length = 512 ∧
      Spawned Covers (proghdrs (placed file.buf stack)) w w' := by
  obtain ⟨fd, file, w1, hprog, hfd, hlen, hroom, ⟨first, hclear⟩, hstart⟩ :=
    spawn_ok hbound hrun hr
  obtain ⟨-, hrunnable, hparent, -, -, hcopied⟩ := startChild_ok hstart
  obtain ⟨htemp, hsame⟩ := hclear.closeFile hfd
  obtain ⟨-, hnone⟩ := fdAlloc_none hfd
  have hfdtemp : fdPage fd ≠ pgnum utemp := by
    rw [fdPage, show pgnum utemp = 1024 by decide]
    omega
  have himage : ∀ p, ((closeFile fd w1).child p).isSome ↔
      (∃ ph ∈ proghdrs (placed file.buf stack), ph.pType = elfProgLoad ∧
        Covers ph p) ∨ p = pgnum (ustacktop - pgsize) := by
    intro p
    have hp := congrArg Option.isSome (hclear.image p)
    rw [Option.isSome_map] at hp
    change (w1.child p).isSome = true ↔ _
    rw [hp, isSome_programImage]
    refine or_congr_right ?_
    by_cases heq : p = pgnum (ustacktop - pgsize)
    · rw [heq, update_self]
      simp
    · rw [update_of_ne heq]
      simp [heq]
  have hmapped : ∀ p, (w'.child p).isSome ↔
      (∃ ph ∈ proghdrs (placed file.buf stack), ph.pType = elfProgLoad ∧
        Covers ph p) ∨ p = pgnum (ustacktop - pgsize) ∨ ∃ pte, Shared w.parent p pte := by
    intro p
    rw [← or_assoc, ← himage p]
    rcases hcopied p with ⟨pte, c, hin, hpte, hshare, hchild, -⟩ | ⟨hno, hchild⟩
    · rw [hsame p (ne_utemp hin.1)] at hpte
      rw [hchild]
      exact iff_of_true rfl (.inr ⟨pte, hin, hpte, hshare⟩)
    rw [hchild]
    refine ⟨Or.inl, fun hor => hor.resolve_right ?_⟩
    rintro ⟨pte, hin, hpte, hshare⟩
    rw [← hsame p (ne_utemp hin.1)] at hpte
    exact hshare (hno pte hin.1 hin.2 hpte)
  refine ⟨file, hprog, hlen, hrunnable, hmapped, fun p hp => ?_, fun p pte hshared => ?_,
    fun p c hc hno q pte' hq => ?_, ⟨fd, hfd, ?_, fun pte' hshared => ?_⟩, fun p hp => ?_⟩
  · rcases (hmapped p).mp hp with ⟨ph, hph, hload, hcovers⟩ | rfl | ⟨pte, hin, -⟩
    · exact hroom ph hph hload p hcovers
    · decide
    · exact hin.2.trans (by decide)
  · obtain ⟨hin, hpte, hshare⟩ := hshared
    rw [← hsame p (ne_utemp hin.1)] at hpte
    rcases hcopied p with ⟨pte', c, -, hpte', -, hchild, hpage, hperm⟩ | ⟨hno, -⟩
    · obtain rfl := Option.mem_unique hpte hpte'
      exact ⟨c, hchild, hpage, hperm⟩
    · exact absurd (hno pte hin.1 hin.2 hpte) hshare
  · rw [hparent] at hq
    have hold : pte'.page < w.next := by
      by_cases hqt : q = pgnum utemp
      · rw [hqt, htemp] at hq
        cases hq
      · rw [hsame q hqt] at hq
        exact hbound q pte' hq
    rcases hcopied p with ⟨pte, d, hin, hpte, hshare, -⟩ | ⟨-, hchild⟩
    · rw [hsame p (ne_utemp hin.1)] at hpte
      exact absurd ⟨hin, hpte, hshare⟩ (hno pte)
    · have hown := (hclear.own p c (hchild.symm.trans hc)).1
      omega
  · rw [hparent, hsame _ hfdtemp, hnone]
  · rw [Shared, hnone] at hshared
    cases hshared.2.1
  · rw [hparent, hsame p hp]

section Stores

variable {p : Nat} {stores : List Nat} {w1 : World}

def Writable (s : Space) (p : Nat) : Prop := ∃ pte, s p = some pte ∧ pte.perm &&& pteW ≠ 0

/-- `w1` comes after stores at `w`. -/
structure Stored (w w1 : World) : Prop where
  bound : Bounded w1.parent w1.next
  writable : ∀ p, p ≠ pgnum pftemp → Writable w.parent p → Writable w1.parent p

theorem touch_writable (h : Writable w.parent p) : touch mem w p = some w := by
  obtain ⟨pte, hpte, hwrite⟩ := h
  rw [touch, hpte]
  exact if_pos hwrite

theorem touch_ok (hbound : Bounded w.parent w.next) (hp : p ≠ pgnum pftemp)
    (h : touch mem w p = some w1) : Stored w w1 ∧ Writable w1.parent p := by
  by_cases hwrite : Writable w.parent p
  · obtain rfl := Option.mem_unique (touch_writable hwrite) h
    exact ⟨⟨hbound, fun _ _ => id⟩, hwrite⟩
  obtain ⟨old, hold, h⟩ := Option.bind_eq_some_iff.mp h
  rw [if_neg fun hw => hwrite ⟨old, hold, hw⟩] at h
  split at h
  · cases h
    have hcopy : ∀ q, q ≠ pgnum pftemp → q = p ∨ Writable w.parent q → Writable (update (update
        w.parent p (some (.new w.next puw puw_ok))) (pgnum pftemp) none) q := by
      intro q hq hor
      rw [Writable, update_of_ne hq]
      by_cases hqp : q = p
      · rw [hqp, update_self]
        exact ⟨_, rfl, show puw &&& pteW ≠ 0 by decide⟩
      · rw [update_of_ne hqp]
        exact hor.resolve_left hqp
    exact ⟨⟨(hbound.set (Nat.le_succ _) (by grind [Pte.new])).set le_rfl (by grind),
      fun q hq hw => hcopy q hq (.inr hw)⟩, hcopy p hp (.inl rfl)⟩
  · cases h

theorem foldlM_touch_writable (h : ∀ p ∈ stores, Writable w.parent p) :
    stores.foldlM (touch mem) w = some w := by
  induction stores with
  | nil => rfl
  | cons p stores ih =>
    obtain ⟨hp, hrest⟩ := List.forall_mem_cons.mp h
    rw [List.foldlM_cons, touch_writable hp]
    exact ih hrest

theorem foldlM_touch_ok (hbound : Bounded w.parent w.next)
    (hstores : ∀ p ∈ stores, p ≠ pgnum pftemp) (h : stores.foldlM (touch mem) w = some w1) :
    Stored w w1 ∧ ∀ p ∈ stores, Writable w1.parent p := by
  induction stores generalizing w with
  | nil =>
    cases h
    exact ⟨⟨hbound, fun _ _ => id⟩, fun p hp => absurd hp List.not_mem_nil⟩
  | cons p stores ih =>
    obtain ⟨hp, hrest⟩ := List.forall_mem_cons.mp hstores
    obtain ⟨w2, hfirst, h⟩ := Option.bind_eq_some_iff.mp h
    obtain ⟨hstored, hwrite⟩ := touch_ok hbound hp hfirst
    obtain ⟨hstored', hwrites⟩ := ih hstored.bound hrest h
    exact ⟨⟨hstored'.bound, fun q hq hw => hstored'.writable q hq (hstored.writable q hq hw)⟩,
      List.forall_mem_cons.mpr ⟨hstored'.writable p hp hwrite, hwrites⟩⟩

end Stores

end Mit6828.Lib.Spawn
