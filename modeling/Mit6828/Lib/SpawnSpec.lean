import Mit6828.Lib.ForkSteps
import Mit6828.Lib.Spawn

namespace Mit6828.Lib.Spawn

open Kern.Mmu Kern.Syscall
open Mit6828.Lib.Fork (pteShare utext puw vaOf)
open Mit6828.Lib.ForkSteps (toNat_vaOf pgnum_vaOf toNat_pgoff)
open Function
open Mit6828.Library.ByteMemory (Memory bytes)

section Stores

variable {w w' : World} {who : Who} {x : Nat} {bs : List Byte} {pte : Pte}

@[simp] theorem space_setPhys (w : World) (phys : Nat → Nat → Byte) (who : Who) :
    World.space { w with phys := phys } who = w.space who := by
  cases who <;> rfl

theorem store_frame (h : w.store who x bs = some w') : w' = { w with phys := w'.phys } ∧
    ∀ q, (∀ p pte, w.space who p = some pte → pte.page ≠ q) → w'.phys q = w.phys q := by
  induction bs generalizing x w with
  | nil =>
    cases h
    exact ⟨rfl, fun _ _ => rfl⟩
  | cons b bs ih =>
    rw [World.store] at h
    split at h
    · rename_i pte hpte
      split at h
      · obtain ⟨heq, hphys⟩ := ih h
        refine ⟨heq, fun q hq => ?_⟩
        rw [space_setPhys] at hphys
        rw [hphys q hq]
        exact update_of_ne (Ne.symm (hq _ pte hpte)) ..
      · cases h
    · cases h

def written (page : Nat → Byte) (o : Nat) (bs : List Byte) : Nat → Byte :=
  fun i => if o ≤ i ∧ i < o + bs.length then bs.getD (i - o) 0 else page i

theorem store_page {p : Nat} (hpte : w.space who p = some pte) (hw : pte.perm &&& pteW ≠ 0)
    (hlo : 4096 * p ≤ x) (hhi : x + bs.length ≤ 4096 * p + 4096) : w.store who x bs = some { w with
      phys := update w.phys pte.page (written (w.phys pte.page) (x - 4096 * p) bs) } := by
  induction bs generalizing x w with
  | nil =>
    rw [World.store]
    congr 1
    have hsame : written (w.phys pte.page) (x - 4096 * p) [] = w.phys pte.page := by
      funext i
      exact if_neg (by grind)
    rw [hsame, update_eq_self]
  | cons b bs ih =>
    rw [List.length_cons] at hhi
    rw [World.store, show x / 4096 = p by omega, hpte]
    dsimp only
    rw [if_pos hw, ih (x := x + 1) (by rwa [space_setPhys]) (by omega) (by omega)]
    congr 2
    simp only [update_self, update_idem]
    congr 1
    funext i
    simp only [written, List.length_cons]
    rcases lt_trichotomy i (x - 4096 * p) with hlt | rfl | hgt
    · rw [if_neg (by omega), if_neg (by omega), update_of_ne (by omega)]
    · rw [if_neg (by omega), if_pos (by omega), show x % 4096 = x - 4096 * p by omega,
        update_self, Nat.sub_self]
      rfl
    · by_cases hin : i < x - 4096 * p + (bs.length + 1)
      · rw [if_pos (by omega), if_pos (by omega),
          show i - (x - 4096 * p) = (i - (x + 1 - 4096 * p)) + 1 by omega]
        rfl
      · rw [if_neg (by omega), if_neg (by omega), update_of_ne (by omega)]

end Stores

section Calls

variable {mem : Nat → Bool} {w w' : World} {who src dst : Who} {va srcva dstva perm r : Word}

theorem not_isNeg_zero : ¬ isNeg 0 := by decide

/-- A call that has succeeded went past a test that returns an error. -/
theorem past_error {c : Prop} [Decidable c] {r0 : Word} {x : Option (Word × World)}
    (h : (if c then some (r0, w) else x) = some (r, w')) (hneg : c → isNeg r0) (hr : ¬ isNeg r) :
    ¬ c ∧ x = some (r, w') := by
  split at h
  · rename_i hc
    cases h
    exact absurd (hneg hc) hr
  · rename_i hc
    exact ⟨hc, h⟩

theorem sysPageAlloc_ok (h : sysPageAlloc mem who va perm w = (r, w')) (hr : ¬ isNeg r) :
    r = 0 ∧ ¬ badVa va ∧ ∃ pte : Pte, pte.page = w.next ∧ pte.perm = perm ∧
      w' = World.setPte { w.tick with
        phys := update w.phys w.next fun _ => 0
        next := w.next + 1 } who (pgnum va) (some pte) := by
  obtain ⟨rfl, hva, p, hperm, heq, rfl⟩ := pageCall_ok h hr
  cases heq
  exact ⟨rfl, hva va List.mem_cons_self, .new w.next perm hperm, rfl, rfl, rfl⟩

theorem sysPageMap_ok (h : sysPageMap mem src srcva dst dstva perm w = (r, w')) (hr : ¬ isNeg r) :
    r = 0 ∧ ¬ badVa dstva ∧ ∃ pte pte' : Pte, w.space src (pgnum srcva) = some pte ∧
      pte'.page = pte.page ∧ pte'.perm = perm ∧
      w' = w.tick.setPte dst (pgnum dstva) (some pte') := by
  obtain ⟨rfl, hva, pte, hperm, hpte, rfl⟩ := pageCall_ok h hr
  exact ⟨rfl, hva dstva (by simp), pte, .new pte.page perm hperm, hpte, rfl, rfl, rfl⟩

end Calls

abbrev Image := Nat → Option (Nat → Byte)

/-- Outside `UTEMP` the parent maps what `P` maps, whose pages are below `n`.  The pages of the
child are its own, with the contents `image`. -/
structure Base (P : Space) (n : Nat) (entry : Word) (image : Image) (w : World) : Prop where
  parent : ∀ p, p ≠ pgnum utemp → w.parent p = P p
  old : Bounded P n
  image : ∀ p, (w.child p).map (fun pte => w.phys pte.page) = image p
  own : ∀ p pte, w.child p = some pte → n ≤ pte.page ∧ pte.page < w.next
  next : n ≤ w.next
  entry : w.eip = entry

structure Clear (P : Space) (n : Nat) (entry : Word) (image : Image) (w : World) : Prop
    extends Base P n entry image w where
  clear : w.parent (pgnum utemp) = none

/-- The page at `UTEMP` is not yet in the child; its contents are `tmp`. -/
structure Busy (P : Space) (n : Nat) (entry : Word) (image : Image) (tmp : Nat → Byte) (pte : Pte)
    (w : World) : Prop extends Base P n entry image w where
  busy : w.parent (pgnum utemp) = some pte
  tmp : w.phys pte.page = tmp
  mine : n ≤ pte.page ∧ pte.page < w.next
  write : pte.perm &&& pteW ≠ 0
  apart : ∀ p c, w.child p = some c → c.page ≠ pte.page

section Steps

variable {mem : Nat → Bool} {P : Space} {n : Nat} {entry : Word} {image : Image} {tmp : Nat → Byte}
  {pte : Pte} {w w' : World} {va perm r : Word} {bs : List Byte} {x : Nat}

theorem map_update {phys : Nat → Nat → Byte} {q : Nat}
    (himage : ∀ p, (w.child p).map (fun d => phys d.page) = image p) (htmp : phys pte.page = tmp)
    (p : Nat) : (update w.child q (some pte) p).map (fun d => phys d.page) =
      update image q (some tmp) p := by
  rw [← htmp, ← funext himage]
  exact apply_update (fun _ => Option.map fun d => phys d.page) w.child q (some pte) p

theorem Base.own_update {m p q : Nat} {d : Pte} (h : Base P n entry image w)
    (hpte : n ≤ pte.page ∧ pte.page < m) (hm : w.next ≤ m)
    (hd : update w.child q (some pte) p = some d) : n ≤ d.page ∧ d.page < m := by
  by_cases hp : p = q
  · rw [hp, update_self] at hd
    cases hd
    exact hpte
  · rw [update_of_ne hp] at hd
    exact (h.own p d hd).imp_right hm.trans_lt'

theorem Base.alloc_temp (h : Base P n entry image w)
    (hcall : sysPageAlloc mem .parent utemp puw w = (r, w')) (hr : ¬ isNeg r) :
    (∀ q < n, w'.phys q = w.phys q) ∧ ∃ pte, Busy P n entry image (fun _ => 0) pte w' := by
  obtain ⟨-, -, pte, hpage, hperm, rfl⟩ := sysPageAlloc_ok hcall hr
  refine ⟨fun q hq => update_of_ne (hq.trans_le h.next).ne .., pte, ⟨fun p hp => ?_, h.old,
    fun p => ?_, fun p c hc => ?_, ?_, h.entry⟩, ?_, ?_, ?_, ?_, fun p c hc => ?_⟩
  · exact (update_of_ne hp ..).trans (h.parent p hp)
  · exact (Option.map_congr fun c hc => update_of_ne (h.own p c hc).2.ne ..).trans (h.image p)
  · exact (h.own p c hc).imp_right Nat.lt_succ_of_lt
  · exact h.next.trans (Nat.le_succ _)
  · exact update_self (pgnum utemp) (some pte) w.parent
  · change update w.phys w.next (fun _ => 0) pte.page = _
    rw [hpage, update_self]
  · rw [hpage]
    exact ⟨h.next, Nat.lt_succ_self _⟩
  · rw [hperm]
    decide
  · rw [hpage]
    exact (h.own p c hc).2.ne

section

variable (h : Busy P n entry image tmp pte w)
include h

theorem Busy.store
    (hstore : w.store .parent x bs = some w') : ∃ tmp', Busy P n entry image tmp' pte w' := by
  obtain ⟨heq, hphys⟩ := store_frame hstore
  rw [heq]
  refine ⟨w'.phys pte.page, { h with image := fun p => ?_, tmp := rfl }⟩
  refine (Option.map_congr fun c hc => hphys c.page fun q pte' hq heq => ?_).trans (h.image p)
  by_cases htemp : q = pgnum utemp
  · rw [htemp] at hq
    obtain rfl := Option.mem_unique h.busy hq
    exact h.apart p c hc heq.symm
  · have hold := h.old q pte' ((h.parent q htemp).symm.trans hq)
    have hown := (h.own p c hc).1
    omega

theorem Busy.store_page (bs : List Byte) (hlo : 4096 * pgnum utemp ≤ x)
    (hhi : x + bs.length ≤ 4096 * pgnum utemp + 4096) : ∃ w', w.store .parent x bs = some w' ∧
      Busy P n entry image (written tmp (x - 4096 * pgnum utemp) bs) pte w' ∧
      ∀ q < n, w'.phys q = w.phys q := by
  have hspace : w.space .parent (pgnum utemp) = some pte := h.busy
  have hstore := Spawn.store_page hspace h.write hlo hhi
  have hnot : ∀ q, q ≠ pte.page → update w.phys pte.page
      (written (w.phys pte.page) (x - 4096 * pgnum utemp) bs) q = w.phys q :=
    fun q hq => update_of_ne hq ..
  refine ⟨_, hstore, { h with image := fun p => ?_, tmp := ?_ },
    fun q hq => hnot q (by have := h.mine.1; omega)⟩
  · exact (Option.map_congr fun c hc => hnot c.page (h.apart p c hc)).trans (h.image p)
  · rw [← h.tmp]
    exact update_self ..

theorem Busy.setEsp (esp : Word) : Busy P n entry image tmp pte { w with esp := esp } :=
  { h with }

theorem Busy.map_temp
    (hcall : sysPageMap mem .parent utemp .child va perm w = (r, w')) (hr : ¬ isNeg r) :
    ¬ badVa va ∧ ∃ w'', sysPageUnmap .parent utemp w' = (0, w'') ∧ w''.phys = w.phys ∧
      Clear P n entry (update image (pgnum va) (some tmp)) w'' := by
  obtain ⟨-, hva, src, c, hsrc, hpage, -, rfl⟩ := sysPageMap_ok hcall hr
  obtain rfl := Option.mem_unique h.busy hsrc
  refine ⟨hva, (w.tick.setPte .child (pgnum va) (some c)).tick.setPte .parent (pgnum utemp) none,
    by rw [sysPageUnmap, if_neg (by decide)], rfl, ⟨fun p hp => ?_, h.old, fun p => ?_,
      fun p d hd => ?_, h.next, h.entry⟩, ?_⟩
  · exact (update_of_ne hp ..).trans (h.parent p hp)
  · exact map_update h.image (by rw [hpage, h.tmp]) p
  · exact h.own_update (hpage ▸ h.mine) le_rfl hd
  · exact update_self (pgnum utemp) (none : Option Pte) w.parent

end

theorem Clear.alloc_child (h : Clear P n entry image w)
    (hcall : sysPageAlloc mem .child va perm w = (r, w')) (hr : ¬ isNeg r) :
    ¬ badVa va ∧ (∀ q < n, w'.phys q = w.phys q) ∧
      Clear P n entry (update image (pgnum va) (some fun _ => 0)) w' := by
  obtain ⟨-, hva, c, hpage, -, rfl⟩ := sysPageAlloc_ok hcall hr
  have hnext := h.next
  refine ⟨hva, fun q hq => update_of_ne (by omega) .., ⟨h.parent, h.old, fun p => ?_,
    fun p d hd => ?_, hnext.trans (Nat.le_succ _), h.entry⟩, h.clear⟩
  · refine map_update (fun q => ?_) (hpage ▸ update_self ..) p
    exact (Option.map_congr fun d hd => update_of_ne (h.own q d hd).2.ne ..).trans (h.image q)
  · exact h.own_update ⟨hpage.ge.trans' hnext, Nat.lt_succ_of_le hpage.le⟩ (Nat.le_succ _) hd

end Steps

def segmentPage (file : File) (filesz fileoffset : Word) (j : Nat) : Nat → Byte :=
  if vaOf j ≥ filesz then fun _ => 0
  else written (fun _ => 0) 0
    ((file.read (fileoffset + vaOf j) (minWord pgsize (filesz - vaOf j))).getD [])

section Segments

variable {mem : Nat → Bool} {P : Space} {n : Nat} {entry : Word} {image : Image} {w w' : World}
  {file : File} {va filesz fileoffset perm r : Word} {left j p : Nat}

theorem vaOf_succ (j : Nat) : vaOf j + pgsize = vaOf (j + 1) := by
  rw [vaOf, vaOf, BitVec.ofNat_add, BitVec.add_mul]
  rfl

theorem toNat_minWord_le (x : Word) : (minWord pgsize x).toNat ≤ 4096 := by
  rw [minWord]
  split
  · exact le_rfl
  · rename_i hle
    exact (BitVec.lt_def.mp (BitVec.not_le.mp hle)).le

/-- Page `p` of the child has come since `w`, and nothing else of the child maps its frame. -/
def Fresh (perm : Word) (w w' : World) (p : Nat) : Prop :=
  ∃ c, w'.child p = some c ∧ c.perm = perm ∧ w.next ≤ c.page ∧
    ∀ q d, w'.child q = some d → d.page = c.page → q = p

theorem Clear.mapPages_succ (h : Clear P n entry image w)
    (hrun : mapPages mem file va filesz fileoffset perm (left + 1) (vaOf j) w = some (r, w'))
    (hr : ¬ isNeg r) : ¬ badVa (va + vaOf j) ∧ ∃ w1,
      (∃ c, w1.child = update w.child (pgnum (va + vaOf j)) (some c) ∧ c.perm = perm ∧
        c.page = w.next ∧ w.next < w1.next) ∧
      Clear P n entry (update image (pgnum (va + vaOf j))
        (some (segmentPage file filesz fileoffset j))) w1 ∧
      (∀ q < n, w1.phys q = w.phys q) ∧
      mapPages mem file va filesz fileoffset perm left (vaOf (j + 1)) w1 = some (r, w') := by
  rw [mapPages, vaOf_succ] at hrun
  split at hrun
  · rename_i hge
    generalize hcall : sysPageAlloc mem .child (va + vaOf j) perm w = res at hrun
    obtain ⟨r1, w1⟩ := res
    obtain ⟨hr1, hrun⟩ := past_error hrun id hr
    obtain ⟨hva, hkept, hclear⟩ := h.alloc_child hcall hr1
    obtain ⟨-, -, c, hpage, hperm, rfl⟩ := sysPageAlloc_ok hcall hr1
    refine ⟨hva, _, ⟨c, rfl, hperm, hpage, Nat.lt_succ_self _⟩, ?_, hkept, hrun⟩
    rwa [segmentPage, if_pos hge]
  rename_i hlt
  generalize hcall : sysPageAlloc mem .parent utemp puw w = res at hrun
  obtain ⟨r1, w1⟩ := res
  obtain ⟨hr1, hrun⟩ := past_error hrun id hr
  obtain ⟨hkept, pte, hbusy⟩ := h.toBase.alloc_temp hcall hr1
  split at hrun
  · cases hrun
    exact absurd (by decide) hr
  rename_i data hread
  have hlen := (file.le hread).trans (toNat_minWord_le _)
  obtain ⟨w2, hstore, hbusy2, hkept2⟩ := hbusy.store_page (x := utemp.toNat) data
    (by decide) (by change 4194304 + _ ≤ 4194304 + 4096; omega)
  rw [hstore] at hrun
  simp only [Option.bind_eq_bind, Option.bind_some] at hrun
  generalize hmap : sysPageMap mem .parent utemp .child (va + vaOf j) perm w2 = res2 at hrun
  obtain ⟨r2, w3⟩ := res2
  dsimp only at hrun
  split at hrun
  · cases hrun
  rename_i hr2
  obtain ⟨hva, w4, hunmap, hphys, hclear⟩ := hbusy2.map_temp hmap hr2
  rw [hunmap] at hrun
  refine ⟨hva, w4, ?_, ?_, fun q hq => ?_, hrun⟩
  · obtain ⟨-, -, pte', hnext, -, rfl⟩ := sysPageAlloc_ok hcall hr1
    obtain ⟨hframe, -⟩ := store_frame hstore
    obtain ⟨-, -, src, c, hsrc, hpage, hperm, rfl⟩ := sysPageMap_ok hmap hr2
    rw [sysPageUnmap, if_neg (by decide)] at hunmap
    cases hunmap
    rw [hframe] at hsrc ⊢
    change update w.parent (pgnum utemp) (some pte') (pgnum utemp) = some src at hsrc
    rw [update_self] at hsrc
    cases hsrc
    exact ⟨c, rfl, hperm, hpage.trans hnext, Nat.lt_succ_self _⟩
  · rw [segmentPage, if_neg hlt, hread]
    exact hclear
  · rw [hphys, hkept2 q hq, hkept q hq]

theorem Clear.mapPages {b : Nat} (h : Clear P n entry image w) (hb : pgnum (va + vaOf j) = b)
    (hrun : mapPages mem file va filesz fileoffset perm left (vaOf j) w = some (r, w'))
    (hr : ¬ isNeg r) : (0 < left → b + left ≤ pgnum utop) ∧
      Clear P n entry (fun p => if b ≤ p ∧ p < b + left then
        some (segmentPage file filesz fileoffset (j + (p - b))) else image p) w' ∧
      (∀ q < n, w'.phys q = w.phys q) ∧
      (∀ p, b ≤ p → p < b + left → Fresh perm w w' p) ∧
      ∀ p, ¬ (b ≤ p ∧ p < b + left) → w'.child p = w.child p := by
  induction left generalizing b j w image with
  | zero =>
    cases hrun
    refine ⟨fun hpos => absurd hpos (by omega), ?_, fun _ _ => rfl, fun p hlo hhi => by omega,
      fun _ _ => rfl⟩
    have himage : (fun p => if b ≤ p ∧ p < b + 0 then
        some (segmentPage file filesz fileoffset (j + (p - b))) else image p) =
        image := by
      funext p
      exact if_neg (by omega)
    rwa [himage]
  | succ left ih =>
    obtain ⟨hva, w1, ⟨c, hchild, hperm, hfresh, hnew⟩, hclear, hkept, hrest⟩ :=
      h.mapPages_succ hrun hr
    obtain ⟨hlt, halign⟩ := not_badVa_iff.mp hva
    rw [hb] at hclear hchild
    rw [pgnum_eq] at hb
    have hnext : pgnum (va + vaOf (j + 1)) = b + 1 := by
      rw [← vaOf_succ, ← BitVec.add_assoc, pgnum_eq, BitVec.toNat_add,
        show pgsize.toNat = 4096 from rfl]
      omega
    have hpage : b < pgnum utop := by
      rw [show pgnum utop = 977920 by decide]
      omega
    obtain ⟨hroom, hclear', hkept', hpages, hothers⟩ := ih hclear hnext hrest
    refine ⟨fun _ => ?_, ?_, fun q hq => (hkept' q hq).trans (hkept q hq), fun p hlo hhi => ?_,
      fun p hp => ?_⟩
    · by_cases hleft : 0 < left
      · have := hroom hleft
        omega
      · omega
    · convert hclear' using 1
      funext p
      by_cases hp : p = b
      · rw [if_pos (by omega), if_neg (by omega), hp, update_self, Nat.sub_self, Nat.add_zero]
      rw [update_of_ne hp]
      by_cases hin : b + 1 ≤ p ∧ p < b + 1 + left
      · rw [if_pos (by omega), if_pos hin]
        congr 2
        omega
      · rw [if_neg (by omega), if_neg hin]
    · rcases hlo.lt_or_eq with hlt' | rfl
      · obtain ⟨d, hd, hdperm, hdpage, honly⟩ := hpages p hlt' (by omega)
        exact ⟨d, hd, hdperm, by omega, honly⟩
      · refine ⟨c, by rw [hothers _ (by omega), hchild, update_self], hperm, hfresh.ge,
          fun q d hd heq => ?_⟩
        by_contra hne
        by_cases hin : b + 1 ≤ q ∧ q < b + 1 + left
        · obtain ⟨d', hd', -, hdpage, -⟩ := hpages q hin.1 hin.2
          obtain rfl := Option.mem_unique hd hd'
          omega
        · rw [hothers q hin, hchild, update_of_ne hne] at hd
          have := (h.own q d hd).2
          omega
    · rw [hothers p (by omega), hchild, update_of_ne (by omega)]

end Segments

def Covers (ph : Proghdr) (p : Nat) : Prop :=
  pgnum ph.pVa ≤ p ∧ p < pgnum ph.pVa + pagesFor (ph.pMemsz + pgoff ph.pVa)
deriving Decidable

def segmentImage (file : File) (ph : Proghdr) (p : Nat) : Nat → Byte :=
  segmentPage file (ph.pFilesz + pgoff ph.pVa) (ph.pOffset - pgoff ph.pVa) (p - pgnum ph.pVa)

def programImage (file : File) : List Proghdr → Image → Image
  | [], image => image
  | ph :: phs, image => programImage file phs
      (if ph.pType = elfProgLoad then
        fun p => if Covers ph p then some (segmentImage file ph p) else image p
      else image)

theorem isSome_programImage {file : File} {phs : List Proghdr} {image : Image} {p : Nat} :
    (programImage file phs image p).isSome ↔
      (∃ ph ∈ phs, ph.pType = elfProgLoad ∧ Covers ph p) ∨ (image p).isSome := by
  induction phs generalizing image with
  | nil => simp [programImage]
  | cons ph phs ih =>
    rw [programImage, ih]
    simp only [List.mem_cons, exists_eq_or_imp]
    by_cases hload : ph.pType = elfProgLoad
    · by_cases hcovers : Covers ph p
      · simp [hload, hcovers]
      · simp [hload, hcovers]
    · simp [hload]

def Shared (s : Space) (p : Nat) (pte : Pte) : Prop :=
  (pgnum utext ≤ p ∧ p < pgnum ustacktop) ∧ s p = some pte ∧ pte.perm &&& pteShare ≠ 0

section Spawn

variable {mem : Nat → Bool} {P : Space} {n : Nat} {entry : Word} {image : Image} {tmp : Nat → Byte}
  {pte : Pte} {w w' : World} {file : File} {r : Word} {argv : List (List Byte)}

theorem pgnum_sub_pgoff (va : Word) : pgnum (va - pgoff va + vaOf 0) = pgnum va := by
  have hoff := toNat_pgoff va
  rw [show vaOf 0 = 0 from rfl, add_zero, pgnum_eq, pgnum_eq, BitVec.toNat_sub, hoff]
  omega

theorem Clear.mapSegments {phs : List Proghdr} (h : Clear P n entry image w)
    (hrun : mapSegments mem file phs w = some (r, w')) (hr : ¬ isNeg r) :
    (∀ ph ∈ phs, ph.pType = elfProgLoad → ∀ p, Covers ph p → p < pgnum utop) ∧
      Clear P n entry (programImage file phs image) w' ∧ ∀ q < n, w'.phys q = w.phys q := by
  induction phs generalizing image w with
  | nil =>
    cases hrun
    exact ⟨fun _ hph => absurd hph List.not_mem_nil, h, fun _ _ => rfl⟩
  | cons ph phs ih =>
    rw [Spawn.mapSegments] at hrun
    rw [programImage]
    by_cases hload : ph.pType = elfProgLoad
    · rw [if_neg (not_not.mpr hload)] at hrun
      obtain ⟨⟨r1, w1⟩, hsegment, hrest⟩ := Option.bind_eq_some_iff.mp hrun
      obtain ⟨hr1, hrest⟩ := past_error hrest id hr
      obtain ⟨hroom, hclear, hkept, -⟩ := h.mapPages (j := 0) (pgnum_sub_pgoff _) hsegment hr1
      rw [if_pos hload]
      have hclear1 : Clear P n entry
          (fun p => if Covers ph p then some (segmentImage file ph p) else image p) w1 := by
        simp only [Nat.zero_add] at hclear
        exact hclear
      obtain ⟨hrooms, hclear', hkept'⟩ := ih hclear1 hrest
      refine ⟨List.forall_mem_cons.mpr ⟨fun _ p hp => ?_, hrooms⟩, hclear',
        fun q hq => (hkept' q hq).trans (hkept q hq)⟩
      obtain ⟨hlo, hhi⟩ := hp
      have := hroom (by omega)
      omega
    · rw [if_pos hload] at hrun
      rw [if_neg hload]
      obtain ⟨hrooms, hclear, hkept⟩ := ih h hrun
      exact ⟨List.forall_mem_cons.mpr ⟨fun hl => absurd hl hload, hrooms⟩, hclear, hkept⟩

theorem Busy.copyArgs {store string : Word} (h : Busy P n entry image tmp pte w)
    (hrun : copyArgs argv store string w = some w') : ∃ tmp', Busy P n entry image tmp' pte w' := by
  induction argv generalizing store string w tmp with
  | nil =>
    cases hrun
    exact ⟨tmp, h⟩
  | cons arg argv ih =>
    obtain ⟨w1, hfirst, hrun⟩ := Option.bind_eq_some_iff.mp hrun
    obtain ⟨w2, hsecond, hrun⟩ := Option.bind_eq_some_iff.mp hrun
    obtain ⟨_, h1⟩ := h.store hfirst
    obtain ⟨_, h2⟩ := h1.store hsecond
    exact ih h2 hrun

theorem Base.initStack (h : Base P n entry image w) (hrun : initStack mem argv w = some (r, w'))
    (hr : ¬ isNeg r) : ∃ stack, Clear P n entry
      (update image (pgnum (ustacktop - pgsize)) (some stack)) w' := by
  unfold Spawn.initStack at hrun
  dsimp only at hrun
  obtain ⟨-, hrun⟩ := past_error hrun (fun _ => by decide) hr
  generalize hcall : sysPageAlloc mem .parent utemp puw w = res at hrun
  obtain ⟨r1, w1⟩ := res
  obtain ⟨hr1, hrun⟩ := past_error hrun id hr
  obtain ⟨-, pte, hbusy⟩ := h.alloc_temp hcall hr1
  obtain ⟨w2, hargs, hrun⟩ := Option.bind_eq_some_iff.mp hrun
  obtain ⟨w3, hnull, hrun⟩ := Option.bind_eq_some_iff.mp hrun
  obtain ⟨w4, hargv, hrun⟩ := Option.bind_eq_some_iff.mp hrun
  obtain ⟨w5, hargc, hrun⟩ := Option.bind_eq_some_iff.mp hrun
  obtain ⟨_, hbusy⟩ := hbusy.copyArgs hargs
  obtain ⟨_, hbusy⟩ := hbusy.store hnull
  obtain ⟨_, hbusy⟩ := hbusy.store hargv
  obtain ⟨stack, hbusy⟩ := hbusy.store hargc
  have hbusy' := hbusy.setEsp (utemp2ustack (argvStore argv - 8))
  generalize hmap : sysPageMap mem .parent utemp .child (ustacktop - pgsize) puw _ = res2 at hrun
  obtain ⟨r2, w6⟩ := res2
  obtain ⟨hr2, hrun⟩ := past_error hrun id hr
  obtain ⟨-, w7, hunmap, -, hclear⟩ := hbusy'.map_temp hmap hr2
  rw [hunmap] at hrun
  cases hrun
  exact ⟨stack, hclear⟩

/-- What `copy_shared_pages` does with page `p`, for those from `pn` on below `stop`. -/
def Copied (pn stop p : Nat) (w w' : World) : Prop :=
  (∃ pte c : Pte, (pn ≤ p ∧ p < stop) ∧ w.parent p = some pte ∧ pte.perm &&& pteShare ≠ 0 ∧
      w'.child p = some c ∧ c.page = pte.page ∧ c.perm = pte.perm &&& pteSyscall) ∨
    (∀ pte, pn ≤ p → p < stop → w.parent p = some pte → pte.perm &&& pteShare = 0) ∧
      w'.child p = w.child p

theorem Copied.pass {pn stop p : Nat} (h : Copied (pn + 1) stop p w w')
    (hno : ∀ pte, w.parent pn = some pte → pte.perm &&& pteShare = 0) : Copied pn stop p w w' := by
  rcases h with ⟨pte, c, hin, hrest⟩ | ⟨hnone, hchild⟩
  · exact .inl ⟨pte, c, ⟨by omega, hin.2⟩, hrest⟩
  · refine .inr ⟨fun pte hlo hhi hpte => ?_, hchild⟩
    rcases hlo.lt_or_eq with hlt | rfl
    · exact hnone pte hlt hhi hpte
    · exact hno pte hpte

theorem copyShared_ok {left pn : Nat} (hrun : copyShared mem left pn w = (r, w')) (hr : ¬ isNeg r)
    (hend : pn + left ≤ 1048576) : w'.parent = w.parent ∧ w'.phys = w.phys ∧ w'.eip = w.eip ∧
      ∀ p, Copied pn (pn + left) p w w' := by
  induction left generalizing pn w with
  | zero =>
    cases hrun
    exact ⟨rfl, rfl, rfl, fun p => .inr ⟨fun pte hlo hhi => absurd hhi (by omega), rfl⟩⟩
  | succ left ih =>
    rw [show pn + (left + 1) = pn + 1 + left by omega]
    unfold copyShared at hrun
    cases hpte : w.parent pn with
    | none =>
      simp only [hpte] at hrun
      obtain ⟨hparent, hphys, heip, hcopied⟩ := ih hrun (by omega)
      refine ⟨hparent, hphys, heip, fun p => (hcopied p).pass fun pte hp => ?_⟩
      rw [hpte] at hp
      cases hp
    | some pte =>
      simp only [hpte] at hrun
      split at hrun
      · rename_i hshare
        generalize hcall : sysPageMap mem .parent (vaOf pn) .child (vaOf pn)
          (pte.perm &&& pteSyscall) w = res at hrun
        obtain ⟨r1, w1⟩ := res
        dsimp only at hrun
        split at hrun
        · cases hrun
          contradiction
        rename_i hr1
        obtain ⟨-, -, src, c, hsrc, hpage, hperm, rfl⟩ := sysPageMap_ok hcall hr1
        rw [pgnum_vaOf (by omega)] at hsrc hrun
        obtain rfl := Option.mem_unique hpte hsrc
        obtain ⟨hparent, hphys, heip, hcopied⟩ := ih hrun (by omega)
        refine ⟨hparent, hphys, heip, fun p => ?_⟩
        rcases hcopied p with ⟨pte', c', hin, hrest⟩ | ⟨hnone, hchild⟩
        · exact .inl ⟨pte', c', ⟨by omega, hin.2⟩, hrest⟩
        change w'.child p = update w.child pn (some c) p at hchild
        by_cases hp : p = pn
        · subst hp
          rw [update_self] at hchild
          exact .inl ⟨pte, c, ⟨le_rfl, by omega⟩, hpte, hshare, hchild, hpage, hperm⟩
        · rw [update_of_ne hp] at hchild
          exact .inr ⟨fun pte' hlo hhi hp' => hnone pte' (by omega) hhi hp', hchild⟩
      · rename_i hshare
        obtain ⟨hparent, hphys, heip, hcopied⟩ := ih hrun (by omega)
        refine ⟨hparent, hphys, heip, fun p => (hcopied p).pass fun pte' hp => ?_⟩
        obtain rfl := Option.mem_unique hpte hp
        exact not_not.mp hshare

end Spawn

end Mit6828.Lib.Spawn
