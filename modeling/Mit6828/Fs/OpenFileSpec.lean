import Mit6828.Fs.OpenFile

namespace Mit6828.Fs.OpenFileSpec

open Kern.Mmu Function

/-- A file id that was handed to a client with the Fd page of `slot`, for the file at `file`.
It is held from then on until no client maps the page any more. -/
structure Handle where
  id : Word
  slot : Nat
  file : Nat
  held : Bool

/-- The table, all ids handed out so far, the number of calls of `serve_open`, and whether one of
them has returned an error of `openfile_alloc` although there was memory and some slot was not
held by a client. -/
structure History where
  table : Opentab
  handles : List Handle
  opens : Nat
  refused : Prop

def init : History := ⟨serveInit, [], 0, False⟩

def settle (t : Opentab) (h : Handle) : Handle :=
  { h with held := h.held && decide (t.held h.slot ≠ ∅) }

def History.move (s : History) (t : Opentab) : History :=
  { s with table := t, handles := s.handles.map (settle t) }

def History.refuse (s : History) (room : Bool) (t : Opentab) : History :=
  { s with table := t, opens := s.opens + 1
           refused := s.refused ∨ room = true ∧ ∃ j < maxopen, s.table.held j = ∅ }

/-- `serve_open` and the reply.  `found` is the file that the calls of `fs.c` in between find, if
they do not fail, and `c` where the client asks for the Fd page, if it does. -/
def serveOpen (room : Bool) (found : Option Nat) (mode : Word) (c : Option Client)
    (s : History) : History :=
  match openfileAlloc room s.table with
  | (.error _, t) => s.refuse room t
  | (.ok i, t) =>
    if isNeg (t.file i).oFileid then s.refuse room t
    else
      match found, c with
      | none, _ => { s with table := t, opens := s.opens + 1 }
      | some f, none => { s with table := t.fill i f mode, opens := s.opens + 1 }
      | some f, some c =>
        let s' := s.move ((t.fill i f mode).map i c)
        { s' with handles := ⟨(t.file i).oFileid, i, f, true⟩ :: s'.handles
                  opens := s.opens + 1 }

/-- An open request is served, a client that has an Fd page passes it on (`dup`, `fork`, `spawn`,
a message, a request to the server), or a mapping is given up. -/
inductive Step (s : History) : History → Prop
  | serve (room : Bool) (found : Option Nat) (mode : Word) (c : Option Client) :
      Step s (serveOpen room found mode c s)
  | share (i : Nat) (c : Client) (hheld : s.table.held i ≠ ∅) : Step s (s.move (s.table.map i c))
  | unmap (c : Client) : Step s (s.move (s.table.unmap c))

structure Handled (t : Opentab) (h : Handle) : Prop where
  nonneg : ¬ isNeg h.id
  resolves : h.held = true → openfileLookup t h.id = some h.slot ∧ (t.file h.slot).oFile = h.file
  stale : h.held = false → openfileLookup t h.id = none

structure Sound (s : History) : Prop where
  served : ¬ s.refused
  handled : ∀ h ∈ s.handles, Handled s.table h

/-- Fewer than `2 ^ 21` calls of `serve_open` so far, fewer than `2 ^ 16` mappings of any Fd page,
and none of them as a request page. -/
structure Within (s : History) : Prop where
  opens : s.opens < 2097152
  card : ∀ i, (s.table.clients i).card + 1 < 65536
  request : ∀ i, atFsreq ∉ s.table.clients i

theorem Within.held {s : History} (h : Within s) (i : Nat) : s.table.held i = s.table.clients i :=
  Finset.erase_eq_of_notMem (h.request i)

def BoundedStep (s s' : History) : Prop := Step s s' ∧ Within s'

/-- Only the last use of a slot can be held. -/
structure Tracked (t : Opentab) (x : Handle) : Prop where
  slot : x.slot < maxopen
  id : x.id.toNat % maxopen = x.slot
  le : x.id.toNat ≤ (t.file x.slot).oFileid.toNat
  held : x.held = true → x.id = (t.file x.slot).oFileid ∧ (t.file x.slot).oFile = x.file ∧
    t.clients x.slot ≠ ∅
  dropped : x.held = false → x.id = (t.file x.slot).oFileid → t.clients x.slot = ∅

/-- Slot `i` has id `i + 1024 * g` in its `g`-th use. -/
structure Inv (t : Opentab) (hs : List Handle) (n : Nat) : Prop where
  unmapped : ∀ i, t.mapped i = false → t.clients i = ∅
  ids : ∀ i < maxopen, (t.file i).oFileid.toNat % maxopen = i ∧
    (t.file i).oFileid.toNat / maxopen ≤ n
  tracked : ∀ x ∈ hs, Tracked t x

variable {t t' : Opentab} {hs : List Handle} {n i f : Nat} {mode : Word} {c : Client} {room : Bool}

theorem inv_init : Inv serveInit [] 0 where
  unmapped := fun _ _ => rfl
  ids := by
    intro i hi
    simp only [serveInit, BitVec.toNat_ofNat, maxopen] at hi ⊢
    omega
  tracked := by simp

theorem toNat_bump {w : Word} (hw : w.toNat / maxopen + 1 < 4194304) :
    (w + BitVec.ofNat 32 maxopen).toNat = w.toNat + maxopen := by
  grind

/-- What a use of slot `i` leaves: the slot is mapped, its id is the next one, and nothing else
has changed. -/
structure Claimed (t : Opentab) (i : Nat) (t' : Opentab) : Prop where
  file : t'.file = (t.claim i).file
  clients : t'.clients = t.clients
  mapped : ∀ j, t'.mapped j = false → t.mapped j = false
  slot : t'.mapped i = true

theorem claimed_of_allocated {r : Except Word Nat} (h : Inv t hs n)
    (hcard : ∀ j, (t.clients j).card + 1 < 65536) (hrun : Allocated room t r t') :
    ((∃ e, r = .error e) ∧ t' = t ∧ (room = true → ∀ j < maxopen, t.clients j ≠ ∅)) ∨
      ∃ i < maxopen, r = .ok i ∧ t.clients i = ∅ ∧ Claimed t i t' := by
  have hfree : ∀ j, pageref t j ≤ 1 ↔ t.clients j = ∅ := fun j =>
    pageref_le_one_iff (h.unmapped j) (hcard j)
  cases hrun with
  | full hheld =>
    refine .inl ⟨⟨_, rfl⟩, rfl, fun _ j hj hempty => ?_⟩
    have hlow := (hfree j).mpr hempty
    have hhigh := hheld j hj
    omega
  | noMem hroom => exact .inl ⟨⟨_, rfl⟩, rfl, fun htrue => by simp [hroom] at htrue⟩
  | @reused i hi hone =>
    refine .inr ⟨i, hi, rfl, (hfree i).mp (by omega), rfl, rfl, fun _ hj => hj, ?_⟩
    change t.mapped i = true
    by_contra hmapped
    simp [pageref, hmapped] at hone
  | @fresh i hi hzero =>
    have hempty := (hfree i).mp (by omega)
    refine .inr ⟨i, hi, rfl, hempty, rfl, ?_, fun j hj => ?_, update_self _ _ _⟩
    · change update t.clients i ∅ = t.clients
      rw [← hempty, update_eq_self]
    by_cases hji : j = i
    · subst hji
      simp [Opentab.claim, Opentab.set, Opentab.newPage] at hj
    · rwa [show ((t.newPage i).claim i).mapped j = t.mapped j from
        update_of_ne hji _ _] at hj

theorem Inv.claim (h : Inv t hs n) (hn : n < 2097152) (hi : i < maxopen)
    (hempty : t.clients i = ∅) (hclaim : Claimed t i t') :
    Inv t' hs (n + 1) ∧ ∀ h ∈ hs, h.slot = i → h.id ≠ (t'.file i).oFileid := by
  obtain ⟨hmod, hdiv⟩ := h.ids i hi
  have hself : t'.file i = { t.file i with
      oFileid := (t.file i).oFileid + BitVec.ofNat 32 maxopen } := by
    rw [hclaim.file]
    exact Opentab.set_file_self _ _ _
  have hother : ∀ j, j ≠ i → t'.file j = t.file j := by
    intro j hj
    rw [hclaim.file]
    exact Opentab.set_file_of_ne hj
  have hnext : (t'.file i).oFileid.toNat = (t.file i).oFileid.toNat + maxopen := by
    rw [hself]
    exact toNat_bump (by omega)
  have hnot : ∀ x ∈ hs, x.slot = i → x.held ≠ true := fun x hx hslot htrue =>
    ((h.tracked x hx).held htrue).2.2 (hslot ▸ hempty)
  have hless : ∀ x ∈ hs, x.slot = i → x.id ≠ (t'.file i).oFileid := by
    intro x hx hslot heq
    have hle := (h.tracked x hx).le
    grind
  refine ⟨⟨?_, ?_, fun x hx => ?_⟩, hless⟩
  · intro j hj
    rw [hclaim.clients]
    exact h.unmapped j (hclaim.mapped j hj)
  · intro j hj
    by_cases hji : j = i
    · subst hji
      grind
    · rw [hother j hji]
      exact ⟨(h.ids j hj).1, Nat.le_succ_of_le (h.ids j hj).2⟩
  · obtain ⟨hslot, hid, hle, hheld, hdropped⟩ := h.tracked x hx
    by_cases hxi : x.slot = i
    · refine ⟨hslot, hid, by grind, fun hx' => absurd hx' (hnot x hx hxi), fun _ _ => ?_⟩
      rw [hclaim.clients, hxi]
      exact hempty
    · have hfile := hother _ hxi
      refine ⟨hslot, hid, by rwa [hfile], ?_, ?_⟩
      · rwa [hfile, hclaim.clients]
      · rwa [hfile, hclaim.clients]

theorem Inv.fill (f : Nat) (mode : Word) (h : Inv t hs n) (hempty : t.clients i = ∅) :
    Inv (t.fill i f mode) hs n := by
  have hid : ∀ j, ((t.fill i f mode).file j).oFileid = (t.file j).oFileid := by
    intro j
    by_cases hji : j = i
    · subst hji
      rw [Opentab.fill, Opentab.set_file_self]
    · rw [Opentab.fill, Opentab.set_file_of_ne hji]
  refine ⟨h.unmapped, fun j hj => ?_, fun x hx => ?_⟩
  · rw [hid]
    exact h.ids j hj
  · obtain ⟨hslot, hmod, hle, hheld, hdropped⟩ := h.tracked x hx
    refine ⟨hslot, hmod, by rwa [hid], fun hx' => ?_, by rwa [hid]⟩
    have hxi : x.slot ≠ i := fun hxi => (hheld hx').2.2 (hxi ▸ hempty)
    rw [Opentab.fill, Opentab.set_file_of_ne hxi]
    exact hheld hx'

section

variable (h : Inv t hs n)
include h

theorem Inv.move {clients : Nat → Finset Client} (hmapped : ∀ j, t.mapped j = false → clients j = ∅)
    (hno : ∀ j, atFsreq ∉ clients j)
    (hover : ∀ x ∈ hs, x.held = false → x.id = (t.file x.slot).oFileid → clients x.slot = ∅) :
    Inv { t with clients := clients } (hs.map (settle { t with clients := clients })) n := by
  have hheld : ∀ j, Opentab.held { t with clients := clients } j = clients j := fun j =>
    Finset.erase_eq_of_notMem (hno j)
  refine ⟨hmapped, h.ids, fun x hx => ?_⟩
  obtain ⟨y, hy, rfl⟩ := List.mem_map.mp hx
  obtain ⟨hslot, hid, hle, hyheld, -⟩ := h.tracked y hy
  refine ⟨hslot, hid, hle, fun hx' => ?_, fun hx' heq => ?_⟩
  · obtain ⟨hy', hne⟩ := Bool.and_eq_true_iff.mp hx'
    obtain ⟨heq, hfile, -⟩ := hyheld hy'
    exact ⟨heq, hfile, (hheld _).symm.trans_ne (of_decide_eq_true hne)⟩
  · by_cases hy' : y.held = true
    · simpa [settle, hy', hheld] using hx'
    · exact hover y hy (by simpa using hy') heq

theorem Inv.map (hmapped : t.mapped i = true)
    (hno : ∀ j, atFsreq ∉ (t.map i c).clients j)
    (hover : ∀ x ∈ hs, x.slot = i → x.id = (t.file i).oFileid → x.held = true) :
    Inv (t.map i c) (hs.map (settle (t.map i c))) n := by
  refine h.move ?_ hno ?_
  · intro j hj
    have hji : j ≠ i := by
      rintro rfl
      simp [hmapped] at hj
    rw [update_of_ne hji, h.unmapped j hj, Finset.erase_empty]
  · intro x hx hheld heq
    have hxi : x.slot ≠ i := by
      intro hxi
      rw [hxi] at heq
      simp [hover x hx hxi heq] at hheld
    rw [update_of_ne hxi, (h.tracked x hx).dropped hheld heq, Finset.erase_empty]

theorem Inv.unmap (hno : ∀ j, atFsreq ∉ (t.unmap c).clients j) :
    Inv (t.unmap c) (hs.map (settle (t.unmap c))) n := by
  refine h.move ?_ hno ?_
  · intro j hj
    rw [h.unmapped j hj, Finset.erase_empty]
  · intro x hx hheld heq
    rw [(h.tracked x hx).dropped hheld heq, Finset.erase_empty]

theorem Inv.hand (hi : i < maxopen) (hmapped : t.mapped i = true)
    (hno : ∀ j, atFsreq ∉ (t.map i c).clients j)
    (hnew : ∀ x ∈ hs, x.slot = i → x.id ≠ (t.file i).oFileid) :
    Inv (t.map i c) (⟨(t.file i).oFileid, i, (t.file i).oFile, true⟩ ::
      hs.map (settle (t.map i c))) n := by
  have hmap := h.map hmapped hno fun x hx hxi heq => absurd heq (hnew x hx hxi)
  have hclients : (t.map i c).clients i ≠ ∅ := by
    rw [Opentab.map_clients_self]
    exact Finset.insert_ne_empty _ _
  refine ⟨hmap.unmapped, hmap.ids, List.forall_mem_cons.mpr ⟨?_, hmap.tracked⟩⟩
  exact ⟨hi, (h.ids i hi).1, Nat.le_refl _, fun _ => ⟨rfl, rfl, hclients⟩, fun hx => by cases hx⟩

theorem Inv.handled {x : Handle} (hn : n < 2097152)
    (hcard : ∀ j, (t.clients j).card + 1 < 65536) (hx : x ∈ hs) : Handled t x := by
  obtain ⟨hslot, hmod, hle, hlive, hdropped⟩ := h.tracked x hx
  have hfree := pageref_le_one_iff (h.unmapped x.slot) (hcard x.slot)
  refine ⟨?_, fun hheld => ?_, fun hheld => ?_⟩
  · have hdiv := (h.ids x.slot hslot).2
    rw [isNeg, BitVec.toInt_neg_iff]
    simp only [maxopen] at hdiv
    omega
  · obtain ⟨hid, hfile, hclients⟩ := hlive hheld
    refine ⟨?_, hfile⟩
    rw [openfileLookup, hmod, if_neg]
    rintro (hlow | hne)
    · exact hclients (hfree.mp hlow)
    · exact hne hid.symm
  · rw [openfileLookup, hmod, if_pos]
    by_cases hid : x.id = (t.file x.slot).oFileid
    · exact .inl (hfree.mpr (hdropped hheld hid))
    · exact .inr (Ne.symm hid)

end

variable {s s' : History}

theorem inv_serveOpen {found : Option Nat} {c : Option Client} (h : Inv s.table s.handles s.opens)
    (hserved : ¬ s.refused) (hin : Within s) (hopens : s.opens + 1 < 2097152)
    (hno : ∀ j, atFsreq ∉ (serveOpen room found mode c s).table.clients j) :
    Inv (serveOpen room found mode c s).table (serveOpen room found mode c s).handles
        (serveOpen room found mode c s).opens ∧ ¬ (serveOpen room found mode c s).refused := by
  obtain ⟨r, t', hresult, hrun⟩ : ∃ r t', openfileAlloc room s.table = (r, t') ∧
      Allocated room s.table r t' := ⟨_, _, rfl, openfileAlloc_cases room s.table⟩
  simp only [serveOpen, hresult] at hno ⊢
  rcases claimed_of_allocated h hin.card hrun with ⟨⟨e, rfl⟩, rfl, hheld⟩ |
    ⟨i, hi, rfl, hempty, hclaim⟩
  · refine ⟨⟨h.unmapped, fun j hj => ⟨(h.ids j hj).1, Nat.le_succ_of_le (h.ids j hj).2⟩,
      h.tracked⟩, ?_⟩
    rintro (hbefore | ⟨hroom, j, hj, hempty⟩)
    · exact hserved hbefore
    · exact hheld hroom j hj ((hin.held j).symm.trans hempty)
  obtain ⟨hinv, hnew⟩ := h.claim hin.opens hi hempty hclaim
  have hpos : ¬ isNeg (t'.file i).oFileid := by
    have hdiv := (hinv.ids i hi).2
    rw [isNeg, BitVec.toInt_neg_iff]
    simp only [maxopen] at hdiv
    omega
  have hempty' : t'.clients i = ∅ := by rw [hclaim.clients, hempty]
  dsimp only at hno ⊢
  rw [if_neg hpos] at hno ⊢
  cases found with
  | none => exact ⟨hinv, hserved⟩
  | some f =>
    cases c with
    | none => exact ⟨hinv.fill f mode hempty', hserved⟩
    | some c =>
      have hself : (t'.fill i f mode).file i =
          { t'.file i with oFile := f, oMode := mode } := Opentab.set_file_self _ _ _
      have hhand := (hinv.fill f mode hempty').hand hi hclaim.slot hno
        (by rw [hself]; exact hnew)
      rw [hself] at hhand
      exact ⟨hhand, hserved⟩

structure Ok (s : History) : Prop where
  inv : Inv s.table s.handles s.opens
  served : ¬ s.refused
  within : Within s

theorem ok_init : Ok init :=
  ⟨inv_init, id, by decide, fun _ => Nat.lt_of_sub_eq_succ rfl, fun _ => Finset.notMem_empty _⟩

theorem ok_step (h : Ok s) (hstep : BoundedStep s s') : Ok s' := by
  obtain ⟨hstep, hin⟩ := hstep
  cases hstep with
  | serve room found mode c =>
    have hopens : (serveOpen room found mode c s).opens = s.opens + 1 := by
      rw [serveOpen]
      split
      · rfl
      · split
        · rfl
        · split <;> rfl
    obtain ⟨hinv, hserved⟩ := inv_serveOpen h.inv h.served h.within (hopens ▸ hin.opens)
      hin.request
    exact ⟨hinv, hserved, hin⟩
  | share i c hheld =>
    rw [h.within.held] at hheld
    have hmapped : s.table.mapped i = true := by
      by_contra hmapped
      exact hheld (h.inv.unmapped i (by simpa using hmapped))
    refine ⟨h.inv.map hmapped hin.request fun x hx hxi heq => ?_, h.served, hin⟩
    by_contra hx'
    refine hheld ?_
    rw [← hxi]
    exact (h.inv.tracked x hx).dropped (by simpa using hx') (by rw [hxi]; exact heq)
  | unmap c => exact ⟨h.inv.unmap hin.request, h.served, hin⟩

/-- While `serve_open` has been called fewer than `2 ^ 21` times and no Fd page is mapped
`2 ^ 16` times or sent as a request: `openfile_alloc` fails only for want of memory or of a slot
that is not held; ids are non-negative, resolve to their file while they are held, and to nothing
afterwards. -/
theorem fileids_sound (hrun : Relation.ReflTransGen BoundedStep init s) : Sound s := by
  have hok : Ok s := by
    induction hrun with
    | refl => exact ok_init
    | tail _ hstep ih => exact ok_step ih hstep
  exact ⟨hok.served, fun x hx => hok.inv.handled hok.within.opens hok.within.card hx⟩

theorem openfileAlloc_first (hempty : ∀ j, t.clients j = ∅) : ∃ t' : Opentab,
    openfileAlloc true t = (.ok 0, t') ∧ t'.file = (t.claim 0).file ∧ ∀ j, t'.clients j = ∅ := by
  have hloop : openfileAlloc true t = openfileAllocFrom true t (1023 + 1) 0 := rfl
  rw [hloop, openfileAllocFrom]
  cases hmapped : t.mapped 0 with
  | false =>
    have href : pageref t 0 = 0 := by simp [pageref, hmapped]
    rw [href]
    refine ⟨(t.newPage 0).claim 0, rfl, rfl, fun j => ?_⟩
    change update t.clients 0 ∅ j = ∅
    by_cases hj : j = 0
    · rw [hj, update_self]
    · rw [update_of_ne hj, hempty]
  | true =>
    have href : pageref t 0 = 1 := by simp [pageref, hmapped, hempty]
    rw [href]
    exact ⟨t.claim 0, rfl, rfl, hempty⟩

theorem claim_oFileid (hfile : t'.file = (t.claim i).file) :
    (t'.file i).oFileid = (t.file i).oFileid + BitVec.ofNat 32 maxopen := by
  rw [hfile, Opentab.claim, Opentab.set_file_self]

theorem serveOpen_first (f : Nat) (mode : Word) (c : Client) (hempty : ∀ j, s.table.clients j = ∅)
    (hpos : ¬ isNeg ((s.table.file 0).oFileid + BitVec.ofNat 32 maxopen)) : ∃ t' : Opentab,
    (serveOpen true (some f) mode (some c) s).table = (t'.fill 0 f mode).map 0 c ∧
      t'.file = (s.table.claim 0).file ∧ ∀ j, t'.clients j = ∅ := by
  obtain ⟨t', hresult, hfile, hclients⟩ := openfileAlloc_first hempty
  refine ⟨t', ?_, hfile, hclients⟩
  rw [← claim_oFileid hfile] at hpos
  simp only [serveOpen, hresult, if_neg hpos]
  rfl

/-- The theorem for a client that opens a file. -/
theorem fileids_sound_opened :
    BoundedStep init (serveOpen true (some 0x10001008) 0 (some (1, 0xD0000000)) init) ∧
      Sound (serveOpen true (some 0x10001008) 0 (some (1, 0xD0000000)) init) := by
  have hstep :
      BoundedStep init (serveOpen true (some 0x10001008) 0 (some (1, 0xD0000000)) init) := by
    obtain ⟨t', htable, -, hclients⟩ := serveOpen_first (s := init) 0x10001008 0
      (1, 0xD0000000) (fun _ => rfl) (by decide)
    have hsub : ∀ i, ((t'.fill 0 0x10001008 0).map 0 (1, 0xD0000000)).clients i ⊆
        {(1, 0xD0000000)} := fun i => by
      by_cases hi : i = 0
      · simp [hi, Opentab.fill, Opentab.set, hclients]
      · simp [Opentab.map, Opentab.fill, Opentab.set, update_of_ne hi, hclients]
    refine ⟨.serve _ _ _ _, by decide, fun i => ?_, fun i hmem => ?_⟩
    · exact (Nat.succ_le_succ (Finset.card_le_card (htable ▸ hsub i))).trans_lt (by decide)
    · exact absurd ((htable ▸ hsub i) hmem) (by decide)
  exact ⟨hstep, fileids_sound (.single hstep)⟩

def useOnce (s : History) : History :=
  (serveOpen true (some 0) 0 (some (1, 0)) s).move
    ((serveOpen true (some 0) 0 (some (1, 0)) s).table.unmap (1, 0))

theorem step_useOnce (s : History) : Relation.ReflTransGen Step s (useOnce s) :=
  .tail (.single (.serve true (some 0) 0 (some (1, 0)))) (.unmap (1, 0))

/-- Nobody holds a slot, and slot `0` has been used `k` times. -/
structure Used (k : Nat) (s : History) : Prop where
  clients : ∀ j, s.table.clients j = ∅
  id : (s.table.file 0).oFileid = BitVec.ofNat 32 (maxopen * k)

theorem used_useOnce {k : Nat} (h : Used k s) (hk : k + 1 < 2097152) :
    Used (k + 1) (useOnce s) := by
  have hid : (s.table.file 0).oFileid + BitVec.ofNat 32 maxopen =
      BitVec.ofNat 32 (maxopen * (k + 1)) := by
    rw [h.id, ← BitVec.ofNat_add, Nat.mul_succ]
  have hpos : ¬ isNeg ((s.table.file 0).oFileid + BitVec.ofNat 32 maxopen) := by
    rw [hid, isNeg, BitVec.toInt_neg_iff, BitVec.toNat_ofNat]
    simp only [maxopen]
    omega
  obtain ⟨t', hopen, hfile, hclients⟩ := serveOpen_first 0 0 (1, 0) h.clients hpos
  constructor
  · intro j
    change ((serveOpen true (some 0) 0 (some (1, 0)) s).table.clients j).erase (1, 0) = ∅
    rw [hopen]
    by_cases hj : j = 0
    · rw [hj, Opentab.map_clients_self]
      simp [Opentab.fill, Opentab.set, hclients]
    · simp [Opentab.map, Opentab.fill, Opentab.set, update_of_ne hj, hclients]
  · change ((serveOpen true (some 0) 0 (some (1, 0)) s).table.file 0).oFileid = _
    rw [hopen]
    change ((t'.fill 0 0 0).file 0).oFileid = _
    rw [Opentab.fill, Opentab.set_file_self, hfile, Opentab.claim, Opentab.set_file_self]
    exact hid

theorem used_iterate (k : Nat) (hk : k < 2097152) :
    ∃ s, Relation.ReflTransGen Step init s ∧ Used k s := by
  induction k with
  | zero => exact ⟨init, .refl, fun _ => rfl, rfl⟩
  | succ k ih =>
    obtain ⟨s, hrun, hused⟩ := ih (by omega)
    exact ⟨useOnce s, hrun.trans (step_useOnce s), used_useOnce hused hk⟩

/-- After `2 ^ 21 - 1` uses of slot `0` the next id is negative: `serve_open` returns it as an
error, although no slot is held and there is memory. -/
theorem fileid_overflows : ∃ s, Relation.ReflTransGen Step init s ∧
    (∀ j, s.table.clients j = ∅) ∧ ¬ Sound (serveOpen true (some 0) 0 (some (1, 0)) s) := by
  obtain ⟨s, hrun, hused⟩ := used_iterate 2097151 (by decide)
  obtain ⟨t', hresult, hfile, -⟩ := openfileAlloc_first hused.clients
  have hneg : isNeg (t'.file 0).oFileid := by
    rw [claim_oFileid hfile, hused.id]
    decide
  refine ⟨s, hrun, hused.clients, fun hsound => hsound.served ?_⟩
  simp only [serveOpen, hresult, if_pos hneg]
  exact .inr ⟨rfl, 0, by decide, by simp [Opentab.held, hused.clients]⟩

end Mit6828.Fs.OpenFileSpec
