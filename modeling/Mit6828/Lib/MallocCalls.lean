import Mit6828.Lib.MallocSpec

namespace Mit6828.Lib.Malloc

open Kern.Mmu Function

/-- The references `held` are those without a block.  The one to the page in whose middle `mptr`
is stands for the room after `mptr`. -/
structure Inv (foreign : Nat → Prop) (held : List Nat) (s : State) : Prop where
  pages : Pages foreign (held.map Block.mark ++ s.live) s.heap
  low : ∀ p ∈ held, p < 65536
  nodup : held.Nodup
  cursor : s.heap.mptr = 0 ∨ Arena (pgnum s.heap.mptr)
  room : s.heap.mptr.toNat % 4096 ≠ 0 → pgnum s.heap.mptr ∈ held ∧
    ∀ b ∈ s.live, b.last = pgnum s.heap.mptr → b.v.toNat + b.size ≤ s.heap.mptr.toNat

def State.mptrRefs (s : State) : List Nat :=
  if s.heap.mptr.toNat % 4096 = 0 then [] else [pgnum s.heap.mptr]

def State.Fits (s : State) (n : Word) : Prop :=
  s.heap.mptr % pgsize ≠ 0 ∧ pgnum s.heap.mptr = pgnum (s.heap.mptr + roundup4 n - 1 + 4)

instance (s : State) (n : Word) : Decidable (s.Fits n) := inferInstanceAs (Decidable (_ ∧ _))

/-- The chunk ends in the middle of a page, so that the page stays open for the next one. -/
def State.Partial (s : State) (n : Word) : Prop :=
  roundup4 n < maxmalloc → (roundup4 n).toNat % 4096 ≠ 0 ∨ s.Fits n

/-- `malloc` does not have to leave the last page of the arena, which would set `mptr` to `mend`. -/
def State.Stays (s : State) (n : Word) : Prop :=
  s.heap.mptr % pgsize ≠ 0 → pgnum s.heap.mptr = 65535 → roundup4 n < maxmalloc → s.Fits n

section Steps

variable {foreign : Nat → Prop} {refs live : List Block} {held : List Nat} {h : Heap} {s : State}
  {n : Word} {p q m : Nat}

theorem runEntry_cont {k : Nat} (hk : (k + 1) * 4096 < n.toNat) :
    Heap.runEntry n k = userPage ||| pteContinued := by
  rw [Heap.runEntry, if_pos hk]
  rfl

theorem runEntry_last {k : Nat} (hk : ¬ (k + 1) * 4096 < n.toNat) :
    Heap.runEntry n k = userPage := by
  rw [Heap.runEntry, if_neg hk]
  rfl

abbrev chunk (m : Nat) (n : Word) : Block := ⟨addr m, n⟩

theorem search_found (hm : Arena m) (hn : (roundup4 n).toNat < 2 ^ 20)
    (hfree : h.isfree (addr m) (roundup4 n + 4) = true) : (chunk m n).first = m ∧
      (chunk m n).last + 1 = m + Heap.pagesFor (roundup4 n + 4) ∧
      (chunk m n).last < 65536 ∧
      ∀ p, m ≤ p → p ≤ (chunk m n).last → h.uvpt p &&& pteP = 0 := by
  obtain ⟨hlo, hhi⟩ := hm
  have hsum : (roundup4 n + 4).toNat = (roundup4 n).toNat + 4 := by
    rw [BitVec.toNat_add]
    change ((roundup4 n).toNat + 4) % 4294967296 = _
    omega
  have hspec := Heap.isfree_spec hfree hhi (by omega)
  rw [hsum] at hspec
  have hlast : (chunk m n).last = (4096 * m + (roundup4 n).toNat + 3) / 4096 := by
    rw [Block.last, Block.size, toNat_addr (by omega)]
  refine ⟨?_, ?_, ?_, fun p hge hle => (hspec p hge (by omega)).2⟩
  · rw [Block.first, toNat_addr (by omega)]
    omega
  · rw [hlast, Heap.pagesFor, hsum]
    omega
  · exact (hspec _ (by omega) (by omega)).1

theorem place_spec (hpages : Pages foreign refs h) (hq : h.mptr = addr q) (harena : Arena q)
    (hn : (roundup4 n).toNat < 2 ^ 20) (mem : Nat → Bool) :
    ∃ v h', h.place mem (roundup4 n) = some (v, h') ∧ ∃ m, Arena m ∧
        (v = 0 ∧ h'.mptr = addr m ∧ Pages foreign refs h' ∨
          v = addr m ∧ h'.mptr = addr m + roundup4 n ∧
            Pages foreign (Block.mark (chunk m n).last :: chunk m n :: refs) h' ∧
            ∀ b ∈ refs, b.last ≠ (chunk m n).last) := by
  obtain ⟨found, m, hsearch, hm, hfree⟩ :=
    Heap.search_spec (h := h) (n := roundup4 n + 4) harena (by decide : 0 < 2)
      (show (1 - 0) * 32768 + (65536 - q) ≤ 2 ^ 21 by omega)
  rw [Heap.place, hq, hsearch]
  simp only [Option.bind_eq_bind, Option.bind_some]
  cases found with
  | false =>
    exact ⟨0, _, rfl, m, hm,
      .inl ⟨rfl, rfl, hpages.of_agree (fun _ _ => ⟨rfl, rfl⟩) fun _ hp => hp⟩⟩
  | true =>
    obtain ⟨hfirst, hlast, hhi, hunmapped⟩ := search_found hm hn (hfree rfl)
    rw [if_pos rfl]
    have hcont : ∀ p, (chunk m n).Cont p →
        Heap.runEntry (roundup4 n + 4) (p - m) = userPage ||| pteContinued :=
      fun p hp => runEntry_cont (by
        obtain ⟨hge, hlt⟩ := hp
        rw [Heap.pagesFor] at hlast
        omega)
    have htail : Heap.runEntry (roundup4 n + 4) ((chunk m n).last - m) = userPage :=
      runEntry_last (by
        rw [Heap.pagesFor] at hlast
        omega)
    have hge := (chunk m n).first_le_last
    obtain ⟨h2, hmptr, href, ⟨halloc, huvpt⟩ | ⟨halloc, huvpt⟩⟩ :=
      Heap.allocPages_spec (h := { h with mptr := addr m }) (k := 0) mem (roundup4 n + 4) rfl
        (show m + 0 + Heap.pagesFor (roundup4 n + 4) ≤ 65536 by omega)
    · rw [halloc]
      have hpage : pgnum (h2.mptr + BitVec.ofNat 32 (Heap.pagesFor (roundup4 n + 4)) * pgsize - 4) =
          (chunk m n).last := by
        rw [hmptr, addr_add, ← hlast, pgnum_addr_succ_sub hhi]
      refine ⟨addr m, { h2 with
        mptr := addr m + roundup4 n
        ref := update h2.ref (chunk m n).last 2 }, ?_, m, hm,
        .inr ⟨rfl, rfl, ?_, ?_⟩⟩
      · dsimp only
        rw [hpage, show h2.mptr = addr m from hmptr]
      · apply hpages.fresh
        case hlo => rw [hfirst]; exact hm.1
        case hhi => exact hhi
        case hfree => rwa [hfirst]
        case hin =>
          intro p hp
          have hrun := huvpt p
          rw [if_pos (by have := hp.1; have := hp.2; omega)] at hrun
          exact hrun.trans (hcont p hp)
        case hlast =>
          have hrun := huvpt (chunk m n).last
          rw [if_pos (by omega)] at hrun
          exact hrun.trans htail
        case hout =>
          intro p hp
          have hrun := huvpt p
          rw [if_neg (by omega)] at hrun
          refine ⟨hrun, ?_⟩
          exact (update_of_ne (by omega) ..).trans (href p (by omega))
        case href => exact update_self ..
      · intro b hb heq
        refine hpages.mapped (own_last hb) ?_
        rw [heq]
        exact hunmapped _ (by omega) le_rfl
    · rw [halloc]
      refine ⟨0, h2, rfl, m, hm, .inl ⟨rfl, hmptr, hpages.of_agree (fun p hp => ?_) fun p hp => ?_⟩⟩
      · have hout : ¬ (m ≤ p ∧ p ≤ (chunk m n).last) :=
          fun hin => hp (hunmapped p hin.1 hin.2)
        rcases huvpt p with ⟨-, hin⟩ | ⟨hsame, -⟩
        · omega
        · exact ⟨hsame, href p (by omega)⟩
      · rcases huvpt p with ⟨hzero, -⟩ | ⟨hsame, -⟩
        · rw [hzero] at hp
          exact absurd rfl hp
        · rwa [hsame] at hp

theorem refsTo_append (refs refs' : List Block) (p : Nat) :
    refsTo (refs ++ refs') p = refsTo refs p + refsTo refs' p :=
  List.countP_append ..

theorem refsTo_marks (hlow : ∀ q ∈ held, q < 65536) (p : Nat) :
    refsTo (held.map Block.mark) p = held.count p := by
  induction held with
  | nil => rfl
  | cons q held ih =>
    rw [List.map_cons, refsTo_cons, Block.last_mark (hlow q List.mem_cons_self),
      ih fun r hr => hlow r (List.mem_cons_of_mem q hr), List.count_cons]
    simp only [beq_iff_eq]

theorem refsTo_le (hlow : ∀ q ∈ held, q < 65536) (hnodup : held.Nodup) (p : Nat) :
    refsTo (held.map Block.mark ++ live) p ≤ live.length + 1 := by
  rw [refsTo_append, refsTo_marks hlow]
  have hone := List.nodup_iff_count_le_one.mp hnodup p
  have hlen : refsTo live p ≤ live.length := List.countP_le_length
  omega

theorem mark_mem (hp : p ∈ held) : Block.mark p ∈ held.map Block.mark ++ live :=
  List.mem_append_left _ (List.mem_map_of_mem hp)

theorem Inv.place (hpages : Pages foreign (held.map Block.mark ++ live) h)
    (hlow : ∀ p ∈ held, p < 65536) (hnodup : held.Nodup) (hq : h.mptr = addr q) (harena : Arena q)
    (hn : (roundup4 n).toNat < 2 ^ 20) (mem : Nat → Bool) :
    ∃ v h' held', h.place mem (roundup4 n) = some (v, h') ∧
      Inv foreign held' ⟨h', if v = 0 then live else ⟨v, n⟩ :: live⟩ ∧
      (held = [] → (roundup4 n).toNat % 4096 ≠ 0 →
        held' = State.mptrRefs ⟨h', if v = 0 then live else ⟨v, n⟩ :: live⟩) := by
  obtain ⟨v, h', hplace, m, hm, ⟨rfl, hmptr, hpages'⟩ | ⟨rfl, hmptr, hpages', hnew⟩⟩ :=
    place_spec (n := n) hpages hq harena hn mem
  · have haligned : h'.mptr.toNat % 4096 = 0 := by
      rw [hmptr, toNat_addr (by have := hm.2; omega)]
      omega
    refine ⟨0, h', held, hplace, ⟨hpages', hlow, hnodup, .inr ?_, fun hne => absurd haligned hne⟩,
      fun hnone _ => ?_⟩
    · change Arena (pgnum h'.mptr)
      rwa [hmptr, pgnum_addr (by have := hm.2; omega)]
    · rw [hnone, State.mptrRefs, if_pos haligned]
  · obtain ⟨hlo, hhi⟩ := hm
    have hne : addr m ≠ 0 := by
      intro hzero
      have hnat := congrArg BitVec.toNat hzero
      rw [toNat_addr (by omega)] at hnat
      change 4096 * m = 0 at hnat
      omega
    have hv : (addr m).toNat = 4096 * m := toNat_addr (by omega)
    have hend : h'.mptr.toNat = 4096 * m + (roundup4 n).toNat := by grind
    have hlast : (chunk m n).last = (4096 * m + (roundup4 n).toNat + 3) / 4096 := by
      rw [Block.last, Block.size, hv]
    have hfour := roundup4_mod n
    have hin := (hpages'.stored (chunk m n) (by simp)).inside.2
    have hsame : h'.mptr.toNat % 4096 ≠ 0 → pgnum h'.mptr = (chunk m n).last := by
      intro hmid
      grind
    refine ⟨addr m, h', (chunk m n).last :: held, hplace, ?_, fun hnone hmid => ?_⟩
    · rw [if_neg hne]
      refine ⟨hpages'.perm (List.perm_middle.symm.cons _), ?_, ?_, .inr ?_, fun hmid => ⟨?_, ?_⟩⟩
      · exact List.forall_mem_cons.mpr ⟨hin, hlow⟩
      · refine List.nodup_cons.mpr ⟨fun hmem => ?_, hnodup⟩
        exact hnew _ (mark_mem hmem) (Block.last_mark hin)
      · change Arena (pgnum h'.mptr)
        rw [Arena, pgnum_eq]
        omega
      · rw [hsame hmid]
        exact List.mem_cons_self
      · intro b hb heq
        rcases List.mem_cons.mp hb with rfl | hb
        · change (addr m).toNat + (roundup4 n).toNat ≤ h'.mptr.toNat
          omega
        · exact absurd (heq.trans (hsame hmid)) (hnew b (List.mem_append_right _ hb))
    · have hmptr' : h'.mptr.toNat % 4096 ≠ 0 := by omega
      rw [hnone, State.mptrRefs, if_neg hmptr', hsame hmptr']

theorem share_mptr (hmid : s.heap.mptr.toNat % 4096 ≠ 0) (hlow : pgnum s.heap.mptr < 65536)
    (hlast : (⟨s.heap.mptr, n⟩ : Block).last = pgnum s.heap.mptr) :
    (s.heap.mptr + roundup4 n).toNat = s.heap.mptr.toNat + (roundup4 n).toNat ∧
      pgnum (s.heap.mptr + roundup4 n) = pgnum s.heap.mptr ∧
      (s.heap.mptr + roundup4 n).toNat % 4096 ≠ 0 := by
  change (s.heap.mptr.toNat + (roundup4 n).toNat + 3) / 4096 = _ at hlast
  rw [pgnum_eq] at hlast hlow
  have hend : (s.heap.mptr + roundup4 n).toNat = s.heap.mptr.toNat + (roundup4 n).toNat :=
    BitVec.toNat_add_of_lt (by omega)
  refine ⟨hend, ?_, ?_⟩
  · grind
  · omega

theorem Inv.share (hinv : Inv foreign held s) (hmid : s.heap.mptr.toNat % 4096 ≠ 0)
    (hlast : (⟨s.heap.mptr, n⟩ : Block).last = pgnum s.heap.mptr)
    (hfew : s.live.length + 2 < 2 ^ 32) : Inv foreign held ⟨{ s.heap with
      ref := update s.heap.ref (pgnum s.heap.mptr) (s.heap.ref (pgnum s.heap.mptr) + 1)
      mptr := s.heap.mptr + roundup4 n }, ⟨s.heap.mptr, n⟩ :: s.live⟩ := by
  obtain ⟨hheld, hbefore⟩ := hinv.room hmid
  have hlow := hinv.low _ hheld
  have hmark : (Block.mark (pgnum s.heap.mptr)).last = pgnum s.heap.mptr := Block.last_mark hlow
  have hmem : Block.mark (pgnum s.heap.mptr) ∈ held.map Block.mark ++ s.live := mark_mem hheld
  have hpgnum := pgnum_eq s.heap.mptr
  obtain ⟨hend, hpage, -⟩ := share_mptr hmid hlow hlast
  have hbytes : ∀ d ∈ held.map Block.mark ++ s.live, ∀ x,
      (⟨s.heap.mptr, n⟩ : Block).Holds x → ¬ d.Holds x := by
    intro d hd x hx hdx
    rcases List.mem_append.mp hd with hd' | hd'
    · obtain ⟨p, -, rfl⟩ := List.mem_map.mp hd'
      rw [Block.Holds, Block.size_mark] at hdx
      omega
    have hpx : x / 4096 = pgnum s.heap.mptr := by
      have hge : s.heap.mptr.toNat / 4096 ≤ x / 4096 := hx.page.1
      have hle := hx.page.2
      grind
    have hend : d.last = pgnum s.heap.mptr := by
      have hnot := hinv.pages.not_cont_last hd hmem
      have hd := hdx.page
      rw [hmark, Block.Cont] at hnot
      omega
    have hle := hbefore d hd' hend
    have hge : s.heap.mptr.toNat ≤ x := hx.1
    have hlt := hdx.2
    omega
  have hcount : refsTo (held.map Block.mark ++ s.live) (Block.mark (pgnum s.heap.mptr)).last + 1 <
      2 ^ 32 :=
    (Nat.add_le_add_right (refsTo_le hinv.low hinv.nodup _) 1).trans_lt hfew
  have hshare := hinv.pages.share (c := ⟨s.heap.mptr, n⟩) hmem
    (by rw [hmark, Block.first]; exact hpgnum.symm) (by rw [hmark, hlast]) hbytes hcount
    (s.heap.mptr + roundup4 n)
  rw [hmark] at hshare
  refine ⟨hshare.perm List.perm_middle.symm, hinv.low, hinv.nodup, .inr ?_, fun _ => ?_⟩
  · change Arena (pgnum (s.heap.mptr + roundup4 n))
    rw [hpage]
    refine hinv.cursor.resolve_left fun hzero => hmid ?_
    rw [hzero]
    rfl
  · change pgnum (s.heap.mptr + roundup4 n) ∈ held ∧
      ∀ b ∈ (⟨s.heap.mptr, n⟩ : Block) :: s.live, b.last = pgnum (s.heap.mptr + roundup4 n) →
        b.v.toNat + b.size ≤ (s.heap.mptr + roundup4 n).toNat
    rw [hpage, hend]
    refine ⟨hheld, List.forall_mem_cons.mpr ⟨fun _ => le_rfl, fun b hb heq => ?_⟩⟩
    exact (hbefore b hb heq).trans (Nat.le_add_right ..)

theorem Inv.free {b : Block} (hinv : Inv foreign held s) (hb : b ∈ s.live) :
    ∃ s', s.free b = some s' ∧ Inv foreign held s' ∧ s'.heap.mptr = s.heap.mptr := by
  have hperm : (held.map Block.mark ++ s.live).Perm
      (b :: (held.map Block.mark ++ s.live.erase b)) :=
    ((List.perm_cons_erase hb).append_left _).trans List.perm_middle
  obtain ⟨h', hfree, hmptr, hpages⟩ := (hinv.pages.perm hperm).free (pgnum_eq b.v)
  refine ⟨⟨h', s.live.erase b⟩, by rw [State.free, hfree]; rfl, ?_, hmptr⟩
  refine ⟨hpages, hinv.low, hinv.nodup, ?_, ?_⟩
  · change h'.mptr = 0 ∨ Arena (pgnum h'.mptr)
    rw [hmptr]
    exact hinv.cursor
  change h'.mptr.toNat % 4096 ≠ 0 → pgnum h'.mptr ∈ held ∧ ∀ c ∈ s.live.erase b,
    c.last = pgnum h'.mptr → c.v.toNat + c.size ≤ h'.mptr.toNat
  rw [hmptr]
  intro hmid
  exact (hinv.room hmid).imp_right fun hbefore c hc => hbefore c (List.mem_of_mem_erase hc)

theorem mod_pgsize (va : Word) : va % pgsize = 0 ↔ va.toNat % 4096 = 0 := by
  rw [← BitVec.toNat_inj, BitVec.toNat_umod]
  rfl

theorem roundup_page (hmid : h.mptr.toNat % 4096 ≠ 0) (harena : Arena (pgnum h.mptr)) :
    pgnum (roundup h.mptr - 4) = pgnum h.mptr := by
  obtain ⟨hlo, hhi⟩ := harena
  rw [pgnum_eq] at hlo hhi
  have hup : roundup h.mptr = addr (pgnum h.mptr + 1) := by
    apply BitVec.eq_of_toNat_eq
    rw [toNat_roundup (by omega), pgnum_eq, toNat_addr (by omega)]
    omega
  rw [hup, pgnum_addr_succ_sub (by grind)]

theorem fits_iff (hmid : s.heap.mptr.toNat % 4096 ≠ 0) (harena : Arena (pgnum s.heap.mptr))
    (hn : (roundup4 n).toNat < 2 ^ 20) :
    s.Fits n ↔ (⟨s.heap.mptr, n⟩ : Block).last = pgnum s.heap.mptr := by
  obtain ⟨hlo, hhi⟩ := harena
  rw [pgnum_eq] at hlo hhi
  have hsum : (s.heap.mptr + roundup4 n - 1 + 4).toNat =
    s.heap.mptr.toNat + (roundup4 n).toNat + 3 := by
    rw [BitVec.toNat_add, BitVec.toNat_sub, BitVec.toNat_add]
    change ((4294967296 - 1 + (s.heap.mptr.toNat + (roundup4 n).toNat) % 4294967296) % 4294967296
      + 4) % 4294967296 = _
    omega
  rw [State.Fits, Ne, mod_pgsize, pgnum_eq (_ + 4), hsum, Block.last, Block.size]
  exact ⟨fun hfits => hfits.2.symm, fun heq => ⟨hmid, heq.symm⟩⟩

/-- `malloc` returns, and `held` stays as it should unless a chunk of whole pages is placed. -/
def Mallocs (foreign : Nat → Prop) (held : List Nat) (s : State) (mem : Nat → Bool) (n : Word) :
    Prop :=
  ∃ s' held', s.malloc mem n = some s' ∧ Inv foreign held' s' ∧
    (held = s.mptrRefs → s.Partial n → held' = s'.mptrRefs)

theorem Mallocs.of_heap {mem : Nat → Bool} {v : Word} {h' : Heap} {held' : List Nat}
    (hmalloc : s.heap.malloc mem n = some (v, h'))
    (hinv : Inv foreign held' ⟨h', if v = 0 then s.live else ⟨v, n⟩ :: s.live⟩)
    (hrefs : held = s.mptrRefs → s.Partial n →
      held' = State.mptrRefs ⟨h', if v = 0 then s.live else ⟨v, n⟩ :: s.live⟩) :
    Mallocs foreign held s mem n :=
  ⟨_, held', by rw [State.malloc, hmalloc]; rfl, hinv, hrefs⟩

theorem Inv.leave (hinv : Inv foreign held s) (hmid : s.heap.mptr.toNat % 4096 ≠ 0) :
    ∃ h', s.heap.free s.heap.mptr = some h' ∧ h'.mptr = s.heap.mptr ∧
      Pages foreign ((held.erase (pgnum s.heap.mptr)).map Block.mark ++ s.live) h' := by
  obtain ⟨hheld, -⟩ := hinv.room hmid
  have hperm : (held.map Block.mark ++ s.live).Perm (Block.mark (pgnum s.heap.mptr) ::
      ((held.erase (pgnum s.heap.mptr)).map Block.mark ++ s.live)) :=
    ((List.perm_cons_erase hheld).map Block.mark).append_right s.live
  exact (hinv.pages.perm hperm).free (Block.first_mark (hinv.low _ hheld)).symm

theorem Inv.malloc_arena (hinv : Inv foreign held s) (harena : Arena (pgnum s.heap.mptr))
    (hstays : s.Stays n) (hfew : s.live.length + 2 < 2 ^ 32) (mem : Nat → Bool) :
    Mallocs foreign held s mem n := by
  have hne : s.heap.mptr ≠ 0 := by
    intro hzero
    rw [hzero] at harena
    exact absurd harena.1 (by decide)
  by_cases hmax : roundup4 n ≥ maxmalloc
  · have hmalloc : s.heap.malloc mem n = some (0, s.heap) := by
      rw [Heap.malloc, if_neg hne, if_pos hmax]
    exact .of_heap hmalloc hinv fun hrefs _ => hrefs
  have hlt : roundup4 n < maxmalloc := BitVec.not_le.mp hmax
  have hn : (roundup4 n).toNat < 2 ^ 20 := BitVec.lt_def.mp hlt
  by_cases hmid : s.heap.mptr.toNat % 4096 = 0
  · have hmalloc : s.heap.malloc mem n = s.heap.place mem (roundup4 n) := by
      rw [Heap.malloc, if_neg hne, if_neg hmax, if_neg (not_not.mpr ((mod_pgsize _).mpr hmid))]
    have hmptr : s.heap.mptr = addr (pgnum s.heap.mptr) := by
      rw [← rounddown_eq, rounddown, (mod_pgsize _).mpr hmid, sub_zero]
    obtain ⟨v, h', held', hplace, hinv', hrefs⟩ :=
      Inv.place hinv.pages hinv.low hinv.nodup hmptr harena hn mem
    refine .of_heap (hmalloc.trans hplace) hinv' fun hheld htidy => hrefs ?_ ?_
    · rw [hheld, State.mptrRefs, if_pos hmid]
    · exact (htidy hlt).resolve_right fun hfits => hfits.1 ((mod_pgsize _).mpr hmid)
  have hmid' : s.heap.mptr % pgsize ≠ 0 := fun hzero => hmid ((mod_pgsize _).mp hzero)
  by_cases hfits : s.Fits n
  · have hlast := (fits_iff hmid harena hn).mp hfits
    have hpresent : s.heap.uvpt (pgnum s.heap.mptr) &&& pteP ≠ 0 := by
      have hheld := (hinv.room hmid).1
      refine hinv.pages.mapped ?_
      rw [← Block.last_mark (hinv.low _ hheld)]
      exact own_last (mark_mem hheld)
    have hmalloc : s.heap.malloc mem n = some (s.heap.mptr, { s.heap with
        ref := update s.heap.ref (pgnum s.heap.mptr) (s.heap.ref (pgnum s.heap.mptr) + 1)
        mptr := s.heap.mptr + roundup4 n }) := by
      rw [Heap.malloc, if_neg hne, if_neg hmax, if_pos hmid', if_pos hfits.2,
        roundup_page hmid harena, if_pos hpresent]
    have hshare := hinv.share hmid hlast hfew
    refine .of_heap hmalloc (by rwa [if_neg hne]) fun hheld _ => ?_
    obtain ⟨-, hpage, hmid1⟩ := share_mptr hmid harena.2 hlast
    rw [hheld, State.mptrRefs, State.mptrRefs, if_neg hmid, if_neg hmid1]
    exact congrArg (fun p => [p]) hpage.symm
  · have hroom : pgnum s.heap.mptr + 1 < 65536 := by
      have hlast : pgnum s.heap.mptr ≠ 65535 := fun heq => hfits (hstays hmid' heq hlt)
      have hhi := harena.2
      omega
    obtain ⟨h1, hfree, hmptr, hpages⟩ := hinv.leave hmid
    have hnext : rounddown (h1.mptr + pgsize) = addr (pgnum s.heap.mptr + 1) := by
      rw [hmptr, rounddown_eq]
      congr 1
      rw [pgnum_eq] at hroom ⊢
      rw [pgnum_eq, BitVec.toNat_add]
      change (s.heap.mptr.toNat + 4096) % 4294967296 / 4096 = _
      omega
    have hmalloc : s.heap.malloc mem n =
        ({ h1 with mptr := addr (pgnum s.heap.mptr + 1) } : Heap).place mem (roundup4 n) := by
      rw [Heap.malloc, if_neg hne, if_neg hmax, if_pos hmid', if_neg fun heq => hfits ⟨hmid', heq⟩,
        hfree]
      simp only [Option.bind_eq_bind, Option.bind_some, hnext]
    obtain ⟨v, h', held', hplace, hinv', hrefs⟩ :=
      Inv.place (h := { h1 with mptr := addr (pgnum s.heap.mptr + 1) })
        (hpages.of_agree (fun _ _ => ⟨rfl, rfl⟩) fun _ hp => hp)
        (fun p hp => hinv.low p (List.mem_of_mem_erase hp)) (hinv.nodup.erase _) rfl
        ⟨by have := harena.1; omega, hroom⟩ hn mem
    refine .of_heap (hmalloc.trans hplace) hinv' fun heq htidy => hrefs ?_ ?_
    · rw [heq, State.mptrRefs, if_neg hmid, List.erase_cons_head]
    · exact (htidy hlt).resolve_right hfits

theorem Inv.malloc (hinv : Inv foreign held s) (hstays : s.Stays n)
    (hfew : s.live.length + 2 < 2 ^ 32) (mem : Nat → Bool) : Mallocs foreign held s mem n := by
  rcases hinv.cursor with hzero | harena
  · let s0 : State := ⟨{ s.heap with mptr := mbegin }, s.live⟩
    have hmalloc : s.malloc mem n = s0.malloc mem n := by
      rw [State.malloc, Heap.malloc, if_pos hzero]
      rfl
    have haligned : s0.heap.mptr.toNat % 4096 = 0 := by
      change mbegin.toNat % 4096 = 0
      decide
    have harena : Arena (pgnum s0.heap.mptr) := by
      change Arena (pgnum mbegin)
      exact ⟨by decide, by decide⟩
    have hinv0 : Inv foreign held s0 :=
      ⟨hinv.pages.of_agree (fun _ _ => ⟨rfl, rfl⟩) fun _ hp => hp, hinv.low, hinv.nodup,
        .inr harena, fun hmid => absurd haligned hmid⟩
    have hmod : s0.heap.mptr % pgsize = 0 := (mod_pgsize _).mpr haligned
    obtain ⟨s', held', heq, hinv', hrefs⟩ :=
      hinv0.malloc_arena (n := n) harena (fun hmid => absurd hmod hmid) hfew mem
    refine ⟨s', held', hmalloc.trans heq, hinv', fun hheld htidy => hrefs ?_ fun hlt => ?_⟩
    · rw [hheld, State.mptrRefs, State.mptrRefs, if_pos haligned, hzero]
      rfl
    · refine .inl ((htidy hlt).resolve_right fun hfits => hfits.1 ?_)
      rw [hzero]
      rfl
  · exact hinv.malloc_arena harena hstays hfew mem

end Steps

end Mit6828.Lib.Malloc
