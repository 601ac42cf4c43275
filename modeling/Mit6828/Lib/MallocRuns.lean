import Mit6828.Lib.MallocCalls

namespace Mit6828.Lib.Malloc

open Kern.Mmu

/-- The calls so far: each `malloc` satisfies `ok`, and only live blocks are freed.  `mem` says
which of the page allocations succeed. -/
inductive Run (ok : State → Word → Prop) (s0 : State) : State → Prop
  | start : Run ok s0 s0
  | malloc {s s' : State} (mem : Nat → Bool) (n : Word) (hrun : Run ok s0 s) (hok : ok s n)
      (hstep : s.malloc mem n = some s') : Run ok s0 s'
  | free {s s' : State} (b : Block) (hrun : Run ok s0 s) (hlive : b ∈ s.live)
      (hstep : s.free b = some s') : Run ok s0 s'

def mappedBefore (uvpt : Nat → Word) (p : Nat) : Prop := Arena p ∧ uvpt p &&& pteP ≠ 0

theorem inv_init (uvpt ref : Nat → Word) : Inv (mappedBefore uvpt) [] (State.init uvpt ref) where
  pages := {
    stored := by simp [State.init]
    own := fun p hp hpresent => .inl ⟨hp, hpresent⟩
    kept := fun p hp => ⟨hp.2, by simp [Own, State.init]⟩
    count := by simp [State.init]
    apart := .nil }
  low := by simp
  nodup := .nil
  cursor := .inl rfl
  room := fun hmid => absurd rfl hmid

section Runs

variable {ok : State → Word → Prop} {uvpt ref : Nat → Word} {s : State}

theorem Run.inv (hrun : Run ok (State.init uvpt ref) s)
    (hok : ∀ s n, ok s n → s.Stays n ∧ s.live.length + 2 < 2 ^ 32) : ∃ held,
      Inv (mappedBefore uvpt) held s ∧ ((∀ s n, ok s n → s.Partial n) → held = s.mptrRefs) := by
  induction hrun with
  | start => exact ⟨[], inv_init uvpt ref, fun _ => rfl⟩
  | malloc mem n _ hcall hstep ih =>
    obtain ⟨held, hinv, hrefs⟩ := ih
    obtain ⟨hstays, hfew⟩ := hok _ n hcall
    obtain ⟨s', held', hmalloc, hinv', hrefs'⟩ := hinv.malloc hstays hfew mem
    obtain rfl := Option.mem_unique hmalloc hstep
    exact ⟨held', hinv', fun hpart => hrefs' (hrefs hpart) (hpart _ n hcall)⟩
  | free b _ hlive hstep ih =>
    obtain ⟨held, hinv, hrefs⟩ := ih
    obtain ⟨s', hfree, hinv', hmptr⟩ := hinv.free hlive
    obtain rfl := Option.mem_unique hfree hstep
    refine ⟨held, hinv', fun hpart => ?_⟩
    rw [hrefs hpart, State.mptrRefs, State.mptrRefs, hmptr]

theorem State.malloc_live {s s' : State} {mem : Nat → Bool} {n : Word}
    (hstep : s.malloc mem n = some s') : s'.live = s.live ∨ ∃ v, s'.live = ⟨v, n⟩ :: s.live := by
  obtain ⟨⟨v, h'⟩, -, rfl⟩ := Option.map_eq_some_iff.mp hstep
  dsimp only
  split
  · exact .inl rfl
  · exact .inr ⟨v, rfl⟩

theorem Run.requests {P : Word → Prop} (hrun : Run ok (State.init uvpt ref) s)
    (hok : ∀ s n, ok s n → P n) : ∀ b ∈ s.live, P b.n := by
  induction hrun with
  | start => exact fun b hb => by cases hb
  | malloc mem n _ hcall hstep ih =>
    rcases State.malloc_live hstep with hsame | ⟨v, hnew⟩
    · rwa [hsame]
    · rw [hnew]
      exact List.forall_mem_cons.mpr ⟨hok _ n hcall, ih⟩
  | free b _ hlive hstep ih =>
    obtain ⟨h', -, rfl⟩ := Option.map_eq_some_iff.mp hstep
    exact fun c hc => ih c (List.mem_of_mem_erase hc)

end Runs

def Block.Bytes (b : Block) (x : Nat) : Prop := b.v.toNat ≤ x ∧ x < b.v.toNat + b.n.toNat

/-- The live blocks are in the arena, mapped, and apart from each other and from the counts.
A count is in the last word of a page that the allocator has mapped without `PTE_CONTINUED`. -/
structure State.Safe (foreign : Nat → Prop) (s : State) : Prop where
  inside : ∀ b ∈ s.live, mbegin.toNat ≤ b.v.toNat ∧ b.v.toNat + b.n.toNat ≤ mend.toNat
  mapped : ∀ b ∈ s.live, ∀ x, b.Bytes x → s.heap.uvpt (x / 4096) &&& pteP ≠ 0
  apart : s.live.Pairwise fun b c => ∀ x, b.Bytes x → ¬ c.Bytes x
  counts : ∀ b ∈ s.live, ∀ p, Arena p → ¬ foreign p → s.heap.uvpt p &&& pteP ≠ 0 →
    s.heap.uvpt p &&& pteContinued = 0 → ∀ x, b.Bytes x →
      ¬ (4096 * p + 4092 ≤ x ∧ x < 4096 * p + 4096)

/-- The size is not rounded to zero, the search does not start at `mend`, and the count of the
page does not overflow. -/
def State.Careful (s : State) (n : Word) : Prop :=
  n.toNat ≤ 0xfffffffc ∧ s.Stays n ∧ s.live.length + 2 < 2 ^ 32

section Safety

variable {foreign : Nat → Prop} {held : List Nat} {s : State} {b : Block} {p : Nat}

theorem Block.Bytes.holds {x : Nat} (hn : b.n.toNat ≤ 0xfffffffc) (hx : b.Bytes x) : b.Holds x := by
  have hsize : b.n.toNat ≤ b.size := by
    rw [Block.size, toNat_roundup4]
    omega
  exact ⟨hx.1, hx.2.trans_le (Nat.add_le_add_left hsize _)⟩

theorem Inv.counted (hinv : Inv foreign held s) (hp : Arena p) (hforeign : ¬ foreign p)
    (hpresent : s.heap.uvpt p &&& pteP ≠ 0) (hcont : s.heap.uvpt p &&& pteContinued = 0) :
    ∃ c ∈ held.map Block.mark ++ s.live, c.last = p := by
  obtain ⟨c, hc, hlo, hhi⟩ := (hinv.pages.own p hp hpresent).resolve_left hforeign
  rcases hhi.lt_or_eq with hlt | heq
  · rw [(hinv.pages.stored c hc).cont p ⟨hlo, hlt⟩] at hcont
    exact absurd hcont (by decide)
  · exact ⟨c, hc, heq.symm⟩

theorem Inv.safe (hinv : Inv foreign held s) (hsizes : ∀ b ∈ s.live, b.n.toNat ≤ 0xfffffffc) :
    s.Safe foreign := by
  have hmem : ∀ b ∈ s.live, b ∈ held.map Block.mark ++ s.live :=
    fun b hb => List.mem_append_right _ hb
  constructor
  case inside =>
    intro b hb
    obtain ⟨hlo, hhi⟩ := (hinv.pages.stored b (hmem b hb)).inside
    have hsize := toNat_roundup4 b.n
    have hn := hsizes b hb
    rw [Block.first] at hlo
    rw [Block.last, Block.size] at hhi
    change 134217728 ≤ _ ∧ _ ≤ 268435456
    omega
  case mapped =>
    intro b hb x hx
    exact hinv.pages.mapped ⟨b, hmem b hb, (hx.holds (hsizes b hb)).page⟩
  case apart =>
    refine (List.pairwise_append.mp hinv.pages.apart).2.1.imp_of_mem fun hb hc hapart x hx hx' => ?_
    exact hapart.1 x (hx.holds (hsizes _ hb)) (hx'.holds (hsizes _ hc))
  case counts =>
    rintro b hb p hp hforeign hpresent hcont x hx ⟨hlo, hhi⟩
    obtain ⟨c, hc, rfl⟩ := hinv.counted hp hforeign hpresent hcont
    have hnot := hinv.pages.not_cont_last (hmem b hb) hc
    have hx := hx.holds (hsizes b hb)
    have hpage : b.first ≤ c.last ∧ c.last ≤ b.last := by
      have hpage := hx.page
      rwa [show x / 4096 = c.last by omega] at hpage
    have heq : b.last = c.last := by
      rw [Block.Cont] at hnot
      omega
    have hend := hx.2
    rw [← heq, Block.last] at hlo
    omega

end Safety

/-- Over the runs whose calls are careful, the live blocks are safe, and `malloc` and `free`
return. -/
theorem malloc_safe {uvpt ref : Nat → Word} {s : State}
    (hrun : Run State.Careful (State.init uvpt ref) s) : s.Safe (mappedBefore uvpt) ∧
      (∀ mem n, s.Careful n → (s.malloc mem n).isSome) ∧ ∀ b ∈ s.live, (s.free b).isSome := by
  obtain ⟨held, hinv, -⟩ := hrun.inv fun s n hcall => ⟨hcall.2.1, hcall.2.2⟩
  refine ⟨hinv.safe (hrun.requests fun s n hcall => hcall.1), fun mem n hcall => ?_, fun b hb => ?_⟩
  · obtain ⟨s', held', hmalloc, -⟩ := hinv.malloc hcall.2.1 hcall.2.2 mem
    rw [hmalloc]
    rfl
  · obtain ⟨s', hfree, -⟩ := hinv.free hb
    rw [hfree]
    rfl

def empty : State := State.init (fun _ => 0) fun _ => 0

theorem two_blocks (ok : State → Word → Prop) (hok : ∀ s n, n = 100 ∨ n = 200 →
    pgnum s.heap.mptr ≠ 65535 → s.live.length ≤ 1 → ok s n) : ∃ s, Run ok empty s ∧
    s.live = [⟨mbegin + 100, 200⟩, ⟨mbegin, 100⟩] ∧ (s.heap.ref 0x8000).toNat = 3 := by
  have hend : ((empty.malloc (fun _ => true) 100).bind fun s1 => (s1.malloc (fun _ => true) 200).map
      fun s => (pgnum s1.heap.mptr, s1.live.length, s.live, (s.heap.ref 0x8000).toNat)) =
      some (0x8000, 1, [⟨mbegin + 100, 200⟩, ⟨mbegin, 100⟩], 3) := by
    decide +kernel
  obtain ⟨s1, hfirst, hend⟩ := Option.bind_eq_some_iff.mp hend
  obtain ⟨s, hsecond, hend⟩ := Option.map_eq_some_iff.mp hend
  simp only [Prod.mk.injEq] at hend
  obtain ⟨hmptr, hlen, hend⟩ := hend
  exact ⟨s, .malloc _ 200 (.malloc _ 100 .start (hok _ _ (.inl rfl) (by decide) (by decide)) hfirst)
    (hok _ _ (.inr rfl) (by rw [hmptr]; decide) hlen.le) hsecond, hend⟩

theorem malloc_safe_two : ∃ s, Run State.Careful empty s ∧
    s.live = [⟨mbegin + 100, 200⟩, ⟨mbegin, 100⟩] ∧ s.Safe (mappedBefore fun _ => 0) ∧
    (s.free ⟨mbegin, 100⟩).isSome := by
  obtain ⟨s, hrun, hlive, -⟩ := two_blocks State.Careful fun s n hn hpage hlen =>
    ⟨by rcases hn with rfl | rfl <;> decide, fun _ hend => absurd hend hpage, by omega⟩
  obtain ⟨hsafe, -, hfree⟩ := malloc_safe hrun
  exact ⟨s, hrun, hlive, hsafe, hfree _ (by simp [hlive])⟩

/-- `ROUNDUP` takes a size near 2^32 to zero, and the block has no room at all. -/
theorem huge_request_unsafe : ∃ s, Run (fun _ _ => True) empty s ∧
    ¬ s.Safe (mappedBefore fun _ => 0) := by
  have hlive : (empty.malloc (fun _ => true) 0xfffffffd).map State.live =
      some [⟨mbegin, 0xfffffffd⟩] := by
    decide +kernel
  obtain ⟨s, hstep, hlive⟩ := Option.map_eq_some_iff.mp hlive
  refine ⟨s, .malloc _ _ .start trivial hstep, fun hsafe => ?_⟩
  have hinside := (hsafe.inside ⟨mbegin, 0xfffffffd⟩
    (by rw [hlive]; exact List.mem_singleton_self _)).2
  exact absurd hinside (by decide)

/-- Every page of the allocator without `PTE_CONTINUED` has as many references as live blocks
that end there, and one more if `mptr` is in its middle; with no live block, the page of `mptr` is
the only one. -/
structure State.Counted (foreign : Nat → Prop) (s : State) : Prop where
  refs : ∀ p, Arena p → ¬ foreign p → s.heap.uvpt p &&& pteP ≠ 0 →
    s.heap.uvpt p &&& pteContinued = 0 →
      (s.heap.ref p).toNat = (s.live.countP fun b => b.last = p) +
      if s.heap.mptr.toNat % 4096 ≠ 0 ∧ pgnum s.heap.mptr = p then 1 else 0
  empty : s.live = [] → ∀ p, Arena p → s.heap.uvpt p &&& pteP ≠ 0 →
    foreign p ∨ s.heap.mptr.toNat % 4096 ≠ 0 ∧ pgnum s.heap.mptr = p

/-- `malloc` leaves `mptr` in the middle of a page of its own. -/
def State.Tidy (s : State) (n : Word) : Prop :=
  s.Partial n ∧ s.Stays n ∧ s.live.length + 2 < 2 ^ 32

theorem State.count_mptrRefs (s : State) (p : Nat) : s.mptrRefs.count p =
    if s.heap.mptr.toNat % 4096 ≠ 0 ∧ pgnum s.heap.mptr = p then 1 else 0 := by
  rw [State.mptrRefs]
  by_cases hmid : s.heap.mptr.toNat % 4096 = 0
  · rw [if_pos hmid, if_neg fun hboth => hboth.1 hmid, List.count_nil]
  · rw [if_neg hmid, List.count_singleton]
    simp only [beq_iff_eq, ne_eq, hmid, not_false_eq_true, true_and]

theorem malloc_counted {uvpt ref : Nat → Word} {s : State}
    (hrun : Run State.Tidy (State.init uvpt ref) s) : s.Counted (mappedBefore uvpt) := by
  obtain ⟨held, hinv, hrefs⟩ := hrun.inv fun s n hcall => ⟨hcall.2.1, hcall.2.2⟩
  have hheld := hrefs fun s n hcall => hcall.1
  constructor
  case refs =>
    intro p hp hforeign hpresent hcont
    obtain ⟨c, hc, rfl⟩ := hinv.counted hp hforeign hpresent hcont
    rw [hinv.pages.count c hc, refsTo_append, refsTo_marks hinv.low, hheld, State.count_mptrRefs,
      Nat.add_comm]
    rfl
  case empty =>
    intro hnone p hp hpresent
    refine (hinv.pages.own p hp hpresent).imp_right fun ⟨c, hc, hlo, hhi⟩ => ?_
    rw [hnone, List.append_nil] at hc
    obtain ⟨q, hq, rfl⟩ := List.mem_map.mp hc
    rw [Block.first_mark (hinv.low q hq)] at hlo
    rw [Block.last_mark (hinv.low q hq)] at hhi
    obtain rfl : q = p := by omega
    rw [hheld, State.mptrRefs] at hq
    split at hq
    · cases hq
    · rename_i hmid
      exact ⟨hmid, (List.mem_singleton.mp hq).symm⟩

theorem malloc_counted_two : ∃ s, Run State.Tidy empty s ∧
    s.live = [⟨mbegin + 100, 200⟩, ⟨mbegin, 100⟩] ∧ (s.heap.ref 0x8000).toNat = 3 ∧
    s.Counted (mappedBefore fun _ => 0) := by
  obtain ⟨s, hrun, hlive, href⟩ := two_blocks State.Tidy fun s n hn hpage hlen =>
    ⟨fun _ => .inl (by rcases hn with rfl | rfl <;> decide), fun _ hend => absurd hend hpage,
      by omega⟩
  exact ⟨s, hrun, hlive, href, malloc_counted hrun⟩

/-- After a chunk of a whole page `mptr` is at the start of the page with the count, and the next
call does not drop its reference. -/
theorem whole_page_leaks : ∃ s, Run (fun _ _ => True) empty s ∧ s.live = [] ∧
    s.heap.uvpt 0x8001 = userPage ∧ (s.heap.ref 0x8001).toNat = 1 ∧ pgnum s.heap.mptr = 0x8002 ∧
    ¬ s.Counted (mappedBefore fun _ => 0) := by
  have hend : ((empty.malloc (fun _ => true) 4096).bind fun s1 =>
      (s1.malloc (fun _ => true) 4).bind fun s2 => (s2.free ⟨addr 0x8000, 4096⟩).bind fun s3 =>
      (s3.free ⟨addr 0x8002, 4⟩).map fun s4 => (s2.live, s3.live, s4.live, s4.heap.uvpt 0x8001,
        (s4.heap.ref 0x8001).toNat, pgnum s4.heap.mptr)) =
      some ([⟨addr 0x8002, 4⟩, ⟨addr 0x8000, 4096⟩], [⟨addr 0x8002, 4⟩], [], userPage, 1,
        0x8002) := by
    decide +kernel
  obtain ⟨s1, hfirst, hend⟩ := Option.bind_eq_some_iff.mp hend
  obtain ⟨s2, hsecond, hend⟩ := Option.bind_eq_some_iff.mp hend
  obtain ⟨s3, hthird, hend⟩ := Option.bind_eq_some_iff.mp hend
  obtain ⟨s4, hfourth, hend⟩ := Option.map_eq_some_iff.mp hend
  simp only [Prod.mk.injEq] at hend
  obtain ⟨hlive2, hlive3, hlive4, hentry, href, hmptr⟩ := hend
  have hrun : Run (fun _ _ => True) empty s4 := by
    refine .free _ (.free _ (.malloc _ _ (.malloc _ _ .start trivial hfirst) trivial hsecond)
      ?_ hthird)
      ?_ hfourth
    · simp [hlive2]
    · simp [hlive3]
  refine ⟨s4, hrun, hlive4, hentry, href, hmptr, fun hcounted => ?_⟩
  have hpage := hcounted.empty hlive4 0x8001 ⟨by decide, by decide⟩ (by rw [hentry]; decide)
  rcases hpage with hforeign | ⟨-, heq⟩
  · exact hforeign.2 rfl
  · rw [hmptr] at heq
    exact absurd heq (by decide)

end Mit6828.Lib.Malloc
