import Mathlib.Data.Finset.Card

/-!
Closing a socket, `devsock_close` of `lib/sockets.c` under `fd_close` of `lib/fd.c`.  The page of
the `struct Fd` is mapped once for every descriptor of the socket, in any number of processes.
-/

namespace Mit6828.Lib.Sockets

open Function

abbrev Descriptor := Nat × Nat

inductive Pc where
  | idle
  /-- In `devsock_close`, before `pageref(fd) == 1` is evaluated. -/
  | check (fd : Nat)
  /-- At `nsipc_close`. -/
  | send (fd : Nat)
  /-- At `sys_page_unmap`. -/
  | unmap (fd : Nat)
  deriving DecidableEq

/-- `mapped` are the mappings of the page, `sent` counts the calls of `nsipc_close`. -/
structure State where
  mapped : Finset Descriptor
  pc : Nat → Pc
  sent : Nat

def pageref (s : State) : Nat := s.mapped.card

namespace State

def setPc (s : State) (p : Nat) (pc : Pc) : State := { s with pc := update s.pc p pc }

variable {s : State} {p q : Nat} {pc : Pc}

@[simp] theorem setPc_pc_self : (s.setPc p pc).pc p = pc := update_self _ _ _

theorem setPc_pc_of_ne (hne : q ≠ p) : (s.setPc p pc).pc q = s.pc q := update_of_ne hne _ _

theorem setPc_setPc (s : State) (p : Nat) (pc pc' : Pc) :
    (s.setPc p pc).setPc p pc' = s.setPc p pc' := by
  rw [setPc, setPc, setPc, update_idem]

end State

def opened (p fd : Nat) : State where
  mapped := {(p, fd)}
  pc := fun _ => .idle
  sent := 0

/-- A process that holds the socket and is not closing it maps the page for itself (`dup`) or for
a child (`fork`, `spawn`), or it closes a descriptor. -/
inductive Step (s : State) : State → Prop
  | share (p fd q fd' : Nat) (hpc : s.pc p = .idle) (hfd : (p, fd) ∈ s.mapped) :
      Step s { s with mapped := insert (q, fd') s.mapped }
  | close (p fd : Nat) (hpc : s.pc p = .idle) (hfd : (p, fd) ∈ s.mapped) :
      Step s (s.setPc p (.check fd))
  | check (p fd : Nat) (hpc : s.pc p = .check fd) :
      Step s (s.setPc p (if pageref s = 1 then .send fd else .unmap fd))
  | send (p fd : Nat) (hpc : s.pc p = .send fd) :
      Step s { s.setPc p (.unmap fd) with sent := s.sent + 1 }
  | unmap (p fd : Nat) (hpc : s.pc p = .unmap fd) :
      Step s { s.setPc p .idle with mapped := s.mapped.erase (p, fd) }

/-- Process `p` has evaluated `pageref(fd) == 1` and still has its mapping. -/
def Decided (s : State) (p : Nat) : Prop := ∃ fd, s.pc p = .send fd ∨ s.pc p = .unmap fd

def Serial (s : State) : Prop := ∀ p q, Decided s p → Decided s q → p = q

def SerialStep (s s' : State) : Prop := Step s s' ∧ Serial s'

/-- `nsipc_close` is sent once, when the last descriptor goes away: none is left, or the one
that is about to be unmapped. -/
structure ClosedOnce (s : State) : Prop where
  most : s.sent ≤ 1
  least : s.mapped = ∅ → s.sent = 1
  last : s.sent = 1 → s.mapped = ∅ ∨ ∃ p fd, s.pc p = .unmap fd ∧ s.mapped = {(p, fd)}

/-- What the decision of a process means while it is the only one: the descriptor is the last
one, or there are others. -/
def PcOk (s : State) (p : Nat) : Pc → Prop
  | .idle => True
  | .check fd => (p, fd) ∈ s.mapped
  | .send fd => s.sent = 0 ∧ s.mapped = {(p, fd)}
  | .unmap fd => (p, fd) ∈ s.mapped ∧
      (s.sent = 0 ∧ 1 < s.mapped.card ∨ s.sent = 1 ∧ s.mapped = {(p, fd)})

structure Inv (s : State) : Prop where
  pc : ∀ p, PcOk s p (s.pc p)
  /-- Before it is sent there are descriptors; after it only the last one. -/
  sent : s.sent = 0 ∧ s.mapped ≠ ∅ ∨
    s.sent = 1 ∧ (s.mapped = ∅ ∨ ∃ p fd, s.pc p = .unmap fd ∧ s.mapped = {(p, fd)})

variable {s s' : State} {p q fd fd' : Nat}

theorem Inv.closedOnce (h : Inv s) : ClosedOnce s := by
  rcases h.sent with ⟨hsent, hne⟩ | ⟨hsent, hlast⟩
  · exact ⟨by omega, fun hempty => absurd hempty hne, fun h1 => by omega⟩
  · exact ⟨by omega, fun _ => hsent, fun _ => hlast⟩

theorem inv_opened (p fd : Nat) : Inv (opened p fd) :=
  ⟨fun _ => trivial, .inl ⟨rfl, Finset.singleton_ne_empty _⟩⟩

section

variable (h : Inv s)
include h

theorem Inv.of_idle (hpc : s.pc p = .idle) (hfd : (p, fd) ∈ s.mapped) :
    s.sent = 0 ∧ ∀ q fd', s.pc q = .unmap fd' ∨ s.pc q = .send fd' → s.mapped ≠ {(q, fd')} := by
  have hother : ∀ q fd', s.pc q = .unmap fd' ∨ s.pc q = .send fd' → s.mapped ≠ {(q, fd')} := by
    rintro q fd' hq heq
    rw [heq, Finset.mem_singleton, Prod.mk.injEq] at hfd
    rw [← hfd.1, hpc] at hq
    simp at hq
  refine ⟨?_, hother⟩
  rcases h.sent with ⟨hsent, -⟩ | ⟨-, hempty | ⟨q, fd', hq, heq⟩⟩
  · exact hsent
  · rw [hempty] at hfd
    exact absurd hfd (Finset.notMem_empty _)
  · exact absurd heq (hother q fd' (.inl hq))

theorem inv_share (hpc : s.pc p = .idle) (hfd : (p, fd) ∈ s.mapped) :
    Inv { s with mapped := insert (q, fd') s.mapped } := by
  obtain ⟨hsent, hother⟩ := h.of_idle hpc hfd
  refine ⟨fun x => ?_, .inl ⟨hsent, Finset.insert_ne_empty _ _⟩⟩
  have hx := h.pc x
  change PcOk _ x (s.pc x)
  cases hcase : s.pc x with
  | idle => trivial
  | check f =>
    rw [hcase] at hx
    exact Finset.mem_insert_of_mem hx
  | send f =>
    rw [hcase] at hx
    exact absurd hx.2 (hother x f (.inr hcase))
  | unmap f =>
    rw [hcase] at hx
    refine ⟨Finset.mem_insert_of_mem hx.1, .inl ⟨hsent, ?_⟩⟩
    rcases hx.2 with ⟨-, hcard⟩ | ⟨hone, -⟩
    · exact hcard.trans_le (Finset.card_le_card (Finset.subset_insert _ _))
    · omega

theorem Inv.setPc {pc : Pc} (hok : PcOk s p pc) (hnot : ∀ fd, s.pc p ≠ .unmap fd) :
    Inv (s.setPc p pc) := by
  refine ⟨fun x => ?_, ?_⟩
  · by_cases hx : x = p
    · subst hx
      rw [State.setPc_pc_self]
      exact hok
    · rw [State.setPc_pc_of_ne hx]
      exact h.pc x
  rcases h.sent with hbefore | ⟨hsent, hempty | ⟨q, fd, hq, heq⟩⟩
  · exact .inl hbefore
  · exact .inr ⟨hsent, .inl hempty⟩
  · refine .inr ⟨hsent, .inr ⟨q, fd, ?_, heq⟩⟩
    have hne : q ≠ p := by
      rintro rfl
      exact hnot fd hq
    rw [State.setPc_pc_of_ne hne]
    exact hq

theorem inv_check (hserial : Serial (s.setPc p (if pageref s = 1 then .send fd else .unmap fd)))
    (hpc : s.pc p = .check fd) :
    Inv (s.setPc p (if pageref s = 1 then .send fd else .unmap fd)) := by
  have hmem : (p, fd) ∈ s.mapped := by
    have := h.pc p
    rwa [hpc] at this
  have hdecided : Decided (s.setPc p (if pageref s = 1 then .send fd else .unmap fd)) p := by
    refine ⟨fd, ?_⟩
    rw [State.setPc_pc_self]
    split
    · exact .inl rfl
    · exact .inr rfl
  have hsent : s.sent = 0 := by
    rcases h.sent with ⟨hsent, -⟩ | ⟨-, hempty | ⟨q, f, hq, -⟩⟩
    · exact hsent
    · rw [hempty] at hmem
      exact absurd hmem (Finset.notMem_empty _)
    · have hne : q ≠ p := by
        rintro rfl
        rw [hpc] at hq
        cases hq
      refine absurd (hserial q p ⟨f, .inr ?_⟩ hdecided) hne
      rw [State.setPc_pc_of_ne hne]
      exact hq
  refine h.setPc ?_ (by simp [hpc])
  split
  · rename_i hone
    obtain ⟨d, hd⟩ := Finset.card_eq_one.mp hone
    rw [hd, Finset.mem_singleton] at hmem
    exact ⟨hsent, by rw [hd, hmem]⟩
  · rename_i hone
    have hpos : 0 < s.mapped.card := Finset.card_pos.mpr ⟨_, hmem⟩
    have hcard : s.mapped.card ≠ 1 := hone
    exact ⟨hmem, .inl ⟨hsent, by omega⟩⟩

theorem inv_send (hserial : Serial s) (hpc : s.pc p = .send fd) :
    Inv { s.setPc p (.unmap fd) with sent := s.sent + 1 } := by
  obtain ⟨hsent, heq⟩ : s.sent = 0 ∧ s.mapped = {(p, fd)} := by
    have := h.pc p
    rwa [hpc] at this
  have hself : update s.pc p (.unmap fd) p = .unmap fd := update_self _ _ _
  refine ⟨fun x => ?_, .inr ⟨by simp [hsent], .inr ⟨p, fd, hself, heq⟩⟩⟩
  change PcOk _ x (update s.pc p (.unmap fd) x)
  by_cases hx : x = p
  · subst hx
    rw [hself]
    exact ⟨heq ▸ Finset.mem_singleton_self _, .inr ⟨by simp [hsent], heq⟩⟩
  rw [update_of_ne hx]
  have hxok := h.pc x
  cases hcase : s.pc x with
  | idle => trivial
  | check f =>
    rw [hcase] at hxok
    exact hxok
  | send f => exact absurd (hserial x p ⟨f, .inl hcase⟩ ⟨fd, .inl hpc⟩) hx
  | unmap f => exact absurd (hserial x p ⟨f, .inr hcase⟩ ⟨fd, .inl hpc⟩) hx

theorem inv_unmap (hserial : Serial s) (hpc : s.pc p = .unmap fd) :
    Inv { s.setPc p .idle with mapped := s.mapped.erase (p, fd) } := by
  obtain ⟨hmem, hcase⟩ : (p, fd) ∈ s.mapped ∧
      (s.sent = 0 ∧ 1 < s.mapped.card ∨ s.sent = 1 ∧ s.mapped = {(p, fd)}) := by
    have := h.pc p
    rwa [hpc] at this
  refine ⟨fun x => ?_, ?_⟩
  · change PcOk _ x (update s.pc p .idle x)
    by_cases hx : x = p
    · rw [hx, update_self]
      trivial
    rw [update_of_ne hx]
    have hxok := h.pc x
    cases hcase : s.pc x with
    | idle => trivial
    | check f =>
      rw [hcase] at hxok
      exact Finset.mem_erase.mpr ⟨by simp [hx], hxok⟩
    | send f => exact absurd (hserial x p ⟨f, .inl hcase⟩ ⟨fd, .inr hpc⟩) hx
    | unmap f => exact absurd (hserial x p ⟨f, .inr hcase⟩ ⟨fd, .inr hpc⟩) hx
  · rcases hcase with ⟨hsent, hcard⟩ | ⟨hsent, heq⟩
    · refine .inl ⟨hsent, fun hempty => ?_⟩
      have hless := Finset.card_erase_of_mem hmem
      have hzero : (s.mapped.erase (p, fd)).card = 0 := Finset.card_eq_zero.mpr hempty
      omega
    · refine .inr ⟨hsent, .inl ?_⟩
      change s.mapped.erase (p, fd) = ∅
      rw [heq, Finset.erase_singleton]

theorem inv_step (hserial : Serial s) (hstep : SerialStep s s') : Inv s' := by
  obtain ⟨hstep, hserial'⟩ := hstep
  cases hstep with
  | share p fd q fd' hpc hfd => exact inv_share h hpc hfd
  | close p fd hpc hfd => exact h.setPc hfd (by simp [hpc])
  | check p fd hpc => exact inv_check h hserial' hpc
  | send p fd hpc => exact inv_send h hserial hpc
  | unmap p fd hpc => exact inv_unmap h hserial hpc

end

/-- As long as no process evaluates `pageref(fd) == 1` while another one is between its
evaluation and its `sys_page_unmap`, the socket is closed once. -/
theorem socket_closed_once (hrun : Relation.ReflTransGen SerialStep (opened p fd) s) :
    ClosedOnce s := by
  have hinv : Inv s ∧ Serial s := by
    induction hrun with
    | refl => exact ⟨inv_opened p fd, fun x y ⟨f, hx⟩ => by simp [opened] at hx⟩
    | tail _ hstep ih => exact ⟨inv_step ih.1 ih.2 hstep, hstep.2⟩
  exact hinv.1.closedOnce

theorem serial_of_alone (hpc : ∀ q, q ≠ p → s.pc q = .idle) : Serial s := by
  have honly : ∀ q, Decided s q → q = p := by
    rintro q ⟨fd, hq⟩
    by_contra hne
    rw [hpc q hne] at hq
    simp at hq
  exact fun x y hx hy => (honly x hx).trans (honly y hy).symm

theorem close_alone (p fd : Nat) (hidle : ∀ q, s.pc q = .idle) (hfd : (p, fd) ∈ s.mapped) :
    ∃ s', Relation.ReflTransGen SerialStep s s' ∧ s'.mapped = s.mapped.erase (p, fd) ∧
      ∀ q, s'.pc q = .idle := by
  have hserial : ∀ s' pc, s'.pc = update s.pc p pc → Serial s' := fun s' pc hpc =>
    serial_of_alone fun q hq => by rw [hpc, update_of_ne hq, hidle]
  have hunmap : ∀ s1, Relation.ReflTransGen SerialStep s s1 → s1.pc = update s.pc p (.unmap fd) →
      s1.mapped = s.mapped → ∃ s', Relation.ReflTransGen SerialStep s s' ∧
        s'.mapped = s.mapped.erase (p, fd) ∧ ∀ q, s'.pc q = .idle := fun s1 hrun hpc hmapped => by
    have hend : (s1.setPc p .idle).pc = update s.pc p .idle := by simp [State.setPc, hpc]
    refine ⟨_, hrun.tail ⟨.unmap p fd (by rw [hpc, update_self]), hserial _ _ hend⟩,
      by rw [hmapped], fun q => ?_⟩
    by_cases hq : q = p <;> simp [hend, hq, hidle]
  have hclose : SerialStep s _ := ⟨.close p fd (hidle p) hfd, hserial _ _ rfl⟩
  have hcheck := Step.check (s := s.setPc p (.check fd)) p fd State.setPc_pc_self
  rw [State.setPc_setPc] at hcheck
  have hchecked := (Relation.ReflTransGen.single hclose).tail ⟨hcheck, hserial _ _ rfl⟩
  split at hchecked
  · have hpc : update (update s.pc p (.send fd)) p (.unmap fd) = _ := update_idem _ _ _
    exact hunmap _ (hchecked.tail ⟨.send p fd State.setPc_pc_self, hserial _ _ hpc⟩) hpc rfl
  · exact hunmap _ hchecked rfl rfl

/-- Two processes that share a socket close it one after the other. -/
theorem socket_closed_once_two : ∃ s, Relation.ReflTransGen SerialStep (opened 0 0) s ∧
    s.mapped = ∅ ∧ ClosedOnce s := by
  have hfork : SerialStep (opened 0 0) _ :=
    ⟨.share 0 0 1 0 rfl (Finset.mem_singleton_self _), serial_of_alone (p := 0) fun _ _ => rfl⟩
  obtain ⟨s1, hfirst, hmapped, hidle⟩ := close_alone 0 0
    (s := { opened 0 0 with mapped := {(1, 0), (0, 0)} }) (fun _ => rfl) (by decide)
  obtain ⟨s, hsecond, hgone, -⟩ := close_alone 1 0 hidle (by rw [hmapped]; decide)
  have hrun := ((Relation.ReflTransGen.single hfork).trans hfirst).trans hsecond
  exact ⟨s, hrun, by rw [hgone, hmapped]; rfl, socket_closed_once hrun⟩

/-- Two processes that share a socket close it at the same time, and `nsipc_close` is not sent. -/
theorem socket_never_closed : ∃ s, Relation.ReflTransGen Step (opened 0 0) s ∧ s.mapped = ∅ ∧
    s.sent = 0 := by
  have hfork := Step.share (s := opened 0 0) 0 0 1 0 rfl (Finset.mem_singleton_self _)
  have hclose := Step.close (s := { opened 0 0 with mapped := {(1, 0), (0, 0)} }) 0 0 rfl
    (by decide)
  have hclose' := (Relation.ReflTransGen.single hfork |>.tail hclose).tail
    (Step.close 1 0 rfl (by decide))
  have hchecked := (hclose'.tail (Step.check 0 0 rfl)).tail (Step.check 1 0 rfl)
  have hunmapped := (hchecked.tail (Step.unmap 0 0 rfl)).tail (Step.unmap 1 0 rfl)
  exact ⟨_, hunmapped, by decide, rfl⟩

end Mit6828.Lib.Sockets
