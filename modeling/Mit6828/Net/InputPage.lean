import Mit6828.Kern.Mmu

/-!
The page through which `net/input.c` hands packets to the network server.  The server maps the
page `nsipcbuf` itself, so it sees every later store of the input environment; both run one
memory access at a time.
-/

namespace Mit6828.Net.InputPage

open Kern.Mmu Function

def mtu : Nat := 1518

structure Packet where
  data : List Byte
  fits : data.length ≤ mtu

structure Page where
  jpLen : Word
  jpData : Nat → Byte

/-- Where `input` is: it polls the driver or sleeps, it has copied `i` bytes of a packet, or it
is about to send the page. -/
inductive Phase where
  | poll
  | copy (p : Packet) (i : Nat)
  | send

/-- How far a thread of the server is with a request: not at its first read, in the copy loop of
`low_level_input`, or done. -/
inductive Task where
  | start
  | reading (len : BitVec 16) (got : List Byte)
  | done (len : BitVec 16) (got : List Byte)
deriving DecidableEq

def Task.isDone : Task → Bool
  | .done _ _ => true
  | _ => false

/-- The two environments.  `packets` are the packets the driver has returned, `sent` counts the
requests, and `task k` is what the server does with the `k`-th of them. -/
structure System where
  page : Page
  phase : Phase
  packets : List Packet
  sent : Nat
  task : Nat → Task

namespace System

def init (page : Page) : System := ⟨page, .poll, [], 0, fun _ => .start⟩

inductive Event where
  /-- `sys_pkt_try_recv` returns a packet. -/
  | recv (p : Packet)
  /-- The next byte of `memcpy`, or after the last one the store of `jp_len`. -/
  | store
  /-- `ipc_send` returns. -/
  | send
  /-- The next read of the thread that has the `k`-th request. -/
  | read (k : Nat)

def Event.isStore : Event → Bool
  | .store => true
  | _ => false

/-- The next store of `input` for packet `p`, when `i` bytes are copied. -/
def store (s : System) (p : Packet) (i : Nat) : System :=
  match p.data[i]? with
  | some b => { s with
      page := { s.page with jpData := update s.page.jpData i b }
      phase := .copy p (i + 1) }
  | none => { s with
      page := { s.page with jpLen := BitVec.ofNat 32 p.data.length }, phase := .send }

/-- The next read of `low_level_input`: `jp_len` into an `s16_t`, then the bytes. -/
def read (page : Page) : Task → Task
  | .start => .reading (page.jpLen.setWidth 16) []
  | .reading len got =>
    if got.length < len.toNat then .reading len (got ++ [page.jpData got.length])
    else .done len got
  | .done len got => .done len got

/-- One event; `none` if it cannot happen now. -/
def step (s : System) (ev : Event) : Option System :=
  match ev, s.phase with
  | .recv p, .poll => some { s with packets := s.packets ++ [p], phase := .copy p 0 }
  | .store, .copy p i => some (s.store p i)
  | .send, .send => some { s with sent := s.sent + 1, phase := .poll }
  | .read k, _ =>
    if k < s.sent then
      some { s with task := update s.task k (read s.page (s.task k)) }
    else none
  | _, _ => none

def run (s : System) (evs : List Event) : Option System := evs.foldlM step s

def Idle (s : System) : Prop := ∀ k < s.sent, (s.task k).isDone = true

instance (s : System) : Decidable (Idle s) :=
  inferInstanceAs (Decidable (∀ k < s.sent, (s.task k).isDone = true))

/-- In the run that these events make, the input environment stores to the page only when the
server is done with the requests before. -/
def Acknowledged : System → List Event → Prop
  | _, [] => True
  | s, ev :: evs => (ev.isStore = true → Idle s) ∧ ∀ s' ∈ s.step ev, Acknowledged s' evs

instance decidableAcknowledged : ∀ (s : System) (evs : List Event), Decidable (Acknowledged s evs)
  | _, [] => .isTrue trivial
  | s, ev :: evs =>
    have : ∀ s', Decidable (Acknowledged s' evs) := fun s' => decidableAcknowledged s' evs
    inferInstanceAs (Decidable (_ ∧ ∀ s' ∈ s.step ev, Acknowledged s' evs))

/-- What the server has read for the `k`-th request is the `k`-th packet. -/
def Faithful (s : System) : Prop := ∀ k < s.sent, ∀ len got, s.task k = .done len got →
  ∃ p, s.packets[k]? = some p ∧ len.toNat = p.data.length ∧ got = p.data

structure Holds (page : Page) (p : Packet) : Prop where
  len : page.jpLen = BitVec.ofNat 32 p.data.length
  data : ∀ i b, p.data[i]? = some b → page.jpData i = b

/-- How far a thread may be with packet `p` when the page is `page`. -/
def TaskOk (page : Page) (p : Packet) : Task → Prop
  | .start => Holds page p
  | .reading len got => Holds page p ∧ len.toNat = p.data.length ∧ got <+: p.data
  | .done len got => len.toNat = p.data.length ∧ got = p.data

/-- What `input` has stored of the last packet. -/
def PhaseOk (s : System) : Prop :=
  match s.phase with
  | .poll => s.packets.length = s.sent
  | .copy p i => s.packets[s.sent]? = some p ∧ s.packets.length = s.sent + 1 ∧
      i ≤ p.data.length ∧ ∀ j < i, ∀ b, p.data[j]? = some b → s.page.jpData j = b
  | .send => ∃ p, s.packets[s.sent]? = some p ∧ s.packets.length = s.sent + 1 ∧ Holds s.page p

structure Inv (s : System) : Prop where
  phase : PhaseOk s
  tasks : ∀ k < s.sent, ∃ p, s.packets[k]? = some p ∧ TaskOk s.page p (s.task k)
  fresh : ∀ k, s.sent ≤ k → s.task k = .start

variable {s s' : System} {page page' : Page} {p : Packet} {ev : Event}

theorem toNat_len (p : Packet) :
    ((BitVec.ofNat 32 p.data.length).setWidth 16).toNat = p.data.length := by
  have hfits := p.fits
  simp only [mtu] at hfits
  rw [BitVec.toNat_setWidth, BitVec.toNat_ofNat]
  omega

theorem TaskOk.read {t : Task} (h : TaskOk page p t) : TaskOk page p (System.read page t) := by
  cases t with
  | start => exact ⟨h, by rw [h.len, toNat_len], List.nil_prefix⟩
  | reading len got =>
    obtain ⟨hpage, hlen, rest, hrest⟩ := h
    have hsum : got.length + rest.length = p.data.length := by
      rw [← hrest, List.length_append]
    rw [System.read]
    split
    · -- the next byte of the page is the next byte of the packet
      obtain _ | ⟨b, rest⟩ := rest
      · grind
      have hnext : p.data[got.length]? = some b := by
        rw [← hrest, List.getElem?_append_right le_rfl, Nat.sub_self]
        rfl
      refine ⟨hpage, hlen, rest, ?_⟩
      rw [hpage.data _ b hnext, List.append_assoc]
      exact hrest
    · obtain rfl : rest = [] := List.eq_nil_of_length_eq_zero (by omega)
      exact ⟨hlen, by rw [← hrest, List.append_nil]⟩
  | done len got => exact h

theorem TaskOk.of_done {t : Task} (h : TaskOk page p t) (ht : t.isDone = true) (page' : Page) :
    TaskOk page' p t := by
  cases t with
  | start => cases ht
  | reading len got => cases ht
  | done len got => exact h

theorem inv_init (page : Page) : Inv (init page) :=
  ⟨rfl, fun k hk => absurd hk (Nat.not_lt_zero k), fun _ _ => rfl⟩

theorem Inv.store {i : Nat} (h : Inv s) (hidle : Idle s) (hphase : s.phase = .copy p i) :
    Inv (s.store p i) := by
  have hok := h.phase
  rw [PhaseOk, hphase] at hok
  obtain ⟨hlast, hlen, hi, hcopied⟩ := hok
  have htasks : ∀ page' : Page, ∀ k < s.sent,
      ∃ p, s.packets[k]? = some p ∧ TaskOk page' p (s.task k) := fun page' k hk => by
    obtain ⟨p, hp, htask⟩ := h.tasks k hk
    exact ⟨p, hp, htask.of_done (hidle k hk) page'⟩
  rw [System.store]
  split
  · rename_i b hb
    have hlt : i < p.data.length := (List.getElem?_eq_some_iff.mp hb).1
    refine ⟨⟨hlast, hlen, hlt, fun j hj b' hb' => ?_⟩, htasks _, h.fresh⟩
    by_cases heq : j = i
    · subst heq
      simp only [update_self]
      exact Option.mem_unique hb hb'
    · simp only [update_of_ne heq]
      exact hcopied j (by omega) b' hb'
  · rename_i hnone
    have hge := List.getElem?_eq_none_iff.mp hnone
    refine ⟨⟨p, hlast, hlen, rfl, fun j b hb => ?_⟩, htasks _, h.fresh⟩
    have hlt : j < p.data.length := (List.getElem?_eq_some_iff.mp hb).1
    exact hcopied j (by omega) b hb

theorem Inv.step (h : Inv s) (hidle : ev.isStore = true → Idle s) (hstep : s.step ev = some s') :
    Inv s' := by
  have hok := h.phase
  rw [PhaseOk] at hok
  unfold System.step at hstep
  split at hstep
  · rename_i p hphase
    rw [hphase] at hok
    cases hstep
    have hlast : (s.packets ++ [p])[s.sent]? = some p := by
      rw [← show s.packets.length = s.sent from hok, List.getElem?_concat_length]
    refine ⟨⟨hlast, by simpa using hok, Nat.zero_le _, fun j hj => absurd hj (Nat.not_lt_zero j)⟩,
      fun k hk => ?_, h.fresh⟩
    obtain ⟨p', hp', htask⟩ := h.tasks k hk
    refine ⟨p', ?_, htask⟩
    rw [List.getElem?_append_left (List.getElem?_eq_some_iff.mp hp').1]
    exact hp'
  · rename_i hphase
    cases hstep
    exact h.store (hidle rfl) hphase
  · rename_i hphase
    rw [hphase] at hok
    obtain ⟨p, hlast, hlen, hholds⟩ := hok
    cases hstep
    refine ⟨hlen, fun k hk => ?_, fun k hk => h.fresh k (Nat.le_of_succ_le hk)⟩
    rcases Nat.lt_succ_iff_lt_or_eq.mp hk with hlt | rfl
    · exact h.tasks k hlt
    · exact ⟨p, hlast, by rw [h.fresh _ le_rfl]; exact hholds⟩
  · rename_i _ _ k
    split at hstep
    · rename_i hk
      cases hstep
      refine ⟨h.phase, fun k' hk' => ?_, fun k' hk' => ?_⟩
      · obtain ⟨p, hp, htask⟩ := h.tasks k' hk'
        refine ⟨p, hp, ?_⟩
        by_cases heq : k' = k
        · subst heq
          simp only [update_self]
          exact htask.read
        · simp only [update_of_ne heq]
          exact htask
      · have hne : k' ≠ k := fun heq => absurd hk (Nat.not_lt.mpr (heq ▸ hk'))
        simp only [update_of_ne hne]
        exact h.fresh k' hk'
    · cases hstep
  · cases hstep

theorem Inv.run {evs : List Event} (h : Inv s) (hack : Acknowledged s evs)
    (hrun : s.run evs = some s') : Inv s' := by
  induction evs generalizing s with
  | nil =>
    cases hrun
    exact h
  | cons ev evs ih =>
    obtain ⟨s1, hstep, hrest⟩ := Option.bind_eq_some_iff.mp
      (show (s.step ev).bind (fun s => s.run evs) = some s' from hrun)
    exact ih (h.step hack.1 hstep) (hack.2 s1 hstep) hrest

/-- As long as the server is done with a packet before the next one is stored, it reads the
packets that the driver returned. -/
theorem input_faithful {page : Page} {evs : List Event} (hack : Acknowledged (init page) evs)
    (hrun : (init page).run evs = some s) : Faithful s := by
  have h := (inv_init page).run hack hrun
  intro k hk len got hdone
  obtain ⟨p, hp, htask⟩ := h.tasks k hk
  rw [hdone] at htask
  exact ⟨p, hp, htask⟩

def single (b : Byte) : Packet := ⟨[b], Nat.succ_le_succ (Nat.zero_le _)⟩

def passOn (b : Byte) : List Event := [.recv (single b), .store, .store, .send]

def readOne (k : Nat) : List Event := [.read k, .read k, .read k]

def blank : System := init ⟨0, fun _ => 0⟩

theorem input_faithful_two :
    ∃ s, blank.run (passOn 1 ++ readOne 0 ++ passOn 2 ++ readOne 1) = some s ∧
    s.task 1 = .done 1 [2] ∧ Faithful s := by
  have hend : (blank.run (passOn 1 ++ readOne 0 ++ passOn 2 ++ readOne 1)).map (fun s => s.task 1) =
      some (.done 1 [2]) := by decide +kernel
  obtain ⟨s, hs, hend⟩ := Option.map_eq_some_iff.mp hend
  have hack : Acknowledged blank (passOn 1 ++ readOne 0 ++ passOn 2 ++ readOne 1) := by
    decide +kernel
  exact ⟨s, hs, hend, input_faithful hack hs⟩

/-- A thread that runs only after the next packet was stored reads that one. -/
theorem late_read_differs : ∃ s, blank.run (passOn 1 ++ passOn 2 ++ readOne 0) = some s ∧
    s.packets.map Packet.data = [[1], [2]] ∧ s.task 0 = .done 1 [2] ∧ ¬ Faithful s := by
  have hend : (blank.run (passOn 1 ++ passOn 2 ++ readOne 0)).map
      (fun s => (s.packets.map Packet.data, s.sent, s.task 0)) =
        some ([[1], [2]], 2, .done 1 [2]) := by decide +kernel
  obtain ⟨s, hs, hend⟩ := Option.map_eq_some_iff.mp hend
  obtain ⟨hpackets, hend⟩ := Prod.mk.inj hend
  obtain ⟨hsent, htask⟩ := Prod.mk.inj hend
  refine ⟨s, hs, hpackets, htask, fun h => ?_⟩
  obtain ⟨p, hp, -, hgot⟩ := h 0 (by rw [hsent]; decide) 1 [2] htask
  have hfirst : (s.packets.map Packet.data)[0]? = some p.data := by
    rw [List.getElem?_map, hp, Option.map_some]
  rw [hpackets, ← hgot] at hfirst
  exact absurd hfirst (by decide)

end System

end Mit6828.Net.InputPage
