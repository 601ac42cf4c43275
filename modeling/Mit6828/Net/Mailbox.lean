import Mit6828.Kern.Mmu
import Mit6828.Library.Ring

/-!
The mailboxes of `net/lwip/jos/arch/sys_arch.c`.

Threads give up the CPU only in `thread_wait`, so between two waits a thread's code is one
step.  `thread_wait` returns when the semaphore has changed, when the thread is woken or when
its time is up; the model lets it return at any time.
-/

namespace Mit6828.Net.Mailbox

open Kern.Mmu Library Relation Function

@[grind unfold]
def mboxslots : Nat := 32

def sysArchTimeout : Word := 0xffffffff
def sysArchNowait : Word := 0xfffffffe

/-- The fields of `struct sys_sem_entry` that change while the semaphore is in use. -/
structure Sem where
  counter : BitVec 16
  waiters : BitVec 16

structure Mbox (α : Type) where
  head : Int
  nextq : Int
  msg : Nat → α
  queuedMsg : Sem
  freeMsg : Sem

variable {α : Type}

def sysSemNew (sem : Sem) (count : BitVec 8) : Sem :=
  { sem with counter := count.setWidth 16 }

def sysMboxNew (msg : Nat → α) (queued free : Sem) : Mbox α where
  head := -1
  nextq := 0
  msg := msg
  queuedMsg := sysSemNew queued 0
  freeMsg := sysSemNew free (BitVec.ofNat 8 mboxslots)

/-- `sys_sem_signal`; what `thread_wakeup` does is part of when `thread_wait` returns. -/
def sysSemSignal (sem : Sem) : Sem :=
  let sem := { sem with counter := sem.counter + 1 }
  if sem.waiters ≠ 0 then { sem with waiters := 0 } else sem

/-- Where a pass through the loop of `sys_arch_sem_wait` ends: it returns, or it waits. -/
inductive Wait where
  | ret (waited : Word) (sem : Sem)
  | wait (sem : Sem)

/-- The loop of `sys_arch_sem_wait`, from its test to the next `thread_wait`. -/
def sysArchSemWait (tmMsec waited : Word) (sem : Sem) : Wait :=
  if tmMsec = 0 ∨ waited < tmMsec then
    if 0 < sem.counter then .ret waited { sem with counter := sem.counter - 1 }
    else if tmMsec = sysArchNowait then .ret sysArchTimeout sem
    else .wait { sem with waiters := 1 }
  else .ret sysArchTimeout sem

inductive Err where
  | ok
  | mem
deriving DecidableEq

inductive Post (α : Type) where
  | wait (mbox : Mbox α)
  | ret (err : Err) (mbox : Mbox α)

def mboxPut (msg : α) (mbox : Mbox α) : Err × Mbox α :=
  if mbox.nextq = mbox.head then (.mem, mbox)
  else
    let slot := mbox.nextq
    let mbox := { mbox with nextq := (slot + 1) % mboxslots }
    let mbox := { mbox with msg := update mbox.msg slot.toNat msg }
    let mbox := if mbox.head = -1 then { mbox with head := slot } else mbox
    (.ok, { mbox with queuedMsg := sysSemSignal mbox.queuedMsg })

/-- `sys_mbox_trypost`, once it has waited for `waited` milliseconds.  It does not look at what
`sys_arch_sem_wait` returns. -/
def sysMboxTrypost (msg : α) (waited : Word) (mbox : Mbox α) : Post α :=
  match sysArchSemWait 0 waited mbox.freeMsg with
  | .wait sem => .wait { mbox with freeMsg := sem }
  | .ret _ sem =>
    let (err, mbox) := mboxPut msg { mbox with freeMsg := sem }
    .ret err mbox

inductive Fetch (α : Type) where
  | wait (mbox : Mbox α)
  | timeout (mbox : Mbox α)
  | got (waited : Word) (msg : α) (mbox : Mbox α)
  | panic

def mboxGet (waited : Word) (mbox : Mbox α) : Fetch α :=
  let slot := mbox.head
  if slot = -1 then .panic
  else
    let msg := mbox.msg slot.toNat
    let mbox := { mbox with head := (slot + 1) % mboxslots }
    let mbox := if mbox.head = mbox.nextq then { mbox with head := -1 } else mbox
    .got waited msg { mbox with freeMsg := sysSemSignal mbox.freeMsg }

/-- `sys_arch_mbox_fetch`, once it has waited for `waited` milliseconds. -/
def sysArchMboxFetch (tmMsec waited : Word) (mbox : Mbox α) : Fetch α :=
  match sysArchSemWait tmMsec waited mbox.queuedMsg with
  | .wait sem => .wait { mbox with queuedMsg := sem }
  | .ret waited sem =>
    if waited = sysArchTimeout then .timeout { mbox with queuedMsg := sem }
    else mboxGet waited { mbox with queuedMsg := sem }

/-- What a thread is doing with the mailbox: nothing, or it waits in one of the two calls. -/
inductive Thread (α : Type) where
  | idle
  | posting (msg : α) (waited : Word)
  | fetching (tmMsec waited : Word)
deriving DecidableEq

/-- The mailbox, its threads, and the messages that went in and came out so far. -/
structure System (α : Type) where
  mbox : Mbox α
  thread : Nat → Thread α
  posted : List α
  fetched : List α

namespace System

def init (mbox : Mbox α) : System α := ⟨mbox, fun _ => .idle, [], []⟩

def post (s : System α) (t : Nat) (msg : α) (waited : Word) : System α :=
  match sysMboxTrypost msg waited s.mbox with
  | .wait mbox => { s with mbox, thread := update s.thread t (.posting msg waited) }
  | .ret err mbox =>
    { s with
      mbox, thread := update s.thread t .idle
      posted := if err = .ok then s.posted ++ [msg] else s.posted }

/-- Thread `t` is in `sys_arch_mbox_fetch` and does not wait; `none` is the panic. -/
def fetch (s : System α) (t : Nat) (tmMsec waited : Word) : Option (System α) :=
  match sysArchMboxFetch tmMsec waited s.mbox with
  | .wait mbox =>
    some { s with mbox, thread := update s.thread t (.fetching tmMsec waited) }
  | .timeout mbox => some { s with mbox, thread := update s.thread t .idle }
  | .got _ msg mbox =>
    some { s with mbox, thread := update s.thread t .idle, fetched := s.fetched ++ [msg] }
  | .panic => none

/-- A thread calls one of the two functions, or comes back from `thread_wait` after `elapsed`
milliseconds.  No wait of a fetch has lasted `0xffffffff` of them. -/
inductive Step (s : System α) : System α → Prop
  | trypost (t : Nat) (msg : α) (ht : s.thread t = .idle) : Step s (s.post t msg 0)
  | retryPost (t : Nat) (msg : α) (waited elapsed : Word) (ht : s.thread t = .posting msg waited) :
      Step s (s.post t msg (waited + elapsed))
  | fetch {s' : System α} (t : Nat) (tmMsec : Word) (ht : s.thread t = .idle)
      (hs : s.fetch t tmMsec 0 = some s') : Step s s'
  | retryFetch {s' : System α} (t : Nat) (tmMsec waited elapsed : Word)
      (ht : s.thread t = .fetching tmMsec waited) (hlong : waited + elapsed ≠ sysArchTimeout)
      (hs : s.fetch t tmMsec (waited + elapsed) = some s') : Step s s'

end System

namespace Mbox

def count (mbox : Mbox α) : Nat :=
  if mbox.head = -1 then 0
  else if mbox.head = mbox.nextq then mboxslots
  else ((mbox.nextq - mbox.head) % mboxslots).toNat

def queue (mbox : Mbox α) : List α :=
  (List.range mbox.count).map fun i : Nat => mbox.msg ((mbox.head + i) % mboxslots).toNat

end Mbox

/-- The ring of the mailbox, after `posted` went in and `fetched` came out. -/
structure Filled (posted fetched : List α) (head nextq : Int) (msg : Nat → α) : Prop where
  queue : Ring.Queue mboxslots mboxslots msg posted fetched
  next : nextq = (posted.length % mboxslots : Nat)
  first : head = if fetched.length = posted.length then -1
    else ((fetched.length % mboxslots : Nat) : Int)

abbrev Holding (posted fetched : List α) (mbox : Mbox α) : Prop :=
  Filled posted fetched mbox.head mbox.nextq mbox.msg

/-- The semaphores count `n` messages. -/
def Counted (n : Nat) (mbox : Mbox α) : Prop :=
  mbox.freeMsg.counter.toNat = mboxslots - n ∧ mbox.queuedMsg.counter.toNat = n

theorem counter_signal (sem : Sem) : (sysSemSignal sem).counter = sem.counter + 1 := by
  rw [sysSemSignal]
  split <;> rfl

theorem toNat_counter_signal {sem : Sem} {n : Nat} (hn : sem.counter.toNat = n)
    (hlt : n < mboxslots) : (sysSemSignal sem).counter.toNat = n + 1 := by
  rw [counter_signal, BitVec.toNat_add, hn]
  simp only [mboxslots] at hlt
  change (n + 1) % 65536 = n + 1
  omega

theorem toNat_counter_take {sem : Sem} {n : Nat} (hn : sem.counter.toNat = n) (hpos : 0 < n) :
    (sem.counter - 1).toNat = n - 1 := by
  rw [BitVec.toNat_sub, hn]
  change (2 ^ 16 - 1 + n) % 2 ^ 16 = n - 1
  omega

theorem sysArchSemWait_cases (tmMsec waited : Word) (sem : Sem) :
    (0 < sem.counter.toNat ∧ (tmMsec = 0 ∨ waited < tmMsec) ∧
      sysArchSemWait tmMsec waited sem = .ret waited { sem with counter := sem.counter - 1 }) ∨
    (tmMsec ≠ 0 ∧ sysArchSemWait tmMsec waited sem = .ret sysArchTimeout sem) ∨
    sem.counter.toNat = 0 ∧
      sysArchSemWait tmMsec waited sem = .wait { sem with waiters := 1 } := by
  rw [sysArchSemWait]
  split
  · rename_i htime
    split
    · rename_i hpos
      exact .inl ⟨hpos, htime, rfl⟩
    rename_i hzero
    split
    · rename_i hnow
      exact .inr (.inl ⟨by rw [hnow]; decide, rfl⟩)
    · exact .inr (.inr ⟨Nat.eq_zero_of_not_pos hzero, rfl⟩)
  · rename_i htime
    exact .inr (.inl ⟨fun hzero => htime (.inl hzero), rfl⟩)

section Ring

variable {posted fetched : List α} {mbox : Mbox α} {msg : α} {waited : Word}

theorem mboxPut_of_ne (hne : mbox.nextq ≠ mbox.head) : mboxPut msg mbox = (.ok, {
    head := if mbox.head = -1 then mbox.nextq else mbox.head
    nextq := (mbox.nextq + 1) % mboxslots
    msg := update mbox.msg mbox.nextq.toNat msg
    queuedMsg := sysSemSignal mbox.queuedMsg
    freeMsg := mbox.freeMsg }) := by
  rw [mboxPut, if_neg hne]
  dsimp only
  split <;> rfl

theorem mboxGet_of_ne (hne : mbox.head ≠ -1) : mboxGet waited mbox =
    .got waited (mbox.msg mbox.head.toNat) {
      head := if (mbox.head + 1) % mboxslots = mbox.nextq then -1 else (mbox.head + 1) % mboxslots
      nextq := mbox.nextq
      msg := mbox.msg
      queuedMsg := mbox.queuedMsg
      freeMsg := sysSemSignal mbox.freeMsg } := by
  rw [mboxGet, if_neg hne]
  dsimp only
  split <;> rfl

theorem Filled.put (h : Holding posted fetched mbox)
    (hroom : posted.length < fetched.length + mboxslots) (msg : α) :
    ∃ mbox', mboxPut msg mbox = (.ok, mbox') ∧ Holding (posted ++ [msg]) fetched mbox' ∧
      mbox'.freeMsg = mbox.freeMsg ∧ mbox'.queuedMsg = sysSemSignal mbox.queuedMsg := by
  have hle := h.queue.le
  have hne : mbox.nextq ≠ mbox.head := by
    rw [h.next, h.first]
    simp only [mboxslots] at hroom ⊢
    split <;> omega
  refine ⟨_, mboxPut_of_ne hne, ⟨?_, ?_, ?_⟩, rfl, rfl⟩
  · rw [h.next, Int.toNat_natCast]
    exact h.queue.put le_rfl hroom msg
  · rw [Ring.length_concat, h.next]
    simp only [mboxslots]
    omega
  · rw [Ring.length_concat, if_neg (show fetched.length ≠ posted.length + 1 by omega)]
    by_cases hempty : fetched.length = posted.length
    · rw [h.first, if_pos hempty, if_pos rfl, h.next, hempty]
    · rw [h.first, if_neg hempty, if_neg (by omega)]

theorem Filled.get (h : Holding posted fetched mbox) (hlt : fetched.length < posted.length)
    (waited : Word) : ∃ msg mbox', mboxGet waited mbox = .got waited msg mbox' ∧
      Holding posted (fetched ++ [msg]) mbox' ∧
      mbox'.freeMsg = sysSemSignal mbox.freeMsg ∧ mbox'.queuedMsg = mbox.queuedMsg := by
  have hroom := h.queue.room
  have hhead : mbox.head = (fetched.length % mboxslots : Nat) := by rw [h.first, if_neg hlt.ne]
  have hset : mbox.head ≠ -1 := by omega
  have hslot : mbox.head.toNat = fetched.length % mboxslots := by rw [hhead, Int.toNat_natCast]
  refine ⟨_, _, mboxGet_of_ne hset, ⟨?_, h.next, ?_⟩, rfl, rfl⟩
  · rw [hslot]
    exact h.queue.get hlt
  · have hwrap : (mbox.head + 1) % mboxslots = mbox.nextq ↔ fetched.length + 1 = posted.length := by
      rw [h.next, hhead]
      simp only [mboxslots] at hroom ⊢
      omega
    rw [Ring.length_concat]
    by_cases hlast : fetched.length + 1 = posted.length
    · rw [if_pos hlast, if_pos (hwrap.mpr hlast)]
    · grind

end Ring

/-- Between two waits: the ring holds what was posted and not yet fetched, and the semaphores
count it. -/
structure System.Inv (s : System α) : Prop where
  ring : Holding s.posted s.fetched s.mbox
  counted : Counted (s.posted.length - s.fetched.length) s.mbox

namespace System

variable {s s' : System α} {t : Nat} {msg : α} {tmMsec waited : Word}

theorem inv_init (msg : Nat → α) (queued free : Sem) : Inv (init (sysMboxNew msg queued free)) :=
  ⟨⟨Ring.queue_nil _ _ _, rfl, rfl⟩, rfl, rfl⟩

section

variable (h : Inv s)
include h

theorem Inv.trypost (msg : α) (waited : Word) :
    (∃ mbox, sysMboxTrypost msg waited s.mbox = .wait mbox ∧
      ∀ thread, Inv { s with mbox, thread }) ∨
    ∃ mbox, sysMboxTrypost msg waited s.mbox = .ret .ok mbox ∧
      ∀ thread, Inv { s with mbox, thread, posted := s.posted ++ [msg] } := by
  obtain ⟨hfree, hqueued⟩ := h.counted
  have hle := h.ring.queue.le
  rw [sysMboxTrypost]
  obtain ⟨hpos, -, hres⟩ | ⟨hne, -⟩ | ⟨-, hres⟩ := sysArchSemWait_cases 0 waited s.mbox.freeMsg
  · rw [hres]
    rw [hfree] at hpos
    let mbox := { s.mbox with
      freeMsg := { s.mbox.freeMsg with counter := s.mbox.freeMsg.counter - 1 } }
    have hring : Holding s.posted s.fetched mbox := h.ring
    obtain ⟨mbox', hput, hring', hfree', hqueued'⟩ := hring.put (by omega) msg
    refine .inr ⟨mbox', ?_, fun _ => ⟨hring', ?_⟩⟩
    · change Post.ret (mboxPut msg mbox).1 (mboxPut msg mbox).2 = _
      rw [hput]
    · rw [Counted, hfree', hqueued', toNat_counter_signal hqueued (by omega), Ring.length_concat]
      dsimp only
      refine ⟨(toNat_counter_take hfree hpos).trans ?_, ?_⟩ <;> omega
  · exact absurd rfl hne
  · rw [hres]
    exact .inl ⟨_, rfl, fun _ => ⟨h.ring, hfree, hqueued⟩⟩

theorem Inv.fetch_cases (tmMsec : Word) (hlong : waited ≠ sysArchTimeout) :
    (∃ mbox, (sysArchMboxFetch tmMsec waited s.mbox = .wait mbox ∨
        sysArchMboxFetch tmMsec waited s.mbox = .timeout mbox) ∧
      ∀ thread, Inv { s with mbox, thread }) ∨
    ∃ msg mbox, sysArchMboxFetch tmMsec waited s.mbox = .got waited msg mbox ∧
      ∀ thread, Inv { s with mbox, thread, fetched := s.fetched ++ [msg] } := by
  obtain ⟨hfree, hqueued⟩ := h.counted
  have hroom := h.ring.queue.room
  rw [sysArchMboxFetch]
  obtain ⟨hpos, -, hres⟩ | ⟨-, hres⟩ | ⟨-, hres⟩ :=
    sysArchSemWait_cases tmMsec waited s.mbox.queuedMsg
  · rw [hqueued] at hpos
    let mbox := { s.mbox with
      queuedMsg := { s.mbox.queuedMsg with counter := s.mbox.queuedMsg.counter - 1 } }
    have hring : Holding s.posted s.fetched mbox := h.ring
    obtain ⟨msg, mbox', hget, hring', hfree', hqueued'⟩ := hring.get (by omega) waited
    simp only [hres, if_neg hlong]
    refine .inr ⟨msg, mbox', hget, fun _ => ⟨hring', ?_⟩⟩
    rw [Counted, hfree', hqueued', toNat_counter_signal hfree (by grind), Ring.length_concat]
    dsimp only
    refine ⟨?_, (toNat_counter_take hqueued hpos).trans (by omega)⟩
    simp only [mboxslots] at hroom ⊢
    omega
  · rw [hres]
    exact .inl ⟨_, .inr (if_pos rfl), fun _ => ⟨h.ring, hfree, hqueued⟩⟩
  · rw [hres]
    exact .inl ⟨_, .inl rfl, fun _ => ⟨h.ring, hfree, hqueued⟩⟩

theorem Inv.post (t : Nat) (msg : α) (waited : Word) : Inv (s.post t msg waited) := by
  rw [System.post]
  obtain ⟨mbox, hres, hnext⟩ | ⟨mbox, hres, hnext⟩ := h.trypost msg waited
  · rw [hres]
    exact hnext _
  · rw [hres]
    exact hnext _

theorem Inv.fetch (hlong : waited ≠ sysArchTimeout)
    (hs : s.fetch t tmMsec waited = some s') : Inv s' := by
  rw [System.fetch] at hs
  obtain ⟨mbox, hres | hres, hnext⟩ | ⟨msg, mbox, hres, hnext⟩ := h.fetch_cases tmMsec hlong
  all_goals
    rw [hres] at hs
    cases hs
    exact hnext _

theorem Inv.step (hstep : Step s s') : Inv s' := by
  cases hstep with
  | trypost t msg _ => exact h.post t msg 0
  | retryPost t msg waited elapsed _ => exact h.post t msg (waited + elapsed)
  | fetch t tmMsec _ hs => exact h.fetch (by decide) hs
  | retryFetch t tmMsec waited elapsed _ hlong hs => exact h.fetch hlong hs

theorem Inv.steps (hsteps : ReflTransGen Step s s') : Inv s' := by
  induction hsteps with
  | refl => exact h
  | tail _ hstep ih => exact ih.step hstep

theorem Inv.count_eq : s.mbox.count = s.posted.length - s.fetched.length := by
  have hle := h.ring.queue.le
  have hroom := h.ring.queue.room
  have hhead := h.ring.first
  have hnextq := h.ring.next
  rw [Mbox.count]
  by_cases hempty : s.fetched.length = s.posted.length
  · rw [if_pos hempty] at hhead
    rw [if_pos hhead, hempty, Nat.sub_self]
  · rw [if_neg hempty] at hhead
    rw [if_neg (by omega)]
    simp only [mboxslots] at *
    split <;> omega

theorem Inv.posted_eq : s.posted = s.fetched ++ s.mbox.queue := by
  have hcount := h.count_eq
  have hle := h.ring.queue.le
  have hrest : s.mbox.queue = s.posted.drop s.fetched.length := by
    apply List.ext_getElem?
    intro i
    rw [List.getElem?_drop, Mbox.queue, hcount, List.getElem?_map]
    by_cases hi : i < s.posted.length - s.fetched.length
    · rw [List.getElem?_range hi, h.ring.queue.ring.held _ (by omega) (by omega), h.ring.first,
        if_neg (by omega)]
      simp only [Option.map_some, mboxslots]
      congr 2
      omega
    · rw [List.getElem?_eq_none (by simpa using hi), List.getElem?_eq_none (by omega)]
      rfl
  calc s.posted = s.posted.take s.fetched.length ++ s.posted.drop s.fetched.length :=
        (List.take_append_drop _ _).symm
    _ = s.fetched ++ s.mbox.queue := by rw [← h.ring.queue.order, hrest]

end

/-- In every run of the threads the mailbox is a queue: the messages come out in the order in
which they went in, its semaphores count it at every wait, a post finds room and a fetch that
got a token finds a message. -/
theorem mailbox_fifo (msg : Nat → α) (queued free : Sem)
    (hs : ReflTransGen Step (init (sysMboxNew msg queued free)) s) :
    s.posted = s.fetched ++ s.mbox.queue ∧
    s.mbox.queuedMsg.counter.toNat = s.mbox.queue.length ∧
    s.mbox.freeMsg.counter.toNat = mboxslots - s.mbox.queue.length ∧
    (∀ m waited mbox, sysMboxTrypost m waited s.mbox ≠ .ret .mem mbox) ∧
    ∀ tmMsec waited, waited ≠ sysArchTimeout → sysArchMboxFetch tmMsec waited s.mbox ≠ .panic := by
  have h := (inv_init msg queued free).steps hs
  have hlen : s.mbox.queue.length = s.posted.length - s.fetched.length := by
    rw [Mbox.queue, List.length_map, List.length_range, h.count_eq]
  refine ⟨h.posted_eq, by rw [hlen, h.counted.2], by rw [hlen, h.counted.1],
    fun m waited mbox hres => ?_, fun tmMsec waited hlong hres => ?_⟩
  · obtain ⟨mbox', hpost, -⟩ | ⟨mbox', hpost, -⟩ := h.trypost m waited
    all_goals
      rw [hpost] at hres
      cases hres
  · obtain ⟨mbox', hfetch | hfetch, -⟩ | ⟨m, mbox', hfetch, -⟩ := h.fetch_cases tmMsec hlong
    all_goals
      rw [hfetch] at hres
      cases hres

/-- One thread posts two messages and another one gets the older one. -/
theorem mailbox_fifo_two : ∃ s : System Nat,
    ReflTransGen Step (init (sysMboxNew (fun _ => 0) ⟨0, 0⟩ ⟨0, 0⟩)) s ∧
    s.posted = [7, 8] ∧ s.fetched = [7] ∧ s.posted = s.fetched ++ s.mbox.queue := by
  let s0 : System Nat := init (sysMboxNew (fun _ => 0) ⟨0, 0⟩ ⟨0, 0⟩)
  let s2 := (s0.post 0 7 0).post 0 8 0
  have hthread : (s0.post 0 7 0).thread 0 = .idle ∧ s2.thread 1 = .idle := by decide +kernel
  have hlog : (s2.fetch 1 0 0).map (fun s => (s.posted, s.fetched)) = some ([7, 8], [7]) := by
    decide +kernel
  obtain ⟨s3, hs3, hlog⟩ := Option.map_eq_some_iff.mp hlog
  obtain ⟨hposted, hfetched⟩ := Prod.mk.inj hlog
  have hrun : ReflTransGen Step s0 s3 :=
    ((ReflTransGen.single (.trypost 0 7 rfl)).tail (.trypost 0 8 hthread.1)).tail
      (.fetch 1 0 hthread.2 hs3)
  exact ⟨s3, hrun, hposted, hfetched, (mailbox_fifo _ _ _ hrun).1⟩

end System

end Mit6828.Net.Mailbox
