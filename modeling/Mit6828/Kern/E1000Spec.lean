import Mit6828.Kern.E1000
import Mit6828.Kern.EnvFreeList
import Mit6828.Library.Ring

namespace Mit6828.Kern.E1000

open Environment Syscall Library Library.FlatMemory Relation Function

section Slots

variable {buf : Memory} {length : Nat → BitVec 16} {t : Nat} {data : Packet}

def slot (buf : Memory) (length : Nat → BitVec 16) (i : Nat) : Packet :=
  (List.range (length i).toNat).map fun j => buf (i * packetBuf + j)

theorem toNat_length (hdata : data.length ≤ packetBuf) :
    (BitVec.ofNat 16 data.length).toNat = data.length := by
  grind

theorem slot_writeBytes (hlen : ∀ i, (length i).toNat ≤ packetBuf)
    (hdata : data.length ≤ packetBuf) :
    slot (writeBytes buf (t * packetBuf) data)
      (update length t (BitVec.ofNat 16 data.length)) = update (slot buf length) t data := by
  funext i
  by_cases hi : i = t
  · subst hi
    rw [update_self, slot, update_self, toNat_length hdata]
    apply List.ext_getElem
    · simp
    · intro j hj hj'
      simp only [List.getElem_map, List.getElem_range, writeBytes]
      rw [if_pos ⟨by omega, by omega⟩, Nat.add_sub_cancel_left, List.getD_eq_getElem _ _ hj']
  rw [update_of_ne hi, slot, update_of_ne hi, slot]
  apply List.map_congr_left
  intro j hj
  have hj : j < packetBuf := Nat.lt_of_lt_of_le (List.mem_range.mp hj) (hlen i)
  rw [writeBytes, if_neg]
  rintro ⟨hlo, hhi⟩
  rcases Nat.lt_or_gt_of_ne hi with hlt | hgt
  · have := Nat.mul_le_mul_right packetBuf (Nat.succ_le_of_lt hlt)
    grind
  · have := Nat.mul_le_mul_right packetBuf (Nat.succ_le_of_lt hgt)
    grind

theorem update_length_le (hlen : ∀ i, (length i).toNat ≤ packetBuf)
    (hdata : data.length ≤ packetBuf)
    (i : Nat) : (update length t (BitVec.ofNat 16 data.length) i).toNat ≤ packetBuf := by
  by_cases hi : i = t
  · rw [hi, update_self, toNat_length hdata]
    exact hdata
  · rw [update_of_ne hi]
    exact hlen i

end Slots

section Transmit

variable {nic : Nic} {s s' : Sender} {data : Packet}

structure Sender.Sound (s : Sender) : Prop where
  count : s.accepted.length - s.sent.length = (s.nic.tdt + txRing - s.tdh) % txRing
  order : s.sent = s.accepted.take s.sent.length
  pending : ∀ i < s.accepted.length - s.sent.length,
    s.accepted[s.sent.length + i]? = some (txPacket s.nic ((s.tdh + i) % txRing))
  untouched : ∀ i < s.accepted.length - s.sent.length, (s.tdh + i) % txRing ≠ s.nic.tdt

/-- A packet is accepted only if the next descriptor is not the one at `TDH`. -/
def Sender.Careful (s s' : Sender) : Prop :=
  Step s s' ∧ (s'.accepted ≠ s.accepted → (s.nic.tdt + 1) % txRing ≠ s.tdh)

structure Sender.Inv (s : Sender) : Prop where
  tdt : s.nic.tdt = s.accepted.length % txRing
  tdh : s.tdh = s.sent.length % txRing
  length : ∀ i, (s.nic.txLength i).toNat ≤ packetBuf
  queue : Ring.Queue txRing (txRing - 1) (txPacket s.nic) s.accepted s.sent

theorem Sender.inv_init (nic : Nic) : Inv (init nic) :=
  ⟨rfl, rfl, fun _ => Nat.zero_le _, Ring.queue_nil _ _ _⟩

theorem Sender.Inv.accept (h : Inv s) (hlen : data.length ≤ packetBuf)
    (htx : transmit s.nic data = some nic) (hnext : (s.nic.tdt + 1) % txRing ≠ s.tdh) :
    Inv (s.accept nic data) := by
  have hfree : s.accepted.length < s.sent.length + (txRing - 1) := by
    have hroom := h.queue.room
    rw [h.tdt, h.tdh] at hnext
    simp only [txRing] at hroom hnext ⊢
    omega
  rw [transmit] at htx
  split at htx
  · cases htx
  cases htx
  refine ⟨?_, h.tdh, update_length_le h.length hlen, ?_⟩
  · change (s.nic.tdt + 1) % txRing = (s.accepted ++ [data]).length % txRing
    rw [h.tdt, Ring.length_concat, Nat.mod_add_mod]
  · change Ring.Queue txRing _ (slot (writeBytes s.nic.txBuf (s.nic.tdt * packetBuf) data)
      (update s.nic.txLength s.nic.tdt (BitVec.ofNat 16 data.length))) (s.accepted ++ [data]) s.sent
    rw [slot_writeBytes h.length hlen, h.tdt]
    exact h.queue.put (by decide) hfree data

theorem Sender.Inv.send (h : Inv s) (hne : s.tdh ≠ s.nic.tdt) : Inv s.send := by
  have hlt : s.sent.length < s.accepted.length := by
    refine Nat.lt_of_le_of_ne h.queue.le fun heq => hne ?_
    rw [h.tdh, h.tdt, heq]
  refine ⟨h.tdt, ?_, h.length, ?_⟩
  · change (s.tdh + 1) % txRing = (s.sent ++ [txPacket s.nic s.tdh]).length % txRing
    rw [Ring.length_concat, h.tdh, Nat.mod_add_mod]
  · change Ring.Queue txRing _ (txPacket s.nic) s.accepted (s.sent ++ [txPacket s.nic s.tdh])
    rw [h.tdh]
    exact h.queue.get hlt

theorem Sender.inv_step (h : Inv s) (hstep : Careful s s') : Inv s' := by
  obtain ⟨hstep, hcareful⟩ := hstep
  cases hstep with
  | accept data hlen htx =>
    refine h.accept hlen htx (hcareful fun heq => ?_)
    have := congrArg List.length heq
    simp [Sender.accept] at this
  | refuse data hlen htx => exact h
  | send hne => exact h.send hne

theorem Sender.Inv.sound (h : Inv s) : s.Sound := by
  have hle := h.queue.le
  have hroom := h.queue.room
  refine ⟨?_, h.queue.order, fun i hi => ?_, fun i hi => ?_⟩
  · rw [h.tdt, h.tdh]
    simp only [txRing] at hroom ⊢
    omega
  · rw [h.tdh, Nat.mod_add_mod]
    exact h.queue.ring.held _ (Nat.le_add_right _ _) (by omega)
  · rw [h.tdh, h.tdt, Nat.mod_add_mod]
    simp only [txRing] at hroom ⊢
    omega

/-- A driver that leaves one descriptor unused loses no packet. -/
theorem transmit_sound (hrun : ReflTransGen Sender.Careful (Sender.init nic) s) : s.Sound := by
  have hinv : s.Inv := by
    induction hrun with
    | refl => exact Sender.inv_init nic
    | tail _ hstep ih => exact Sender.inv_step ih hstep
  exact hinv.sound

def resetNic : Nic where
  txDd := fun _ => false
  txLength := fun _ => 0
  txBuf := fun _ => 0
  tdt := 0
  rxDd := fun _ => false
  rxLength := fun _ => 0
  rxBuf := fun _ => 0
  rdt := 0
  next := 0

/-- A packet of two bytes is accepted and sent. -/
theorem transmit_sound_sent : ∃ s, ReflTransGen Sender.Careful (Sender.init resetNic) s ∧
    s.sent = [[1, 2]] ∧ s.Sound := by
  have hrun : ∃ s, ReflTransGen Sender.Careful (Sender.init resetNic) s ∧ s.sent = [[1, 2]] :=
    ⟨_, .tail (.single ⟨.accept [1, 2] (by decide) rfl, fun _ => by decide⟩)
      ⟨.send (by decide), fun hne => absurd rfl hne⟩, by decide⟩
  obtain ⟨s, hs, hsent⟩ := hrun
  exact ⟨s, hs, hsent, transmit_sound hs⟩

theorem accepted_run (nic : Nic) (n : Nat) (hn : n ≤ txRing) :
    ∃ s, ReflTransGen Sender.Step (Sender.init nic) s ∧ s.accepted.length = n ∧ s.sent = [] ∧
      s.tdh = 0 ∧ s.nic.tdt = n % txRing ∧ ∀ i, n ≤ i → s.nic.txDd i = true := by
  induction n with
  | zero => exact ⟨_, .refl, rfl, rfl, rfl, rfl, fun _ _ => rfl⟩
  | succ n ih =>
    obtain ⟨s, hrun, hlen, hsent, htdh, htdt, hdd⟩ := ih (Nat.le_of_succ_le hn)
    have htdt : s.nic.tdt = n := htdt.trans (Nat.mod_eq_of_lt hn)
    have hfree : ¬ s.nic.txDd s.nic.tdt = false := by
      rw [htdt, hdd n le_rfl]
      decide
    refine ⟨_, hrun.tail (.accept [] (Nat.zero_le _) (if_neg hfree)), ?_, hsent, htdh, ?_,
      fun i hi => ?_⟩
    · change (s.accepted ++ [[]]).length = n + 1
      simp [hlen]
    · change (s.nic.tdt + 1) % txRing = (n + 1) % txRing
      rw [htdt]
    · change update s.nic.txDd s.nic.tdt false i = true
      rw [update_of_ne (by omega)]
      exact hdd i (by omega)

/-- 64 packets are accepted before one is sent: `TDT` is back at `TDH`, the card sends nothing,
and all of them are forgotten. -/
theorem transmit_forgets : ∃ s, ReflTransGen Sender.Step (Sender.init resetNic) s ∧
    s.accepted.length = 64 ∧ s.sent = [] ∧ s.tdh = s.nic.tdt ∧ ¬ s.Sound := by
  obtain ⟨s, hrun, hlen, hsent, htdh, htdt, -⟩ := accepted_run resetNic 64 le_rfl
  have htdt : s.nic.tdt = 0 := htdt
  refine ⟨s, hrun, hlen, hsent, htdh.trans htdt.symm, fun hsound => ?_⟩
  have hcount := hsound.count
  rw [hlen, hsent, htdh, htdt] at hcount
  exact absurd hcount (by decide)

end Transmit

section Receive

variable {nic : Nic} {s s' : Receiver} {data : Packet}

/-- Descriptor `i` is one of those from `next` up to `RDH`. -/
def Receiver.Waiting (s : Receiver) (i : Nat) : Prop :=
  ∃ j < (s.rdh + rxRing - s.nic.next) % rxRing, i = (s.nic.next + j) % rxRing

/-- The queue that the receive ring is meant to be; the last field says that the card does not
store to a buffer that holds a packet. -/
structure Receiver.Sound (s : Receiver) : Prop where
  tail : s.nic.rdt = (s.nic.next + rxRing - 1) % rxRing
  done : ∀ i < rxRing, s.nic.rxDd i = true ↔ s.Waiting i
  order : s.returned = s.stored.take s.returned.length
  count : s.stored.length - s.returned.length = (s.rdh + rxRing - s.nic.next) % rxRing
  waiting : ∀ j < s.stored.length - s.returned.length,
    s.stored[s.returned.length + j]? = some (rxPacket s.nic ((s.nic.next + j) % rxRing))
  untouched : s.rdh ≠ s.nic.rdt → ¬ s.Waiting s.rdh

/-- The descriptors of the packets that are stored and not returned. -/
def Receiver.Filled (s : Receiver) (i : Nat) : Prop :=
  ∃ k, s.returned.length ≤ k ∧ k < s.stored.length ∧ i = k % rxRing

structure Receiver.Inv (s : Receiver) : Prop where
  rdh : s.rdh = s.stored.length % rxRing
  next : s.nic.next = s.returned.length % rxRing
  rdt : s.nic.rdt = (s.returned.length + rxRing - 1) % rxRing
  done : ∀ i < rxRing, s.nic.rxDd i = true ↔ s.Filled i
  length : ∀ i, (s.nic.rxLength i).toNat ≤ packetBuf
  queue : Ring.Queue rxRing (rxRing - 1) (rxPacket s.nic) s.stored s.returned

theorem Receiver.inv_init (nic : Nic) : Inv (init nic) where
  rdh := rfl
  next := rfl
  rdt := rfl
  done := fun i _ => iff_of_false (by simp [init, receiveInit]) (by simp [Filled, init])
  length := fun _ => Nat.zero_le _
  queue := Ring.queue_nil _ _ _

theorem Receiver.Inv.store (h : Inv s) (hlen : data.length ≤ packetBuf) (hne : s.rdh ≠ s.nic.rdt) :
    Inv (s.store data) := by
  have hfree : s.stored.length < s.returned.length + (rxRing - 1) := by
    have hroom := h.queue.room
    rw [h.rdh, h.rdt] at hne
    simp only [rxRing] at hroom hne ⊢
    omega
  have hlist : (s.store data).stored.length = s.stored.length + 1 := Ring.length_concat ..
  refine ⟨?_, h.next, h.rdt, fun i hi => ?_, update_length_le h.length hlen, ?_⟩
  · rw [hlist, ← Nat.mod_add_mod, ← h.rdh]
    rfl
  · change update s.nic.rxDd s.rdh true i = true ↔ _
    rw [Filled, hlist]
    by_cases hrdh : i = s.rdh
    · rw [hrdh, update_self]
      exact iff_of_true rfl ⟨s.stored.length, h.queue.le, Nat.lt_succ_self _, h.rdh⟩
    rw [update_of_ne hrdh, h.done i hi]
    refine exists_congr fun k => and_congr_right fun _ => ?_
    constructor
    · rintro ⟨hk, rfl⟩
      exact ⟨by omega, rfl⟩
    · rintro ⟨hk, rfl⟩
      refine ⟨Nat.lt_of_le_of_ne (Nat.le_of_lt_succ hk) ?_, rfl⟩
      rintro rfl
      exact hrdh h.rdh.symm
  · change Ring.Queue rxRing (rxRing - 1) (slot (writeBytes s.nic.rxBuf (s.rdh * packetBuf) data)
      (update s.nic.rxLength s.rdh (BitVec.ofNat 16 data.length))) (s.stored ++ [data]) s.returned
    rw [slot_writeBytes h.length hlen, h.rdh]
    exact h.queue.put (by decide) hfree data

theorem Receiver.Inv.receive (h : Inv s) (hrecv : receive s.nic = some (data, nic)) :
    Inv (s.return data nic) := by
  have hroom := h.queue.room
  rw [E1000.receive] at hrecv
  split at hrecv
  · cases hrecv
  rename_i hdd
  cases hrecv
  have hnext : s.nic.next < rxRing := h.next ▸ Nat.mod_lt _ (by decide)
  have hlt : s.returned.length < s.stored.length := by
    obtain ⟨k, hlo, hhi, -⟩ := (h.done _ hnext).mp (by simpa using hdd)
    omega
  have hlist := Ring.length_concat s.returned (rxPacket s.nic s.nic.next)
  refine ⟨h.rdh, ?_, ?_, fun i hi => ?_, h.length, ?_⟩
  · change (s.nic.next + 1) % rxRing = (s.returned ++ [_]).length % rxRing
    rw [hlist, h.next, Nat.mod_add_mod]
  · change (s.nic.rdt + 1) % rxRing = ((s.returned ++ [_]).length + rxRing - 1) % rxRing
    rw [h.rdt, hlist, Nat.mod_add_mod]
    congr 1
  · change update s.nic.rxDd s.nic.next false i = true ↔
      ∃ k, (s.returned ++ [rxPacket s.nic s.nic.next]).length ≤ k ∧ k < s.stored.length ∧
        i = k % rxRing
    rw [hlist]
    by_cases hnx : i = s.nic.next
    · rw [hnx, update_self]
      refine iff_of_false (by decide) ?_
      rintro ⟨k, hlo, hhi, heq⟩
      rw [h.next] at heq
      simp only [rxRing] at hroom heq
      omega
    rw [update_of_ne hnx, h.done i hi]
    refine exists_congr fun k => ?_
    constructor
    · rintro ⟨hlo, hhi, rfl⟩
      refine ⟨Nat.lt_of_le_of_ne hlo ?_, hhi, rfl⟩
      rintro rfl
      exact hnx h.next.symm
    · rintro ⟨hlo, hhi, rfl⟩
      exact ⟨by omega, hhi, rfl⟩
  · change Ring.Queue rxRing _ (rxPacket s.nic) s.stored (s.returned ++ [rxPacket s.nic s.nic.next])
    rw [h.next]
    exact h.queue.get hlt

theorem Receiver.inv_step (h : Inv s) (hstep : Step s s') : Inv s' := by
  cases hstep with
  | store data hlen hne => exact h.store hlen hne
  | drop data hlen heq => exact h
  | receive hrecv => exact h.receive hrecv
  | empty hrecv => exact h

theorem Receiver.Inv.sound (h : Inv s) : s.Sound := by
  have hle := h.queue.le
  have hroom := h.queue.room
  have hcount : (s.rdh + rxRing - s.nic.next) % rxRing = s.stored.length - s.returned.length := by
    rw [h.rdh, h.next]
    simp only [rxRing] at hroom ⊢
    omega
  have hwaiting : ∀ i, s.Waiting i ↔ s.Filled i := by
    intro i
    rw [Waiting, hcount]
    constructor
    · rintro ⟨j, hj, rfl⟩
      exact ⟨s.returned.length + j, by omega, by omega, by rw [h.next, Nat.mod_add_mod]⟩
    · rintro ⟨k, hlo, hhi, rfl⟩
      refine ⟨k - s.returned.length, by omega, ?_⟩
      rw [h.next, Nat.mod_add_mod, Nat.add_sub_cancel' hlo]
  refine ⟨?_, fun i hi => (h.done i hi).trans (hwaiting i).symm, h.queue.order, hcount.symm,
    fun j hj => ?_, fun hne => ?_⟩
  · rw [h.rdt, h.next]
    simp only [rxRing]
    omega
  · rw [h.next, Nat.mod_add_mod]
    exact h.queue.ring.held _ (Nat.le_add_right _ _) (by omega)
  · rw [hwaiting, h.rdh]
    rintro ⟨k, hlo, hhi, heq⟩
    grind

/-- The receive ring is a queue over every interleaving of the card and the driver. -/
theorem receive_sound (hrun : ReflTransGen Receiver.Step (Receiver.init nic) s) : s.Sound := by
  have hinv : s.Inv := by
    induction hrun with
    | refl => exact Receiver.inv_init nic
    | tail _ hstep ih => exact Receiver.inv_step ih hstep
  exact hinv.sound

/-- A packet of two bytes is stored and returned. -/
theorem receive_sound_returned : ∃ s, ReflTransGen Receiver.Step (Receiver.init resetNic) s ∧
    s.returned = [[1, 2]] ∧ s.Sound := by
  have hrun : ∃ s, ReflTransGen Receiver.Step (Receiver.init resetNic) s ∧ s.returned = [[1, 2]] :=
    ⟨_, .tail (.single (.store [1, 2] (by decide) (by decide))) (.receive rfl), by decide⟩
  obtain ⟨s, hs, hreturned⟩ := hrun
  exact ⟨s, hs, hreturned, receive_sound hs⟩

end Receive

section Send

open Mmu AddressSpace TrapSpec Boot

variable {k : Kernel} {c cur d : Nat} {buf len : Word}

/-- The packet is in the buffer of the tail descriptor and nowhere else, or it is refused. -/
def Sent (len : Word) (k : Kernel) : Exit Word → Prop
  | .ret r k' => (r = 0 ∧ len.toInt ≤ packetBuf ∧
      ((k'.nic.txLength k.nic.tdt).toNat : Int) = len.toInt ∧
      ∀ i, k'.nic.txBuf i ≠ k.nic.txBuf i →
        k.nic.tdt * packetBuf ≤ i ∧ i < k.nic.tdt * packetBuf + packetBuf) ∨ isNeg r ∧ k' = k
  | _ => False

/-- `e1000_transmit`, once `user_mem_assert` has let the call pass. -/
def SendsSafely (c cur : Nat) (buf len : Word) (k : Kernel) : Prop :=
  ∀ u k' d, userMemAssert c cur buf len pteU k = .ret u k' → (k'.envs cur).envPgdir = some d →
    Sent len k' (e1000Transmit d buf len k').2

/-- The ring is full, or the packet fits into a buffer and can be read. -/
def Fitting (d : Nat) (buf len : Word) (k : Kernel) : Prop :=
  k.nic.txDd k.nic.tdt = false ∨ len.toNat ≤ packetBuf ∧
    ((addrs buf len.toNat).mapM (loadByte d k.mem)).isSome

theorem e1000Transmit_sent_iff (htdt : k.nic.tdt < txRing) :
    Sent len k (e1000Transmit d buf len k).2 ↔ Fitting d buf len k := by
  rw [e1000Transmit, Fitting]
  dsimp only
  by_cases hdd : k.nic.txDd k.nic.tdt = false
  · rw [if_pos hdd]
    exact iff_of_true (.inr ⟨by decide, rfl⟩) (.inl hdd)
  rw [if_neg hdd, or_iff_right hdd]
  cases (addrs buf len.toNat).mapM (loadByte d k.mem) with
  | none => exact iff_of_false id fun h => Bool.false_ne_true h.2
  | some data =>
    have hnext := Nat.mul_le_mul_right packetBuf (Nat.succ_le_of_lt htdt)
    rw [Nat.succ_mul] at hnext
    dsimp only
    split
    · exact iff_of_false id fun h => by omega
    have hwidth : (BitVec.setWidth 16 len).toNat = len.toNat % 65536 := BitVec.toNat_setWidth ..
    simp only [Sent, update_self, hwidth, show ¬ isNeg 0 by decide, Option.isSome_some, packetBuf,
      false_and, or_false, true_and, and_true, BitVec.toInt_eq_toNat_cond]
    refine ⟨?_, fun hle => ?_⟩
    · rintro ⟨hle, hlen, -⟩
      split at hle <;> omega
    rw [if_pos (by omega)]
    refine ⟨by omega, by omega, fun i hi => ?_⟩
    by_contra hout
    exact hi (if_neg (by omega))

theorem SendsSafely.fitting (h : SendsSafely c cur buf len k) (htdt : k.nic.tdt < txRing)
    (hd : (k.envs cur).envPgdir = some d) (hret : userMemAssert c cur buf len pteU k = .ret () k) :
    Fitting d buf len k :=
  (e1000Transmit_sent_iff htdt).mp (h _ _ _ hret hd)

/-- The call keeps to the buffer of the tail descriptor exactly if the check stops it, the ring is
full, or the length, taken as unsigned, is that of a buffer at most and the bytes are mapped. -/
theorem sendsSafely_iff (hcur : k.curenv c = some cur) (hd : (k.envs cur).envPgdir = some d)
    (htdt : k.nic.tdt < txRing) : SendsSafely c cur buf len k ↔
      (userMemAssert c cur buf len pteU k = .ret () k → Fitting d buf len k) := by
  refine ⟨fun h => h.fitting htdt hd, fun h u k' d' hret hd' => ?_⟩
  obtain rfl := userMemAssert_ret hcur hret
  obtain rfl := Option.some.inj (hd.symm.trans hd')
  exact (e1000Transmit_sent_iff htdt).mpr (h hret)

/-- An environment runs whose directory is page 0; its table, page 1, maps page 2 at address 0,
which begins with the bytes 1 and 2.  The transmit ring is empty, and the receive ring holds
the packet of the bytes 3 and 4. -/
def sender : Kernel := { EnvFreeList.zeroed with
  mem := { EnvFreeList.fewPages with
    phys := fun p i => if i = 0 then [0x1007, 0x2007, 0x0201].getD p 0 else 0 }
  envs := fun _ => { zeroEnv with envPgdir := some 0 }
  cpus := fun _ => ⟨.started, some 0⟩
  nic := { transmitInit resetNic with
    rxDd := fun i => i == 0, rxLength := fun _ => 2, rxBuf := fun i => BitVec.ofNat 8 (i + 3) } }

theorem sender_transmits : ∃ k, (e1000Transmit 0 0 2 sender).2 = .ret 0 k ∧
    txPacket k.nic 0 = [1, 2] :=
  ⟨_, e1000Transmit_eq (show _ = some [1, 2] by decide) (by decide) (by decide), by decide⟩

/-- A packet of two bytes is sent. -/
theorem sendsSafely_sender : SendsSafely 0 0 0 2 sender ∧
    ∃ k, (e1000Transmit 0 0 2 sender).2 = .ret 0 k ∧ txPacket k.nic 0 = [1, 2] :=
  ⟨(sendsSafely_iff rfl rfl (by decide)).mpr fun _ => .inr ⟨by decide, by decide⟩, sender_transmits⟩

/-- A negative length passes the check, since `va + len` wraps when it is rounded up. -/
theorem negative_length_unsafe : ¬ SendsSafely 0 0 0 (-1) sender := by
  intro h
  rcases h.fitting (by decide) rfl rfl with hfull | ⟨hlen, -⟩
  · cases hfull
  · exact absurd hlen (by decide)

/-- The packet calls of the kernel, where they return, are steps of the two rings: the bytes at
`addr` are accepted, and the packet that is returned is stored there, its length at `len`. -/
theorem packet_calls_step {pgdir : Nat} {addr len r : Word} {k' : Kernel} {s : Sender}
    {t : Receiver} (htdt : k.nic.tdt < txRing) (hs : s.nic = k.nic) (ht : t.nic = k.nic) :
    (len.toNat ≤ packetBuf → (e1000Transmit pgdir addr len k).2 = .ret r k' →
      r = -1 ∧ k' = k ∧ s.Step s ∨
      r = 0 ∧ ∃ data, (addrs addr len.toNat).mapM (loadByte pgdir k.mem) = some data ∧
        s.Step (s.accept k'.nic data)) ∧
    ((e1000Receive pgdir addr len k).2 = .ret r k' → r = -1 ∧ k' = k ∧ t.Step t ∨
      r = 0 ∧ ∃ data m, t.Step (t.return data k'.nic) ∧
        storeBytes pgdir k.mem len (bytesOf (BitVec.ofNat 32 data.length)) = some m ∧
        storeBytes pgdir m addr data = some k'.mem) := by
  refine ⟨fun hlen hres => ?_, fun hres => ?_⟩
  · cases hload : (addrs addr len.toNat).mapM (loadByte pgdir k.mem) with
    | none =>
      rw [e1000Transmit] at hres
      split at hres
      · rename_i hdd
        cases hres
        exact .inl ⟨rfl, rfl, .refuse [] (Nat.zero_le _) (if_pos (hs ▸ hdd))⟩
      · rw [hload] at hres
        cases hres
    | some data =>
      have hdata : data.length ≤ packetBuf := by
        rwa [length_of_mapM hload, addrs, List.length_map, List.length_range]
      rw [e1000Transmit_eq hload hlen htdt] at hres
      cases htx : transmit k.nic data with
      | none =>
        rw [htx] at hres
        cases hres
        exact .inl ⟨rfl, rfl, .refuse data hdata (hs ▸ htx)⟩
      | some nic =>
        rw [htx] at hres
        cases hres
        exact .inr ⟨rfl, data, rfl, .accept data hdata (hs ▸ htx)⟩
  · obtain ⟨rfl, rfl, hrecv⟩ | ⟨rfl, data, nic, m, m', hrecv, hm, hm', rfl⟩ := e1000Receive_ret hres
    · exact .inl ⟨rfl, rfl, .empty (ht ▸ hrecv)⟩
    · exact .inr ⟨rfl, data, m, .receive (ht ▸ hrecv), hm, hm'⟩

/-- The kernel sends the bytes 1 and 2, and receives the packet that waits. -/
theorem packet_calls_step_sender : (∃ k, (e1000Transmit 0 0 2 sender).2 = .ret 0 k ∧
      Sender.Step ⟨sender.nic, 0, [], []⟩ ⟨k.nic, 0, [[1, 2]], []⟩) ∧
    ∃ k data, (e1000Receive 0 8 4 sender).2 = .ret 0 k ∧
      Receiver.Step ⟨sender.nic, 1, [[3, 4]], []⟩ ⟨k.nic, 1, [[3, 4]], [data]⟩ := by
  obtain ⟨k, hk, -⟩ := sender_transmits
  obtain ⟨k', hk'⟩ : ∃ k, (e1000Receive 0 8 4 sender).2 = .ret 0 k := ⟨_, rfl⟩
  obtain ⟨hneg, -⟩ | ⟨-, data, hdata, hsend⟩ := (packet_calls_step
    (s := ⟨sender.nic, 0, [], []⟩) (t := ⟨sender.nic, 0, [], []⟩) (by decide) rfl rfl).1
    (by decide) hk
  · cases hneg
  obtain ⟨hneg, -⟩ | ⟨-, data', m, hrecv, -⟩ := (packet_calls_step
    (s := ⟨sender.nic, 0, [], []⟩) (t := ⟨sender.nic, 1, [[3, 4]], []⟩) (by decide) rfl rfl).2 hk'
  · cases hneg
  obtain rfl : data = [1, 2] := Option.some.inj (hdata.symm.trans (by decide))
  exact ⟨⟨k, hk, hsend⟩, k', data', hk', hrecv⟩

end Send

end Mit6828.Kern.E1000
