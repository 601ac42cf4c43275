import Mit6828.Kern.Syscall
import Mit6828.Library.FlatMemory

namespace Mit6828.Kern.E1000

open Mmu AddressSpace Environment Syscall Library.FlatMemory Function

abbrev Packet := List Byte

variable {pgdir : Nat} {addr len : Word} {k : Kernel}

section Transmit

def txPacket (nic : Nic) (i : Nat) : Packet :=
  (List.range (nic.txLength i).toNat).map fun j => nic.txBuf (i * packetBuf + j)

def transmitInit (nic : Nic) : Nic :=
  { nic with txDd := fun _ => true, txLength := fun _ => 0, tdt := 0 }

/-- `e1000_transmit` of the given bytes; `none` is -1. -/
def transmit (nic : Nic) (data : Packet) : Option Nic :=
  if nic.txDd nic.tdt = false then none
  else some { nic with
    txBuf := writeBytes nic.txBuf (nic.tdt * packetBuf) data
    txDd := update nic.txDd nic.tdt false
    txLength := update nic.txLength nic.tdt (BitVec.ofNat 16 data.length)
    tdt := (nic.tdt + 1) % txRing }

theorem length_of_mapM {α β : Type} {f : α → Option β} {l : List α} {l' : List β}
    (h : l.mapM f = some l') : l'.length = l.length := by
  induction l generalizing l' with
  | nil =>
    rw [List.mapM_nil] at h
    cases h
    rfl
  | cons x l ih =>
    rw [List.mapM_cons] at h
    obtain ⟨y, -, h⟩ := Option.bind_eq_some_iff.mp h
    obtain ⟨ys, hys, h⟩ := Option.bind_eq_some_iff.mp h
    cases h
    rw [List.length_cons, List.length_cons, ih hys]

theorem e1000Transmit_eq {data : Packet}
    (hload : (addrs addr len.toNat).mapM (loadByte pgdir k.mem) = some data)
    (hfits : len.toNat ≤ packetBuf) (htdt : k.nic.tdt < txRing) :
    (e1000Transmit pgdir addr len k).2 =
      match transmit k.nic data with
      | none => .ret (-1) k
      | some nic => .ret 0 { k with nic := nic } := by
  have hlen : data.length = len.toNat := by
    rw [length_of_mapM hload, addrs, List.length_map, List.length_range]
  have hroom : ¬ k.nic.tdt * packetBuf + len.toNat > txRing * packetBuf := by
    have := Nat.mul_le_mul_right packetBuf (Nat.succ_le_of_lt htdt)
    grind
  have hwidth : BitVec.setWidth 16 len = BitVec.ofNat 16 data.length := by
    rw [hlen]
    exact BitVec.eq_of_toNat_eq (by simp)
  rw [e1000Transmit, transmit]
  by_cases hdd : k.nic.txDd k.nic.tdt = false
  · rw [if_pos hdd, if_pos hdd]
  · rw [if_neg hdd, if_neg hdd, hload, hwidth]
    dsimp only
    rw [if_neg hroom, ← hlen]
    rfl

/-- The card with its head register, and what has been given to it and what it has sent. -/
structure Sender where
  nic : Nic
  tdh : Nat
  accepted : List Packet
  sent : List Packet

def Sender.send (s : Sender) : Sender where
  nic := { s.nic with txDd := update s.nic.txDd s.tdh true }
  tdh := (s.tdh + 1) % txRing
  accepted := s.accepted
  sent := s.sent ++ [txPacket s.nic s.tdh]

def Sender.accept (s : Sender) (nic : Nic) (data : Packet) : Sender :=
  { s with nic := nic, accepted := s.accepted ++ [data] }

inductive Sender.Step : Sender → Sender → Prop
  | accept {s : Sender} {nic : Nic} (data : Packet) (hlen : data.length ≤ packetBuf)
      (h : transmit s.nic data = some nic) : Step s (s.accept nic data)
  | refuse {s : Sender} (data : Packet) (hlen : data.length ≤ packetBuf)
      (h : transmit s.nic data = none) : Step s s
  | send {s : Sender} (h : s.tdh ≠ s.nic.tdt) : Step s s.send

def Sender.init (nic : Nic) : Sender := ⟨transmitInit nic, 0, [], []⟩

end Transmit

section Receive

def rxPacket (nic : Nic) (i : Nat) : Packet :=
  (List.range (nic.rxLength i).toNat).map fun j => nic.rxBuf (i * packetBuf + j)

/-- `e1000_receive_init`; `next` is 0 from the start. -/
def receiveInit (nic : Nic) : Nic :=
  { nic with rxDd := fun _ => false, rxLength := fun _ => 0, rdt := rxRing - 1, next := 0 }

/-- `e1000_receive`: the packet, whose length goes to `*len`; `none` is -1. -/
def receive (nic : Nic) : Option (Packet × Nic) :=
  if nic.rxDd nic.next = false then none
  else some (rxPacket nic nic.next, { nic with
    rxDd := update nic.rxDd nic.next false
    next := (nic.next + 1) % rxRing
    rdt := (nic.rdt + 1) % rxRing })

theorem e1000Receive_ret {r : Word} {k' : Kernel}
    (h : (e1000Receive pgdir addr len k).2 = .ret r k') :
    r = -1 ∧ k' = k ∧ receive k.nic = none ∨
    r = 0 ∧ ∃ packet nic m m', receive k.nic = some (packet, nic) ∧
      storeBytes pgdir k.mem len (bytesOf (BitVec.ofNat 32 packet.length)) = some m ∧
      storeBytes pgdir m addr packet = some m' ∧ k' = { k with mem := m', nic := nic } := by
  simp only [e1000Receive] at h
  split at h
  · rename_i hdd
    cases h
    exact .inl ⟨rfl, rfl, if_pos hdd⟩
  rename_i hdd
  dsimp only at h
  repeat' split at h
  all_goals cases h
  rename_i m hlen _ m' hdata
  refine .inr ⟨rfl, rxPacket k.nic k.nic.next, _, m, m', if_neg hdd, ?_, hdata, rfl⟩
  rw [← hlen]
  simp [rxPacket]

/-- The card with its head register, and what it has stored and what the driver has returned. -/
structure Receiver where
  nic : Nic
  rdh : Nat
  stored : List Packet
  returned : List Packet

def Receiver.store (s : Receiver) (data : Packet) : Receiver where
  nic := { s.nic with
    rxBuf := writeBytes s.nic.rxBuf (s.rdh * packetBuf) data
    rxLength := update s.nic.rxLength s.rdh (BitVec.ofNat 16 data.length)
    rxDd := update s.nic.rxDd s.rdh true }
  rdh := (s.rdh + 1) % rxRing
  stored := s.stored ++ [data]
  returned := s.returned

def Receiver.return (s : Receiver) (data : Packet) (nic : Nic) : Receiver :=
  { s with nic := nic, returned := s.returned ++ [data] }

inductive Receiver.Step : Receiver → Receiver → Prop
  | store {s : Receiver} (data : Packet) (hlen : data.length ≤ packetBuf)
      (h : s.rdh ≠ s.nic.rdt) : Step s (s.store data)
  | drop {s : Receiver} (data : Packet) (hlen : data.length ≤ packetBuf)
      (h : s.rdh = s.nic.rdt) : Step s s
  | receive {s : Receiver} {data : Packet} {nic : Nic} (h : receive s.nic = some (data, nic)) :
      Step s (s.return data nic)
  | empty {s : Receiver} (h : receive s.nic = none) : Step s s

def Receiver.init (nic : Nic) : Receiver := ⟨receiveInit nic, 0, [], []⟩

end Receive

end Mit6828.Kern.E1000
