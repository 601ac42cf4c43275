import Mit6828.Library.FlatMemory
import Mit6828.Xv6.Param

/-!
The log of xv6, `log.c`: `commit`, a crash between two of its disk writes, and
`recover_from_log`.  The buffer cache is lost in a crash.
-/

namespace Mit6828.Xv6.Log

open Library.FlatMemory Function

abbrev Block := Memory

structure Logheader where
  n : Nat
  block : Nat → Word

structure Machine where
  disk : Word → Block
  cache : Word → Option Block
  lh : Logheader

def Machine.data (m : Machine) (b : Word) : Block := (m.cache b).getD (m.disk b)

def bread (b : Word) (m : Machine) : Block × Machine :=
  (m.data b, { m with cache := update m.cache b (some (m.data b)) })

def bwrite (b : Word) (data : Block) (m : Machine) : Machine :=
  { m with disk := update m.disk b data, cache := update m.cache b (some data) }

section Commit

variable (start : Word)

/-- `log.start+tail+1`. -/
def logBlock (tail : Nat) : Word := start + BitVec.ofNat 32 tail + 1

def writeLogTurn (tail : Nat) (m : Machine) : Machine :=
  let (_, m) := bread (logBlock start tail) m
  let (src, m) := bread (m.lh.block tail) m
  bwrite (logBlock start tail) src m

/-- `hb->block[i] = log.lh.block[i]` for `i < n`. -/
def putBlocks (block : Nat → Word) : Nat → Block → Block
  | 0, hb => hb
  | n + 1, hb => writeWord (putBlocks block n hb) (4 + 4 * n) (block n)

def writeHead (m : Machine) : Machine :=
  let (hb, m) := bread start m
  bwrite start (putBlocks m.lh.block m.lh.n (writeWord hb 0 (BitVec.ofNat 32 m.lh.n))) m

def clearHead (m : Machine) : Machine := writeHead start { m with lh := { m.lh with n := 0 } }

/-- A turn of the loop of `install_trans`: the log block is not read. -/
def installTurn (tail : Nat) (m : Machine) : Machine :=
  let (dbuf, m) := bread (m.lh.block tail) m
  bwrite (m.lh.block tail) dbuf m

def commit (n : Nat) : List (Machine → Machine) :=
  if 0 < n then
    (List.range n).map (writeLogTurn start) ++ writeHead start ::
      ((List.range n).map installTurn ++ [clearHead start])
  else []

def turns (n : Word) : Nat := n.toInt.toNat

def readHead (m : Machine) : Machine :=
  let (hb, m) := bread start m
  let n := turns (readWord hb 0)
  { m with lh := ⟨n, fun i => if i < n then readWord hb (4 + 4 * i) else m.lh.block i⟩ }

/-- The disk writes of `recover_from_log` after `read_head`. -/
def recoverFromLog (n : Nat) : List (Machine → Machine) :=
  (List.range n).map installTurn ++ [clearHead start]

def perform (steps : List (Machine → Machine)) (m : Machine) : Machine :=
  steps.foldl (fun m step => step m) m

def crashed (disk : Word → Block) : Machine := ⟨disk, fun _ => none, ⟨0, fun _ => 0⟩⟩

def recoverUpTo (j : Nat) (disk : Word → Block) : Word → Block :=
  let m := readHead start (crashed disk)
  (perform ((recoverFromLog start m.lh.n).take j) m).disk

/-- The disk after `recover_from_log` runs to its end, when it was interrupted before after the
numbers of writes in the list. -/
def recovered (js : List Nat) (disk : Word → Block) : Word → Block :=
  let disk := js.foldl (fun disk j => recoverUpTo start j disk) disk
  let m := readHead start (crashed disk)
  (perform (recoverFromLog start m.lh.n) m).disk

end Commit

/-- The logged blocks of a transaction are in the cache with their new contents.  They are
different from each other (`log_write` absorbs) and from the blocks of the log, and fit into it. -/
structure Transaction (start : Word) (new : Nat → Block) (m : Machine) : Prop where
  fits : m.lh.n ≤ logsize
  empty : readWord (m.disk start) 0 = 0
  cached : ∀ i < m.lh.n, m.cache (m.lh.block i) = some (new i)
  inj : ∀ i < m.lh.n, ∀ j < m.lh.n, m.lh.block i = m.lh.block j → i = j
  home : ∀ i < m.lh.n, m.lh.block i ≠ start ∧ ∀ j < m.lh.n, m.lh.block i ≠ logBlock start j

/-- What is asked of the disk `d` after a crash of `commit` after `k` writes, and recovery. -/
structure Atomic (start : Word) (new : Nat → Block) (m : Machine) (k : Nat) (d : Word → Block) :
    Prop where
  whole : (∀ i < m.lh.n, d (m.lh.block i) = new i) ∨
    ∀ i < m.lh.n, d (m.lh.block i) = m.disk (m.lh.block i)
  durable : 0 < m.lh.n → m.lh.n < k → ∀ i < m.lh.n, d (m.lh.block i) = new i
  others : ∀ b, b ≠ start → (∀ i < m.lh.n, b ≠ logBlock start i ∧ b ≠ m.lh.block i) → d b = m.disk b

variable {start b : Word} {m : Machine} {new : Nat → Block} {i j k n tail : Nat}

section Turns

theorem bread_data (b c : Word) (m : Machine) : (bread b m).2.data c = m.data c := by
  by_cases h : c = b
  · subst h
    simp [bread, Machine.data]
  · simp [bread, Machine.data, update_of_ne h]

theorem bwrite_data (b c : Word) (data : Block) (m : Machine) :
    (bwrite b data m).data c = if c = b then data else m.data c := by
  by_cases h : c = b
  · subst h
    simp [bwrite, Machine.data]
  · simp [bwrite, Machine.data, h]

theorem bwrite_disk (b c : Word) (data : Block) (m : Machine) :
    (bwrite b data m).disk c = if c = b then data else m.disk c :=
  update_apply _ _ _ _

theorem writeLogTurn_disk (hb : b ≠ logBlock start tail) :
    (writeLogTurn start tail m).disk b = m.disk b :=
  (bwrite_disk _ _ _ _).trans (if_neg hb)

theorem writeLogTurn_data (hb : b ≠ logBlock start tail) :
    (writeLogTurn start tail m).data b = m.data b :=
  ((bwrite_data _ _ _ _).trans (if_neg hb)).trans ((bread_data _ _ _).trans (bread_data _ _ _))

theorem installTurn_disk :
    (installTurn tail m).disk b = if b = m.lh.block tail then m.data b else m.disk b := by
  by_cases hb : b = m.lh.block tail
  · subst hb
    exact ((bwrite_disk _ _ _ _).trans (if_pos rfl)).trans (if_pos rfl).symm
  · exact ((bwrite_disk _ _ _ _).trans (if_neg hb)).trans (if_neg hb).symm

theorem installTurn_data : (installTurn tail m).data b = m.data b := by
  by_cases hb : b = m.lh.block tail
  · subst hb
    exact (bwrite_data _ _ _ _).trans (if_pos rfl)
  · exact ((bwrite_data _ _ _ _).trans (if_neg hb)).trans (bread_data _ _ _)

theorem writeHead_disk (hb : b ≠ start) : (writeHead start m).disk b = m.disk b :=
  (bwrite_disk _ _ _ _).trans (if_neg hb)

theorem writeHead_data (hb : b ≠ start) : (writeHead start m).data b = m.data b :=
  ((bwrite_data _ _ _ _).trans (if_neg hb)).trans (bread_data _ _ _)

theorem clearHead_disk (hb : b ≠ start) : (clearHead start m).disk b = m.disk b := writeHead_disk hb

theorem clearHead_data (hb : b ≠ start) : (clearHead start m).data b = m.data b := writeHead_data hb

theorem perform_append (l l' : List (Machine → Machine)) (m : Machine) :
    perform (l ++ l') m = perform l' (perform l m) := List.foldl_append

theorem writeLog_run (start : Word) (k : Nat) (m : Machine) :
    (perform ((List.range k).map (writeLogTurn start)) m).lh = m.lh ∧
      ∀ b, (∀ i < k, b ≠ logBlock start i) →
        (perform ((List.range k).map (writeLogTurn start)) m).disk b = m.disk b ∧
        (perform ((List.range k).map (writeLogTurn start)) m).data b = m.data b := by
  induction k with
  | zero => exact ⟨rfl, fun _ _ => ⟨rfl, rfl⟩⟩
  | succ k ih =>
    obtain ⟨hlh, hkept⟩ := ih
    rw [List.range_succ, List.map_append, perform_append]
    refine ⟨hlh, fun b hb => ?_⟩
    have hne : b ≠ logBlock start k := hb k (by omega)
    obtain ⟨hdisk, hdata⟩ := hkept b fun i hi => hb i (by omega)
    exact ⟨(writeLogTurn_disk hne).trans hdisk, (writeLogTurn_data hne).trans hdata⟩

theorem installTrans_run (k : Nat) (m : Machine) :
    (perform ((List.range k).map installTurn) m).lh = m.lh ∧
      ∀ b, (perform ((List.range k).map installTurn) m).data b = m.data b ∧
        ((∃ i < k, b = m.lh.block i) →
          (perform ((List.range k).map installTurn) m).disk b = m.data b) ∧
        ((∀ i < k, b ≠ m.lh.block i) →
          (perform ((List.range k).map installTurn) m).disk b = m.disk b) := by
  induction k with
  | zero =>
    exact ⟨rfl, fun _ => ⟨rfl, fun ⟨i, hi, _⟩ => absurd hi (Nat.not_lt_zero i), fun _ => rfl⟩⟩
  | succ k ih =>
    obtain ⟨hlh, hrun⟩ := ih
    rw [List.range_succ, List.map_append, perform_append]
    refine ⟨hlh, fun b => ?_⟩
    obtain ⟨hdata, hin, hout⟩ := hrun b
    generalize perform ((List.range k).map installTurn) m = m1 at hlh hdata hin hout ⊢
    have hdisk2 : (perform ([k].map installTurn) m1).disk b =
        if b = m.lh.block k then m1.data b else m1.disk b := hlh ▸ installTurn_disk
    refine ⟨installTurn_data.trans hdata, fun ⟨i, hi, hb⟩ => ?_, fun hb => ?_⟩
    · rw [hdisk2]
      split
      · exact hdata
      rename_i hne
      refine hin ⟨i, ?_, hb⟩
      have hik : i ≠ k := by
        rintro rfl
        exact hne hb
      omega
    · rw [hdisk2, if_neg (hb k (by omega))]
      exact hout fun i hi => hb i (by omega)

end Turns

section Recovery

theorem perform_coherent {l : List (Machine → Machine)}
    (hl : ∀ step ∈ l, (∃ tail, step = installTurn tail) ∨ step = clearHead start)
    (hm : ∀ b, m.data b = m.disk b) (hb : b ≠ start) : (perform l m).disk b = m.disk b := by
  induction l generalizing m with
  | nil => rfl
  | cons step l ih =>
    have hstep : ∀ b, (step m).data b = (step m).disk b ∧
      (b ≠ start → (step m).disk b = m.disk b) := by
      intro b
      rcases hl step List.mem_cons_self with ⟨tail, rfl⟩ | rfl
      · have hdisk : (installTurn tail m).disk b = m.disk b := by
          rw [installTurn_disk, hm b, ite_self]
        exact ⟨installTurn_data.trans ((hm b).trans hdisk.symm), fun _ => hdisk⟩
      refine ⟨?_, clearHead_disk⟩
      by_cases hb : b = start
      · refine (bwrite_data _ _ _ _).trans (Eq.trans ?_ (bwrite_disk _ _ _ _).symm)
        rw [if_pos hb, if_pos hb]
      · exact (clearHead_data hb).trans ((hm b).trans (clearHead_disk hb).symm)
    refine (ih (fun step' h => hl step' (List.mem_cons_of_mem _ h)) fun b => (hstep b).1).trans ?_
    exact (hstep b).2 hb

theorem mem_recoverFromLog {step : Machine → Machine} (h : step ∈ recoverFromLog start n) :
    (∃ tail, step = installTurn tail) ∨ step = clearHead start := by
  rcases List.mem_append.mp h with h | h
  · obtain ⟨tail, -, rfl⟩ := List.mem_map.mp h
    exact .inl ⟨tail, rfl⟩
  · exact .inr (List.mem_singleton.mp h)

theorem readHead_data (disk : Word → Block) (b : Word) :
    (readHead start (crashed disk)).data b = (readHead start (crashed disk)).disk b :=
  bread_data start b (crashed disk)

theorem recoverUpTo_disk {disk : Word → Block} (hb : b ≠ start) :
    recoverUpTo start j disk b = disk b :=
  perform_coherent (fun _ h => mem_recoverFromLog (List.mem_of_mem_take h)) (readHead_data disk) hb

theorem recovered_disk {js : List Nat} {disk : Word → Block} (hb : b ≠ start) :
    recovered start js disk b = disk b := by
  have hfold : (js.foldl (fun disk j => recoverUpTo start j disk) disk) b = disk b := by
    induction js generalizing disk with
    | nil => rfl
    | cons j js ih => exact ih.trans (recoverUpTo_disk hb)
  exact (perform_coherent (fun _ => mem_recoverFromLog) (readHead_data _) hb).trans hfold

end Recovery

section Crash

theorem Transaction.commit_disk (h : Transaction start new m) (k : Nat) :
    (∀ i < m.lh.n, (perform ((commit start m.lh.n).take k) m).disk (m.lh.block i) =
      if m.lh.n + 1 + i < k then new i else m.disk (m.lh.block i)) ∧
    ∀ b, b ≠ start → (∀ i < m.lh.n, b ≠ logBlock start i ∧ b ≠ m.lh.block i) →
      (perform ((commit start m.lh.n).take k) m).disk b = m.disk b := by
  rw [commit]
  split
  · rename_i hpos
    obtain ⟨hlog_lh, hlog⟩ := writeLog_run start (min k m.lh.n) m
    rw [List.take_append, List.length_map, List.length_range, ← List.map_take, List.take_range,
      perform_append]
    generalize perform ((List.range (min k m.lh.n)).map (writeLogTurn start)) m =
      m1 at hlog_lh hlog ⊢
    have hblock : ∀ i < m.lh.n, m1.disk (m.lh.block i) = m.disk (m.lh.block i) ∧
        m1.data (m.lh.block i) = new i := by
      intro i hi
      obtain ⟨hdisk, hdata⟩ := hlog (m.lh.block i) fun j hj => (h.home i hi).2 j (by omega)
      refine ⟨hdisk, hdata.trans ?_⟩
      rw [Machine.data, h.cached i hi]
      rfl
    rcases hk : k - m.lh.n with _ | t
    · refine ⟨fun i hi => ?_, fun b hb hout => ?_⟩
      · rw [if_neg (by omega)]
        exact (hblock i hi).1
      · exact (hlog b fun i hi => (hout i (by omega)).1).1
    rw [List.take_succ_cons, List.take_append, List.length_map, List.length_range, ← List.map_take,
      List.take_range]
    change (∀ i < m.lh.n, (perform ((List.range (min t m.lh.n)).map installTurn ++
      [clearHead start].take (t - m.lh.n)) (writeHead start m1)).disk (m.lh.block i) = _) ∧
      ∀ b, _ → _ → (perform ((List.range (min t m.lh.n)).map installTurn ++
        [clearHead start].take (t - m.lh.n)) (writeHead start m1)).disk b = _
    rw [perform_append]
    obtain ⟨-, hinst⟩ := installTrans_run (min t m.lh.n) (writeHead start m1)
    generalize perform ((List.range (min t m.lh.n)).map installTurn) (writeHead start m1) = m2
      at hinst ⊢
    have hlast : ∀ b, b ≠ start →
        (perform ([clearHead start].take (t - m.lh.n)) m2).disk b = m2.disk b := by
      intro b hb
      rcases t - m.lh.n with _ | r
      · rfl
      · rw [List.take_succ_cons, List.take_nil]
        exact clearHead_disk hb
    have hlh : (writeHead start m1).lh = m.lh := hlog_lh
    refine ⟨fun i hi => ?_, fun b hb hout => ?_⟩
    · have hne := (h.home i hi).1
      rw [hlast _ hne]
      obtain ⟨-, hin, hnot⟩ := hinst (m.lh.block i)
      rw [hlh] at hin hnot
      split
      · rw [hin ⟨i, by omega, rfl⟩, writeHead_data hne, (hblock i hi).2]
      · rename_i hlt
        rw [hnot fun j hj heq => ?_, writeHead_disk hne, (hblock i hi).1]
        have := h.inj i hi j (by omega) heq
        omega
    · rw [hlast b hb, (hinst b).2.2, writeHead_disk hb]
      · exact (hlog b fun i hi => (hout i (by omega)).1).1
      · intro i hi
        rw [hlh]
        exact (hout i (by omega)).2
  · exact ⟨fun i hi => absurd hi (by omega), fun _ _ _ => by rw [List.take_nil]; rfl⟩

/-- Recovery after a crash is atomic and durable exactly if the header had not been written, or the
blocks that were not yet installed have the contents that they had before. -/
theorem recovery_atomic_iff (h : Transaction start new m) (k : Nat) (js : List Nat) :
    Atomic start new m k (recovered start js (perform ((commit start m.lh.n).take k) m).disk) ↔
      k ≤ m.lh.n ∨ ∀ i < m.lh.n, k ≤ m.lh.n + 1 + i → m.disk (m.lh.block i) = new i := by
  obtain ⟨hblock, hother⟩ := h.commit_disk k
  have hrec : ∀ i < m.lh.n, recovered start js (perform ((commit start m.lh.n).take k) m).disk
      (m.lh.block i) = if m.lh.n + 1 + i < k then new i else m.disk (m.lh.block i) := fun i hi =>
    (recovered_disk (h.home i hi).1).trans (hblock i hi)
  constructor
  · intro hatomic
    refine or_iff_not_imp_left.mpr fun hk i hi hnot => ?_
    have hnew := hatomic.durable (by omega) (by omega) i hi
    rwa [hrec i hi, if_neg (by omega)] at hnew
  intro hcond
  have hall : m.lh.n < k → ∀ i < m.lh.n,
      recovered start js (perform ((commit start m.lh.n).take k) m).disk (m.lh.block i) =
      new i := by
    intro hk i hi
    rw [hrec i hi]
    split
    · rfl
    · exact hcond.resolve_left (by omega) i hi (by omega)
  refine ⟨?_, fun _ => hall, fun b hb hout => (recovered_disk hb).trans (hother b hb hout)⟩
  by_cases hk : m.lh.n < k
  · exact .inl (hall hk)
  · refine .inr fun i hi => ?_
    rw [hrec i hi, if_neg (by omega)]

end Crash

section Example

/-- A transaction of two blocks, 100 and 101, on a disk of zeros; the log starts at block 2. -/
def twoBlocks : Machine where
  disk := fun _ _ => 0
  cache := fun b => if b = 100 ∨ b = 101 then some fun _ => 1 else none
  lh := ⟨2, fun i => if i = 0 then 100 else 101⟩

theorem transaction_twoBlocks : Transaction 2 (fun _ _ => 1) twoBlocks := by
  refine ⟨by decide, by decide, fun i hi => ?_, ?_, ?_⟩
  · have : i = 0 ∨ i = 1 := by
      have hi : i < 2 := hi
      omega
    rcases this with rfl | rfl <;> rfl
  · decide
  · decide

theorem recovery_atomic_iff_twoBlocks : Transaction 2 (fun _ _ => 1) twoBlocks ∧
      (Atomic 2 (fun _ _ => 1) twoBlocks 2
      (recovered 2 [0] (perform ((commit 2 2).take 2) twoBlocks).disk) ↔
        2 ≤ twoBlocks.lh.n ∨ ∀ i < twoBlocks.lh.n, 2 ≤ twoBlocks.lh.n + 1 + i →
          twoBlocks.disk (twoBlocks.lh.block i) = fun _ => 1) :=
  ⟨transaction_twoBlocks, recovery_atomic_iff transaction_twoBlocks 2 [0]⟩

/-- A crash after the header and one of the two blocks are on disk: recovery leaves one block with
its new contents and one with its old ones, and erases the log. -/
theorem torn_transaction : Transaction 2 (fun _ _ => 1) twoBlocks ∧
      (recovered 2 [] (perform ((commit 2 2).take 4) twoBlocks).disk 100 0 = 1 ∧
        recovered 2 [] (perform ((commit 2 2).take 4) twoBlocks).disk 101 0 = 0 ∧
        turns (readWord (recovered 2 [] (perform ((commit 2 2).take 4) twoBlocks).disk 2) 0) = 0) ∧
      ¬ Atomic 2 (fun _ _ => 1) twoBlocks 4
        (recovered 2 [] (perform ((commit 2 2).take 4) twoBlocks).disk) := by
  refine ⟨transaction_twoBlocks, by decide, fun h => ?_⟩
  have hnew := congrFun (h.durable (by decide) (by decide) 1 (by decide)) 0
  exact absurd hnew (by decide)

end Example

end Mit6828.Xv6.Log
