import Mit6828.Kern.AddressSpace
import Mit6828.Kern.Environment

/-!
The system calls of `kern/syscall.c`, with the two driver functions of `kern/e1000.c` they
reach.  `c` is the CPU, `cur` its `curenv`.
-/

namespace Mit6828.Kern.Syscall

open Mmu Pmap AddressSpace Environment Function

structure Hw where
  cr2 : Word
  consGetc : Word

/-- `(int) va >= UTOP || (int) va % PGSIZE != 0`: the comparison is unsigned, because
`UTOP` is, the remainder signed. -/
def badVa (va : Word) : Prop := va ≥ utop ∨ va.srem pgsize ≠ 0
deriving Decidable

/-- The signed remainder rejects what an unsigned one would. -/
theorem not_badVa_iff {va : Word} : ¬ badVa va ↔ va.toNat < 4005560320 ∧ va.toNat % 4096 = 0 := by
  have hsrem : va.srem pgsize = 0 ↔ va.toNat % 4096 = 0 := by
    rw [← BitVec.toInt_inj, BitVec.toInt_srem, show pgsize.toInt = 4096 from rfl,
      show (0 : Word).toInt = 0 from rfl, ← Int.dvd_iff_tmod_eq_zero, BitVec.toInt_eq_toNat_cond]
    split
    · omega
    · omega
  rw [badVa, not_or, not_not, hsrem, BitVec.not_le]
  rfl

/-- `!(perm & PTE_U) || !(perm & PTE_P) || (perm & ~PTE_SYSCALL)`. -/
def badPerm (perm : Word) : Prop :=
  perm &&& pteU = 0 ∨ perm &&& pteP = 0 ∨ perm &&& ~~~pteSyscall ≠ 0
deriving Decidable

section Callers

variable {α σ : Type} {vas : List Word} {perm r : Word} {page : Option α} {mem : Bool} {s s' : σ}
  {insert : α → (perm : Word) → ¬ badPerm perm → σ}

/-- `sys_page_alloc` and `sys_page_map` for a caller whose page table is part of a state `s`:
`page` is what there is to map, and `mem` says whether the kernel has memory. -/
def pageCall (vas : List Word) (perm : Word) (page : Option α) (mem : Bool) (s : σ)
    (insert : α → (perm : Word) → ¬ badPerm perm → σ) : Word × σ :=
  if vas.any (badVa ·) then (-eInval, s)
  else if h : badPerm perm then (-eInval, s)
  else
    match page, mem with
    | some p, true => (0, insert p perm h)
    | _, _ => (-eNoMem, s)

theorem pageCall_succeeds {p : α} (hvas : ∀ va ∈ vas, ¬ badVa va) (hperm : ¬ badPerm perm) :
    pageCall vas perm (some p) true s insert = (0, insert p perm hperm) := by
  rw [pageCall, if_neg (by simpa using hvas), dif_neg hperm]

theorem pageCall_ok (h : pageCall vas perm page mem s insert = (r, s')) (hr : ¬ isNeg r) :
    r = 0 ∧ (∀ va ∈ vas, ¬ badVa va) ∧
      ∃ p hperm, page = some p ∧ s' = insert p perm hperm := by
  unfold pageCall at h
  split_ifs at h with hvas hperm
  · cases h
    exact absurd (by decide) hr
  · cases h
    exact absurd (by decide) hr
  · split at h
    · cases h
      exact ⟨rfl, by simpa using hvas, _, hperm, rfl, rfl⟩
    · cases h
      exact absurd (by decide) hr

end Callers

def userMemAssert (c cur : Nat) (va len perm : Word) (k : Kernel) : Exit Unit :=
  match (k.envs cur).envPgdir with
  | none => .stop
  | some pgdir =>
    match userMemCheck pgdir va len (perm ||| pteU) k.mem with
    | none => .stop
    | some none => .ret () k
    | some (some _) => envDestroy c cur k

/-- The loop of `vprintfmt` for `%.*s`: the addresses read from `p` on, and whether the
loop comes to its end.  Each character is read before the precision is counted down. -/
def fmtString (load : Word → Option Byte) : Nat → Word → Int → List Word × Bool
  | 0, _, _ => ([], false)
  | fuel + 1, p, precision =>
    match load p with
    | none => ([p], false)
    | some ch =>
      if ch = 0 then ([p], true)
      else if precision < 0 then
        let (rest, ok) := fmtString load fuel (p + 1) precision
        (p :: rest, ok)
      else if precision - 1 ≥ 0 then
        let (rest, ok) := fmtString load fuel (p + 1) (precision - 1)
        (p :: rest, ok)
      else ([p], true)

/-- `cprintf("%.*s", len, s)`: a null `s` prints a string of the kernel.  The loop visits no
more than the `2 ^ 32` addresses there are, or never ends. -/
def cprintfString (pgdir : Nat) (s len : Word) (m : Mem) : List Word × Bool :=
  if s = 0 then ([], true)
  else fmtString (loadByte pgdir m) (2 ^ 32) s len.toInt

def readsOf (vas : List Word) : List Access := vas.map fun va => { va := va, write := false }

def writesOf (vas : List Word) : List Access := vas.map fun va => { va := va, write := true }

def sysCputs (c cur : Nat) (s len : Word) (k : Kernel) : List Access × Exit Word :=
  match userMemAssert c cur s len pteU k with
  | .ret _ k =>
    match (k.envs cur).envPgdir with
    | none => ([], .stop)
    | some pgdir =>
      let (vas, ok) := cprintfString pgdir s len k.mem
      (readsOf vas, if ok then .ret 0 k else .stop)
  | .left k => ([], .left k)
  | .stop => ([], .stop)
  | .corrupt => ([], .corrupt)

def sysEnvDestroy (c cur : Nat) (envid : Word) (k : Kernel) : Exit Word :=
  match envid2env cur envid true k with
  | none => .ret (-eBadEnv) k
  | some e => (envDestroy c e k).andThen fun _ k => .ret 0 k

def sysExofork (cur : Nat) (k : Kernel) : Exit Word :=
  match envAlloc (k.envs cur).envId k with
  | (.error ret, k) => .ret ret k
  | (.ok e, k) =>
    let k := k.setEnv e { k.envs e with
      envStatus := .notRunnable
      envTf := { (k.envs cur).envTf with regEax := 0 } }
    .ret (k.envs e).envId k

def statusOf (status : Word) : Option EnvStatus :=
  if status.toInt < 0 ∨ status.toInt > 4 then none
  else [EnvStatus.free, .dying, .runnable, .running, .notRunnable][status.toNat]?

def sysEnvSetStatus (cur : Nat) (envid status : Word) (k : Kernel) : Exit Word :=
  match envid2env cur envid true k with
  | none => .ret (-eBadEnv) k
  | some e =>
    match statusOf status with
    | none => .ret (-eInval) k
    | some st => .ret 0 (k.setStatus e st)

/-- The trap frame stored at `va` in the address space of `pgdir`. -/
def loadTrapframe (pgdir : Nat) (m : Mem) (va : Word) : Option Trapframe := do
  return {
    regEdi := ← loadWord pgdir m va
    regEsi := ← loadWord pgdir m (va + 4)
    regEbp := ← loadWord pgdir m (va + 8)
    regOesp := ← loadWord pgdir m (va + 12)
    regEbx := ← loadWord pgdir m (va + 16)
    regEdx := ← loadWord pgdir m (va + 20)
    regEcx := ← loadWord pgdir m (va + 24)
    regEax := ← loadWord pgdir m (va + 28)
    tfEs := ← loadHalf pgdir m (va + 32)
    tfDs := ← loadHalf pgdir m (va + 36)
    tfTrapno := ← loadWord pgdir m (va + 40)
    tfErr := ← loadWord pgdir m (va + 44)
    tfEip := ← loadWord pgdir m (va + 48)
    tfCs := ← loadHalf pgdir m (va + 52)
    tfEflags := ← loadWord pgdir m (va + 56)
    tfEsp := ← loadWord pgdir m (va + 60)
    tfSs := ← loadHalf pgdir m (va + 64) }

def trapframeSize : Nat := 68

abbrev sanitized (frame : Trapframe) : Trapframe :=
  { frame with
    tfCs := frame.tfCs ||| 3
    tfEflags := (frame.tfEflags ||| flIf) &&& ~~~flIoplMask }

/-- `sys_env_set_trapframe`: the check walks the page directory of `e`, the copy reads
through that of the caller. -/
def sysEnvSetTrapframe (cur : Nat) (envid tf : Word) (k : Kernel) : List Access × Exit Word :=
  match envid2env cur envid true k with
  | none => ([], .ret (-eBadEnv) k)
  | some e =>
    match (k.envs e).envPgdir, (k.envs cur).envPgdir with
    | some pgdir, some curPgdir =>
      match userMemCheck pgdir tf (BitVec.ofNat 32 trapframeSize) pteU k.mem with
      | none => ([], .stop)
      | some (some _) => ([], .ret (-eFault) k)
      | some none =>
        (readsOf (addrs tf trapframeSize),
          match loadTrapframe curPgdir k.mem tf with
          | none => .stop
          | some frame => .ret 0 (k.setEnv e { k.envs e with envTf := sanitized frame }))
    | _, _ => ([], .stop)

def sysEnvSetPgfaultUpcall (cur : Nat) (envid func : Word) (k : Kernel) : Exit Word :=
  match envid2env cur envid true k with
  | none => .ret (-eBadEnv) k
  | some e => .ret 0 (k.setEnv e { k.envs e with envPgfaultUpcall := func })

def sysPageAlloc (cur : Nat) (envid va perm : Word) (k : Kernel) : Exit Word :=
  if badVa va then .ret (-eInval) k
  else if badPerm perm then .ret (-eInval) k
  else
    match pageAlloc true k.mem with
    | (none, m) => .ret (-eNoMem) { k with mem := m }
    | (some newpage, m) =>
      let k := { k with mem := m }
      match envid2env cur envid true k with
      | none => .ret (-eBadEnv) k
      | some e =>
        match (k.envs e).envPgdir with
        | none => .stop
        | some pgdir =>
          match pageInsert pgdir newpage va perm k.mem with
          | none => .stop
          | some (r, m) =>
            if isNeg r then
              match pageFree newpage m with
              | none => .stop
              | some m => .ret (-eNoMem) { k with mem := m }
            else .ret 0 { k with mem := m }

def sysPageMap (cur : Nat) (srcenvid srcva dstenvid dstva perm : Word) (k : Kernel) : Exit Word :=
  if badVa srcva ∨ badVa dstva then .ret (-eInval) k
  else if badPerm perm then .ret (-eInval) k
  else
    match envid2env cur srcenvid true k with
    | none => .ret (-eBadEnv) k
    | some srcenv =>
      match envid2env cur dstenvid true k with
      | none => .ret (-eBadEnv) k
      | some dstenv =>
        match (k.envs srcenv).envPgdir with
        | none => .stop
        | some srcPgdir =>
          match pageLookup srcPgdir srcva k.mem with
          | none => .stop
          | some none => .ret (-eNoMem) k
          | some (some (page, _)) =>
            match (k.envs dstenv).envPgdir with
            | none => .stop
            | some dstPgdir =>
              match pageInsert dstPgdir page dstva perm k.mem with
              | none => .stop
              | some (r, m) =>
                if isNeg r then .ret (-eNoMem) { k with mem := m }
                else .ret 0 { k with mem := m }

def sysPageUnmap (cur : Nat) (envid va : Word) (k : Kernel) : Exit Word :=
  if badVa va then .ret (-eInval) k
  else
    match envid2env cur envid true k with
    | none => .ret (-eBadEnv) k
    | some e =>
      match (k.envs e).envPgdir with
      | none => .stop
      | some pgdir =>
        match pageRemove pgdir va k.mem with
        | none => .stop
        | some m => .ret 0 { k with mem := m }

/-- The end of `sys_ipc_try_send`: deliver the message and wake the receiver. -/
def ipcDeliver (cur dstenv : Nat) (value recvPerm : Word) (k : Kernel) : Kernel :=
  k.setEnv dstenv { k.envs dstenv with
    envIpcRecving := false
    envIpcFrom := (k.envs cur).envId
    envIpcValue := value
    envIpcPerm := recvPerm
    envStatus := .runnable
    envTf := { (k.envs dstenv).envTf with regEax := 0 } }

def sysIpcTrySend (cur : Nat) (envid value srcva perm : Word) (k : Kernel) : Exit Word :=
  match envid2env cur envid false k with
  | none => .ret (-eBadEnv) k
  | some dstenv =>
    if (k.envs dstenv).envIpcRecving = false ∨ (k.envs dstenv).envIpcFrom ≠ 0 then
      .ret (-eIpcNotRecv) k
    else if srcva < utop then
      if pgoff srcva ≠ 0 then .ret (-eInval) k
      else if badPerm perm then .ret (-eInval) k
      else
        match (k.envs cur).envPgdir with
        | none => .stop
        | some pgdir =>
          match pageLookup pgdir srcva k.mem with
          | none => .stop
          | some none => .ret (-eInval) k
          | some (some (pp, pte)) =>
            if perm &&& pteW ≠ 0 ∧ k.mem.word pte &&& pteW = 0 then .ret (-eInval) k
            else if (k.envs dstenv).envIpcDstva ≠ 0 then
              match (k.envs dstenv).envPgdir with
              | none => .stop
              | some dstPgdir =>
                match pageInsert dstPgdir pp (k.envs dstenv).envIpcDstva perm
                    k.mem with
                | none => .stop
                | some (r, m) =>
                  if isNeg r then .ret r { k with mem := m }
                  else
                    .ret 0 (ipcDeliver cur dstenv value perm { k with mem := m })
            else .ret 0 (ipcDeliver cur dstenv value 0 k)
    else .ret 0 (ipcDeliver cur dstenv value 0 k)

/-- `sys_ipc_recv` up to its call of `sched_yield`; `none` is `-E_INVAL`. -/
def ipcRecvBlock (cur : Nat) (dstva : Word) (k : Kernel) : Option Kernel :=
  if dstva < utop ∧ pgoff dstva ≠ 0 then none
  else
    some (k.setEnv cur { k.envs cur with
      envIpcDstva := if dstva < utop then dstva else (k.envs cur).envIpcDstva
      envIpcRecving := true
      envStatus := .notRunnable
      envIpcFrom := 0 })

def sysIpcRecv (c cur : Nat) (dstva : Word) (k : Kernel) : Exit Word :=
  match ipcRecvBlock cur dstva k with
  | none => .ret (-eInval) k
  | some k => .leave (schedYield c k)

/-- `E1000_TX_DESC_ARRAY_SIZE`, `E1000_RX_DESC_ARRAY_SIZE` and the size of one packet buffer. -/
def txRing : Nat := 64
def rxRing : Nat := 128
def packetBuf : Nat := 1518

attribute [grind unfold] txRing rxRing packetBuf

/-- `e1000_transmit(addr, len)`.  `memmove` takes `len` as a `size_t`; past the end of the
array of packet buffers it writes over other kernel data. -/
def e1000Transmit (pgdir : Nat) (addr len : Word) (k : Kernel) : List Access × Exit Word :=
  let nic := k.nic
  let tdt := nic.tdt
  if nic.txDd tdt = false then ([], .ret (-1) k)
  else
    (readsOf (addrs addr len.toNat),
      match (addrs addr len.toNat).mapM (loadByte pgdir k.mem) with
      | none => .stop
      | some bytes =>
        let base := tdt * packetBuf
        if base + len.toNat > txRing * packetBuf then .corrupt
        else .ret 0 { k with nic := { nic with
          txBuf := fun i =>
            if base ≤ i ∧ i < base + len.toNat then bytes.getD (i - base) 0 else nic.txBuf i
          txDd := update nic.txDd tdt false
          txLength := update nic.txLength tdt (BitVec.setWidth 16 len)
          tdt := (tdt + 1) % txRing } })

def sysPktTrySend (c cur : Nat) (buf len : Word) (k : Kernel) : List Access × Exit Word :=
  match userMemAssert c cur buf len pteU k with
  | .ret _ k =>
    match (k.envs cur).envPgdir with
    | none => ([], .stop)
    | some pgdir => e1000Transmit pgdir buf len k
  | .left k => ([], .left k)
  | .stop => ([], .stop)
  | .corrupt => ([], .corrupt)

/-- The accesses of `e1000_receive(addr, len)` once a packet of `n` bytes is there: `*len`
is written, read back as the size of the copy, and the packet written to `addr`. -/
def receiveAccesses (addr len : Word) (n : Nat) : List Access :=
  writesOf (addrs len 4) ++ readsOf (addrs len 4) ++ writesOf (addrs addr n)

def e1000Receive (pgdir : Nat) (addr len : Word) (k : Kernel) : List Access × Exit Word :=
  let nic := k.nic
  if nic.rxDd nic.next = false then ([], .ret (-1) k)
  else
    let n := (nic.rxLength nic.next).toNat
    let accesses := receiveAccesses addr len n
    (accesses,
      if ∀ a ∈ accesses, userMay pgdir a k.mem then
        let packet := (List.range n).map fun i => nic.rxBuf (nic.next * packetBuf + i)
        match storeBytes pgdir k.mem len (bytesOf (BitVec.ofNat 32 n)) with
        | none => .stop
        | some m =>
          match storeBytes pgdir m addr packet with
          | none => .stop
          | some m => .ret 0 { k with
              mem := m
              nic := { nic with
                rxDd := update nic.rxDd nic.next false
                next := (nic.next + 1) % rxRing
                rdt := (nic.rdt + 1) % rxRing } }
      else .corrupt)

def sysPktTryRecv (cur : Nat) (buf len : Word) (k : Kernel) : List Access × Exit Word :=
  match (k.envs cur).envPgdir with
  | none => ([], .stop)
  | some pgdir => e1000Receive pgdir buf len k

inductive Call where
  | cputs (s len : Word)
  | cgetc
  | getenvid
  | envDestroy (envid : Word)
  | pageAlloc (envid va perm : Word)
  | pageMap (srcenvid srcva dstenvid dstva perm : Word)
  | pageUnmap (envid va : Word)
  | exofork
  | envSetStatus (envid status : Word)
  | envSetTrapframe (envid tf : Word)
  | envSetPgfaultUpcall (envid func : Word)
  | yield
  | ipcTrySend (envid value srcva perm : Word)
  | ipcRecv (dstva : Word)
  | timeMsec
  | pktTrySend (buf len : Word)
  | pktTryRecv (buf len : Word)
  | invalid
  deriving DecidableEq

def Call.ofRegs (syscallno a1 a2 a3 a4 a5 : Word) : Call :=
  match syscallno.toNat with
  | 0 => .cputs a1 a2
  | 1 => .cgetc
  | 2 => .getenvid
  | 3 => .envDestroy a1
  | 4 => .pageAlloc a1 a2 a3
  | 5 => .pageMap a1 a2 a3 a4 a5
  | 6 => .pageUnmap a1 a2
  | 7 => .exofork
  | 8 => .envSetStatus a1 a2
  | 9 => .envSetTrapframe a1 a2
  | 10 => .envSetPgfaultUpcall a1 a2
  | 11 => .yield
  | 12 => .ipcTrySend a1 a2 a3 a4
  | 13 => .ipcRecv a1
  | 14 => .timeMsec
  | 15 => .pktTrySend a1 a2
  | 16 => .pktTryRecv a1 a2
  | _ => .invalid

/-- `syscall`, after its dispatch: the accesses made through user pointers and the exit. -/
def exec (c cur : Nat) (hw : Hw) (k : Kernel) : Call → List Access × Exit Word
  | .cputs s len => sysCputs c cur s len k
  | .cgetc => ([], .ret hw.consGetc k)
  | .getenvid => ([], .ret (k.envs cur).envId k)
  | .envDestroy envid => ([], sysEnvDestroy c cur envid k)
  | .pageAlloc envid va perm => ([], sysPageAlloc cur envid va perm k)
  | .pageMap srcenvid srcva dstenvid dstva perm =>
    ([], sysPageMap cur srcenvid srcva dstenvid dstva perm k)
  | .pageUnmap envid va => ([], sysPageUnmap cur envid va k)
  | .exofork => ([], sysExofork cur k)
  | .envSetStatus envid status => ([], sysEnvSetStatus cur envid status k)
  | .envSetTrapframe envid tf => sysEnvSetTrapframe cur envid tf k
  | .envSetPgfaultUpcall envid func => ([], sysEnvSetPgfaultUpcall cur envid func k)
  | .yield => ([], .leave (schedYield c k))
  | .ipcTrySend envid value srcva perm => ([], sysIpcTrySend cur envid value srcva perm k)
  | .ipcRecv dstva => ([], sysIpcRecv c cur dstva k)
  | .timeMsec => ([], .ret (k.ticks * 10) k)
  | .pktTrySend buf len => sysPktTrySend c cur buf len k
  | .pktTryRecv buf len => sysPktTryRecv cur buf len k
  | .invalid => ([], .ret (-eInval) k)

def syscall (c cur : Nat) (hw : Hw) (syscallno a1 a2 a3 a4 a5 : Word) (k : Kernel) : Exit Word :=
  (exec c cur hw k (Call.ofRegs syscallno a1 a2 a3 a4 a5)).2

end Mit6828.Kern.Syscall
