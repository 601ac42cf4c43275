import Mit6828.Library.ByteMemory
import Mit6828.Lib.Fork

/-!
The page of `fsipcbuf`, which `fsipc` of `lib/file.c` sends to the file server with `PTE_W`.  The
state is the flags of its entry in the page table of the process that runs.
-/

namespace Mit6828.Lib.FsipcBuf

open Kern.Mmu Kern.Syscall Fork
open Library.ByteMemory (bytes)

def oRdonly : Word := 0
def oWronly : Word := 1
def oAccmode : Word := 3
def maxpathlen : Nat := 1024

/-- The page of a descriptor. -/
structure Fd where
  omode : Word
  fileid : Word

/-- A call with what `fd_lookup` finds: `none` if the descriptor is not open or not of a file.
`free` says whether `fd_alloc` finds one. -/
inductive FileCall where
  | openPath (path : List Byte) (mode : Word) (free : Bool)
  | read (fd : Option Fd) (n : Word)
  | write (fd : Option Fd) (buf : List Byte)
  | stat (fd : Option Fd)
  | ftruncate (fd : Option Fd) (size : Word)
  | close (fd : Option Fd)
  | sync

/-- A request about an open file, unless the file is open in the mode `bad`. -/
def fileRequest (fd : Option Fd) (bad : Option Word) (fields : List Byte) : Option (List Byte) :=
  fd.bind fun fd =>
    if some (fd.omode &&& oAccmode) = bad then none else some (bytes fd.fileid ++ fields)

/-- What a call stores in the fields of `fsipcbuf` before `fsipc`; `none` if it returns an error
before that. -/
def FileCall.request : FileCall → Option (List Byte)
  | .openPath path mode free =>
    if path.length ≥ maxpathlen ∨ free = false then none else some (path ++ 0 :: bytes mode)
  | .read fd n => fileRequest fd (some oWronly) (bytes n)
  | .write fd buf => fileRequest fd (some oRdonly)
      (bytes (BitVec.ofNat 32 (min buf.length 4088)) ++ buf.take 4088)
  | .stat fd => fileRequest fd none []
  | .ftruncate fd size => fileRequest fd (some oRdonly) (bytes size)
  | .close fd => fileRequest fd none []
  | .sync => some []

/-- The flags of a page that `sys_page_map` maps from an entry with flags `pte`. -/
def sysPageMap (pte perm : Word) : Option Word :=
  (pageCall [] perm (if pte &&& pteP = 0 then none else some ()) true none
    fun _ perm _ => some perm).2

/-- `duppage` at this page: its flags in the child and in the parent. -/
def dup (pte : Word) : Option (Word × Word) :=
  match duppage 0 0 pte with
  | .child _ _ perm again => do
    let copy ← sysPageMap pte perm
    let pte ← if again then sysPageMap pte puc else some pte
    return (copy, pte)
  | _ => none

/-- One byte stored, after `pgfault` has mapped its new page if the store faults. -/
def store (pte : Word) : Option Word :=
  if pte &&& puw = puw then some pte
  else if pte &&& pteCow = 0 then none
  else sysPageMap puw puw

def fill (request : List Byte) (pte : Word) : Option Word :=
  request.foldlM (fun pte _ => store pte) pte

/-- The checks that `sys_ipc_try_send` makes on the page `fsipc` sends. -/
def ipcTrySend (pte : Word) : Word :=
  if badPerm puw then -eInval
  else if pte &&& pteP = 0 then -eInval
  else if puw &&& pteW ≠ 0 ∧ pte &&& pteW = 0 then -eInval
  else 0

/-- A `fork` after which the history goes on in the child or in the parent, or one that fails
before or after it has come to the page, or a call. -/
inductive Op where
  | fork (child : Bool)
  | forkFails (duplicated : Bool)
  | call (c : FileCall)

/-- Every call of the history that gets to `fsipc` sends its page. -/
def Sends : List Op → Word → Prop
  | [], _ => True
  | .fork child :: ops, pte =>
    ∃ ptes, dup pte = some ptes ∧ Sends ops (if child then ptes.1 else ptes.2)
  | .forkFails duplicated :: ops, pte =>
    ∃ ptes, dup pte = some ptes ∧ Sends ops (if duplicated then ptes.2 else pte)
  | .call c :: ops, pte =>
    match c.request with
    | none => Sends ops pte
    | some request => ∃ pte', fill request pte = some pte' ∧ pte' &&& puw = puw ∧
        ipcTrySend pte' ≠ -eInval ∧ Sends ops pte'

/-- Before a `sync` another call has got to `fsipc` since the last `fork`; `stored` says whether
one has. -/
def Covered : Bool → List Op → Prop
  | _, [] => True
  | _, .fork _ :: ops => Covered false ops
  | stored, .forkFails duplicated :: ops => Covered (stored && !duplicated) ops
  | stored, .call c :: ops => (c = .sync → stored = true) ∧ Covered (stored || c.request.isSome) ops

/-- The flags of the page, by whether it has been stored to since the last `fork`. -/
def flags (stored : Bool) : Word := if stored then puw else puc

theorem fill_cons (stored : Bool) (b : Byte) (bs : List Byte) :
    fill (b :: bs) (flags stored) = some puw := by
  have hkeep : fill bs puw = some puw := by
    induction bs with
    | nil => rfl
    | cons _ _ ih => exact ih
  cases stored <;> exact hkeep

theorem fileRequest_cases (fd : Option Fd) (bad : Option Word) (fields : List Byte) :
    fileRequest fd bad fields = none ∨ ∃ b bs, fileRequest fd bad fields = some (b :: bs) := by
  cases fd with
  | none => exact .inl rfl
  | some fd =>
    rw [fileRequest, Option.bind_some]
    split
    · exact .inl rfl
    · exact .inr ⟨_, _, rfl⟩

theorem request_cases {c : FileCall} (hc : c ≠ .sync) :
    c.request = none ∨ ∃ b bs, c.request = some (b :: bs) := by
  cases c with
  | openPath path mode free =>
    rw [FileCall.request]
    split
    · exact .inl rfl
    · cases path <;> exact .inr ⟨_, _, rfl⟩
  | sync => exact absurd rfl hc
  | _ => exact fileRequest_cases ..

/-- `sync` stores nothing, so the page is sent exactly if another call has made it writable since
the last `fork`. -/
theorem fsipc_page_sent_iff (ops : List Op) : Sends ops puw ↔ Covered true ops := by
  have hsent : puw &&& puw = puw ∧ ipcTrySend puw ≠ -eInval := by decide
  suffices h : ∀ stored, Sends ops (flags stored) ↔ Covered stored ops from h true
  induction ops with
  | nil => exact fun _ => Iff.rfl
  | cons op ops ih =>
    intro stored
    have hdup : dup (flags stored) = some (flags false, flags false) := by
      cases stored <;> decide
    cases op with
    | fork child => simp [Sends, Covered, hdup, ih]
    | forkFails duplicated =>
      cases duplicated <;> simp [Sends, Covered, hdup, ih]
    | call c =>
      by_cases hc : c = .sync
      · subst hc
        cases stored with
        | true => simpa [Sends, Covered, FileCall.request, fill, flags, hsent] using ih true
        | false =>
          refine iff_of_false ?_ fun h => Bool.noConfusion (h.1 rfl)
          rintro ⟨_, hfill, hpage, -⟩
          cases hfill
          exact absurd hpage (by decide)
      · rcases request_cases hc with hnone | ⟨b, bs, hsome⟩
        · simp [Sends, Covered, hnone, hc, ih]
        · have hrest := ih true
          rw [flags, if_pos rfl] at hrest
          simp [Sends, Covered, hsome, hc, fill_cons, hsent, hrest]

theorem sync_after_fork_not_sent :
    ((dup puw).bind fun ptes => fill [] ptes.1).map ipcTrySend = some (-eInval) ∧
      ¬ Sends [.fork true, .call .sync] puw := by
  refine ⟨by decide, ?_⟩
  rintro ⟨_, hfork, _, hfill, hpage, -⟩
  cases hfork
  cases hfill
  exact absurd hpage (by decide)

end Mit6828.Lib.FsipcBuf
