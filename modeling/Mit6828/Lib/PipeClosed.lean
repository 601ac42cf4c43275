import Mathlib.Algebra.Group.Nat.Defs
import Mathlib.Data.Finset.Card

/-!
`_pipeisclosed` of `lib/pipe.c` among processes that share a pipe.  A descriptor of the pipe is
the page of its `struct Fd`, of which there is one for each end, and the page of the
`struct Pipe`, mapped at `fd2data(fd)`.  Each step is one system call or one read of `pageref` or
`env_runs`.
-/

namespace Mit6828.Lib.PipeClosed

open Function

inductive End where
  | read
  | write
  deriving DecidableEq

def End.other : End → End
  | .read => .write
  | .write => .read

abbrev Slot := Nat × Nat

/-- A page that `fork` or `spawn` copies into the child: the `struct Fd` of a descriptor of one
end, or the `struct Pipe` behind it. -/
inductive Page where
  | fd (e : End) (n : Nat)
  | data (n : Nat)
  deriving DecidableEq

inductive Pc where
  /-- Not yet made, and made by `sys_exofork` but not yet runnable. -/
  | unborn
  | embryo
  | dead
  | idle
  /-- In `dup`, at the call that maps the data page, and at the one that maps the `struct Fd`. -/
  | dup (e : End) (old new : Nat)
  | dupFd (e : End) (old new : Nat)
  /-- In `devpipe_close`, at the call that unmaps the `struct Fd`, and at the other one. -/
  | close (e : End) (fd : Nat)
  | closeData (fd : Nat)
  /-- In the loop of `fork` or of `copy_shared_pages`, with the pages still to be mapped. -/
  | copy (child : Nat) (todo : List Page)
  /-- In `_pipeisclosed`: before `n = thisenv->env_runs`, at the two reads of `pageref`, and before
  `nn = thisenv->env_runs`. -/
  | enter (e : End)
  | refs (e : End) (n : Nat) (fd p : Option Nat)
  | check (e : End) (n : Nat) (ret : Bool)
  | returned (e : End) (ret : Bool)
  deriving DecidableEq

/-- `runs p` is how often `p` has been run; `env_runs` has its low 32 bits. -/
structure State where
  fds : End → Finset Slot
  data : Finset Slot
  pc : Nat → Pc
  cur : Nat → Option Nat
  runs : Nat → Nat

namespace State

def setPc (s : State) (p : Nat) (pc : Pc) : State := { s with pc := update s.pc p pc }

def mapFd (s : State) (e : End) (x : Slot) : State :=
  { s with fds := update s.fds e (insert x (s.fds e)) }

def unmapFd (s : State) (e : End) (x : Slot) : State :=
  { s with fds := update s.fds e ((s.fds e).erase x) }

def mapData (s : State) (x : Slot) : State := { s with data := insert x s.data }

def unmapData (s : State) (x : Slot) : State := { s with data := s.data.erase x }

def destroy (s : State) (q : Nat) : State where
  fds e := (s.fds e).filter fun x => x.1 ≠ q
  data := s.data.filter fun x => x.1 ≠ q
  pc := update s.pc q .dead
  cur c := if s.cur c = some q then none else s.cur c
  runs := s.runs

def On (s : State) (p : Nat) : Prop := ∃ c, s.cur c = some p

end State

/-- The pages of the descriptors `ds` in the order of their addresses: all of `FDTABLE` lies
below `FILEDATA`. -/
def sharedPages (ds : List (End × Nat)) : List Page :=
  ds.map (fun d => .fd d.1 d.2) ++ ds.map fun d => .data d.2

def Pc.Alive : Pc → Prop
  | .unborn => False
  | .embryo => False
  | .dead => False
  | _ => True

/-- A read of `pageref` in `_pipeisclosed`; the two are made in any order. -/
inductive Reads (s : State) : State → Prop
  | fd (p n : Nat) (e : End) (o : Option Nat) (hon : s.On p) (hpc : s.pc p = .refs e n none o) :
      Reads s (s.setPc p (.refs e n (some (s.fds e).card) o))
  | data (p n : Nat) (e : End) (o : Option Nat) (hon : s.On p) (hpc : s.pc p = .refs e n o none) :
      Reads s (s.setPc p (.refs e n o (some s.data.card)))

/-- The other steps, on a machine with `ncpu` CPUs. -/
inductive Acts (ncpu : Nat) (s : State) : State → Prop
  /-- `env_run(q)` on CPU `c`. -/
  | switch (c q : Nat) (hc : c < ncpu) (hq : (s.pc q).Alive)
      (hfree : ∀ c', s.cur c' = some q → c' = c) :
      Acts ncpu s { s with
        cur := update s.cur c (some q)
        runs := update s.runs q (s.runs q + 1) }
  | dup (p old new : Nat) (e : End) (hon : s.On p) (hpc : s.pc p = .idle)
      (hold : (p, old) ∈ s.fds e)
      (hnew : ∀ e', (p, new) ∉ s.fds e') : Acts ncpu s (s.setPc p (.dup e old new))
  | dupData (p old new : Nat) (e : End) (hon : s.On p) (hpc : s.pc p = .dup e old new)
      (hold : (p, old) ∈ s.data) :
      Acts ncpu s ((s.mapData (p, new)).setPc p (.dupFd e old new))
  | dupFd (p old new : Nat) (e : End) (hon : s.On p) (hpc : s.pc p = .dupFd e old new)
      (hold : (p, old) ∈ s.fds e) : Acts ncpu s ((s.mapFd e (p, new)).setPc p .idle)
  | close (p fd : Nat) (e : End) (hon : s.On p) (hpc : s.pc p = .idle) (hfd : (p, fd) ∈ s.fds e) :
      Acts ncpu s (s.setPc p (.close e fd))
  | closeFd (p fd : Nat) (e : End) (hon : s.On p) (hpc : s.pc p = .close e fd) :
      Acts ncpu s ((s.unmapFd e (p, fd)).setPc p (.closeData fd))
  | closeData (p fd : Nat) (hon : s.On p) (hpc : s.pc p = .closeData fd) :
      Acts ncpu s ((s.unmapData (p, fd)).setPc p .idle)
  /-- `sys_exofork` in `fork` or `spawn`. -/
  | fork (p child : Nat) (ds : List (End × Nat)) (hon : s.On p) (hpc : s.pc p = .idle)
      (hchild : s.pc child = .unborn) (hds : ∀ e n, (e, n) ∈ ds ↔ (p, n) ∈ s.fds e)
      (hsorted : ds.Pairwise fun d d' => d.2 < d'.2) :
      Acts ncpu s ((s.setPc child .embryo).setPc p (.copy child (sharedPages ds)))
  | copyFd (p child n : Nat) (e : End) (todo : List Page) (hon : s.On p)
      (hpc : s.pc p = .copy child (.fd e n :: todo)) (hchild : s.pc child = .embryo)
      (hfd : (p, n) ∈ s.fds e) :
      Acts ncpu s ((s.mapFd e (child, n)).setPc p (.copy child todo))
  | copyData (p child n : Nat) (todo : List Page) (hon : s.On p)
      (hpc : s.pc p = .copy child (.data n :: todo)) (hchild : s.pc child = .embryo)
      (hdata : (p, n) ∈ s.data) :
      Acts ncpu s ((s.mapData (child, n)).setPc p (.copy child todo))
  | forked (p child : Nat) (hon : s.On p) (hpc : s.pc p = .copy child [])
      (hchild : s.pc child = .embryo) : Acts ncpu s ((s.setPc child .idle).setPc p .idle)
  /-- A call fails, for want of memory or because the child is gone. -/
  | abandon (p child : Nat) (todo : List Page) (hon : s.On p) (hpc : s.pc p = .copy child todo) :
      Acts ncpu s (s.setPc p .idle)
  | destroy (p q : Nat) (hon : s.On p) (hpc : s.pc p = .idle) : Acts ncpu s (s.destroy q)
  | isclosed (p fd : Nat) (e : End) (hon : s.On p) (hpc : s.pc p = .idle)
      (hfd : (p, fd) ∈ s.fds e) :
      Acts ncpu s (s.setPc p (.enter e))
  | enter (p : Nat) (e : End) (hon : s.On p) (hpc : s.pc p = .enter e) :
      Acts ncpu s (s.setPc p (.refs e (s.runs p) none none))
  | compare (p n a b : Nat) (e : End) (hon : s.On p) (hpc : s.pc p = .refs e n (some a) (some b)) :
      Acts ncpu s (s.setPc p (.check e n (a = b)))
  | check (p n : Nat) (e : End) (ret : Bool) (hon : s.On p) (hpc : s.pc p = .check e n ret) :
      Acts ncpu s (s.setPc p
        (if BitVec.ofNat 32 n = BitVec.ofNat 32 (s.runs p) then .returned e ret else .enter e))
  | leave (p : Nat) (e : End) (ret : Bool) (hon : s.On p) (hpc : s.pc p = .returned e ret) :
      Acts ncpu s (s.setPc p .idle)

def Step (ncpu : Nat) (s s' : State) : Prop := Reads s s' ∨ Acts ncpu s s'

/-- After `pipe`, called by process `p` as the first one that runs. -/
def piped (p fd0 fd1 : Nat) : State where
  fds e := match e with
    | .read => {(p, fd0)}
    | .write => {(p, fd1)}
  data := {(p, fd0), (p, fd1)}
  pc := update (fun _ => .unborn) p .idle
  cur := update (fun _ => none) 0 (some p)
  runs := update (fun _ => 0) p 1

/-- In the processes that `fork` and `spawn` have not finished, every descriptor is complete. -/
def Complete (s : State) : Prop :=
  ∀ q, s.pc q = .embryo → ∀ e n, (q, n) ∈ s.fds e → (q, n) ∈ s.data

/-- A step on one CPU that reads no reference count while a descriptor in an unfinished process
is incomplete. -/
def CalmStep (s s' : State) : Prop := Reads s s' ∧ Complete s ∨ Acts 1 s s'

end Mit6828.Lib.PipeClosed
