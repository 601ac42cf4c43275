import Mit6828.Kern.Mmu

/-!
`devpipe_read` and `devpipe_write` of `lib/pipe.c`, run by a reader and a writer at once.  Each
step is one load or store of `p_rpos`, `p_wpos` or `p_buf`, or none.
-/

namespace Mit6828.Lib

open Kern.Mmu

structure Pipe where
  pRpos : Word
  pWpos : Word
  pBuf : Nat → Byte

namespace Pipe

def pipebufsiz : Nat := 32

/-- `pos % PIPEBUFSIZ`, an index of `p_buf`.  `off_t` is signed, and so is the remainder. -/
def index (pos : Word) : Option Nat :=
  let i := pos.toInt.tmod pipebufsiz
  if 0 ≤ i ∧ i < pipebufsiz then some i.toNat else none

/-- Where the reader is in `devpipe_read`, with `i` of `n` bytes read. -/
inductive ReadPc where
  | idle
  | loop (i n : Nat)
  /-- At the test `p->p_rpos == p->p_wpos`, with what has been loaded of its operands. -/
  | test (i n : Nat) (r w : Option Word)
  /-- The pipe is empty. -/
  | empty (i n : Nat)
  /-- At `buf[i] = p->p_buf[p->p_rpos % PIPEBUFSIZ]`, before and after the load of `p_rpos`. -/
  | take (i n : Nat)
  | fetch (i n : Nat) (r : Word)
  /-- At `p->p_rpos++`, before and after its load. -/
  | incr (i n : Nat)
  | put (i n : Nat) (r : Word)
  /-- An access outside `p_buf`. -/
  | outside

/-- Where the writer is in `devpipe_write`, with the bytes of `buf` that are left. -/
inductive WritePc where
  | idle
  | loop (bs : List Byte)
  /-- At the test `p->p_wpos >= p->p_rpos + sizeof(p->p_buf)`. -/
  | test (b : Byte) (bs : List Byte) (r w : Option Word)
  /-- The pipe is full. -/
  | full (b : Byte) (bs : List Byte)
  /-- At `p->p_buf[p->p_wpos % PIPEBUFSIZ] = buf[i]`. -/
  | give (b : Byte) (bs : List Byte)
  | store (b : Byte) (bs : List Byte) (w : Word)
  /-- At `p->p_wpos++`. -/
  | incr (bs : List Byte)
  | put (bs : List Byte) (w : Word)
  | outside

/-- `got` are the bytes that the reader has been given, `written` those that the writer has
stored. -/
structure State where
  pipe : Pipe
  reader : ReadPc
  writer : WritePc
  got : List Byte
  written : List Byte

def initial : State where
  pipe := { pRpos := 0, pWpos := 0, pBuf := fun _ => 0 }
  reader := .idle
  writer := .idle
  got := []
  written := []

namespace State

def setReader (s : State) (pc : ReadPc) : State := { s with reader := pc }

def setWriter (s : State) (pc : WritePc) : State := { s with writer := pc }

end State

/-- The sum `p->p_rpos + sizeof(p->p_buf)` is unsigned, and the comparison is too. -/
def isFull (r w : Word) : Prop := r + BitVec.ofNat 32 pipebufsiz ≤ w
deriving Decidable

/-- The steps of the reader.  The operands of a comparison are loaded in any order, and
`_pipeisclosed` may say anything. -/
inductive ReadStep (s : State) : State → Prop
  | call (n : Nat) (hpc : s.reader = .idle) : ReadStep s (s.setReader (.loop 0 n))
  | loop (i n : Nat) (hpc : s.reader = .loop i n) :
      ReadStep s (s.setReader (if i < n then .test i n none none else .idle))
  | loadRpos (i n : Nat) (w : Option Word) (hpc : s.reader = .test i n none w) :
      ReadStep s (s.setReader (.test i n (some s.pipe.pRpos) w))
  | loadWpos (i n : Nat) (r : Option Word) (hpc : s.reader = .test i n r none) :
      ReadStep s (s.setReader (.test i n r (some s.pipe.pWpos)))
  | test (i n : Nat) (r w : Word) (hpc : s.reader = .test i n (some r) (some w)) :
      ReadStep s (s.setReader (if r = w then .empty i n else .take i n))
  | empty (i n : Nat) (closed : Bool) (hpc : s.reader = .empty i n) :
      ReadStep s (s.setReader (if 0 < i ∨ closed then .idle else .test i n none none))
  | take (i n : Nat) (hpc : s.reader = .take i n) :
      ReadStep s (s.setReader (.fetch i n s.pipe.pRpos))
  | fetch (i n j : Nat) (r : Word) (hpc : s.reader = .fetch i n r) (hj : index r = some j) :
      ReadStep s { s with reader := .incr i n, got := s.got ++ [s.pipe.pBuf j] }
  | outside (i n : Nat) (r : Word) (hpc : s.reader = .fetch i n r) (hj : index r = none) :
      ReadStep s (s.setReader .outside)
  | incr (i n : Nat) (hpc : s.reader = .incr i n) : ReadStep s (s.setReader (.put i n s.pipe.pRpos))
  | put (i n : Nat) (r : Word) (hpc : s.reader = .put i n r) :
      ReadStep s { s with reader := .loop (i + 1) n, pipe := { s.pipe with pRpos := r + 1 } }

inductive WriteStep (s : State) : State → Prop
  | call (bs : List Byte) (hpc : s.writer = .idle) : WriteStep s (s.setWriter (.loop bs))
  | done (hpc : s.writer = .loop []) : WriteStep s (s.setWriter .idle)
  | loop (b : Byte) (bs : List Byte) (hpc : s.writer = .loop (b :: bs)) :
      WriteStep s (s.setWriter (.test b bs none none))
  | loadRpos (b : Byte) (bs : List Byte) (w : Option Word) (hpc : s.writer = .test b bs none w) :
      WriteStep s (s.setWriter (.test b bs (some s.pipe.pRpos) w))
  | loadWpos (b : Byte) (bs : List Byte) (r : Option Word) (hpc : s.writer = .test b bs r none) :
      WriteStep s (s.setWriter (.test b bs r (some s.pipe.pWpos)))
  | test (b : Byte) (bs : List Byte) (r w : Word) (hpc : s.writer = .test b bs (some r) (some w)) :
      WriteStep s (s.setWriter (if isFull r w then .full b bs else .give b bs))
  | full (b : Byte) (bs : List Byte) (closed : Bool) (hpc : s.writer = .full b bs) :
      WriteStep s (s.setWriter (if closed then .idle else .test b bs none none))
  | give (b : Byte) (bs : List Byte) (hpc : s.writer = .give b bs) :
      WriteStep s (s.setWriter (.store b bs s.pipe.pWpos))
  | store (b : Byte) (bs : List Byte) (w : Word) (j : Nat) (hpc : s.writer = .store b bs w)
      (hj : index w = some j) :
      WriteStep s { s with
        writer := .incr bs
        pipe := { s.pipe with pBuf := Function.update s.pipe.pBuf j b }
        written := s.written ++ [b] }
  | outside (b : Byte) (bs : List Byte) (w : Word) (hpc : s.writer = .store b bs w)
      (hj : index w = none) : WriteStep s (s.setWriter .outside)
  | incr (bs : List Byte) (hpc : s.writer = .incr bs) :
      WriteStep s (s.setWriter (.put bs s.pipe.pWpos))
  | put (bs : List Byte) (w : Word) (hpc : s.writer = .put bs w) :
      WriteStep s { s with writer := .loop bs, pipe := { s.pipe with pWpos := w + 1 } }

def Step (s s' : State) : Prop := ReadStep s s' ∨ WriteStep s s'

def Run : State → State → Prop := Relation.ReflTransGen Step

end Pipe

end Mit6828.Lib
