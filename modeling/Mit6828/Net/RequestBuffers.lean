import Mit6828.Kern.Mmu

/-!
The request pages of the network server: the array `buse`, the loop of `serve` and the threads
it starts.  Threads are cooperative, and while `serve` is in `ipc_recv` none of them runs.
-/

namespace Mit6828.Net.RequestBuffers

open Kern.Mmu Function

def queueSize : Nat := 20
def reqva : Word := 0x0ffff000 - 20 * pgsize
def nsreqTimer : Word := 12

def getBuffer (buse : Nat → Bool) : Option (Word × (Nat → Bool)) :=
  ((List.range queueSize).find? fun i => !buse i).map fun i =>
    (reqva + BitVec.ofNat 32 i * pgsize, update buse i true)

/-- The slot of the request page at `va`, as `put_buffer` computes it. -/
def slotOf (va : Word) : Nat := ((va - reqva) / pgsize).toNat

def putBuffer (va : Word) (buse : Nat → Bool) : Nat → Bool :=
  update buse (slotOf va) false

/-- Where `serve` is: before `get_buffer`, in `ipc_recv` or in `process_timer` with the page
`va`, or in one of its two panics. -/
inductive Phase where
  | top
  | recv (va : Word)
  | timer (va : Word)
  | overflow
  | noMemory (va : Word)
deriving DecidableEq

/-- The server; `threads` are the request pages of the threads in `serve_thread` that have not
called `put_buffer` yet. -/
structure Server where
  timerEnvid : Word
  buse : Nat → Bool
  phase : Phase
  threads : List Word

namespace Server

def init (timerEnvid : Word) : Server := ⟨timerEnvid, fun _ => false, .top, []⟩

inductive Event where
  /-- `serve` calls `get_buffer`. -/
  | getBuffer
  /-- `ipc_recv` returns a message; `args` and `thread` say whether the memory for the
  arguments and for the thread is there. -/
  | message (reqno whom perm : Word) (args thread : Bool)
  /-- `process_timer` returns. -/
  | timerDone
  /-- The thread of the request at `va` calls `put_buffer`. -/
  | finish (va : Word)

/-- `serve`, from the return of `ipc_recv` to the end of the loop body or to a call in which
other threads run. -/
def handle (s : Server) (va reqno whom perm : Word) (args thread : Bool) : Server :=
  if reqno = nsreqTimer then
    if whom = s.timerEnvid then { s with phase := .timer va }
    else { s with buse := putBuffer va s.buse, phase := .top }
  else if perm &&& pteP = 0 then { s with phase := .top }
  else if args = false then { s with phase := .noMemory va }
  -- the result of `thread_create` is not looked at
  else if thread = true then { s with threads := va :: s.threads, phase := .top }
  else { s with phase := .top }

/-- One event; `none` if it cannot happen now. -/
def step (s : Server) (ev : Event) : Option Server :=
  match ev, s.phase with
  | .getBuffer, .top =>
    match RequestBuffers.getBuffer s.buse with
    | none => some { s with phase := .overflow }
    | some (va, buse) => some { s with buse, phase := .recv va }
  | .message reqno whom perm args thread, .recv va =>
    some (s.handle va reqno whom perm args thread)
  | .timerDone, .timer va => some { s with buse := putBuffer va s.buse, phase := .top }
  | .finish va, .top =>
    if va ∈ s.threads then
      some { s with buse := putBuffer va s.buse, threads := s.threads.erase va }
    else none
  | .finish va, .timer _ =>
    if va ∈ s.threads then
      some { s with buse := putBuffer va s.buse, threads := s.threads.erase va }
    else none
  | _, _ => none

def run (s : Server) (evs : List Event) : Option Server := evs.foldlM step s

def held (s : Server) : List Word :=
  match s.phase with
  | .top => []
  | .recv va => [va]
  | .timer va => [va]
  | .overflow => []
  | .noMemory va => [va]

def inUse (s : Server) : List Word := s.held ++ s.threads

/-- As many slots are taken as there are requests in progress, one more while `serve` holds a
page, each has its own, and `get_buffer` has panicked only if there were `QUEUE_SIZE` of them. -/
structure Accounted (s : Server) : Prop where
  count : ((List.range queueSize).filter s.buse).length = s.threads.length + s.held.length
  distinct : (s.inUse.map slotOf).Nodup
  overflow : s.phase = .overflow → s.threads.length = queueSize

/-- A request other than a timer message comes with a page, and its thread is created. -/
def Handed : Event → Prop
  | .message reqno _ perm _ thread => reqno = nsreqTimer ∨ perm &&& pteP ≠ 0 ∧ thread = true
  | _ => True

instance (ev : Event) : Decidable (Handed ev) := by
  cases ev <;> unfold Handed <;> infer_instance

structure Marked (buse : Nat → Bool) (vas : List Word) : Prop where
  marked : ∀ i, buse i = true ↔ i ∈ vas.map slotOf
  distinct : (vas.map slotOf).Nodup
  lt : ∀ va ∈ vas, slotOf va < queueSize

end Server

theorem slotOf_add {i : Nat} (hi : i < queueSize) :
    slotOf (reqva + BitVec.ofNat 32 i * pgsize) = i := by
  have hlt : i < 20 := hi
  have hsmall : (BitVec.ofNat 32 i * pgsize).toNat = i * 4096 := by
    rw [BitVec.toNat_mul, BitVec.toNat_ofNat]
    change i % 4294967296 * 4096 % 4294967296 = i * 4096
    omega
  rw [slotOf, BitVec.add_comm, BitVec.add_sub_cancel, BitVec.toNat_udiv, hsmall]
  exact Nat.mul_div_cancel i (by decide)

namespace Server

variable {buse buse' : Nat → Bool} {vas : List Word} {va : Word} {s s' : Server} {ev : Event}

theorem Marked.perm {vas' : List Word} (h : Marked buse vas) (hp : vas.Perm vas') :
    Marked buse vas' where
  marked i := (h.marked i).trans (hp.map slotOf).mem_iff
  distinct := (hp.map slotOf).nodup_iff.mp h.distinct
  lt va hva := h.lt va (hp.mem_iff.mpr hva)

theorem Marked.get (h : Marked buse vas) (hget : RequestBuffers.getBuffer buse = some (va, buse')) :
    Marked buse' (va :: vas) := by
  obtain ⟨i, hfind, heq⟩ := Option.map_eq_some_iff.mp hget
  cases heq
  have hi : i < queueSize := List.mem_range.mp (List.mem_of_find?_eq_some hfind)
  have hfree : buse i = false := by simpa using List.find?_some hfind
  have hslot := slotOf_add hi
  refine ⟨fun j => ?_, ?_, fun v hv => ?_⟩
  · rw [List.map_cons, hslot, List.mem_cons, ← h.marked]
    by_cases hj : j = i
    · rw [hj, update_self]
      simp
    · rw [update_of_ne hj]
      simp [hj]
  · rw [List.map_cons, hslot, List.nodup_cons, ← h.marked, hfree]
    exact ⟨by simp, h.distinct⟩
  · rcases List.mem_cons.mp hv with rfl | hv
    · rw [hslot]
      exact hi
    · exact h.lt v hv

theorem Marked.put (h : Marked buse (va :: vas)) : Marked (putBuffer va buse) vas := by
  have hnot := (List.nodup_cons.mp (List.map_cons ▸ h.distinct)).1
  refine ⟨fun j => ?_, (List.nodup_cons.mp (List.map_cons ▸ h.distinct)).2,
    fun v hv => h.lt v (List.mem_cons_of_mem va hv)⟩
  rw [putBuffer]
  by_cases hj : j = slotOf va
  · rw [hj, update_self]
    exact iff_of_false (by decide) hnot
  · rw [update_of_ne hj, h.marked, List.map_cons, List.mem_cons]
    exact or_iff_right hj

theorem Marked.count (h : Marked buse vas) :
    ((List.range queueSize).filter buse).length = vas.length := by
  have hperm : ((List.range queueSize).filter buse).Perm (vas.map slotOf) := by
    refine (List.perm_ext_iff_of_nodup (List.nodup_range.filter _) h.distinct).mpr fun i => ?_
    rw [List.mem_filter, h.marked]
    refine and_iff_right_of_imp fun hi => ?_
    obtain ⟨va, hva, rfl⟩ := List.mem_map.mp hi
    exact List.mem_range.mpr (h.lt va hva)
  rw [hperm.length_eq, List.length_map]

theorem Marked.full (h : Marked buse vas) (hget : RequestBuffers.getBuffer buse = none) :
    vas.length = queueSize := by
  have hall : (List.range queueSize).filter buse = List.range queueSize := by
    refine List.filter_eq_self.mpr fun i hi => ?_
    have hnone := List.find?_eq_none.mp (Option.map_eq_none_iff.mp hget) i hi
    simpa using hnone
  rw [← h.count, hall, List.length_range]

structure Inv (s : Server) : Prop where
  marked : Marked s.buse s.inUse
  full : s.phase = .overflow → s.threads.length = queueSize

theorem Inv.accounted (h : Inv s) : Accounted s where
  count := by rw [h.marked.count, inUse, List.length_append, Nat.add_comm]
  distinct := h.marked.distinct
  overflow := h.full

theorem inv_init (timerEnvid : Word) : Inv (init timerEnvid) where
  marked := ⟨by simp [init, inUse, held], by simp [init, inUse, held], by simp [init, inUse, held]⟩
  full h := by cases h

theorem Inv.finish (h : Inv s) (hva : va ∈ s.threads) (hphase : s.phase ≠ .overflow) :
    Inv { s with buse := putBuffer va s.buse, threads := s.threads.erase va } where
  marked := by
    have hperm : s.inUse.Perm (va :: (s.held ++ s.threads.erase va)) :=
      ((List.perm_cons_erase hva).append_left s.held).trans List.perm_middle
    exact (h.marked.perm hperm).put
  full hover := absurd hover hphase

theorem Inv.handle {reqno whom perm : Word} {args thread : Bool} (h : Inv s)
    (hphase : s.phase = .recv va) (hev : Handed (.message reqno whom perm args thread)) :
    Inv (s.handle va reqno whom perm args thread) := by
  have hmarked : Marked s.buse (va :: s.threads) := by
    have := h.marked
    rwa [inUse, held, hphase] at this
  rw [Server.handle]
  split
  · split
    · exact ⟨hmarked, fun hover => by cases hover⟩
    · exact ⟨hmarked.put, fun hover => by cases hover⟩
  rename_i htimer
  obtain ⟨hpage, rfl⟩ := hev.resolve_left htimer
  rw [if_neg hpage, if_pos rfl]
  split
  · exact ⟨hmarked, fun hover => by cases hover⟩
  · exact ⟨hmarked, fun hover => by cases hover⟩

theorem Inv.step (h : Inv s) (hev : Handed ev) (hstep : s.step ev = some s') : Inv s' := by
  have hmarked := h.marked
  rw [inUse, held] at hmarked
  unfold Server.step at hstep
  split at hstep
  · rename_i hphase
    rw [hphase] at hmarked
    split at hstep
    · rename_i hget
      cases hstep
      exact ⟨hmarked, fun _ => hmarked.full hget⟩
    · rename_i hget
      cases hstep
      exact ⟨hmarked.get hget, fun hover => by cases hover⟩
  · rename_i hphase
    cases hstep
    exact h.handle hphase hev
  · rename_i hphase
    rw [hphase] at hmarked
    cases hstep
    exact ⟨Marked.put hmarked, fun hover => by cases hover⟩
  iterate 2
    · rename_i hphase
      split at hstep
      · rename_i hva
        cases hstep
        exact h.finish hva (by rw [hphase]; exact fun hover => by cases hover)
      · cases hstep
  · cases hstep

theorem Inv.run {evs : List Event} (h : Inv s) (hev : ∀ ev ∈ evs, Handed ev)
    (hrun : s.run evs = some s') : Inv s' := by
  induction evs generalizing s with
  | nil =>
    cases hrun
    exact h
  | cons ev evs ih =>
    obtain ⟨s1, hstep, hrest⟩ := Option.bind_eq_some_iff.mp
      (show (s.step ev).bind (fun s => s.run evs) = some s' from hrun)
    exact ih (h.step (hev ev (by simp)) hstep) (fun ev hmem => hev ev (by simp [hmem])) hrest

/-- As long as every request has its page and gets its thread, no slot is lost. -/
theorem buffers_accounted {timerEnvid : Word} {evs : List Event}
    (hev : ∀ ev ∈ evs, Handed ev) (hrun : (init timerEnvid).run evs = some s) : Accounted s :=
  ((inv_init timerEnvid).run hev hrun).accounted

/-- A timer message and two requests, the first of which comes to its end. -/
def mixedRun : List Event :=
  [.getBuffer, .message nsreqTimer 7 0 true true, .timerDone, .getBuffer, .message 1 9 7 true true,
    .getBuffer, .message 4 9 7 true true, .finish reqva]

theorem buffers_accounted_mixed : ∃ s, (init 7).run mixedRun = some s ∧ s.threads.length = 1 ∧
    Accounted s := by
  have hlen : ((init 7).run mixedRun).map (fun s => s.threads.length) = some 1 := by decide +kernel
  obtain ⟨s, hs, hlen⟩ := Option.map_eq_some_iff.mp hlen
  exact ⟨s, hs, hlen, buffers_accounted (by decide) hs⟩

def pagelessRun : List Event :=
  (List.replicate queueSize [.getBuffer, .message 1 9 0 true true]).flatten ++ [.getBuffer]

/-- A request without a page leaves its slot marked: after twenty of them `get_buffer` panics
with no request in progress. -/
theorem pageless_overflows : ∃ s, (init 7).run pagelessRun = some s ∧ s.phase = .overflow ∧
    s.threads = [] ∧ ¬ Accounted s := by
  have hend : ((init 7).run pagelessRun).map (fun s => (s.phase, s.threads)) =
      some (.overflow, []) := by decide +kernel
  obtain ⟨s, hs, hend⟩ := Option.map_eq_some_iff.mp hend
  obtain ⟨hphase, hthreads⟩ := Prod.mk.inj hend
  refine ⟨s, hs, hphase, hthreads, fun h => ?_⟩
  have hfull := h.overflow hphase
  rw [hthreads] at hfull
  cases hfull

end Server

end Mit6828.Net.RequestBuffers
