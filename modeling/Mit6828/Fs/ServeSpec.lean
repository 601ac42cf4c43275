import Mit6828.Fs.CacheCoherence
import Mit6828.Fs.Serve

namespace Mit6828.Fs.ServeSpec

open Kern.Mmu
open CacheCoherence (booted fourBlocks)
open Library Library.FlatMemory

/-- The handler returns an error and changes neither the table nor the memory of the server, with
the contents and sizes of the files and the Fd pages. -/
def Refuses (handler : ServM Word) (s : Server) : Prop :=
  ∃ r s', handler.run.run s = some (.error r, s') ∧ isNeg r ∧ s'.tab = s.tab ∧
    s'.cache.mem = s.cache.mem

def reqFileid (s : Server) : Word := readWord s.cache.mem fsreq

def reqSlot (s : Server) : Nat := (reqFileid s).toNat % maxopen

section NeverErrs

def NeverErrs {α : Type} (c : FsM α) : Prop :=
  Command.Does (fun _ => True) (fun _ => ()) False c () fun r _ => ∃ a, r = .ok a

variable {α β : Type} {c : FsM α} {f : α → FsM β} {a : α} {va n : Nat}

theorem NeverErrs.pure : NeverErrs (pure a) := Command.Does.pure ⟨a, rfl⟩

theorem NeverErrs.fail : NeverErrs (Command.fail : FsM α) := Command.Does.fail id

theorem NeverErrs.bind (hc : NeverErrs c) (hf : ∀ a, NeverErrs (f a)) : NeverErrs (c >>= f) :=
  .seq (P := fun _ _ => True) (hc.mono fun _ _ hr => hr.imp fun _ ha => ⟨ha, trivial⟩)
    fun a _ _ => hf a

theorem NeverErrs.attempt : NeverErrs (Command.attempt c) := by
  refine Command.Does.attempt fun s _ _ => ?_
  unfold Command.Runs
  split
  · exact id
  · exact ⟨trivial, _, rfl⟩

theorem neverErrs_touch : NeverErrs (touch va) := by
  intro s _ _
  unfold Command.Runs
  rw [show (touch va).run.run s = (access faultDepth va s).map fun s' => (.ok (), s') from rfl]
  cases access faultDepth va s with
  | none => exact id
  | some s' => exact ⟨trivial, _, rfl⟩

theorem neverErrs_touchPages {pns : List Nat} : NeverErrs (touchPages pns) := by
  induction pns with
  | nil => exact .pure
  | cons pn pns ih => exact neverErrs_touch.bind fun _ => ih

theorem neverErrs_get : NeverErrs (get : FsM Cache) := fun _ _ _ => ⟨trivial, _, rfl⟩

theorem neverErrs_load : NeverErrs (load va) :=
  neverErrs_touchPages.bind fun _ => neverErrs_get.bind fun _ => .pure

theorem neverErrs_diskaddr {b : Word} : NeverErrs (diskaddr b) := by
  rw [diskaddr]
  split
  · exact .fail
  · refine neverErrs_load.bind fun n => ?_
    split
    · exact .fail
    · exact .pure

theorem neverErrs_flushBlock : NeverErrs (flushBlock va) := by
  rw [flushBlock]
  split
  · exact .fail
  · exact fun _ _ _ => ⟨trivial, _, rfl⟩

theorem neverErrs_flushFrom {i : Nat} : NeverErrs (flushFrom va n i) := by
  induction n generalizing i with
  | zero => exact .pure
  | succ n ih =>
    refine NeverErrs.attempt.bind fun r => ?_
    cases r with
    | error e => exact ih
    | ok p =>
      refine neverErrs_load.bind fun b => ?_
      split
      · exact ih
      · exact neverErrs_diskaddr.bind fun _ => neverErrs_flushBlock.bind fun _ => ih

theorem neverErrs_fileFlush : NeverErrs (fileFlush va) := by
  refine neverErrs_load.bind fun size => neverErrs_flushFrom.bind fun _ =>
    neverErrs_flushBlock.bind fun _ => neverErrs_load.bind fun ind => ?_
  split
  · exact .pure
  · exact neverErrs_diskaddr.bind fun _ => neverErrs_flushBlock

end NeverErrs

variable {s : Server}

theorem load_run {c : Cache} {a : Nat} (hpage : vaIsMapped c a)
    (hone : pagesOf a 4 = [a / blksize]) :
    (load a).run.run c = some (.ok (readWord c.mem a), c) := by
  have hmapped : vaIsMapped c (a / blksize * blksize) := by
    rwa [vaIsMapped, Nat.mul_div_cancel _ (by decide)]
  have hrange : (touchRange a 4).run.run c = some (.ok (), c) := by
    rw [touchRange, hone]
    change (access faultDepth (a / blksize * blksize) c).map _ >>= _ = _
    rw [access_of_mapped hmapped]
    rfl
  change (touchRange a 4).run.run c >>= _ = _
  rw [hrange]
  rfl

theorem lookup_run (hpage : vaIsMapped s.cache fsreq) : lookup.run.run s =
    match openfileLookup s.tab (reqFileid s) with
    | none => some (.error (-eInval), s)
    | some i => some (.ok (i, s.tab.file i), s) := by
  change ((load fsreq).run.run s.cache).map _ >>= _ = _
  rw [load_run hpage rfl]
  change ((match openfileLookup s.tab (reqFileid s) with
    | none => throw (-eInval)
    | some i => pure (i, s.tab.file i) : ServM (Nat × OpenFile)).run.run s) = _
  cases openfileLookup s.tab (reqFileid s) <;> rfl

theorem refuses_of_lookup {f : Nat × OpenFile → ServM Word} (hpage : vaIsMapped s.cache fsreq)
    (hnone : openfileLookup s.tab (reqFileid s) = none) : Refuses (lookup >>= f) s := by
  refine ⟨-eInval, s, ?_, by decide, rfl, rfl⟩
  change lookup.run.run s >>= _ = _
  rw [lookup_run hpage, hnone]
  rfl

theorem serveFlush_not_refuses {i : Nat} (hpage : vaIsMapped s.cache fsreq)
    (hsome : openfileLookup s.tab (reqFileid s) = some i) : ¬ Refuses serveFlush s := by
  rintro ⟨r, s', hrun, -⟩
  change lookup.run.run s >>= _ = _ at hrun
  rw [lookup_run hpage, hsome] at hrun
  change ((fileFlush (s.tab.file i).oFile).run.run s.cache).map _ >>= _ = _ at hrun
  have hflush := @neverErrs_fileFlush (s.tab.file i).oFile s.cache trivial rfl
  unfold Command.Runs at hflush
  split at hflush
  · rename_i hnone
    rw [hnone] at hrun
    cases hrun
  · rename_i result c hsome
    obtain ⟨-, a, rfl⟩ := hflush
    rw [hsome] at hrun
    cases hrun

def fileHandlers : List (ServM Word) := [serveRead, serveWrite, serveSetSize, serveStat, serveFlush]

/-- A request of an environment that does not map the Fd page is refused exactly if nobody else
maps it either, not even the server as a request page, or its id is not the current one. -/
theorem handlers_refuse_iff {envid : Nat} (hpage : vaIsMapped s.cache fsreq)
    (hunmapped : s.tab.mapped (reqSlot s) = false → s.tab.clients (reqSlot s) = ∅)
    (hcard : (s.tab.clients (reqSlot s)).card + 1 < 65536)
    (hnot : ∀ va, (envid, va) ∉ s.tab.clients (reqSlot s)) :
    (∀ handler ∈ fileHandlers, Refuses handler s) ↔
      (∀ c ∈ s.tab.clients (reqSlot s), c.1 = envid) ∨
        (s.tab.file (reqSlot s)).oFileid ≠ reqFileid s := by
  have hnobody : s.tab.clients (reqSlot s) = ∅ ↔ ∀ c ∈ s.tab.clients (reqSlot s), c.1 = envid := by
    refine ⟨fun hempty => by simp [hempty], fun hall => Finset.eq_empty_of_forall_notMem ?_⟩
    rintro ⟨e, va⟩ hc
    obtain rfl : e = envid := hall _ hc
    exact hnot va hc
  have hlookup : openfileLookup s.tab (reqFileid s) = none ↔
      pageref s.tab (reqSlot s) ≤ 1 ∨ (s.tab.file (reqSlot s)).oFileid ≠ reqFileid s := by
    rw [openfileLookup, ← reqSlot]
    split
    · exact iff_of_true rfl ‹_›
    · exact iff_of_false (by simp) ‹_›
  rw [← hnobody, ← pageref_le_one_iff hunmapped hcard]
  rw [← hlookup]
  constructor
  · intro hall
    by_contra hne
    obtain ⟨i, hsome⟩ := Option.ne_none_iff_exists'.mp hne
    exact serveFlush_not_refuses hpage hsome (hall serveFlush (by simp [fileHandlers]))
  · intro hnone handler hmem
    simp only [fileHandlers, List.mem_cons, List.not_mem_nil, or_false] at hmem
    rcases hmem with rfl | rfl | rfl | rfl | rfl <;> exact refuses_of_lookup hpage hnone

/-- A server on the disk of four blocks, with a request page of the two given words. -/
def asked (tab : Opentab) (w0 w1 : Word) : Server where
  cache := booted (fourBlocks 1) (writeWord (writeWord (fun _ => 0) fsreq w0) (fsreq + 4) w1)
    fun _ => ptePuw
  tab := tab

def openByOne : Opentab := (((serveInit.newPage 0).claim 0).fill 0 sRoot 0).map 0 (1, 0)

theorem openByOne_not_two (va : Nat) : (2, va) ∉ openByOne.clients 0 := by
  simp [openByOne, Opentab.fill, Opentab.claim, Opentab.set, Opentab.newPage]

/-- Environment 2 guesses the next id of the slot that environment 1 has open under the id 1024. -/
theorem handlers_refuse_guess : (1, 0) ∈ openByOne.clients 0 ∧
    ∀ handler ∈ fileHandlers, Refuses handler (asked openByOne 2048 0) :=
  ⟨by decide, (handlers_refuse_iff (by decide) (by decide) (by decide) openByOne_not_two).mpr
    (.inr (by decide))⟩

/-- The request of environment 2 for the size 7 with the id 1024, which only environment 1 has
open, changes the size. -/
theorem serveSetSize_by_other : (∀ va, (2, va) ∉ openByOne.clients 0) ∧
    ∃ s', serveSetSize.run.run (asked openByOne 1024 7) = some (.ok 0, s') ∧
      readWord (asked openByOne 1024 7).cache.mem (fSize sRoot) = 1 ∧
      readWord s'.cache.mem (fSize sRoot) = 7 :=
  ⟨openByOne_not_two, _, rfl, rfl, rfl⟩

end Mit6828.Fs.ServeSpec
