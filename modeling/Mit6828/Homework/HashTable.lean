import Mathlib.Data.Fintype.Card
import Mit6828.Library.IntrusiveList

namespace Mit6828.Homework.HashTable

open Function Library.IntrusiveList

def nbucket : Nat := 5

structure Entry where
  key : Nat
  value : Nat
  next : Option Nat

/-- Where a thread is: before a `put`, or in one with `key` (after it has the lock, after it has
read the head `n` of the bucket, after it has filled the entry, after it has written the head),
with the keys it puts then; or past its increment of `done`. -/
inductive Pc where
  | put (todo : List Nat)
  | locked (key : Nat) (todo : List Nat)
  | insert (key : Nat) (todo : List Nat) (n : Option Nat)
  | link (key : Nat) (todo : List Nat)
  | unlock (key : Nat) (todo : List Nat)
  | past
deriving DecidableEq

/-- `brk` is the address that `malloc` gives to the next entry, and `puts` are the calls of `put`
that have returned, the last one first. -/
structure State (n : Nat) where
  heap : Nat → Entry
  brk : Nat
  table : Nat → Option Nat
  lock : Option (Fin n)
  done : Nat
  pc : Fin n → Pc
  puts : List (Nat × Nat)

variable {n brk key : Nat} {keys : Fin n → List Nat} {s s' : State n} {a : Fin n}
  {heap : Nat → Entry} {head : Option Nat} {es : List (Nat × Nat)}

def init (keys : Fin n → List Nat) : State n :=
  ⟨fun _ => ⟨0, 0, none⟩, 0, fun _ => none, none, 0, fun a => .put (keys a), []⟩

/-- One step of thread `a`, unless it waits for the lock or has no more `put`. -/
def step (s : State n) (a : Fin n) : Option (State n) :=
  match s.pc a with
  | .put [] => some { s with pc := update s.pc a .past, done := s.done + 1 }
  | .put (key :: todo) =>
    if s.lock = none then some { s with pc := update s.pc a (.locked key todo), lock := some a }
    else none
  | .locked key todo =>
    some { s with pc := update s.pc a (.insert key todo (s.table (key % nbucket))) }
  -- no other thread calls `malloc` before this one has written the head
  | .insert key todo n => some { s with
      pc := update s.pc a (.link key todo)
      heap := update s.heap s.brk ⟨key, a, n⟩ }
  | .link key todo => some { s with
      pc := update s.pc a (.unlock key todo)
      table := update s.table (key % nbucket) (some s.brk)
      brk := s.brk + 1 }
  | .unlock key todo => some { s with
      pc := update s.pc a (.put todo)
      lock := none
      puts := (key, a.val) :: s.puts }
  | .past => none

def run (s : State n) : List (Fin n) → Option (State n)
  | [] => some s
  | a :: as => (step s a).bind fun s => run s as

/-- The loop of `get`, with a bound on its rounds. -/
def find (heap : Nat → Entry) (key : Nat) : Nat → Option Nat → Option Nat
  | fuel + 1, some e => if (heap e).key = key then some e else find heap key fuel (heap e).next
  | _, _ => none

def get (s : State n) (key : Nat) : Option Nat := find s.heap key s.brk (s.table (key % nbucket))

/-- The number of keys missing that `thread` prints. -/
def missing (s : State n) (keys : List Nat) : Nat := keys.countP fun key => get s key = none

/-- The list from `head` ends, visits no entry twice, and has the keys and values `es`. -/
def Bucket (heap : Nat → Entry) (brk : Nat) (head : Option Nat) (es : List (Nat × Nat)) : Prop :=
  ∃ l, Chain (fun e => (heap e).next) head l ∧ l.Nodup ∧ (∀ e ∈ l, e < brk) ∧
    l.map (fun e => ((heap e).key, (heap e).value)) = es

theorem Bucket.mono {heap' : Nat → Entry} {brk' : Nat} (h : Bucket heap brk head es)
    (hle : brk ≤ brk') (hsame : ∀ e < brk, heap' e = heap e) : Bucket heap' brk' head es := by
  obtain ⟨l, hchain, hnodup, hlt, rfl⟩ := h
  refine ⟨l, hchain.congr fun e he => ?_, hnodup, fun e he => (hlt e he).trans_le hle,
    List.map_congr_left fun e he => ?_⟩ <;> rw [hsame e (hlt e he)]

theorem Bucket.push {value : Nat} (h : Bucket heap brk head es)
    (hx : heap brk = ⟨key, value, head⟩) :
    Bucket heap (brk + 1) (some brk) ((key, value) :: es) := by
  obtain ⟨l, hchain, hnodup, hlt, rfl⟩ := h
  have hnew : brk ∉ l := fun hmem => (hlt _ hmem).false
  refine ⟨brk :: l, ⟨rfl, ?_⟩, List.nodup_cons.mpr ⟨hnew, hnodup⟩, ?_, by simp [hx]⟩
  · simpa only [hx] using hchain
  · simpa using fun e he => (hlt e he).trans (Nat.lt_succ_self _)

theorem find_of_mem {fuel e : Nat} {l : List Nat} (hchain : Chain (fun e => (heap e).next) head l)
    (hfuel : l.length ≤ fuel) (he : e ∈ l) (hkey : (heap e).key = key) :
    ∃ e, find heap key fuel head = some e ∧ (heap e).key = key := by
  induction l generalizing head fuel with
  | nil => cases he
  | cons x l ih =>
    cases fuel with
    | zero => cases hfuel
    | succ fuel =>
      rw [hchain.1, find]
      split
      · exact ⟨x, rfl, by assumption⟩
      · rename_i hne
        refine ih hchain.2 (Nat.le_of_succ_le_succ hfuel) (List.mem_of_ne_of_mem ?_ he)
        rintro rfl
        exact hne hkey

theorem Bucket.find {x : Nat × Nat} (h : Bucket heap brk head es) (hx : x ∈ es) :
    ∃ e, find heap x.1 brk head = some e ∧ (heap e).key = x.1 := by
  obtain ⟨l, hchain, hnodup, hlt, rfl⟩ := h
  have hlen := (List.subperm_of_subset hnodup fun e he => List.mem_range.mpr (hlt e he)).length_le
  obtain ⟨e, he, rfl⟩ := List.mem_map.mp hx
  exact find_of_mem hchain (by rwa [List.length_range] at hlen) he rfl

namespace Pc

def holds : Pc → Bool
  | .locked .. | .insert .. | .link .. | .unlock .. => true
  | _ => false

/-- The keys whose `put` has not returned. -/
def todo : Pc → List Nat
  | .put todo => todo
  | .locked key todo | .insert key todo _ | .link key todo | .unlock key todo => key :: todo
  | .past => []

end Pc

/-- The call of `put` that has written the head of its bucket and has not returned. -/
def pending (s : State n) : List (Nat × Nat) :=
  match s.lock with
  | none => []
  | some a =>
    match s.pc a with
    | .unlock key _ => [(key, a.val)]
    | _ => []

/-- What the thread with the lock knows about the table. -/
def Knows (s : State n) (a : Fin n) : Pc → Prop
  | .insert key _ n => n = s.table (key % nbucket)
  | .link key _ => s.heap s.brk = ⟨key, a, s.table (key % nbucket)⟩
  | _ => True

structure Table (s : State n) : Prop where
  buckets : ∀ b, Bucket s.heap s.brk (s.table b)
    ((pending s ++ s.puts).filter fun x => x.1 % nbucket = b)
  knows : ∀ a, s.lock = some a → Knows s a (s.pc a)

structure Threads (keys : Fin n → List Nat) (s : State n) : Prop where
  holder : ∀ a, (s.pc a).holds = true ↔ s.lock = some a
  todo : ∀ a, ∀ key ∈ keys a, key ∈ (s.pc a).todo ∨ (key, a.val) ∈ s.puts
  done : s.done = (Finset.univ.filter fun a => s.pc a = .past).card

theorem card_past (hne : s.pc a ≠ .past) (pc : Pc) :
    (Finset.univ.filter fun a' => update s.pc a pc a' = .past).card =
      (Finset.univ.filter fun a' => s.pc a' = .past).card + if pc = .past then 1 else 0 := by
  split
  · rename_i hpc
    rw [← Finset.card_insert_of_notMem (show a ∉ _ by simpa using hne)]
    exact congrArg Finset.card (Finset.ext fun a' => by by_cases ha : a' = a <;> simp [ha, hpc])
  · rename_i hpc
    refine congrArg Finset.card (Finset.filter_congr fun a' _ => ?_)
    by_cases ha : a' = a
    · simp [ha, hpc, hne]
    · rw [update_of_ne ha]

/-- Thread `a` goes to `pc`.  It alone may take or release the lock, and it leaves no key before
its `put` has returned. -/
theorem Threads.goto {pc pc' : Pc} (h : Threads keys s) (hpc : s.pc a = pc)
    (hpc' : s'.pc = update s.pc a pc') (hself : pc'.holds = true ↔ s'.lock = some a)
    (hother : ∀ a', a' ≠ a → (s.lock = some a' ↔ s'.lock = some a'))
    (htodo : ∀ key ∈ pc.todo, key ∈ pc'.todo ∨ (key, a.val) ∈ s'.puts)
    (hputs : s.puts ⊆ s'.puts) (hne : pc ≠ .past)
    (hdone : s'.done = s.done + if pc' = .past then 1 else 0) : Threads keys s' := by
  subst hpc
  refine ⟨fun a' => ?_, fun a' key hkey => ?_, by rw [hdone, h.done, hpc', card_past hne]⟩
  · rw [hpc']
    by_cases ha : a' = a
    · rw [ha, update_self, hself]
    · rw [update_of_ne ha, h.holder, hother a' ha]
  · have hold := h.todo a' key hkey
    rw [hpc']
    by_cases ha : a' = a
    · subst ha
      rw [update_self]
      exact hold.elim (htodo key) fun hmem => .inr (hputs hmem)
    · rw [update_of_ne ha]
      exact hold.imp_right fun hmem => hputs hmem

theorem threads_step (h : Threads keys s) (hstep : step s a = some s') : Threads keys s' := by
  have hheld := h.holder a
  rw [step] at hstep
  cases hpc : s.pc a with
  | put todo =>
    rw [hpc] at hheld hstep
    cases todo with
    | nil =>
      cases hstep
      exact h.goto hpc rfl hheld (fun _ _ => .rfl) nofun (List.Subset.refl _) nofun rfl
    | cons key todo =>
      obtain ⟨hfree, hstep⟩ := Option.ite_none_right_eq_some.mp hstep
      cases hstep
      exact h.goto hpc rfl (by simp [Pc.holds]) (by simp [hfree, eq_comm]) (fun _ => .inl)
        (List.Subset.refl _) nofun rfl
  | locked key todo | insert key todo _ | link key todo =>
    rw [hpc] at hheld hstep
    cases hstep
    exact h.goto hpc rfl hheld (fun _ _ => .rfl) (fun _ => .inl) (List.Subset.refl _) nofun rfl
  | unlock key todo =>
    rw [hpc] at hheld hstep
    cases hstep
    exact h.goto hpc rfl (by simp [Pc.holds]) (by simp [hheld.mp rfl, eq_comm])
      (by simp +contextual [Pc.todo, or_imp]) (List.subset_cons_self _ _) nofun rfl
  | past =>
    rw [hpc] at hstep
    cases hstep

theorem Table.held {pc : Pc} (h : Table s) (ht : Threads keys s) (hpc : s.pc a = pc)
    (hholds : pc.holds = true) : s.lock = some a ∧ Knows s a pc := by
  have hlock := (ht.holder a).mp (hpc ▸ hholds)
  exact ⟨hlock, hpc ▸ h.knows a hlock⟩

theorem knows_update {pc : Pc} (hpc : s'.pc = update s.pc a pc) (hlock : s'.lock = some a)
    (hknow : Knows s' a pc) (a' : Fin n) (ha : s'.lock = some a') : Knows s' a' (s'.pc a') := by
  obtain rfl := Option.some.inj (hlock.symm.trans ha)
  rwa [hpc, update_self]

theorem table_step (h : Table s) (ht : Threads keys s) (hstep : step s a = some s') : Table s' := by
  have hbuckets := h.buckets
  rw [step] at hstep
  cases hpc : s.pc a with
  | put todo =>
    rw [hpc] at hstep
    cases todo with
    | nil =>
      cases hstep
      cases hlock : s.lock with
      | none => exact ⟨by simpa [pending, hlock] using hbuckets, nofun⟩
      | some a' =>
        have hne : a' ≠ a := by
          rintro rfl
          have hheld := (ht.holder a').mpr hlock
          rw [hpc] at hheld
          cases hheld
        refine ⟨by simpa [pending, hlock, update_of_ne hne] using hbuckets, fun a'' ha => ?_⟩
        cases ha
        simp only [update_of_ne hne]
        exact h.knows a' hlock
    | cons key todo =>
      obtain ⟨hfree, hstep⟩ := Option.ite_none_right_eq_some.mp hstep
      cases hstep
      exact ⟨by simpa [pending, hfree] using hbuckets, knows_update rfl rfl trivial⟩
  | locked key todo =>
    obtain ⟨hlock, -⟩ := h.held ht hpc rfl
    rw [hpc] at hstep
    cases hstep
    exact ⟨by simpa [pending, hlock, hpc] using hbuckets, knows_update rfl hlock rfl⟩
  | insert key todo head =>
    obtain ⟨hlock, rfl⟩ := h.held ht hpc rfl
    rw [hpc] at hstep
    cases hstep
    refine ⟨fun b => ?_, knows_update rfl hlock (update_self _ _ _)⟩
    simpa [pending, hlock, hpc] using (hbuckets b).mono le_rfl fun e he => update_of_ne he.ne _ _
  | link key todo =>
    obtain ⟨hlock, hentry⟩ := h.held ht hpc rfl
    rw [hpc] at hstep
    cases hstep
    refine ⟨fun b => ?_, knows_update rfl hlock trivial⟩
    simp only [pending, hlock, hpc] at hbuckets
    by_cases hb : key % nbucket = b
    · subst hb
      simpa [pending, hlock] using (hbuckets _).push hentry
    · simpa [pending, hlock, hb, update_of_ne (Ne.symm hb)] using
        (hbuckets b).mono (Nat.le_succ _) fun _ _ => rfl
  | unlock key todo =>
    obtain ⟨hlock, -⟩ := h.held ht hpc rfl
    rw [hpc] at hstep
    cases hstep
    exact ⟨by simpa [pending, hlock, hpc] using hbuckets, nofun⟩
  | past =>
    rw [hpc] at hstep
    cases hstep

theorem run_inv {as : List (Fin n)} (ht : Threads keys s) (h : Table s)
    (hrun : run s as = some s') : Threads keys s' ∧ Table s' := by
  induction as generalizing s with
  | nil =>
    cases hrun
    exact ⟨ht, h⟩
  | cons a as ih =>
    obtain ⟨s1, hstep, hrun⟩ := Option.bind_eq_some_iff.mp hrun
    exact ih (threads_step ht hstep) (table_step h ht hstep) hrun

/-- In every state a bucket is a list of the entries put so far, the last one first, where only
the `put` in progress may be there too.  When all threads have put their keys, `get` finds them,
and no key is missing when `done` lets a thread go on. -/
theorem puts_are_found {as : List (Fin n)} (hrun : run (init keys) as = some s) :
    (∀ b, Bucket s.heap s.brk (s.table b)
      ((pending s ++ s.puts).filter fun x => x.1 % nbucket = b)) ∧
    ((∀ a, (s.pc a).todo = []) →
    ∀ a, ∀ key ∈ keys a, ∃ e, get s key = some e ∧ (s.heap e).key = key) ∧
    (n ≤ s.done → missing s (List.ofFn keys).flatten = 0) := by
  have hinit : Threads keys (init keys) :=
    ⟨fun a => by simp [init, Pc.holds], fun a key hkey => .inl hkey, by simp [init]⟩
  obtain ⟨ht, h⟩ := run_inv hinit ⟨fun b => ⟨[], rfl, by simp, by simp, rfl⟩, nofun⟩ hrun
  have hget : (∀ a, (s.pc a).todo = []) → ∀ a, ∀ key ∈ keys a,
      ∃ e, get s key = some e ∧ (s.heap e).key = key := fun hall a key hkey => by
    have hput := ht.todo a key hkey
    rw [hall a] at hput
    exact (h.buckets (key % nbucket)).find (x := (key, a.val)) (by simp_all)
  refine ⟨h.buckets, hget, fun hdone => ?_⟩
  have hall : ∀ a, (s.pc a).todo = [] := fun a => by
    have hall := Finset.card_filter_eq_iff.mp (le_antisymm (Finset.card_filter_le Finset.univ
      fun a => s.pc a = .past) (by rw [← ht.done]; simpa using hdone))
    rw [hall a (Finset.mem_univ a)]
    rfl
  rw [missing, List.countP_eq_zero]
  intro key hkey
  obtain ⟨ks, hks, hkey⟩ := List.mem_flatten.mp hkey
  obtain ⟨a, rfl⟩ := (List.mem_ofFn' _ _).mp hks
  obtain ⟨e, he, -⟩ := hget hall a key hkey
  simp [he]

theorem puts_are_found_two :
    ∃ s, run (init fun _ : Fin 2 => [7]) [0, 0, 0, 0, 0, 1, 1, 0, 1, 1, 1, 1] =
    some s ∧ s.puts = [(7, 1), (7, 0)] ∧ missing s [7, 7] = 0 := by
  have hend : (run (init fun _ : Fin 2 => [7]) [0, 0, 0, 0, 0, 1, 1, 0, 1, 1, 1, 1]).map
      (fun s => (s.puts, s.done)) = some ([(7, 1), (7, 0)], 2) := by decide
  obtain ⟨s, hs, hend⟩ := Option.map_eq_some_iff.mp hend
  obtain ⟨hputs, hdone⟩ := Prod.mk.inj hend
  exact ⟨s, hs, hputs, (puts_are_found hs).2.2 hdone.ge⟩

end Mit6828.Homework.HashTable
