import Mit6828.Fs.Layout

namespace Mit6828.Fs

open Kern.Mmu Library.FlatMemory

variable {m : Memory} {P : Nat → Prop} {ok : Prop} {d e f i n : Nat} {name : List Byte}

/-- The addresses of `n` consecutive `struct File`s. -/
def filesFrom (f : Nat) : Nat → List Nat
  | 0 => []
  | n + 1 => f :: filesFrom (f + sizeofFile) n

def entriesFrom (m : Memory) (d : Nat) : Nat → Nat → List Nat
  | 0, _ => []
  | n + 1, i => filesFrom (blockAddr (blockNo m d i).toNat) blkfiles ++ entriesFrom m d n (i + 1)

def dirBlocks (m : Memory) (d : Nat) : Nat := (readWord m (fSize d)).toNat / blksize

def entries (m : Memory) (d : Nat) : List Nat := entriesFrom m d (dirBlocks m d) 0

def isDir (m : Memory) (f : Nat) : Prop := readWord m (fType f) = ftypeDir
deriving Decidable

structure Solid (m : Memory) (d : Nat) : Prop where
  header : Header m d
  whole : (readWord m (fSize d)).toNat % blksize = 0
  bound : (readWord m (fSize d)).toNat < 2 ^ 31
  blocks : ∀ i < dirBlocks m d, HasBlock m d i

theorem mem_filesFrom : e ∈ filesFrom f n ↔ ∃ j < n, e = f + sizeofFile * j := by
  induction n generalizing f with
  | zero => simp [filesFrom]
  | succ n ih =>
    rw [filesFrom, List.mem_cons, ih]
    constructor
    · rintro (rfl | ⟨j, hj, rfl⟩)
      · exact ⟨0, by omega, by omega⟩
      · exact ⟨j + 1, by omega, by grind⟩
    · rintro ⟨j, hj, rfl⟩
      cases j with
      | zero => exact .inl (by omega)
      | succ j => exact .inr ⟨j, by omega, by grind⟩

theorem mem_entriesFrom : e ∈ entriesFrom m d n i ↔
    ∃ k, i ≤ k ∧ k < i + n ∧ ∃ j < blkfiles,
      e = blockAddr (blockNo m d k).toNat + sizeofFile * j := by
  induction n generalizing i with
  | zero =>
    refine iff_of_false (by simp [entriesFrom]) ?_
    rintro ⟨k, hlo, hhi, -⟩
    omega
  | succ n ih =>
    rw [entriesFrom, List.mem_append, mem_filesFrom, ih]
    constructor
    · rintro (⟨j, hj, rfl⟩ | ⟨k, hlo, hhi, hj⟩)
      · exact ⟨i, by omega, by omega, j, hj, rfl⟩
      · exact ⟨k, by omega, by omega, hj⟩
    · rintro ⟨k, hlo, hhi, j, hj, rfl⟩
      by_cases hk : k = i
      · exact .inl ⟨j, hj, by rw [hk]⟩
      · exact .inr ⟨k, by omega, by omega, j, hj, rfl⟩

theorem mem_entries : e ∈ entries m d ↔
    ∃ k < dirBlocks m d, ∃ j < blkfiles, e = blockAddr (blockNo m d k).toNat + sizeofFile * j := by
  rw [entries, mem_entriesFrom]
  simp

theorem Solid.header_entry (h : Solid m d) (hsane : Sane m) (he : e ∈ entries m d) :
    Header m e := by
  obtain ⟨k, hk, j, hj, rfl⟩ := mem_entries.mp he
  intro x hlo hhi
  simp only [sizeofFile, blkfiles] at hj hlo hhi
  exact (h.blocks k hk).block.live hsane (by omega) (by grind)

section Search

variable {test : Nat → FsM Bool} {p : Nat → Bool} {last : Nat → FsM Nat}
  {Q : Except Word Nat → Memory → Prop}

/-- On the entries in `l` the test only looks at the memory. -/
def Tests (P : Nat → Prop) (ok : Prop) (m : Memory) (test : Nat → FsM Bool) (p : Nat → Bool)
    (l : List Nat) : Prop :=
  ∀ e ∈ l, ∀ R : Except Word Bool → Memory → Prop, R (.ok (p e)) m → Does P ok (test e) m R

theorem does_scanFiles {Q : Except Word (Option Nat) → Memory → Prop}
    (htest : Tests P ok m test p (filesFrom f n)) (h : Q (.ok ((filesFrom f n).find? p)) m) :
    Does P ok (scanFiles test n f) m Q := by
  induction n generalizing f with
  | zero => exact .pure h
  | succ n ih =>
    refine .bind (htest f List.mem_cons_self _ ?_)
    rw [filesFrom, List.find?_cons] at h
    cases hp : p f with
    | true =>
      rw [hp] at h
      exact .pure h
    | false =>
      rw [hp] at h
      exact ih (fun e he => htest e (List.mem_cons_of_mem _ he)) h

theorem does_scanDir (hsane : Sane m) (hd : Header m d)
    (hblocks : ∀ k, i ≤ k → k < i + n → HasBlock m d k) (hlt : i + n < 2 ^ 32)
    (htest : Tests P ok m test p (entriesFrom m d n i))
    (hfound : ∀ e, (entriesFrom m d n i).find? p = some e → Q (.ok e) m)
    (hlast : (entriesFrom m d n i).find? p = none → Does P ok (last (i + n)) m Q) :
    Does P ok (scanDir d test last n i) m Q := by
  induction n generalizing i with
  | zero => exact hlast rfl
  | succ n ih =>
    have hi : (BitVec.ofNat 32 i).toNat = i := by grind
    rw [entriesFrom] at hfound hlast htest
    refine .bind (does_fileGetBlock hsane hd (by rw [hi]; exact hblocks i (by omega) (by omega)) ?_)
    refine .bind (does_scanFiles (p := p) (fun e he => ?_) ?_)
    · rw [hi] at he
      exact htest e (List.mem_append_left _ he)
    rw [hi]
    rw [List.find?_append] at hfound hlast
    cases hfind : (filesFrom (blockAddr (blockNo m d i).toNat) blkfiles).find? p with
    | some e =>
      rw [hfind] at hfound
      exact .pure (hfound e rfl)
    | none =>
      rw [hfind] at hfound hlast
      refine ih (fun k hlo hhi => hblocks k (by omega) (by omega)) (by omega)
        (fun e he => htest e (List.mem_append_right _ he)) hfound fun hnone => ?_
      rw [show i + 1 + n = i + (n + 1) by omega]
      exact hlast hnone

theorem does_searchDir (hsane : Sane m) (hd : Solid m d) (htest : Tests P ok m test p (entries m d))
    (hfound : ∀ e, (entries m d).find? p = some e → Q (.ok e) m)
    (hlast : (entries m d).find? p = none → Does P ok (last (dirBlocks m d)) m Q) :
    Does P ok (searchDir d test last) m Q := by
  have hrem : (readWord m (fSize d)).srem blkint = 0 := by
    apply BitVec.eq_of_toNat_eq
    rw [toNat_srem_blkint hd.bound, hd.whole]
    rfl
  refine .bind (does_loadField hsane hd.header (by grind)
    (by grind) ?_)
  dsimp only
  rw [if_neg (by rw [hrem]; exact fun h => h rfl), toNat_sdiv_blkint hd.bound]
  have hbound := hd.bound
  refine does_scanDir hsane hd.header (fun k _ hk => hd.blocks k (by simpa [dirBlocks] using hk)) ?_
    htest hfound fun hnone => ?_
  · grind
  · rw [Nat.zero_add]
    exact hlast hnone

end Search

def lookupIn (m : Memory) (d : Nat) (name : List Byte) : Option Nat :=
  (entries m d).find? fun e => cstring m e name

theorem does_strcmpEq {Q : Except Word Bool → Memory → Prop} (hsane : Sane m)
    (hf : Header m f) (hname : name.length < sizeofFile) (h : Q (.ok (cstring m f name)) m) :
    Does P ok (strcmpEq f name) m Q := by
  refine .bind (does_touchRange hsane (fun x hlo hhi => (hf x hlo (by omega)).acc) ?_)
  rintro s hs rfl
  exact ⟨hs, h⟩

theorem does_dirLookup {Q : Except Word Nat → Memory → Prop} (hsane : Sane m) (hd : Solid m d)
    (hname : name.length < sizeofFile) (hfound : ∀ e, lookupIn m d name = some e → Q (.ok e) m)
    (hnone : lookupIn m d name = none → Q (.error (-eNotFound)) m) :
    Does P ok (dirLookup d name) m Q :=
  does_searchDir hsane hd
    (fun _ he _ hR => does_strcmpEq hsane (hd.header_entry hsane he) hname hR) hfound
    fun hfind => .throw (hnone hfind)

section Walk

/-- `walk_path` on a memory where all blocks of the directories are there. -/
def walkIn (m : Memory) : Nat → List Byte → Nat → Nat → Walk
  | 0, _, dir, f => ⟨0, dir, f, []⟩
  | n + 1, path, dir, f =>
    if path = [] then ⟨0, dir, f, []⟩
    else
      let name := path.takeWhile (· != slash)
      let rest := skipSlash (path.dropWhile (· != slash))
      if maxnamelen ≤ name.length then ⟨-eBadPath, 0, 0, []⟩
      else if isDir m f then
        match lookupIn m f name with
        | some f' => walkIn m n rest f f'
        | none => if rest = [] then ⟨-eNotFound, f, 0, name⟩ else ⟨-eNotFound, 0, 0, []⟩
      else ⟨-eNotFound, 0, 0, []⟩

def walk (m : Memory) (path : List Byte) : Walk := walkIn m path.length (skipSlash path) 0 sRoot

/-- `F` holds of the root and of the entries of the directories for which it holds, whose blocks
are all there. -/
structure Tree (m : Memory) (F : Nat → Prop) : Prop where
  root : F sRoot
  header : ∀ f, F f → Header m f
  solid : ∀ d, F d → isDir m d → Solid m d
  child : ∀ d e, F d → isDir m d → e ∈ entries m d → m e ≠ 0 → F e

variable {F : Nat → Prop} {path : List Byte} {dir : Nat} {Q : Except Word Walk → Memory → Prop}

theorem lookupIn_mem (h : lookupIn m d name = some e) : e ∈ entries m d ∧ cstring m e name = true :=
  ⟨List.mem_of_find?_eq_some h, by simpa using List.find?_some h⟩

theorem Tree.lookup (h : Tree m F) (hd : F d) (hdir : isDir m d)
    (hname : name ≠ []) (hzero : ∀ c ∈ name, c ≠ 0) (hfind : lookupIn m d name = some e) : F e := by
  obtain ⟨hmem, hstr⟩ := lookupIn_mem hfind
  refine h.child d e hd hdir hmem ?_
  cases name with
  | nil => exact absurd rfl hname
  | cons c cs =>
    rw [cstring, Bool.and_eq_true, beq_iff_eq] at hstr
    rw [hstr.1]
    exact hzero c List.mem_cons_self

theorem takeWhile_ne_nil (hhead : path.head? ≠ some slash) (hne : path ≠ []) :
    path.takeWhile (· != slash) ≠ [] := by
  cases path with
  | nil => exact absurd rfl hne
  | cons c cs =>
    have hc : c ≠ slash := fun h => hhead (by rw [h]; rfl)
    rw [List.takeWhile_cons, if_pos (by simpa using hc)]
    exact List.cons_ne_nil _ _

theorem head?_skipSlash (path : List Byte) : (skipSlash path).head? ≠ some slash := by
  intro h
  have := List.head?_dropWhile_not (fun c => c == slash) path
  rw [show path.dropWhile (fun c => c == slash) = skipSlash path from rfl, h] at this
  simp at this

section

variable (hsane : Sane m) (ht : Tree m F) (hzero : ∀ c ∈ path, c ≠ 0)
include hsane ht hzero

theorem does_walkFrom (hhead : path.head? ≠ some slash) (hf : F f)
    (h : Q (.ok (walkIn m n path dir f)) m) : Does P ok (walkFrom n path dir f) m Q := by
  induction n generalizing path dir f with
  | zero => exact .pure h
  | succ n ih =>
    rw [walkIn] at h
    rw [walkFrom]
    split
    · rename_i hnil
      rw [if_pos hnil] at h
      exact .pure h
    rename_i hnil
    rw [if_neg hnil] at h
    dsimp only at h ⊢
    split
    · rename_i hlong
      rw [if_pos hlong] at h
      exact .pure h
    rename_i hlong
    rw [if_neg hlong] at h
    refine .bind (does_loadField hsane (ht.header f hf) (by grind)
      (by grind) ?_)
    dsimp only
    by_cases hdir : isDir m f
    · rw [if_neg (show ¬ readWord m (fType f) ≠ ftypeDir from not_not.mpr hdir)]
      rw [if_pos hdir] at h
      refine .bind (.attempt (does_dirLookup hsane (ht.solid f hf hdir)
        (by simp only [maxnamelen] at hlong; simp only [sizeofFile]; omega) ?_ ?_))
      · intro e he
        rw [he] at h
        refine ih (fun c hc => hzero c ?_) (head?_skipSlash _) ?_ h
        · exact (List.dropWhile_sublist _).subset ((List.dropWhile_sublist _).subset hc)
        · exact ht.lookup hf hdir (takeWhile_ne_nil hhead hnil)
            (fun c hc => hzero c ((List.takeWhile_sublist _).subset hc)) he
      intro hnone
      rw [hnone] at h
      dsimp only at h ⊢
      split at h
      · rename_i hrest
        rw [if_pos ⟨rfl, hrest⟩]
        exact .pure h
      · rename_i hrest
        rw [if_neg fun hboth => hrest hboth.2]
        exact .pure h
    · rw [if_pos (show readWord m (fType f) ≠ ftypeDir from hdir)]
      rw [if_neg hdir] at h
      exact .pure h

theorem does_walkPath (h : Q (.ok (walk m path)) m) : Does P ok (walkPath path) m Q :=
  does_walkFrom hsane ht (fun c hc => hzero c ((List.dropWhile_sublist _).subset hc))
    (head?_skipSlash path) ht.root h

theorem does_fileOpen {Q : Except Word Nat → Memory → Prop}
    (h : Q (if (walk m path).r = 0 then .ok (walk m path).f else .error (walk m path).r) m) :
    Does P ok (fileOpen path) m Q := by
  refine .bind (does_walkPath hsane ht hzero ?_)
  dsimp only
  split
  · rename_i hr
    rw [if_pos hr] at h
    exact .pure h
  · rename_i hr
    rw [if_neg hr] at h
    exact .throw h

end

end Walk

end Mit6828.Fs
