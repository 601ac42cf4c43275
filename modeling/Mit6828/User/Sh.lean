import Mit6828.Lib.Readline

namespace Mit6828.User.Sh

open Lib.Readline

inductive Token where
  | word (w : List Byte)
  | redir
  | pipe
  | other

def whitespace : List Byte := [32, 9, 13, 10]

/-- The characters `<|>&;()`. -/
def symbols : List Byte := [60, 124, 62, 38, 59, 40, 41]

def gettoken (s : List Byte) : Option (Token × List Byte) :=
  match s.dropWhile (· ∈ whitespace) with
  | [] => none
  | c :: s =>
    if c = 60 ∨ c = 62 then some (.redir, s)
    else if c = 124 then some (.pipe, s)
    else if c ∈ symbols then some (.other, s)
    else some (.word ((c :: s).takeWhile (· ∉ whitespace ++ symbols)),
      (c :: s).dropWhile (· ∉ whitespace ++ symbols))

/-- The first `n` tokens; each takes a character at least. -/
def tokens : Nat → List Byte → List Token
  | 0, _ => []
  | n + 1, s =>
    match gettoken s with
    | none => []
    | some (t, s) => t :: tokens n s

def maxargs : Nat := 16
def bufsiz : Nat := 1024

/-- The loop of `runcmd`: for each process of the pipeline its arguments, and if it comes to
`runit`. `ok` says if `open`, or `pipe` and `fork`, succeed when these tokens are left. -/
def runcmd (ok : List Token → Bool) : List Token → List (List Byte) → List (List (List Byte) × Bool)
  | [], argv => [(argv, true)]
  | .word w :: ts, argv => if argv.length = maxargs then [(argv, false)]
      else runcmd ok ts (argv ++ [w])
  | .redir :: .word _ :: ts, argv => if ok ts then runcmd ok ts argv else [(argv, false)]
  | .redir :: _, argv => [(argv, false)]
  | .pipe :: ts, argv => if ok ts then (argv, true) :: runcmd ok ts [] else [(argv, false)]
  | .other :: _, argv => [(argv, false)]

inductive Access where
  | argv (i : Nat)
  | argv0buf (i : Nat)
  | spawn (argv : List (Option (List Byte)))
deriving DecidableEq

/-- A command without an initial `/` gets one, in `argv0buf`. -/
def runit : List (List Byte) → List Access
  | [] => []
  | w :: ws =>
    (if w.head? = some 47 then [] else (List.range (w.length + 2)).map .argv0buf ++ [.argv 0]) ++
      [.argv (w :: ws).length, .spawn ((w :: ws).map some ++ [none])]

def accesses (p : List (List Byte) × Bool) : List Access :=
  (List.range p.1.length).map .argv ++ if p.2 then runit p.1 else []

def Safe : Access → Prop
  | .argv i => i < maxargs
  | .argv0buf i => i < bufsiz
  | .spawn argv => none ∈ argv.take maxargs

/-- The part of the line before the first pipe symbol, and those after it. -/
def segments : List Token → List Token × List (List Token)
  | [] => ([], [])
  | .pipe :: ts => ([], (segments ts).1 :: (segments ts).2)
  | t :: ts => (t :: (segments ts).1, (segments ts).2)

def parts (line : List Byte) : List (List Token) :=
  let s := segments (tokens line.length line)
  s.1 :: s.2

/-- The number of arguments of a part that is made of words and redirections. -/
def argc : List Token → Option Nat
  | [] => some 0
  | .word _ :: ts => (argc ts).map (· + 1)
  | .redir :: .word _ :: ts => argc ts
  | _ => none

/-- The first part that has not fewer than 16 arguments has not 16. -/
def NotSixteen (segs : List (List Token)) : Prop :=
  (segs.find? fun seg => !(argc seg).any (· < maxargs)).bind argc ≠ some maxargs

/-- The line is a command name of 1023 characters that gets a `/`. -/
def LongName (line : List Byte) : Prop :=
  line.length = bufsiz - 1 ∧ line.head? ≠ some 47 ∧ ∀ c ∈ line, c ∉ whitespace ++ symbols

def Fits (line : List Byte) : Prop :=
  ¬ LongName line ∧ NotSixteen (parts line)

def Room (argv : List (List Byte)) : Prop :=
  argv.length ≠ maxargs ∧ ∀ w ∈ argv.head?, w.head? ≠ some 47 → w.length + 1 < bufsiz

variable {ok : List Token → Bool} {ts seg : List Token} {segs : List (List Token)}
  {argv : List (List Byte)} {p : List (List Byte) × Bool} {line w : List Byte} {n : Nat}

theorem runcmd_argv (hp : p ∈ runcmd ok ts argv) (hargv : argv.length ≤ maxargs) :
    p.1.length ≤ maxargs ∧ (∀ w ∈ p.1, w ∈ argv ∨ .word w ∈ ts) ∧
      (p.2 → p ∈ runcmd (fun _ => true) ts argv) := by
  fun_induction runcmd ok ts argv with
  | case1 argv =>
    obtain rfl := List.mem_singleton.mp hp
    exact ⟨hargv, fun w => .inl, fun _ => hp⟩
  | case3 w ts argv hne ih =>
    obtain ⟨hle, hmem, hall⟩ := ih hp (by grind)
    exact ⟨hle, by grind, by rwa [runcmd, if_neg hne]⟩
  | case4 w ts argv hok ih =>
    obtain ⟨hle, hmem, hall⟩ := ih hp hargv
    exact ⟨hle, by grind, hall⟩
  | case7 ts argv hok ih =>
    rcases List.mem_cons.mp hp with rfl | hp
    · exact ⟨hargv, fun w => .inl, fun _ => List.mem_cons_self⟩
    · obtain ⟨hle, hmem, hall⟩ := ih hp (Nat.zero_le _)
      exact ⟨hle, by grind, fun hrun => List.mem_cons_of_mem _ (hall hrun)⟩
  | _ =>
    obtain rfl := List.mem_singleton.mp hp
    exact ⟨hargv, fun w => .inl, fun hrun => Bool.noConfusion hrun⟩

theorem notSixteen_cons : NotSixteen (seg :: segs) ↔
    ∀ n ∈ argc seg, n ≠ maxargs ∧ (n < maxargs → NotSixteen segs) := by
  rw [NotSixteen, List.find?_cons]
  rcases hargc : argc seg with _ | n
  · simp [hargc]
  · by_cases hlt : n < maxargs
    · simp [hlt, Nat.ne_of_lt hlt, NotSixteen]
    · simp [hlt, hargc]

theorem runcmd_sixteen_iff (hargv : argv.length ≤ maxargs) :
    (∀ p ∈ runcmd (fun _ => true) ts argv, p.2 → p.1.length ≠ maxargs) ↔
      ∀ n ∈ argc (segments ts).1, argv.length + n ≠ maxargs ∧
        (argv.length + n < maxargs → NotSixteen (segments ts).2) := by
  fun_induction runcmd (fun _ => true) ts argv with
  | case1 argv => simp [segments, argc, NotSixteen]
  | case2 w ts argv hfull =>
    refine iff_of_true (by simp) fun n hn => ?_
    obtain ⟨n, -, rfl⟩ := Option.map_eq_some_iff.mp hn
    omega
  | case3 w ts argv hne ih =>
    rw [ih (by grind)]
    simp [segments, argc, Nat.add_assoc, Nat.add_comm 1]
  | case4 argv ts w hok ih =>
    rw [ih hargv]
    simp [segments, argc]
  | case5 => contradiction
  | case6 ts argv hword =>
    have hnone : argc (segments (.redir :: ts)).1 = none := by
      cases ts with
      | nil => rfl
      | cons t ts =>
        cases t with
        | word w => exact (hword w ts rfl).elim
        | _ => rfl
    simp [hnone]
  | case7 argv ts hok ih =>
    rw [List.forall_mem_cons, ih (Nat.zero_le _)]
    simp [segments, argc, notSixteen_cons]
    grind
  | case8 => contradiction
  | case9 => simp [segments, argc]

theorem runit_safe_iff (hlength : argv.length ≤ maxargs) :
    (∀ a ∈ runit argv, Safe a) ↔ Room argv := by
  cases argv with
  | nil => simp [runit, Room, maxargs]
  | cons w ws =>
    constructor
    · intro h
      refine ⟨fun heq => ?_, fun w' hw' hslash => ?_⟩
      · have hnull : (w :: ws).length < maxargs := h (.argv (w :: ws).length) (by simp [runit])
        exact absurd heq (Nat.ne_of_lt hnull)
      · cases hw'
        exact h (.argv0buf (w.length + 1)) (by rw [runit, if_neg hslash]; simp)
    rintro ⟨hne, hname⟩ a ha
    have hnull : (w :: ws).length < maxargs := Nat.lt_of_le_of_ne hlength hne
    rcases List.mem_append.mp ha with ha | ha
    · split_ifs at ha with hslash
      · cases ha
      · simp only [List.mem_append, List.mem_map, List.mem_range, List.mem_singleton] at ha
        obtain ⟨i, hi, rfl⟩ | rfl := ha
        · exact Nat.lt_of_le_of_lt (Nat.le_of_lt_succ hi) (hname w rfl hslash)
        · exact (by decide : 0 < maxargs)
    · simp only [List.mem_cons, List.not_mem_nil, or_false] at ha
      obtain rfl | rfl := ha
      · exact hnull
      · rw [Safe, List.take_of_length_le (by simpa [Nat.succ_le_iff] using hnull)]
        simp

theorem gettoken_suffix {t : Token} {s : List Byte} (h : gettoken line = some (t, s)) :
    s <:+ line ∧ ∀ w, t = .word w → w <:+: line ∧ ∀ c ∈ w, c ∉ whitespace ++ symbols := by
  have hdrop := List.dropWhile_suffix (l := line) (· ∈ whitespace)
  rw [gettoken] at h
  split at h
  · cases h
  · rename_i c s' heq
    rw [heq] at hdrop
    have htail : s' <:+ line := (List.suffix_cons c s').trans hdrop
    split_ifs at h <;> cases h
    · exact ⟨htail, by simp⟩
    · exact ⟨htail, by simp⟩
    · exact ⟨htail, by simp⟩
    · refine ⟨(List.dropWhile_suffix _).trans hdrop, ?_⟩
      rintro _ ⟨⟩
      exact ⟨(List.takeWhile_prefix _).isInfix.trans hdrop.isInfix,
        fun c hc => by simpa using List.mem_takeWhile_imp hc⟩

theorem word_infix (hw : .word w ∈ tokens n line) :
    w <:+: line ∧ ∀ c ∈ w, c ∉ whitespace ++ symbols := by
  induction n generalizing line with
  | zero => cases hw
  | succ n ih =>
    rw [tokens] at hw
    split at hw
    · cases hw
    · rename_i t s heq
      obtain ⟨hs, ht⟩ := gettoken_suffix heq
      rcases List.mem_cons.mp hw with rfl | hw
      · exact ht w rfl
      · exact ⟨(ih hw).1.trans hs.isInfix, (ih hw).2⟩

theorem tokens_word (hne : line ≠ []) (hline : ∀ c ∈ line, c ∉ whitespace ++ symbols) :
    tokens line.length line = [.word line] := by
  obtain ⟨c, rest, rfl⟩ := List.exists_cons_of_ne_nil hne
  have hword : ∀ x ∈ c :: rest, decide (x ∉ whitespace ++ symbols) = true :=
    fun x hx => decide_eq_true (hline x hx)
  have hc := hline c List.mem_cons_self
  simp only [List.mem_append, not_or] at hc
  have htoken : gettoken (c :: rest) = some (.word (c :: rest), []) := by
    rw [gettoken, List.dropWhile_cons_of_neg (by simpa using hc.1)]
    simp only
    rw [List.takeWhile_eq_self_iff.mpr hword, List.dropWhile_eq_nil_iff.mpr hword, if_neg hc.2]
    have hsymbol : ∀ x ∈ symbols, c ≠ x := fun x hx heq => hc.2 (heq ▸ hx)
    rw [if_neg (not_or.mpr ⟨hsymbol 60 (by decide), hsymbol 62 (by decide)⟩),
      if_neg (hsymbol 124 (by decide))]
  rw [List.length_cons, tokens, htoken]
  cases rest <;> rfl

theorem accesses_safe_iff (hlength : p.1.length ≤ maxargs) :
    (∀ a ∈ accesses p, Safe a) ↔ (p.2 → Room p.1) := by
  have hargv : ∀ a ∈ (List.range p.1.length).map Access.argv, Safe a := by
    intro a ha
    obtain ⟨i, hi, rfl⟩ := List.mem_map.mp ha
    exact Nat.lt_of_lt_of_le (List.mem_range.mp hi) hlength
  rw [accesses, List.forall_mem_append, and_iff_right hargv]
  split
  · rename_i hrun
    rw [runit_safe_iff hlength, forall_prop_of_true hrun]
  · rename_i hrun
    simp [hrun]

/-- `argc` may reach `MAXARGS` before the final null pointer, and `argv0buf` has no room for the `/`
in front of a word of 1023 characters. -/
theorem runcmd_safe_iff {buf buf' : List Byte} {typed : List (Option Byte)}
    (hbuf : buf.length = buflen) (hrun : readline buf 0 typed = some (some buf')) :
    (∀ ok, ∀ p ∈ runcmd ok (tokens (cstr buf').length (cstr buf')) [], ∀ a ∈ accesses p, Safe a) ↔
      Fits (cstr buf') := by
  have hlength : (cstr buf').length < bufsiz := (readline_length hrun).trans_eq hbuf
  generalize cstr buf' = line at hlength ⊢
  have hargv : ∀ ok, ∀ p ∈ runcmd ok (tokens line.length line) [], _ :=
    fun ok p hp => runcmd_argv hp (Nat.zero_le _)
  have hsixteen : (∀ p ∈ runcmd (fun _ => true) (tokens line.length line) [], _) ↔ _ :=
    runcmd_sixteen_iff (Nat.zero_le _)
  simp only [List.length_nil, Nat.zero_add, ← notSixteen_cons] at hsixteen
  rw [Fits, parts, ← hsixteen]
  constructor
  · intro h
    have hroom : ∀ p ∈ runcmd (fun _ => true) (tokens line.length line) [], p.2 → Room p.1 :=
      fun p hp => (accesses_safe_iff (hargv _ p hp).1).mp (h _ p hp)
    refine ⟨fun ⟨hlong, hslash, hline⟩ => ?_, fun p hp hrun => (hroom p hp hrun).1⟩
    rw [tokens_word (by rintro rfl; cases hlong) hline] at hroom
    have hroom := (hroom ([line], true) (by simp [runcmd, maxargs]) rfl).2 line rfl hslash
    rw [hlong] at hroom
    exact absurd hroom (by decide)
  · rintro ⟨hlong, hsixteen⟩ ok p hp
    refine (accesses_safe_iff (hargv ok p hp).1).mpr fun hrun =>
      ⟨hsixteen p ((hargv ok p hp).2.2 hrun) hrun, fun w hw hslash =>
        Nat.lt_of_not_le fun hle => hlong ?_⟩
    obtain ⟨hwithin, hchars⟩ :=
      word_infix (((hargv ok p hp).2.1 w (List.mem_of_mem_head? hw)).resolve_left (by simp))
    have heq : w = line := hwithin.eq_of_length (by have := hwithin.length_le; omega)
    subst heq
    exact ⟨by omega, hslash, hchars⟩

/-- The line `cat a|b`. -/
def pipeline : List Byte := [99, 97, 116, 32, 97, 124, 98]

theorem runcmd_safe_pipeline :
    readline (List.replicate buflen 0) 0 ((pipeline ++ [10]).map some) =
      some (some (pipeline ++ List.replicate 1017 0)) ∧
    ∀ ok, ∀ p ∈ runcmd ok (tokens pipeline.length pipeline) [], ∀ a ∈ accesses p, Safe a := by
  refine (and_iff_left_of_imp fun hrun => ?_).mpr (by decide +kernel)
  have hline : cstr (pipeline ++ List.replicate 1017 0) = pipeline := by decide +kernel
  have hsafe := runcmd_safe_iff List.length_replicate hrun
  rw [hline] at hsafe
  refine hsafe.mpr ⟨fun h => absurd h.1 (by decide), ?_⟩
  unfold NotSixteen
  decide

/-- Sixteen words. -/
def sixteen : List Byte := (List.replicate 16 [97, 32]).flatten

theorem sixteen_words_overflow :
    (readline (List.replicate buflen 0) 0 ((sixteen ++ [10]).map some)).map (·.map cstr) =
      some (some sixteen) ∧
    ∃ p ∈ runcmd (fun _ => true) (tokens sixteen.length sixteen) [], ∃ a ∈ accesses p, ¬ Safe a :=
  ⟨by decide +kernel, _, List.mem_singleton_self _, .argv 16, by decide, Nat.lt_irrefl 16⟩

end Mit6828.User.Sh
