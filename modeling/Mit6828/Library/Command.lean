import Mathlib.Logic.Basic

/-!
Commands: computations on a state that may return an error or fail for good.  A weakest
precondition, and the same seen through a view of the state on which an invariant holds.
-/

namespace Mit6828.Library

/-- An error leaves the state as it is then; `none` is a failure, with no state after it. -/
abbrev Command (σ ε α : Type) := ExceptT ε (StateT σ Option) α

namespace Command

variable {σ μ ε α β : Type} {ok ok' : Prop} {c : Command σ ε α} {f : α → Command σ ε β} {s s' : σ}
  {a : α} {e : ε}

def fail : Command σ ε α := ExceptT.mk fun _ => none

def attempt (c : Command σ ε α) : Command σ ε (Except ε α) := ExceptT.lift c.run

theorem bind_run_eq_ok {b : β} : (c >>= f).run.run s = some (.ok b, s') ↔
    ∃ a s1, c.run.run s = some (.ok a, s1) ∧ (f a).run.run s1 = some (.ok b, s') := by
  change (c.run.run s >>= fun x => _) = _ ↔ _
  rcases c.run.run s with _ | ⟨e | a, s1⟩
  · simp
  · refine iff_of_false (fun h => ?_) (by simp)
    cases h
  · simp only [Option.some.injEq, Prod.mk.injEq, Except.ok.injEq]
    exact ⟨fun h => ⟨a, s1, ⟨rfl, rfl⟩, h⟩, fun ⟨_, _, ⟨rfl, rfl⟩, h⟩ => h⟩

/-- The command ends with `Q`; under `ok` it does not fail. -/
def Runs (ok : Prop) (c : Command σ ε α) (s : σ) (Q : Except ε α → σ → Prop) : Prop :=
  match c.run.run s with
  | none => ¬ ok
  | some (r, s') => Q r s'

section Runs

variable {Q Q' : Except ε α → σ → Prop} {R : Except ε β → σ → Prop}

theorem Runs.mono (h : Runs ok c s Q) (hQ : ∀ r s', Q r s' → Q' r s') (hok : ok' → ok) :
    Runs ok' c s Q' := by
  unfold Runs at h ⊢
  split
  · rename_i hnone
    rw [hnone] at h
    exact fun h' => h (hok h')
  · rename_i r s' hsome
    rw [hsome] at h
    exact hQ r s' h

theorem runs_bind : Runs ok (c >>= f) s R ↔ Runs ok c s fun r s' =>
    match r with
    | .ok a => Runs ok (f a) s' R
    | .error e => R (.error e) s' := by
  have hbind : (c >>= f).run.run s = c.run.run s >>= fun x =>
      match x.1 with
      | .ok a => (f a).run.run x.2
      | .error e => some (.error e, x.2) := by
    change (c.run.run s >>= fun x => _) = _
    congr 1
    funext x
    obtain ⟨r, s'⟩ := x
    cases r <;> rfl
  unfold Runs
  rw [hbind]
  rcases c.run.run s with _ | ⟨r, s'⟩
  · rfl
  · cases r <;> rfl

theorem runs_attempt {Q : Except ε (Except ε α) → σ → Prop} :
    Runs ok (attempt c) s Q ↔ Runs ok c s fun r s' => Q (.ok r) s' := by
  have hrun : (attempt c).run.run s = c.run.run s >>= fun x => some (.ok x.1, x.2) := rfl
  unfold Runs
  rw [hrun]
  rcases c.run.run s with _ | ⟨r, s'⟩ <;> rfl

end Runs

/-- What a command does to a view of the state, while an invariant holds. -/
def Does (I : σ → Prop) (view : σ → μ) (ok : Prop) (c : Command σ ε α) (m : μ)
    (Q : Except ε α → μ → Prop) : Prop :=
  ∀ s, I s → view s = m → Runs ok c s fun r s' => I s' ∧ Q r (view s')

section Does

variable {I : σ → Prop} {view : σ → μ} {m : μ} {Q Q' : Except ε α → μ → Prop}
  {R : Except ε β → μ → Prop}

theorem Does.mono (h : Does I view ok c m Q) (hQ : ∀ r m', Q r m' → Q' r m') :
    Does I view ok c m Q' := fun s hI hm =>
  (h s hI hm).mono (fun r s' hs' => ⟨hs'.1, hQ r (view s') hs'.2⟩) id

theorem Does.pure (h : Q (.ok a) m) : Does I view ok (Pure.pure a : Command σ ε α) m Q :=
  fun _ hI hm => ⟨hI, hm ▸ h⟩

theorem Does.throw (h : Q (.error e) m) :
    Does I view ok (MonadExcept.throw e : Command σ ε α) m Q := fun _ hI hm => ⟨hI, hm ▸ h⟩

theorem Does.fail (h : ¬ ok) : Does I view ok (fail : Command σ ε α) m Q := fun _ _ _ => h

theorem Does.bind (h : Does I view ok c m fun r m' =>
    match r with
    | .ok a => Does I view ok (f a) m' R
    | .error e => R (.error e) m') : Does I view ok (c >>= f) m R := by
  intro s hI hm
  rw [runs_bind]
  refine (h s hI hm).mono (fun r s' hs' => ?_) id
  cases r with
  | ok a => exact hs'.2 s' hs'.1 rfl
  | error e => exact hs'

theorem Does.attempt {Q : Except ε (Except ε α) → μ → Prop}
    (h : Does I view ok c m fun r m' => Q (.ok r) m') :
    Does I view ok (attempt c) m Q := fun s hI hm => runs_attempt.mpr (h s hI hm)

theorem Does.result {r : Except ε α} (h : Does I view ok c m Q) (hI : I s)
    (hm : view s = m) (hrun : c.run.run s = some (r, s')) : I s' ∧ Q r (view s') := by
  have hruns := h s hI hm
  rwa [Runs, hrun] at hruns

theorem Does.returns (h : Does I view ok c m Q) (hok : ok) (hI : I s) (hm : view s = m) :
    ∃ r s', c.run.run s = some (r, s') ∧ I s' ∧ Q r (view s') := by
  have hruns := h s hI hm
  rw [Runs] at hruns
  rcases hrun : c.run.run s with _ | ⟨r, s'⟩
  · rw [hrun] at hruns
    exact absurd hok hruns
  · rw [hrun] at hruns
    exact ⟨r, s', rfl, hruns⟩

theorem Does.seq {P : α → μ → Prop} (h : Does I view ok c m fun r m' => ∃ a, r = .ok a ∧ P a m')
    (hf : ∀ a m', P a m' → Does I view ok (f a) m' R) : Does I view ok (c >>= f) m R := by
  refine Does.bind (h.mono ?_)
  rintro r m' ⟨a, rfl, hP⟩
  exact hf a m' hP

end Does

end Command

end Mit6828.Library
