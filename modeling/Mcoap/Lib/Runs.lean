import Mathlib.Data.List.Induction

/-! # Runs of a labelled step relation

    `Run step s as s'`: the inputs `as`, taken one after the other, lead
    from `s` to `s'`.

    * `Run.invariant`: what holds at the start and survives every step
      holds at the end;
    * `Run.history`: the same for a property of the state and the inputs
      taken so far;
    * `Run.append`, `Run.split`: runs are put together and cut;
    * `Infinite`: a run that goes on for ever, `Infinite.exists_of_steps`:
      there is one, and `ends_of_progress`: what makes progress towards a
      bound comes to an end. -/

namespace Runs

variable {σ α : Type}

/-- A run: the inputs taken, the last one last. -/
inductive Run (step : σ → α → σ → Prop) (s : σ) : List α → σ → Prop where
  | nil : Run step s [] s
  | snoc {as : List α} {s' s'' : σ} {a : α} (hrun : Run step s as s') (hstep : step s' a s'') :
      Run step s (as ++ [a]) s''

variable {step : σ → α → σ → Prop} {s s' s'' : σ} {as bs : List α}

theorem Run.single {a : α} (h : step s a s') : Run step s [a] s' := Run.nil.snoc h

theorem Run.append (h : Run step s as s') (h' : Run step s' bs s'') : Run step s (as ++ bs) s'' := by
  induction h' with
  | nil =>
    rw [List.append_nil]
    exact h
  | snoc _ hstep ih =>
    rw [← List.append_assoc]
    exact ih.snoc hstep

theorem Run.cons {a : α} (hstep : step s a s') (h : Run step s' as s'') :
    Run step s (a :: as) s'' := (Run.single hstep).append h

/-- The state before the last step. -/
theorem Run.last {a : α} (h : Run step s (as ++ [a]) s'') :
    ∃ s', Run step s as s' ∧ step s' a s'' := by
  generalize hcs : as ++ [a] = cs at h
  cases h with
  | nil => exact absurd hcs (by simp)
  | snoc hrun hstep =>
    obtain ⟨hinit, hlast⟩ := List.append_inj' hcs rfl
    rw [← hinit] at hrun
    rw [← List.cons.inj hlast |>.1] at hstep
    exact ⟨_, hrun, hstep⟩

/-- The state between two parts of a run. -/
theorem Run.split (h : Run step s (as ++ bs) s'') :
    ∃ s', Run step s as s' ∧ Run step s' bs s'' := by
  induction bs using List.reverseRecOn generalizing s'' with
  | nil =>
    rw [List.append_nil] at h
    exact ⟨s'', h, Run.nil⟩
  | append_singleton bs b ih =>
    rw [← List.append_assoc] at h
    obtain ⟨t, hrun, hstep⟩ := h.last
    obtain ⟨s', h1, h2⟩ := ih hrun
    exact ⟨s', h1, h2.snoc hstep⟩

/-- What one step preserves, a run preserves. -/
theorem Run.invariant {P : σ → Prop} (h : Run step s as s') (hinit : P s)
    (hpres : ∀ t a t', P t → step t a t' → P t') : P s' := by
  induction h with
  | nil => exact hinit
  | snoc _ hstep ih => exact hpres _ _ _ ih hstep

/-- The same for a property that also speaks of the inputs so far. -/
theorem Run.history {P : List α → σ → Prop} (h : Run step s as s') (hinit : P [] s)
    (hpres : ∀ cs t a t', P cs t → step t a t' → P (cs ++ [a]) t') : P as s' := by
  induction h with
  | nil => exact hinit
  | snoc _ hstep ih => exact hpres _ _ _ _ ih hstep

/-! ## Runs that go on for ever -/

/-- The states `σ` and the inputs `as` of a run without end. -/
def Infinite (step : σ → α → σ → Prop) (states : Nat → σ) (inputs : Nat → α) : Prop :=
  ∀ n, step (states n) (inputs n) (states (n + 1))

variable {states : Nat → σ} {inputs : Nat → α}

/-- Every piece of it is a run. -/
theorem Infinite.run (h : Infinite step states inputs) (n k : Nat) :
    Run step (states n) ((List.range k).map fun i => inputs (n + i)) (states (n + k)) := by
  induction k with
  | zero => exact Run.nil
  | succ k ih =>
    rw [List.range_succ, List.map_append]
    exact ih.snoc (h (n + k))

/-- If a step can always be taken, and keeps `P`, there is a run without end
    along which `P` holds. -/
theorem Infinite.exists_of_steps {P : Nat → σ → Prop} (h : P 0 s)
    (hstep : ∀ n t, P n t → ∃ t', step t (inputs n) t' ∧ P (n + 1) t') :
    ∃ states, states 0 = s ∧ Infinite step states inputs ∧ ∀ n, P n (states n) := by
  choose next hnext using hstep
  let walk : (n : Nat) → { t // P n t } := fun n =>
    Nat.rec ⟨s, h⟩ (fun n t => ⟨next n t.1 t.2, (hnext n t.1 t.2).2⟩) n
  refine ⟨fun n => (walk n).1, rfl, ?_, fun n => (walk n).2⟩
  intro n
  exact (hnext n (walk n).1 (walk n).2).1

/-- Progress: what is bounded as long as `P` holds, and what goes up again
    and again as long as `P` holds, puts an end to `P`. -/
theorem ends_of_progress (P : Nat → Prop) (measure : Nat → Nat) (bound : Nat)
    (hmono : ∀ n m, n ≤ m → measure n ≤ measure m) (hbound : ∀ n, P n → measure n ≤ bound)
    (hprogress : ∀ n, P n → ∃ m, n ≤ m ∧ (P m → measure m < measure (m + 1))) :
    ∃ n, ¬ P n := by
  by_contra hall
  push Not at hall
  have hreach : ∀ k, ∃ n, k ≤ measure n := by
    intro k
    induction k with
    | zero => exact ⟨0, Nat.zero_le _⟩
    | succ k ih =>
      obtain ⟨n, hn⟩ := ih
      obtain ⟨m, hnm, hlt⟩ := hprogress n (hall n)
      have hup := hlt (hall m)
      have hkeep := hmono n m hnm
      exact ⟨m + 1, by omega⟩
  obtain ⟨n, hn⟩ := hreach (bound + 1)
  exact absurd (hbound n (hall n)) (by omega)

end Runs
