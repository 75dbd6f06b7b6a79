import Mathlib

/-!
# Loops as iterated bodies

A loop is a body `σ → Pass σ ρ`: one pass either goes round again with a new state or leaves with a
result. `run body n s` makes at most `n` passes, so a result it gives is the result of the loop, and
`none` says only that `n` passes were not enough. `run_total` is the rule every loop of this
development with a bound of its own is proved with: an invariant, a measure that falls at every
pass, and what holds on leaving. `Returns` and `returns_of_variant` are for loops whose bound depends on
more than their state holds.
-/

namespace HashingArchive.Loop

variable {σ ρ : Type*}

/-- What one pass through a loop body does. -/
inductive Pass (σ ρ : Type*) where
  | again (s : σ)
  | leave (r : ρ)

/-- `P` holds if the pass goes round again, `Q` if it leaves. -/
def Pass.Holds (P : σ → Prop) (Q : ρ → Prop) : Pass σ ρ → Prop
  | .again s => P s
  | .leave r => Q r

@[simp] theorem Pass.holds_again (P : σ → Prop) (Q : ρ → Prop) (s : σ) :
    (Pass.again s : Pass σ ρ).Holds P Q ↔ P s := Iff.rfl

@[simp] theorem Pass.holds_leave (P : σ → Prop) (Q : ρ → Prop) (r : ρ) :
    (Pass.leave r : Pass σ ρ).Holds P Q ↔ Q r := Iff.rfl

/-- The loop from `s`, cut off after `n` passes. -/
def run (body : σ → Pass σ ρ) : ℕ → σ → Option ρ
  | 0, _ => none
  | n + 1, s =>
    match body s with
    | .again s' => run body n s'
    | .leave r => some r

variable {body : σ → Pass σ ρ}

theorem run_again {n : ℕ} {s s' : σ} (h : body s = .again s') :
    run body (n + 1) s = run body n s' := by
  rw [run, h]

theorem run_leave {n : ℕ} {s : σ} {r : ρ} (h : body s = .leave r) :
    run body (n + 1) s = some r := by
  rw [run, h]

/-- Another result at every exit is another result of the loop. -/
theorem run_map {ρ' : Type*} {body' : σ → Pass σ ρ'} (g : ρ → ρ')
    (hbody : ∀ s, body' s = match body s with
      | .again s' => .again s'
      | .leave r => .leave (g r)) (n : ℕ) (s : σ) : run body' n s = (run body n s).map g := by
  induction n generalizing s with
  | zero => rfl
  | succ n ih =>
    have hs := hbody s
    cases hb : body s with
    | again s' =>
      rw [hb] at hs
      rw [run_again hs, run_again hb, ih]
    | leave r =>
      rw [hb] at hs
      rw [run_leave hs, run_leave hb, Option.map_some]

/-- **Total correctness.** An invariant kept by every pass, under a measure that falls, gives a
result with the postcondition as soon as the bound on the passes exceeds the measure. -/
theorem run_total (body : σ → Pass σ ρ) (Inv : σ → Prop) (measure : σ → ℕ) (Post : ρ → Prop)
    (hbody : ∀ s, Inv s → (body s).Holds (fun s' => Inv s' ∧ measure s' < measure s) Post) :
    ∀ (n : ℕ) (s : σ), Inv s → measure s < n → ∃ r, run body n s = some r ∧ Post r := by
  intro n
  induction n with
  | zero => intro s _ hlt; exact absurd hlt (Nat.not_lt_zero _)
  | succ n ih =>
    intro s hs hlt
    have hpass := hbody s hs
    cases hb : body s with
    | again s' =>
      rw [hb, Pass.holds_again] at hpass
      obtain ⟨r, hr, hpost⟩ := ih s' hpass.1 (by omega)
      exact ⟨r, (run_again hb).trans hr, hpost⟩
    | leave r =>
      rw [hb, Pass.holds_leave] at hpass
      exact ⟨r, run_leave hb, hpass⟩

/-! ### Results without a bound -/

/-- The loop from `s` ends with `r`. -/
def Returns (body : σ → Pass σ ρ) (s : σ) (r : ρ) : Prop := ∃ n, run body n s = some r

/-- More passes do not change a result. -/
theorem run_mono {n m : ℕ} {s : σ} {r : ρ} (hnm : n ≤ m) (h : run body n s = some r) :
    run body m s = some r := by
  induction n generalizing m s with
  | zero => exact absurd h (by simp [run])
  | succ n ih =>
    obtain ⟨m, rfl⟩ : ∃ m', m = m' + 1 := ⟨m - 1, by omega⟩
    cases hb : body s with
    | again s' =>
      rw [run_again hb] at h ⊢
      exact ih (by omega) h
    | leave r' =>
      rw [run_leave hb] at h ⊢
      exact h

theorem Returns.unique {s : σ} {r r' : ρ} (h : Returns body s r) (h' : Returns body s r') : r = r' := by
  obtain ⟨n, hn⟩ := h
  obtain ⟨m, hm⟩ := h'
  have hr := run_mono (Nat.le_max_left n m) hn
  rw [run_mono (Nat.le_max_right n m) hm] at hr
  exact (Option.some.inj hr).symm

theorem Returns.again {s s' : σ} {r : ρ} (h : body s = .again s') (hr : Returns body s' r) :
    Returns body s r := by
  obtain ⟨n, hn⟩ := hr
  exact ⟨n + 1, (run_again h).trans hn⟩

theorem Returns.leave {s : σ} {r : ρ} (h : body s = .leave r) : Returns body s r :=
  ⟨1, run_leave h⟩

/-- **Total correctness with a variant that the state does not hold.** `Inv n s` is an invariant with
at most `n` passes to go. -/
theorem returns_of_variant (body : σ → Pass σ ρ) (Inv : ℕ → σ → Prop) (Post : ρ → Prop)
    (hbody : ∀ n s, Inv n s → (body s).Holds (fun s' => ∃ n' < n, Inv n' s') Post) :
    ∀ n s, Inv n s → ∃ r, Returns body s r ∧ Post r := by
  intro n
  induction n using Nat.strong_induction_on with
  | _ n ih =>
    intro s hs
    have hpass := hbody n s hs
    cases hb : body s with
    | again s' =>
      rw [hb, Pass.holds_again] at hpass
      obtain ⟨n', hlt, hs'⟩ := hpass
      obtain ⟨r, hr, hpost⟩ := ih n' hlt s' hs'
      exact ⟨r, hr.again hb, hpost⟩
    | leave r =>
      rw [hb, Pass.holds_leave] at hpass
      exact ⟨r, .leave hb, hpass⟩

/-! ### Counted loops -/

/-- A counted loop whose body may fail does not, if an invariant of the rounds so far lets the next one go through. -/
theorem foldlM_range_of_invariant {f : σ → ℕ → Option σ} {P : ℕ → σ → Prop} {s : σ} (hstart : P 0 s) (n : ℕ)
    (hstep : ∀ k s, k < n → P k s → ∃ s', f s k = some s' ∧ P (k + 1) s') :
    ∃ s', (List.range n).foldlM f s = some s' ∧ P n s' := by
  induction n with
  | zero => exact ⟨s, rfl, hstart⟩
  | succ n ih =>
    obtain ⟨s', hs', hP⟩ := ih fun k s hk => hstep k s (by omega)
    obtain ⟨s'', hs'', hP'⟩ := hstep n s' n.lt_succ_self hP
    refine ⟨s'', ?_, hP'⟩
    rw [List.range_succ, List.foldlM_append, hs', Option.bind_eq_bind, Option.bind_some, List.foldlM_cons, hs'',
      Option.bind_eq_bind, Option.bind_some, List.foldlM_nil]
    rfl

/-! ### Loops over a list -/

section
variable {α τ : Type*}

/-- A sum that every step adds to. -/
theorem foldl_add {M : Type*} [AddMonoid M] {f : τ → M} {g : α → M} {step : τ → α → τ}
    (hstep : ∀ s a, f (step s a) = f s + g a) (l : List α) (s : τ) : f (l.foldl step s) = f s + (l.map g).sum := by
  induction l generalizing s with
  | nil => simp
  | cons a l ih => rw [List.foldl_cons, ih, hstep, List.map_cons, List.sum_cons, add_assoc]

/-- A bound that every step tightens. -/
theorem foldl_iff {P : τ → Prop} {Q : α → Prop} {step : τ → α → τ} (hstep : ∀ s a, P (step s a) ↔ P s ∧ Q a)
    (l : List α) (s : τ) : P (l.foldl step s) ↔ P s ∧ ∀ a ∈ l, Q a := by
  induction l generalizing s with
  | nil => simp
  | cons a l ih => rw [List.foldl_cons, ih, hstep, List.forall_mem_cons, and_assoc]

end

end HashingArchive.Loop
