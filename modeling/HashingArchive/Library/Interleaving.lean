import Mathlib

/-!
# Interleaved threads

A system is a shared state and a local state for every thread; a step is a move of one thread, which sees the
shared state and its own local state only. A move that changes nothing is a thread that spins. An invariant that
says how many other moves are still to come at most bounds the moves of every run (`Run.bounded`), and where some
move brings every state that is not final closer to the end, a final state can be reached from it (`exists_final`).
-/

namespace HashingArchive.Library

structure System (Thread σ Λ : Type*) where
  shared : σ
  threads : Thread → Λ

namespace System

variable {Thread σ Λ : Type*} [DecidableEq Thread]

/-- What `t` makes of its local state and the shared state; none where it has to wait or has finished. -/
abbrev Program (Thread σ Λ : Type*) := Thread → Λ → σ → Option (Λ × σ)

/-- The system after a move of `t` to the local state `l` and the shared state `m`. -/
def set (s : System Thread σ Λ) (t : Thread) (l : Λ) (m : σ) : System Thread σ Λ where
  shared := m
  threads := Function.update s.threads t l

@[simp] theorem set_shared (s : System Thread σ Λ) (t : Thread) (l : Λ) (m : σ) : (s.set t l m).shared = m := rfl

@[simp] theorem set_self (s : System Thread σ Λ) (t : Thread) (l : Λ) (m : σ) : (s.set t l m).threads t = l := by
  simp [set]

@[simp] theorem set_of_ne {s : System Thread σ Λ} {t u : Thread} {l : Λ} {m : σ} (h : u ≠ t) :
    (s.set t l m).threads u = s.threads u := by
  simp [set, h]

/-- A thread that spins leaves the system as it is. -/
theorem set_same {s : System Thread σ Λ} {t : Thread} {l : Λ} {m : σ} (hl : l = s.threads t) (hm : m = s.shared) :
    s.set t l m = s := by
  subst hl hm
  simp [set]

inductive Step (program : Program Thread σ Λ) (s : System Thread σ Λ) : System Thread σ Λ → Prop where
  | move (t : Thread) (l : Λ) (m : σ) (hmove : program t (s.threads t) s.shared = some (l, m)) :
      Step program s (s.set t l m)

def Reachable (program : Program Thread σ Λ) : System Thread σ Λ → System Thread σ Λ → Prop :=
  Relation.ReflTransGen (Step program)

/-- The threads move in the order of a schedule; one that cannot move is passed over. -/
def exec (program : Program Thread σ Λ) : List Thread → System Thread σ Λ → System Thread σ Λ
  | [], s => s
  | t :: schedule, s =>
    match program t (s.threads t) s.shared with
    | some (l, m) => exec program schedule (s.set t l m)
    | none => exec program schedule s

variable {program : Program Thread σ Λ} {s₀ s s' : System Thread σ Λ}

theorem reachable_exec (schedule : List Thread) (s : System Thread σ Λ) :
    Reachable program s (exec program schedule s) := by
  induction schedule generalizing s with
  | nil => exact .refl
  | cons t schedule ih =>
    rw [exec]
    cases hmove : program t (s.threads t) s.shared with
    | none => exact ih s
    | some r => exact .head (.move t r.1 r.2 hmove) (ih _)

/-- A run with `n` moves that change the system; those of spinning threads are not counted. -/
inductive Run (program : Program Thread σ Λ) (s₀ : System Thread σ Λ) : ℕ → System Thread σ Λ → Prop where
  | start : Run program s₀ 0 s₀
  | spin {n : ℕ} {s : System Thread σ Λ} (hrun : Run program s₀ n s) (hstep : Step program s s) : Run program s₀ n s
  | change {n : ℕ} {s s' : System Thread σ Λ} (hrun : Run program s₀ n s) (hstep : Step program s s')
      (hne : s' ≠ s) : Run program s₀ (n + 1) s'

/-- Every state of a run has been reached, and every state reached is that of a run. -/
theorem reachable_iff_run : Reachable program s₀ s ↔ ∃ n, Run program s₀ n s := by
  constructor
  · intro h
    induction h with
    | refl => exact ⟨0, .start⟩
    | @tail b c _ hstep ih =>
      obtain ⟨n, hrun⟩ := ih
      by_cases hbc : c = b
      · subst hbc
        exact ⟨n, .spin hrun hstep⟩
      · exact ⟨n + 1, .change hrun hstep hbc⟩
  · intro ⟨n, hrun⟩
    induction hrun with
    | start => exact .refl
    | spin _ _ ih => exact ih
    | change _ hstep _ ih => exact ih.tail hstep

/-- Every step that changes the system keeps the invariant and lowers how many changes are still to come at most. -/
def Falls (program : Program Thread σ Λ) (Inv : ℕ → System Thread σ Λ → Prop) : Prop :=
  ∀ n s s', Inv n s → Step program s s' → s' ≠ s → ∃ n' < n, Inv n' s'

variable {Inv : ℕ → System Thread σ Λ → Prop} {N : ℕ}

/-- **No run goes on changing the system for ever**, and the invariant holds in all of its states. -/
theorem Run.bounded (hfalls : Falls program Inv) (hstart : Inv N s₀) {k : ℕ} (hrun : Run program s₀ k s) :
    ∃ n, n + k ≤ N ∧ Inv n s := by
  induction hrun with
  | start => exact ⟨N, by omega, hstart⟩
  | spin _ _ ih => exact ih
  | change _ hstep hne ih =>
    obtain ⟨n, hle, hinv⟩ := ih
    obtain ⟨n', hlt, hinv'⟩ := hfalls n _ _ hinv hstep hne
    exact ⟨n', by omega, hinv'⟩

theorem Reachable.invariant (hfalls : Falls program Inv) (hstart : Inv N s₀) (hs : Reachable program s₀ s) :
    ∃ n, Inv n s := by
  obtain ⟨k, hrun⟩ := reachable_iff_run.mp hs
  obtain ⟨n, -, hinv⟩ := hrun.bounded hfalls hstart
  exact ⟨n, hinv⟩

/-- **No deadlock**: if in every state with the invariant that is not final some step brings the end closer, a final
one can be reached from it. -/
theorem exists_final {Final : System Thread σ Λ → Prop}
    (hprogress : ∀ n s, Inv n s → ¬ Final s → ∃ s', Step program s s' ∧ ∃ n' < n, Inv n' s') {n : ℕ} (hs : Inv n s) :
    ∃ s', Reachable program s s' ∧ Final s' := by
  induction n using Nat.strong_induction_on generalizing s with
  | _ n ih =>
    by_cases hfinal : Final s
    · exact ⟨s, .refl, hfinal⟩
    · obtain ⟨s', hstep, n', hlt, hs'⟩ := hprogress n s hs hfinal
      obtain ⟨s'', hrest, hfinal'⟩ := ih n' hlt hs'
      exact ⟨s'', .head hstep hrest, hfinal'⟩

end System

end HashingArchive.Library
