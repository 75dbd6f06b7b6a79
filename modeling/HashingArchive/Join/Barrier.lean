import Mathlib

/-!
# The barrier of `barrier.h`

Where there are no POSIX barriers, `barrier_wait` counts the calls under a mutex: the last thread of a round resets the
count and wakes all others, which wait on a condition variable and return as soon as they wake up. Nobody gets ahead as
long as threads are woken by the broadcast only (`Inv`), but `wait` may also return spuriously, and a thread that does
not check anything then leaves the barrier before the others have come (`barrier_safe_iff`).
-/

namespace HashingArchive.Join.Barrier

/-- Where a thread is: outside of the barrier, in `pthread_cond_wait`, or woken and about to return. -/
inductive Ctrl where
  | outside
  | waiting
  | woken
  deriving DecidableEq

/-- Where a thread is, and how many times it has called `barrier_wait` and come back from it. -/
structure Local where
  ctrl : Ctrl
  calls : ℕ
  returns : ℕ
  deriving DecidableEq

structure BarrierT (Thread : Type) where
  needed : ℕ
  called : ℕ
  threads : Thread → Local

variable {Thread : Type} [DecidableEq Thread]

/-! ### The code -/

def BarrierT.set (s : BarrierT Thread) (t : Thread) (l : Local) : BarrierT Thread :=
  { s with threads := Function.update s.threads t l }

/-- `pthread_cond_broadcast` -/
def broadcast (threads : Thread → Local) : Thread → Local := fun u =>
  if (threads u).ctrl = .waiting then { threads u with ctrl := .woken } else threads u

/-- `barrier_wait`, up to where the mutex is released: at the end, or in `pthread_cond_wait`. -/
def barrierWait (s : BarrierT Thread) (t : Thread) : BarrierT Thread :=
  let l := s.threads t
  if s.called + 1 = s.needed then
    BarrierT.set { s with called := 0, threads := broadcast s.threads } t
      { ctrl := .outside, calls := l.calls + 1, returns := l.returns + 1 }
  else
    BarrierT.set { s with called := s.called + 1 } t
      { ctrl := .waiting, calls := l.calls + 1, returns := l.returns }

/-- The steps of the system; `spurious` says whether a waiting thread may wake up on its own. -/
inductive Step (spurious : Bool) (s : BarrierT Thread) : BarrierT Thread → Prop where
  | call (t : Thread) (houtside : (s.threads t).ctrl = .outside) : Step spurious s (barrierWait s t)
  | ret (t : Thread) (hwoken : (s.threads t).ctrl = .woken) :
      Step spurious s (s.set t { s.threads t with ctrl := .outside, returns := (s.threads t).returns + 1 })
  | wake (t : Thread) (hspurious : spurious = true) (hwaiting : (s.threads t).ctrl = .waiting) :
      Step spurious s (s.set t { s.threads t with ctrl := .woken })

/-- `barrier_init` -/
def barrierInit (needed : ℕ) : BarrierT Thread where
  needed := needed
  called := 0
  threads _ := { ctrl := .outside, calls := 0, returns := 0 }

def Reachable (spurious : Bool) (needed : ℕ) : BarrierT Thread → Prop :=
  Relation.ReflTransGen (Step spurious) (barrierInit needed)

/-! ### The rounds -/

section
variable [Fintype Thread] {s s' : BarrierT Thread} {round : ℕ}

/-- A thread in the state after `round` full rounds: it has called for the next one and waits, has been woken from the
last one, or is outside between the two. -/
def InRound (round : ℕ) (l : Local) : Prop :=
  match l.ctrl with
  | .outside => l.calls = round ∧ l.returns = round
  | .waiting => l.calls = round + 1 ∧ l.returns = round
  | .woken => l.calls = round ∧ l.returns + 1 = round

structure Inv (round : ℕ) (s : BarrierT Thread) : Prop where
  needed : s.needed = Fintype.card Thread
  room : s.called < s.needed
  called : s.called = (Finset.univ.filter fun t => (s.threads t).ctrl = .waiting).card
  threads : ∀ t, InRound round (s.threads t)

omit [DecidableEq Thread] in
/-- Nobody is ahead of a call. -/
theorem Inv.returns_le (h : Inv round s) (t u : Thread) : (s.threads t).returns ≤ (s.threads u).calls := by
  have ht := h.threads t
  have hu := h.threads u
  unfold InRound at ht hu
  split at ht <;> split at hu <;> omega

/-- The last thread of a round finds all others waiting. -/
theorem Inv.all_waiting (h : Inv round s) {t : Thread} (ht : (s.threads t).ctrl = .outside)
    (hlast : s.called + 1 = s.needed) {u : Thread} (hu : u ≠ t) : (s.threads u).ctrl = .waiting := by
  by_contra hnot
  have hsub : (Finset.univ.filter fun t => (s.threads t).ctrl = .waiting) ⊆ (Finset.univ.erase t).erase u := by
    intro v hv
    have hv := (Finset.mem_filter.mp hv).2
    simp only [Finset.mem_erase, Finset.mem_univ, and_true]
    constructor
    · rintro rfl
      exact hnot hv
    · rintro rfl
      simp [ht] at hv
  have hcard := Finset.card_le_card hsub
  rw [← h.called, Finset.card_erase_of_mem (Finset.mem_erase.mpr ⟨hu, Finset.mem_univ u⟩),
    Finset.card_erase_of_mem (Finset.mem_univ t), Finset.card_univ] at hcard
  have htwo := Fintype.one_lt_card_iff.mpr ⟨u, t, hu⟩
  have hneeded := h.needed
  omega

theorem Inv.call (h : Inv round s) {t : Thread} (ht : (s.threads t).ctrl = .outside) :
    ∃ round', Inv round' (barrierWait s t) := by
  have hround := h.threads t
  have hroom := h.room
  simp only [InRound, ht] at hround
  unfold barrierWait
  dsimp only
  split_ifs with hlast
  · have hothers : ∀ u, u ≠ t → broadcast s.threads u = { s.threads u with ctrl := .woken } := by
      intro u hu
      rw [broadcast, if_pos (h.all_waiting ht hlast hu)]
    refine ⟨round + 1, h.needed, by show 0 < s.needed; omega, ?_, ?_⟩
    · show 0 = Finset.card _
      symm
      rw [Finset.card_eq_zero, Finset.filter_eq_empty_iff]
      intro u _
      by_cases hu : u = t
      · subst hu
        simp [BarrierT.set]
      · simp [BarrierT.set, hu, hothers u hu]
    · intro u
      by_cases hu : u = t
      · subst hu
        simpa [BarrierT.set, InRound] using hround
      · have hold := h.threads u
        simp only [InRound, h.all_waiting ht hlast hu] at hold
        simpa [BarrierT.set, hu, hothers u hu, InRound] using hold
  · refine ⟨round, h.needed, by show s.called + 1 < s.needed; omega, ?_, ?_⟩
    · have hset : (Finset.univ.filter fun u => (Function.update s.threads t
          { ctrl := .waiting, calls := (s.threads t).calls + 1, returns := (s.threads t).returns } u).ctrl = .waiting) =
          insert t (Finset.univ.filter fun u => (s.threads u).ctrl = .waiting) := by
        ext u
        by_cases hu : u = t
        · subst hu
          simp
        · simp [hu]
      show s.called + 1 = Finset.card _
      rw [h.called, ← Finset.card_insert_of_notMem (a := t) (by simp [ht]), ← hset]
      rfl
    · intro u
      by_cases hu : u = t
      · subst hu
        simpa [BarrierT.set, InRound] using hround
      · simpa [BarrierT.set, hu] using h.threads u

/-- The step lemma: nothing but the broadcast wakes a thread. -/
theorem Inv.step (h : Inv round s) (hstep : Step false s s') : ∃ round', Inv round' s' := by
  cases hstep with
  | call t houtside => exact h.call houtside
  | wake t hspurious => exact absurd hspurious (by simp)
  | ret t hwoken =>
    have hround := h.threads t
    simp only [InRound, hwoken] at hround
    refine ⟨round, h.needed, h.room, ?_, ?_⟩
    · show s.called = _
      rw [h.called]
      refine congrArg Finset.card (Finset.filter_congr fun u _ => ?_)
      by_cases hu : u = t
      · subst hu
        simp [BarrierT.set, hwoken]
      · simp [BarrierT.set, hu]
    · intro u
      by_cases hu : u = t
      · subst hu
        simpa [BarrierT.set, InRound] using hround
      · simpa [BarrierT.set, hu] using h.threads u

omit [DecidableEq Thread] in
theorem inv_init [Nonempty Thread] : Inv 0 (barrierInit (Fintype.card Thread) : BarrierT Thread) where
  needed := rfl
  room := Fintype.card_pos
  called := by simp [barrierInit]
  threads t := by simp [barrierInit, InRound]

/-- The run lemma. -/
theorem inv_reachable [Nonempty Thread] (hs : Reachable false (Fintype.card Thread) s) : ∃ round, Inv round s := by
  induction hs with
  | refl => exact ⟨0, inv_init⟩
  | tail _ hstep ih =>
    obtain ⟨round, h⟩ := ih
    exact h.step hstep

/-- **Nobody is left behind**: without spurious wakeups the threads never all wait. -/
theorem exists_not_waiting [Nonempty Thread] (hs : Reachable false (Fintype.card Thread) s) :
    ∃ t, (s.threads t).ctrl ≠ .waiting := by
  obtain ⟨round, h⟩ := inv_reachable hs
  by_contra hall
  push Not at hall
  have hcard := h.called
  rw [Finset.filter_true_of_mem fun t _ => hall t, Finset.card_univ, ← h.needed] at hcard
  have hroom := h.room
  omega

/-- A thread that wakes up on its own is through before the others have come. -/
theorem exists_ahead {t u : Thread} (htu : t ≠ u) :
    ∃ s, Reachable true (Fintype.card Thread) s ∧ (s.threads u).calls < (s.threads t).returns := by
  have htwo := Fintype.one_lt_card_iff.mpr ⟨t, u, htu⟩
  have hcall : barrierWait (barrierInit (Fintype.card Thread)) t =
      BarrierT.set { barrierInit (Fintype.card Thread) with called := 1 } t
        { ctrl := .waiting, calls := 1, returns := 0 } := by
    rw [barrierWait, if_neg (by simp [barrierInit]; omega)]
    rfl
  have hwaiting : ((barrierWait (barrierInit (Fintype.card Thread)) t).threads t).ctrl = .waiting := by
    simp [hcall, BarrierT.set]
  refine ⟨_, (((Relation.ReflTransGen.refl.tail (.call t rfl)).tail (.wake t rfl hwaiting)).tail (.ret t ?_)), ?_⟩
  · simp [BarrierT.set]
  · rw [hcall]
    simp [BarrierT.set, barrierInit, htu.symm]

/-- **The barrier holds**, so that no thread comes back from its `k`-th call before all threads have made theirs, in
every run exactly if `pthread_cond_wait` never returns spuriously or there is one thread only. -/
theorem barrier_safe_iff (spurious : Bool) (Thread : Type) [DecidableEq Thread] [Fintype Thread] [Nonempty Thread] :
    (∀ s : BarrierT Thread, Reachable spurious (Fintype.card Thread) s →
      ∀ t u, (s.threads t).returns ≤ (s.threads u).calls) ↔ spurious = false ∨ Fintype.card Thread = 1 := by
  constructor
  · intro hsafe
    by_contra hnot
    obtain ⟨hspurious, hone⟩ := not_or.mp hnot
    have hpos : 0 < Fintype.card Thread := Fintype.card_pos
    obtain ⟨t, u, htu⟩ := Fintype.one_lt_card_iff.mp (show 1 < Fintype.card Thread by omega)
    obtain ⟨s, hs, hlt⟩ := exists_ahead htu
    rw [Bool.not_eq_false] at hspurious
    subst hspurious
    exact absurd (hsafe s hs t u) (not_le.mpr hlt)
  · rintro (rfl | hone) s hs t u
    · obtain ⟨round, h⟩ := inv_reachable hs
      exact h.returns_le t u
    · have hsub : Subsingleton Thread := Fintype.card_le_one_iff_subsingleton.mp hone.le
      obtain rfl := Subsingleton.elim t u
      have hlocal : ∀ t, (s.threads t).returns + (if (s.threads t).ctrl = .outside then 0 else 1) =
          (s.threads t).calls := by
        induction hs with
        | refl => simp [barrierInit]
        | @tail s s' _ hstep ih =>
          intro t
          have hold := ih t
          cases hstep with
          | call v houtside =>
            obtain rfl := Subsingleton.elim t v
            simp only [houtside, reduceIte] at hold
            unfold barrierWait
            dsimp only
            by_cases hlast : s.called + 1 = s.needed
            · simp only [if_pos hlast, BarrierT.set, Function.update_self, reduceIte]
              omega
            · simp only [if_neg hlast, BarrierT.set, Function.update_self, reduceCtorEq, reduceIte]
              omega
          | ret v hwoken =>
            obtain rfl := Subsingleton.elim t v
            simpa [BarrierT.set, hwoken] using hold
          | wake v _ hwaiting =>
            obtain rfl := Subsingleton.elim t v
            simpa [BarrierT.set, hwaiting] using hold
      have hle := hlocal t
      omega

theorem barrier_safe_iff_two :
    (∀ s : BarrierT (Fin 2), Reachable false (Fintype.card (Fin 2)) s →
      ∀ t u, (s.threads t).returns ≤ (s.threads u).calls) ∧
    ¬ ∀ s : BarrierT (Fin 2), Reachable true (Fintype.card (Fin 2)) s →
      ∀ t u, (s.threads t).returns ≤ (s.threads u).calls := by
  refine ⟨(barrier_safe_iff false (Fin 2)).mpr (.inl rfl), fun hsafe => ?_⟩
  rcases (barrier_safe_iff true (Fin 2)).mp hsafe with hspurious | hone
  · exact absurd hspurious (by simp)
  · exact absurd hone (by simp)

end

end HashingArchive.Join.Barrier
