import HashingArchive.Library.Threads

/-!
# `counting_semaphore`

The sections of `aquire` and `release` that hold the mutex are the atomic steps of a system of threads. A thread
in `wait` is woken by a notification or spuriously, and then checks the counter again. In every reachable state the
counter and the permits held add up to `max_value`, so a release by a thread that holds a permit does not throw;
and while a thread waits, the counter is no larger than the number of notified threads on their way to it, so no
wakeup is lost (`Inv`).
-/

namespace HashingArchive.Convenience

open HashingArchive.Library

/-- Where a thread is: outside of the semaphore, in `wait`, or woken and about to check the counter again. -/
inductive Ctrl where
  | running
  | waiting
  | notified
  | awake
  deriving DecidableEq

/-- Where a thread is, and the permits it holds. -/
structure Local where
  ctrl : Ctrl
  held : ℕ
  deriving DecidableEq

structure CountingSemaphore (Thread : Type) where
  counter : ℕ
  threads : Thread → Local

/-! ### The code -/

section
variable {Thread : Type} [DecidableEq Thread]

/-- The counter becomes `n`, and the local state of the thread `t` becomes `l`. -/
def CountingSemaphore.set (s : CountingSemaphore Thread) (n : ℕ) (t : Thread) (l : Local) :
    CountingSemaphore Thread where
  counter := n
  threads := Function.update s.threads t l

/-- One pass of `aquire` under the mutex: `wait` while the counter is zero, else take a permit. -/
def aquire (s : CountingSemaphore Thread) (t : Thread) : CountingSemaphore Thread :=
  if s.counter = 0 then s.set s.counter t { ctrl := .waiting, held := (s.threads t).held }
  else s.set ((s.counter + 2 ^ 32 - 1) % 2 ^ 32) t { ctrl := .running, held := (s.threads t).held + 1 }

def releaseMessage : String := "Can not increase semaphore value by more than max_value - counter"

/-- `release` up to its notifications. -/
def release (max_value update : ℕ) (s : CountingSemaphore Thread) (t : Thread) :
    Except String (CountingSemaphore Thread) :=
  if (max_value + 2 ^ 32 - s.counter) % 2 ^ 32 < update then .error releaseMessage
  else
    .ok (s.set ((s.counter + update) % 2 ^ 32) t
      { ctrl := (s.threads t).ctrl, held := (s.threads t).held - update })

/-- `notify_one`: one of the waiting threads, if there are any. -/
inductive NotifyOne (s : CountingSemaphore Thread) : CountingSemaphore Thread → Prop where
  | nobody (hnone : ∀ t, (s.threads t).ctrl ≠ .waiting) : NotifyOne s s
  | somebody (t : Thread) (hwaiting : (s.threads t).ctrl = .waiting) :
      NotifyOne s (s.set s.counter t { ctrl := .notified, held := (s.threads t).held })

/-- The loop of `release` over its notifications. -/
inductive Notify : ℕ → CountingSemaphore Thread → CountingSemaphore Thread → Prop where
  | done (s : CountingSemaphore Thread) : Notify 0 s s
  | next {n : ℕ} {s s' s'' : CountingSemaphore Thread} (hone : NotifyOne s s') (hrest : Notify n s' s'') :
      Notify (n + 1) s s''

/-- The steps of the system. A thread that releases holds a permit. -/
inductive Step (max_value : ℕ) (s : CountingSemaphore Thread) : CountingSemaphore Thread → Prop where
  | aquire (t : Thread) (hrunning : (s.threads t).ctrl = .running) : Step max_value s (aquire s t)
  | recheck (t : Thread) (hwoken : (s.threads t).ctrl = .notified ∨ (s.threads t).ctrl = .awake) :
      Step max_value s (Convenience.aquire s t)
  | spurious (t : Thread) (hwaiting : (s.threads t).ctrl = .waiting) :
      Step max_value s (s.set s.counter t { ctrl := .awake, held := (s.threads t).held })
  | release (t : Thread) (hrunning : (s.threads t).ctrl = .running) (hheld : 1 ≤ (s.threads t).held)
      (s₁ s' : CountingSemaphore Thread) (hrelease : release max_value 1 s t = .ok s₁) (hnotify : Notify 1 s₁ s') :
      Step max_value s s'

/-- The semaphore as constructed, with no thread at it. -/
def initial (start_cnt : ℕ) : CountingSemaphore Thread where
  counter := start_cnt
  threads _ := { ctrl := .running, held := 0 }

/-- The states the system can get to from a semaphore whose counter starts at `max_value`. -/
def Reachable (max_value : ℕ) : CountingSemaphore Thread → Prop :=
  Relation.ReflTransGen (Step max_value) (initial max_value)

end

/-! ### The invariant -/

section
variable {Thread : Type} [Fintype Thread]

/-- The permits held by all threads. -/
def permits (s : CountingSemaphore Thread) : ℕ := ∑ t, (s.threads t).held

/-- The threads that have been notified and have not checked the counter again. -/
def notified (s : CountingSemaphore Thread) : ℕ := (Finset.univ.filter fun t => (s.threads t).ctrl = .notified).card

theorem notified_eq_sum (s : CountingSemaphore Thread) :
    notified s = ∑ t, if (s.threads t).ctrl = .notified then 1 else 0 := Finset.card_filter _ _

structure Inv (max_value : ℕ) (s : CountingSemaphore Thread) : Prop where
  total : s.counter + permits s = max_value
  awaited : (∃ t, (s.threads t).ctrl = .waiting) → s.counter ≤ notified s

variable [DecidableEq Thread]

theorem permits_set (s : CountingSemaphore Thread) (n : ℕ) (t : Thread) (l : Local) :
    permits (s.set n t l) + (s.threads t).held = permits s + l.held :=
  sum_update Local.held s.threads t l

theorem notified_set (s : CountingSemaphore Thread) (n : ℕ) (t : Thread) (l : Local) :
    notified (s.set n t l) + (if (s.threads t).ctrl = .notified then 1 else 0) =
      notified s + if l.ctrl = .notified then 1 else 0 := by
  rw [notified_eq_sum, notified_eq_sum]
  exact sum_update (fun l : Local => if l.ctrl = .notified then 1 else 0) s.threads t l

omit [Fintype Thread] in
/-- A thread that waits after the step of a thread that does not has waited before. -/
theorem waiting_of_set {s : CountingSemaphore Thread} {n : ℕ} {t : Thread} {l : Local} (hl : l.ctrl ≠ .waiting)
    (h : ∃ u, ((s.set n t l).threads u).ctrl = .waiting) : ∃ u, (s.threads u).ctrl = .waiting := by
  obtain ⟨u, hu⟩ := h
  refine ⟨u, ?_⟩
  simp only [CountingSemaphore.set] at hu
  by_cases hut : u = t
  · subst hut
    rw [Function.update_self] at hu
    exact absurd hu hl
  · rwa [Function.update_of_ne hut] at hu

omit [DecidableEq Thread] in
theorem permits_le (s : CountingSemaphore Thread) (t : Thread) : (s.threads t).held ≤ permits s :=
  Finset.single_le_sum (f := fun t => (s.threads t).held) (fun _ _ => Nat.zero_le _) (Finset.mem_univ t)

variable {max_value : ℕ} {s s' : CountingSemaphore Thread}

/-! ### The steps -/

section
variable (hmax : max_value < 2 ^ 32)
include hmax

theorem Inv.aquire (h : Inv max_value s) (t : Thread) : Inv max_value (aquire s t) := by
  have htotal := h.total
  unfold Convenience.aquire
  split_ifs with hzero
  · have hpermits := permits_set s s.counter t { ctrl := .waiting, held := (s.threads t).held }
    dsimp only at hpermits
    exact ⟨by show s.counter + _ = _; omega, fun _ => by show s.counter ≤ _; omega⟩
  · have hcounter : (s.counter + 2 ^ 32 - 1) % 2 ^ 32 = s.counter - 1 := by
      rw [show s.counter + 2 ^ 32 - 1 = s.counter - 1 + 2 ^ 32 by omega, Nat.add_mod_right,
        Nat.mod_eq_of_lt (by omega)]
    rw [hcounter]
    have hpermits := permits_set s (s.counter - 1) t { ctrl := .running, held := (s.threads t).held + 1 }
    have hnotified := notified_set s (s.counter - 1) t { ctrl := .running, held := (s.threads t).held + 1 }
    refine ⟨?_, fun hwaiting => ?_⟩
    · show s.counter - 1 + _ = _
      dsimp only at hpermits
      omega
    · -- the permit may go to a notified thread or to one that barges in
      have hle := h.awaited (waiting_of_set (by simp) hwaiting)
      show s.counter - 1 ≤ _
      rw [if_neg (show Ctrl.running ≠ Ctrl.notified by simp)] at hnotified
      split_ifs at hnotified <;> omega

/-- A thread that holds a permit can release it. -/
theorem Inv.release_eq (h : Inv max_value s) {t : Thread} (hheld : 1 ≤ (s.threads t).held) :
    release max_value 1 s t =
      .ok (s.set (s.counter + 1) t { ctrl := (s.threads t).ctrl, held := (s.threads t).held - 1 }) := by
  have htotal := h.total
  have hle := permits_le s t
  unfold release
  rw [show max_value + 2 ^ 32 - s.counter = max_value - s.counter + 2 ^ 32 by omega, Nat.add_mod_right,
    Nat.mod_eq_of_lt (show max_value - s.counter < 2 ^ 32 by omega), if_neg (by omega),
    Nat.mod_eq_of_lt (show s.counter + 1 < 2 ^ 32 by omega)]

/-- Every release wakes a thread while one waits, so the notified threads are as many as the counter asks for. -/
theorem Inv.release (h : Inv max_value s) {t : Thread} (hrunning : (s.threads t).ctrl = .running)
    (hheld : 1 ≤ (s.threads t).held) {s₁ : CountingSemaphore Thread}
    (hrelease : Convenience.release max_value 1 s t = .ok s₁) (hnotify : Notify 1 s₁ s') : Inv max_value s' := by
  have htotal := h.total
  rw [h.release_eq hmax hheld] at hrelease
  have hpermits := permits_set s (s.counter + 1) t { ctrl := (s.threads t).ctrl, held := (s.threads t).held - 1 }
  have hnotified := notified_set s (s.counter + 1) t { ctrl := (s.threads t).ctrl, held := (s.threads t).held - 1 }
  rw [Except.ok.inj hrelease] at hpermits hnotified
  have hbefore : (∃ u, (s₁.threads u).ctrl = .waiting) → ∃ u, (s.threads u).ctrl = .waiting := by
    rw [← Except.ok.inj hrelease]
    exact waiting_of_set (by simp [hrunning])
  have hcounter : s₁.counter = s.counter + 1 := by rw [← Except.ok.inj hrelease]; rfl
  obtain _ | ⟨hone, hrest⟩ := hnotify
  cases hrest
  dsimp only at hpermits hnotified
  rw [hrunning] at hnotified
  cases hone with
  | nobody hnone => exact ⟨by omega, fun ⟨u, hu⟩ => absurd hu (hnone u)⟩
  | somebody u hu =>
    have hpermits' := permits_set s₁ s₁.counter u { ctrl := .notified, held := (s₁.threads u).held }
    have hnotified' := notified_set s₁ s₁.counter u { ctrl := .notified, held := (s₁.threads u).held }
    have hle := h.awaited (hbefore ⟨u, hu⟩)
    dsimp only at hpermits' hnotified'
    rw [hu] at hnotified'
    refine ⟨?_, fun _ => ?_⟩
    · show s₁.counter + _ = _
      omega
    · show s₁.counter ≤ _
      simp at hnotified hnotified'
      omega

/-- The step lemma. -/
theorem Inv.step (h : Inv max_value s) (hstep : Step max_value s s') : Inv max_value s' := by
  cases hstep with
  | aquire t hrunning => exact h.aquire hmax t
  | recheck t hwoken => exact h.aquire hmax t
  | spurious t hwaiting =>
    have hpermits := permits_set s s.counter t { ctrl := .awake, held := (s.threads t).held }
    have hnotified := notified_set s s.counter t { ctrl := .awake, held := (s.threads t).held }
    have htotal := h.total
    dsimp only at hpermits hnotified
    rw [hwaiting] at hnotified
    refine ⟨?_, fun hw => ?_⟩
    · show s.counter + _ = _
      omega
    · have hle := h.awaited (waiting_of_set (by simp) hw)
      show s.counter ≤ _
      simp at hnotified
      omega
  | release t hrunning hheld s₁ s' hrelease hnotify => exact h.release hmax hrunning hheld hrelease hnotify

omit hmax [DecidableEq Thread] in
theorem inv_initial : Inv max_value (initial max_value : CountingSemaphore Thread) where
  total := by simp [initial, permits]
  awaited h := by
    obtain ⟨t, ht⟩ := h
    exact absurd ht (by simp [initial])

/-- The run lemma. -/
theorem inv_reachable (hs : Reachable max_value s) : Inv max_value s := by
  induction hs with
  | refl => exact inv_initial
  | tail _ hstep ih => exact ih.step hmax hstep

end

/-- **The semaphore is safe and loses no wakeup**, in every reachable state of any number of threads. -/
theorem semaphore_safe (max_value : ℕ) (hmax : max_value < 2 ^ 32) (s : CountingSemaphore Thread)
    (hs : Reachable max_value s) :
    s.counter + permits s = max_value ∧
    (Finset.univ.filter fun t => 0 < (s.threads t).held).card ≤ max_value ∧
    (∀ t, 1 ≤ (s.threads t).held → ∃ s', release max_value 1 s t = .ok s') ∧
    ¬ ((∃ t, (s.threads t).ctrl = .waiting) ∧
      (Finset.univ.filter fun t => (s.threads t).ctrl = .notified).card < s.counter) := by
  have h := inv_reachable hmax hs
  refine ⟨h.total, ?_, fun t hheld => ⟨_, h.release_eq hmax hheld⟩, fun ⟨hwaiting, hlt⟩ => ?_⟩
  · have hle := card_pos_le_sum fun t => (s.threads t).held
    have htotal := h.total
    exact hle.trans (by show permits s ≤ _; omega)
  · exact absurd (h.awaited hwaiting) (not_le.mpr hlt)

end

/-- With one permit for two threads the second one waits, and is notified by the release of the first. -/
theorem semaphore_safe_two_threads :
    let waiting : CountingSemaphore (Fin 2) := aquire (aquire (initial 1) 0) 1
    let released : CountingSemaphore (Fin 2) := waiting.set 1 0 { ctrl := .running, held := 0 }
    let s : CountingSemaphore (Fin 2) := released.set 1 1 { ctrl := .notified, held := 0 }
    (waiting.threads 1).ctrl = .waiting ∧ release 1 1 waiting 0 = .ok released ∧ s.counter + permits s = 1 := by
  intro waiting released s
  have hwaiting : (waiting.threads 1).ctrl = .waiting := rfl
  have hrelease : release 1 1 waiting 0 = .ok released := if_neg (by decide)
  have hreachable : Reachable 1 waiting :=
    (Relation.ReflTransGen.refl.tail (.aquire 0 rfl)).tail (.aquire 1 rfl)
  refine ⟨hwaiting, hrelease, (semaphore_safe 1 (by norm_num) s ?_).1⟩
  exact hreachable.tail (.release 0 rfl le_rfl released s hrelease (.next (.somebody 1 rfl) (.done s)))

end HashingArchive.Convenience
