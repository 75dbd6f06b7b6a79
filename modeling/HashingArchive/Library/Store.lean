import Mathlib

/-!
# Key-value stores, their runs and what a history says

A store answers `insert`, `lookup` and `clear`. A run turns a list of operations into the history of
what was asked and answered, latest event first, and the state it ends in. `firstWrite` and
`lastWrite` read a payload off a history alone: the first (last) insert of a key since the last
clear. `firstWriter` and `lastWriter` are the two abstract maps a hash table may implement, and
`run_refines` carries a relation between two stores along a run that does not throw.
-/

namespace HashingArchive.Library

/-- What a call comes back with. `diverged` stands for a call that never comes back. -/
inductive Outcome (α : Type*) where
  | value (a : α)
  | thrown (what : String)
  | diverged
  deriving DecidableEq

/-- A lookup answers with the value that `S` holds of, and with none if it holds of no value. -/
structure Answers {ν : Type*} (S : ν → Prop) (x : Outcome (Option ν)) : Prop where
  stored : ∀ v, S v → x = .value (some v)
  absent : (∀ v, ¬ S v) → x = .value none

namespace Answers

variable {ν : Type*} {S S' : ν → Prop} {x x' : Outcome (Option ν)}

theorem eq_value (h : Answers S x) {a : Option ν} (hS : ∀ v, S v ↔ a = some v) : x = .value a := by
  cases a with
  | some v => exact h.stored v ((hS v).mpr rfl)
  | none => exact h.absent fun v hv => absurd ((hS v).mp hv) (by simp)

/-- Where a value is added at most, the answer is that value or what it was. -/
theorem after_insert (h : Answers S x) (h' : Answers S' x') {hit : Prop} [Decidable hit] {v : ν}
    (hS : ∀ q, S' q ↔ S q ∨ hit ∧ q = v) : x' = if hit then .value (some v) else x := by
  split_ifs with hhit
  · exact h'.stored v ((hS v).mpr (Or.inr ⟨hhit, rfl⟩))
  · by_cases hex : ∃ q, S q
    · obtain ⟨q, hq⟩ := hex
      rw [h.stored q hq, h'.stored q ((hS q).mpr (Or.inl hq))]
    · have hnone : ∀ q, ¬ S q := not_exists.mp hex
      rw [h.absent hnone, h'.absent]
      intro q hq
      rcases (hS q).mp hq with hq | ⟨hhit', -⟩
      · exact hnone q hq
      · exact hhit hhit'

end Answers

inductive Op (κ ν : Type*) where
  | insert (key : κ) (payload : ν)
  | lookup (key : κ)
  | clear
  deriving DecidableEq

/-- An operation together with its answer. -/
inductive Event (κ ν β : Type*) where
  | insert (key : κ) (payload : ν) (reply : Outcome β)
  | lookup (key : κ) (reply : Outcome (Option ν))
  | clear
  deriving DecidableEq

/-- What has happened to a store, latest event first. -/
abbrev History (κ ν β : Type*) := List (Event κ ν β)

structure Store (σ κ ν β : Type*) where
  insert : σ → κ → ν → Outcome β × σ
  lookup : σ → κ → Outcome (Option ν)
  clear : σ → σ

variable {σ τ κ ν β : Type*}

/-- No key of the operation satisfies `P`. -/
def Op.Avoids (P : κ → Prop) : Op κ ν → Prop
  | .insert k _ => ¬ P k
  | .lookup k => ¬ P k
  | .clear => True

instance (P : κ → Prop) [DecidablePred P] (op : Op κ ν) : Decidable (op.Avoids P) :=
  match op with
  | .insert k _ => inferInstanceAs (Decidable (¬ P k))
  | .lookup k => inferInstanceAs (Decidable (¬ P k))
  | .clear => inferInstanceAs (Decidable True)

/-- The event is an insert that threw. -/
def Event.Throws : Event κ ν β → Prop
  | .insert _ _ (.thrown _) => True
  | _ => False

instance (e : Event κ ν β) : Decidable e.Throws :=
  match e with
  | .insert _ _ (.thrown _) => inferInstanceAs (Decidable True)
  | .insert _ _ (.value _) => inferInstanceAs (Decidable False)
  | .insert _ _ .diverged => inferInstanceAs (Decidable False)
  | .lookup _ _ => inferInstanceAs (Decidable False)
  | .clear => inferInstanceAs (Decidable False)

@[simp] theorem Event.throws_insert (k : κ) (p : ν) (r : Outcome β) :
    (Event.insert k p r).Throws ↔ ∃ what, r = .thrown what := by
  cases r <;> simp [Event.Throws]

@[simp] theorem Event.not_throws_lookup (k : κ) (r : Outcome (Option ν)) :
    ¬ (Event.lookup k r : Event κ ν β).Throws := id

@[simp] theorem Event.not_throws_clear : ¬ (Event.clear : Event κ ν β).Throws := id

/-! ### Reading a history -/

section
variable [DecidableEq κ]

/-- The payload of the first insert of `key` since the last clear, among those whose reply is
accepted. -/
def firstWrite (accepted : Outcome β → Bool) (key : κ) : History κ ν β → Option ν
  | [] => none
  | .clear :: _ => none
  | .lookup _ _ :: h => firstWrite accepted key h
  | .insert k p r :: h =>
    match firstWrite accepted key h with
    | some q => some q
    | none => if k = key ∧ accepted r then some p else none

/-- The payload of the last insert of `key` since the last clear. -/
def lastWrite (key : κ) : History κ ν β → Option ν
  | [] => none
  | .clear :: _ => none
  | .lookup _ _ :: h => lastWrite key h
  | .insert k p _ :: h => if k = key then some p else lastWrite key h

/-- The number of inserts since the last clear whose reply is accepted. -/
def acceptedInserts (accepted : Outcome β → Bool) : History κ ν β → ℕ
  | [] => 0
  | .clear :: _ => 0
  | .lookup _ _ :: h => acceptedInserts accepted h
  | .insert _ _ r :: h => acceptedInserts accepted h + if accepted r then 1 else 0

theorem firstWrite_insert_some {accepted : Outcome β → Bool} {key k : κ} {p q : ν} {r : Outcome β}
    {h : History κ ν β} (hq : firstWrite accepted key h = some q) :
    firstWrite accepted key (.insert k p r :: h) = some q := by
  rw [firstWrite, hq]

theorem firstWrite_insert_none {accepted : Outcome β → Bool} {key k : κ} {p : ν} {r : Outcome β}
    {h : History κ ν β} (hn : firstWrite accepted key h = none) :
    firstWrite accepted key (.insert k p r :: h) =
      if k = key ∧ accepted r then some p else none := by
  rw [firstWrite, hn]

/-- An insert that is not accepted writes nothing. -/
theorem firstWrite_rejected {accepted : Outcome β → Bool} {r : Outcome β} (hr : accepted r = false)
    (key k : κ) (p : ν) (h : History κ ν β) :
    firstWrite accepted key (.insert k p r :: h) = firstWrite accepted key h := by
  cases hk : firstWrite accepted key h with
  | some q => exact firstWrite_insert_some hk
  | none => rw [firstWrite_insert_none hk, hr]; simp

/-- An accepted insert adds its key if that is not yet written, and nothing else. -/
theorem firstWrite_insert_iff {accepted : Outcome β → Bool} {r : Outcome β} (hr : accepted r = true)
    (h : History κ ν β) (k : κ) (p : ν) (key : κ) (q : ν) :
    firstWrite accepted key (.insert k p r :: h) = some q ↔
      firstWrite accepted key h = some q ∨ (key = k ∧ q = p ∧ firstWrite accepted k h = none) := by
  cases hk : firstWrite accepted key h with
  | some q' =>
    rw [firstWrite_insert_some hk]
    refine (or_iff_left ?_).symm
    rintro ⟨rfl, -, hn⟩
    rw [hk] at hn
    exact absurd hn (by simp)
  | none =>
    rw [firstWrite_insert_none hk, hr]
    by_cases hkey : key = k
    · subst hkey
      simp [hk, eq_comm]
    · simp [hkey, Ne.symm hkey]

theorem firstWrite_accepted_iff {accepted : Outcome β → Bool} {r : Outcome β} (hr : accepted r = true)
    {k : κ} {h : History κ ν β} (hn : firstWrite accepted k h = none) (key : κ) (p q : ν) :
    firstWrite accepted key (.insert k p r :: h) = some q ↔
      firstWrite accepted key h = some q ∨ (key = k ∧ q = p) := by
  rw [firstWrite_insert_iff hr, hn]
  simp

end

/-! ### Runs -/

namespace Store

/-- One operation: the event it leaves behind and the next state. -/
def step (m : Store σ κ ν β) (s : σ) : Op κ ν → Event κ ν β × σ
  | .insert k p => (.insert k p (m.insert s k p).1, (m.insert s k p).2)
  | .lookup k => (.lookup k (m.lookup s k), s)
  | .clear => (.clear, m.clear s)

/-- The operations in the order given, from the state `s`. -/
def run (m : Store σ κ ν β) (s : σ) (ops : List (Op κ ν)) : History κ ν β × σ :=
  ops.foldl (fun x op => ((m.step x.2 op).1 :: x.1, (m.step x.2 op).2)) ([], s)

variable (m : Store σ κ ν β) (s : σ)

@[simp] theorem run_nil : m.run s [] = ([], s) := rfl

theorem run_concat (ops : List (Op κ ν)) (op : Op κ ν) :
    m.run s (ops ++ [op]) =
      ((m.step (m.run s ops).2 op).1 :: (m.run s ops).1, (m.step (m.run s ops).2 op).2) := by
  simp [run]

variable {m s}

/-- **Runs by their last step.** What holds at the start and is kept by every step with an operation
that is `ok` holds after every run of such operations. -/
theorem run_induction (ok : Op κ ν → Prop) (P : History κ ν β → σ → Prop) (hstart : P [] s)
    (hstep : ∀ h t op, ok op → P h t → P ((m.step t op).1 :: h) (m.step t op).2)
    (ops : List (Op κ ν)) (hops : ∀ op ∈ ops, ok op) : P (m.run s ops).1 (m.run s ops).2 := by
  induction ops using List.reverseRecOn with
  | nil => exact hstart
  | append_singleton ops op ih =>
    rw [run_concat]
    exact hstep _ _ op (hops op (by simp)) (ih fun x hx => hops x (by simp [hx]))

/-- **Runs that get somewhere.** If from every state with `P` that is not yet `Q` one operation keeps `P` and gets to
`Q` or makes the measure fall, then some run gets to `Q`. -/
theorem exists_run_of_measure {P Q : σ → Prop} (measure : σ → ℕ)
    (hstep : ∀ t, P t → ¬ Q t → ∃ op, P (m.step t op).2 ∧ (Q (m.step t op).2 ∨ measure (m.step t op).2 < measure t))
    (ops : List (Op κ ν)) (hstart : P (m.run s ops).2) : ∃ ops, P (m.run s ops).2 ∧ Q (m.run s ops).2 := by
  induction hn : measure (m.run s ops).2 using Nat.strong_induction_on generalizing ops with
  | _ n ih =>
    by_cases hQ : Q (m.run s ops).2
    · exact ⟨ops, hstart, hQ⟩
    · obtain ⟨op, hP, hcases⟩ := hstep _ hstart hQ
      have hrun : (m.run s (ops ++ [op])).2 = (m.step (m.run s ops).2 op).2 := by rw [run_concat]
      rw [← hrun] at hP hcases
      rcases hcases with hQ' | hlt
      · exact ⟨_, hP, hQ'⟩
      · exact ih _ (hn ▸ hlt) _ hP rfl

/-- A run has all events of the runs it continues. -/
theorem mem_run_of_prefix {ops₁ ops : List (Op κ ν)} (hpre : ops₁ <+: ops) {e : Event κ ν β}
    (he : e ∈ (m.run s ops₁).1) : e ∈ (m.run s ops).1 := by
  obtain ⟨rest, rfl⟩ := hpre
  induction rest using List.reverseRecOn with
  | nil => rwa [List.append_nil]
  | append_singleton rest op ih =>
    rw [← List.append_assoc, run_concat]
    exact List.mem_cons_of_mem _ ih

/-- **Refinement along a run.** If every step that does not throw gives the same event in both stores
and keeps the relation, then a run that does not throw has the same history in both. -/
theorem run_refines {n : Store τ κ ν β} {a : τ} {ok : Op κ ν → Prop} {R : σ → τ → Prop}
    (hstart : R s a)
    (hstep : ∀ t b op, ok op → R t b → ¬ (m.step t op).1.Throws →
      (m.step t op).1 = (n.step b op).1 ∧ R (m.step t op).2 (n.step b op).2)
    (ops : List (Op κ ν)) (hops : ∀ op ∈ ops, ok op) (hthrow : ∀ e ∈ (m.run s ops).1, ¬ e.Throws) :
    (m.run s ops).1 = (n.run a ops).1 ∧ R (m.run s ops).2 (n.run a ops).2 := by
  induction ops using List.reverseRecOn with
  | nil => exact ⟨rfl, hstart⟩
  | append_singleton ops op ih =>
    rw [run_concat] at hthrow
    obtain ⟨hhist, hrel⟩ := ih (fun x hx => hops x (by simp [hx]))
      (fun e he => hthrow e (List.mem_cons_of_mem _ he))
    obtain ⟨hev, hrel'⟩ := hstep _ _ op (hops op (by simp)) hrel (hthrow _ (by simp))
    rw [run_concat, run_concat]
    exact ⟨by rw [hev, hhist], hrel'⟩

end Store

/-! ### The two abstract maps -/

section
variable [DecidableEq κ]

/-- The insert-only map: the first writer wins, a later insert of the same key is refused. -/
def firstWriter : Store (κ → Option ν) κ ν Bool where
  insert a k p :=
    if (a k).isSome then (.value false, a) else (.value true, Function.update a k (some p))
  lookup a k := .value (a k)
  clear _ := fun _ => none

/-- The overwriting map: the last writer wins. -/
def lastWriter : Store (κ → Option ν) κ ν Unit where
  insert a k p := (.value (), Function.update a k (some p))
  lookup a k := .value (a k)
  clear _ := fun _ => none

/-- The insert-only map holds what its history says was written first. -/
theorem firstWriter_state (ops : List (Op κ ν)) (key : κ) :
    (firstWriter.run (fun _ => none) ops).2 key =
      firstWrite (fun _ => true) key (firstWriter.run (fun _ => none) ops).1 := by
  refine Store.run_induction (fun _ => True)
    (fun h (a : κ → Option ν) => a key = firstWrite (fun _ => true) key h) rfl ?_ ops
    (fun _ _ => trivial)
  intro h a op _ ih
  cases op with
  | insert k p =>
    cases hk : firstWrite (fun _ => true) key h with
    | some q =>
      rw [hk] at ih
      simp only [Store.step, firstWriter]
      rw [firstWrite_insert_some hk]
      split_ifs with hsome
      · exact ih
      · have hne : key ≠ k := by rintro rfl; simp [ih] at hsome
        simpa [Function.update_of_ne hne] using ih
    | none =>
      rw [hk] at ih
      simp only [Store.step, firstWriter]
      rw [firstWrite_insert_none hk]
      by_cases hkey : k = key
      · subst hkey; simp [ih]
      · have hne : key ≠ k := fun he => hkey he.symm
        split_ifs <;> simp_all
  | lookup k => exact ih
  | clear => rfl

/-- The overwriting map holds what its history says was written last. -/
theorem lastWriter_state (ops : List (Op κ ν)) (key : κ) :
    (lastWriter.run (fun _ => none) ops).2 key =
      lastWrite key (lastWriter.run (fun _ => none) ops).1 := by
  refine Store.run_induction (fun _ => True)
    (fun h (a : κ → Option ν) => a key = lastWrite key h) rfl ?_ ops (fun _ _ => trivial)
  intro h a op _ ih
  cases op with
  | insert k p =>
    simp only [Store.step, lastWriter, lastWrite]
    by_cases hkey : k = key
    · subst hkey; simp
    · rw [if_neg hkey, Function.update_of_ne (Ne.symm hkey), ih]
  | lookup k => exact ih
  | clear => rfl

end

end HashingArchive.Library
