import Mathlib

/-!
# Chains of pointers

`Walk next p l` follows the pointers `next` from `p` over the nodes `l` to a null pointer. A walk depends on the
pointers of its own nodes only (`Walk.frame`), and there is one at most from every pointer (`Walk.unique`).
-/

namespace HashingArchive.Library

variable {α : Type*} {next next' : α → Option α} {p : Option α} {l l' : List α}

/-- Following `next` from `p` visits the nodes `l` and ends. -/
def Walk (next : α → Option α) : Option α → List α → Prop
  | p, [] => p = none
  | p, a :: l => p = some a ∧ Walk next (next a) l

@[simp] theorem walk_nil : Walk next p [] ↔ p = none := Iff.rfl

@[simp] theorem walk_cons {a : α} : Walk next p (a :: l) ↔ p = some a ∧ Walk next (next a) l := Iff.rfl

theorem Walk.head? (h : Walk next p l) : l.head? = p := by
  cases l with
  | nil => exact h.symm
  | cons a l => exact h.1.symm

/-- The nodes of a walk keep their pointers, so it stays a walk. -/
theorem Walk.frame (h : Walk next p l) (hsame : ∀ a ∈ l, next' a = next a) : Walk next' p l := by
  induction l generalizing p with
  | nil => exact h
  | cons a l ih =>
    refine ⟨h.1, ?_⟩
    rw [hsame a List.mem_cons_self]
    exact ih h.2 fun b hb => hsame b (List.mem_cons_of_mem a hb)

theorem Walk.unique (h : Walk next p l) (h' : Walk next p l') : l = l' := by
  induction l generalizing p l' with
  | nil =>
    obtain rfl : p = none := h
    cases l' with
    | nil => rfl
    | cons a l' => exact absurd h'.1 (by simp)
  | cons a l ih =>
    obtain ⟨rfl, hl⟩ := h
    cases l' with
    | nil => exact absurd h' (by simp)
    | cons b l' =>
      obtain ⟨hb, hl'⟩ := h'
      obtain rfl := Option.some.inj hb
      rw [ih hl hl']

end HashingArchive.Library
