import HashingArchive.Library.Loop
import HashingArchive.Library.Store

/-!
# Probing functions and the probe loop

The buckets of a table are a grid of slots. `ProbingFn` is the pair of probing functors of
`probing.hpp`, in `size_t` arithmetic (`% 2 ^ 64`). Every walk over the buckets of one key (insert and
lookup of `Probing`, lookup of `RobinhoodProbing`, both `lookup_statistics`) is `probeLoop`: visit the
slots of the bucket in order, then go on to the next bucket of the probe sequence, until a visit
answers or the sequence is back at its first bucket. `probeLoop_spec` says which visit answers.
-/

namespace HashingArchive.Hashtable

open HashingArchive.Loop

/-! ### Buckets -/

/-- `N` buckets of `B` slots each. -/
abbrev Grid (N B : ℕ) (S : Type) := Fin N → Fin B → S

namespace Grid
variable {N B : ℕ} {S : Type}

/-- Overwrite one slot. -/
def set (t : Grid N B S) (b : Fin N) (i : Fin B) (s : S) : Grid N B S :=
  fun b' i' => if b' = b ∧ i' = i then s else t b' i'

@[simp] theorem set_self (t : Grid N B S) (b : Fin N) (i : Fin B) (s : S) : t.set b i s b i = s := by
  simp [set]

theorem set_of_ne {t : Grid N B S} {b b' : Fin N} {i i' : Fin B} {s : S} (h : ¬ (b' = b ∧ i' = i)) :
    t.set b i s b' i' = t b' i' := by
  simp only [set, if_neg h]

/-- The sum of `f` over all slots. -/
def sum (t : Grid N B S) (f : S → ℕ) : ℕ := ∑ b, ∑ i, f (t b i)

theorem sum_set (t : Grid N B S) (b : Fin N) (i : Fin B) (s : S) (f : S → ℕ) :
    (t.set b i s).sum f + f (t b i) = t.sum f + f s := by
  have hrow : ∑ i', f (t.set b i s b i') + f (t b i) = ∑ i', f (t b i') + f s := by
    rw [← Finset.sum_erase_add _ _ (Finset.mem_univ i), ← Finset.sum_erase_add _ _ (Finset.mem_univ i),
      set_self, add_right_comm]
    congr 2
    apply Finset.sum_congr rfl
    intro i' hi'
    rw [set_of_ne fun h => (Finset.mem_erase.mp hi').1 h.2]
  simp only [sum]
  rw [← Finset.sum_erase_add (a := b) _ _ (Finset.mem_univ b),
    ← Finset.sum_erase_add (a := b) (f := fun b' => ∑ i', f (t b' i')) _ (Finset.mem_univ b)]
  have hrest : ∑ b' ∈ Finset.univ.erase b, ∑ i', f (t.set b i s b' i') =
      ∑ b' ∈ Finset.univ.erase b, ∑ i', f (t b' i') := by
    refine Finset.sum_congr rfl fun b' hb' => Finset.sum_congr rfl fun i' _ => ?_
    rw [set_of_ne fun h => (Finset.mem_erase.mp hb').1 h.1]
  omega

end Grid

/-! ### The probing functors -/

/-- `while (next >= directory_size) next -= directory_size`, in at most `fuel` rounds. -/
def subtractWhile (directorySize : ℕ) : ℕ → ℕ → ℕ
  | 0, next => next
  | fuel + 1, next =>
    if directorySize ≤ next then subtractWhile directorySize fuel (next - directorySize) else next

theorem subtractWhile_eq_mod {N : ℕ} (hN : 0 < N) (fuel next : ℕ) (hfuel : next ≤ fuel) :
    subtractWhile N fuel next = next % N := by
  induction fuel generalizing next with
  | zero =>
    obtain rfl : next = 0 := by omega
    simp [subtractWhile]
  | succ fuel ih =>
    rw [subtractWhile]
    split_ifs with h
    · rw [ih _ (by omega), ← Nat.mod_eq_sub_mod h]
    · rw [Nat.mod_eq_of_lt (by omega)]

def LinearProbingFunc (directorySize index probingStep : ℕ) : ℕ :=
  let next := (index + probingStep) % 2 ^ 64
  subtractWhile directorySize next next

/-- `fastmod` is the exact remainder, as the divider it is built from specifies. -/
def QuadraticProbingFunc (directorySize index probingStep : ℕ) : ℕ :=
  (index + probingStep * probingStep) % 2 ^ 64 % directorySize

inductive ProbingFn where
  | linear
  | quadratic
  deriving DecidableEq

namespace ProbingFn

def name : ProbingFn → String
  | linear => "linear"
  | quadratic => "quadratic"

def apply : ProbingFn → ℕ → ℕ → ℕ → ℕ
  | linear => LinearProbingFunc
  | quadratic => QuadraticProbingFunc

theorem apply_lt (f : ProbingFn) {N : ℕ} (hN : 0 < N) (index step : ℕ) : f.apply N index step < N := by
  cases f with
  | linear =>
    simp only [apply, LinearProbingFunc]
    rw [subtractWhile_eq_mod hN _ _ le_rfl]
    exact Nat.mod_lt _ hN
  | quadratic => exact Nat.mod_lt _ hN

/-- The bucket `step` probing steps away from the bucket `index`. -/
def probe (f : ProbingFn) {N : ℕ} (index : Fin N) (step : ℕ) : Fin N :=
  ⟨f.apply N index step, f.apply_lt index.pos index step⟩

theorem probe_linear {N : ℕ} (h : Fin N) (step : ℕ) :
    (linear.probe h step : ℕ) = (h + step) % 2 ^ 64 % N := by
  simp only [probe, apply, LinearProbingFunc]
  exact subtractWhile_eq_mod h.pos _ _ le_rfl

theorem probe_zero (f : ProbingFn) {N : ℕ} (hN : N ≤ 2 ^ 64) (h : Fin N) : f.probe h 0 = h := by
  have hmod : (h : ℕ) % 2 ^ 64 = h := Nat.mod_eq_of_lt (lt_of_lt_of_le h.isLt hN)
  apply Fin.ext
  cases f with
  | linear => rw [probe_linear, Nat.add_zero, hmod, Nat.mod_eq_of_lt h.isLt]
  | quadratic =>
    simp only [probe, apply, QuadraticProbingFunc]
    rw [Nat.mul_zero, Nat.add_zero, hmod, Nat.mod_eq_of_lt h.isLt]

/-- The probe loop from bucket `h` gets as far as `s` steps: it does not come back to `h` before. -/
def Reaches (f : ProbingFn) {N : ℕ} (h : Fin N) (s : ℕ) : Prop :=
  s < 2 ^ 64 ∧ ∀ j, 1 ≤ j → j ≤ s → f.probe h j ≠ h

theorem Reaches.zero (f : ProbingFn) {N : ℕ} (h : Fin N) : f.Reaches h 0 :=
  ⟨by norm_num, fun j hj hj' => by omega⟩

theorem Reaches.mono {f : ProbingFn} {N : ℕ} {h : Fin N} {s s' : ℕ} (hs : f.Reaches h s) (hle : s' ≤ s) :
    f.Reaches h s' :=
  ⟨lt_of_le_of_lt hle hs.1, fun j hj hj' => hs.2 j hj (by omega)⟩

/-- One more step, unless the loop is back at its first bucket. The step counter cannot wrap to `0`
on the way, since `0` steps lead to `h` itself. -/
theorem Reaches.succ {f : ProbingFn} {N : ℕ} (hN : N ≤ 2 ^ 64) {h : Fin N} {s : ℕ} (hs : f.Reaches h s)
    (hne : f.probe h ((s + 1) % 2 ^ 64) ≠ h) : f.Reaches h (s + 1) ∧ (s + 1) % 2 ^ 64 = s + 1 := by
  have hlt : s + 1 < 2 ^ 64 := by
    rcases Nat.lt_or_ge (s + 1) (2 ^ 64) with hlt | hge
    · exact hlt
    · have : s + 1 = 2 ^ 64 := by have := hs.1; omega
      rw [this, Nat.mod_self, f.probe_zero hN] at hne
      exact absurd rfl hne
  have hmod : (s + 1) % 2 ^ 64 = s + 1 := Nat.mod_eq_of_lt hlt
  rw [hmod] at hne
  refine ⟨⟨hlt, fun j hj hj' => ?_⟩, hmod⟩
  rcases Nat.lt_or_ge j (s + 1) with hj'' | hj''
  · exact hs.2 j hj (by omega)
  · rwa [show j = s + 1 by omega]

/-! ### Linear probing walks the whole directory -/

section linear
variable {N : ℕ} (hN : N ≤ 2 ^ 63) (h : Fin N)
include hN

theorem probe_linear_of_le {j : ℕ} (hj : j ≤ N) : (linear.probe h j : ℕ) = (h + j) % N := by
  have := h.isLt
  rw [probe_linear, Nat.mod_eq_of_lt (a := (h : ℕ) + j) (by omega)]

theorem probe_linear_eq_self_iff {j : ℕ} (hj : j ≤ N) : linear.probe h j = h ↔ j = 0 ∨ j = N := by
  have hlt := h.isLt
  rw [Fin.ext_iff, probe_linear_of_le hN h hj]
  constructor
  · intro heq
    rcases Nat.lt_or_ge (h + j) N with hsum | hsum
    · rw [Nat.mod_eq_of_lt hsum] at heq
      omega
    · rw [Nat.mod_eq_sub_mod hsum, Nat.mod_eq_of_lt (by omega)] at heq
      omega
  · rintro (rfl | rfl)
    · exact Nat.mod_eq_of_lt hlt
    · rw [Nat.add_mod_right, Nat.mod_eq_of_lt hlt]

/-- The loop gets to the last of the `N` buckets and no further. -/
theorem reaches_linear_iff {s : ℕ} : linear.Reaches h s ↔ s < N := by
  constructor
  · intro hs
    by_contra hge
    exact hs.2 N h.pos (by omega) ((probe_linear_eq_self_iff hN h le_rfl).mpr (Or.inr rfl))
  · refine fun hs => ⟨by omega, fun j hj hj' heq => ?_⟩
    have := (probe_linear_eq_self_iff hN h (by omega)).mp heq
    omega

/-- The steps from `h` to `b`. -/
theorem exists_probe_linear (b : Fin N) : ∃ j < N, linear.probe h j = b := by
  have hh := h.isLt
  have hb := b.isLt
  rcases Nat.lt_or_ge (b : ℕ) h with hlt | hge
  · refine ⟨b + N - h, by omega, Fin.ext ?_⟩
    rw [probe_linear_of_le hN h (by omega), show (h : ℕ) + (b + N - h) = b + N by omega,
      Nat.add_mod_right, Nat.mod_eq_of_lt hb]
  · refine ⟨b - h, by omega, Fin.ext ?_⟩
    rw [probe_linear_of_le hN h (by omega), show (h : ℕ) + (b - h) = b by omega, Nat.mod_eq_of_lt hb]

end linear

end ProbingFn

/-! ### Template parameters -/

/-- The template and constructor parameters `Probing` and `RobinhoodProbing` share. That the reducer
maps into the directory is part of its type. -/
structure Config (Key Hash : Type) where
  directorySize : ℕ
  directorySize_lt : directorySize < 2 ^ 64
  bucketSize : ℕ
  hashfn : Key → Hash
  reductionfn : Hash → Fin directorySize
  probingfn : ProbingFn
  sentinel : Key

namespace Config
variable {Key Hash : Type} (c : Config Key Hash)

/-- The home bucket of a key, `reductionfn(hashfn(key))`. -/
def home (key : Key) : Fin c.directorySize := c.reductionfn (c.hashfn key)

/-- The bucket a probe loop for `key` stands at after `step` steps. -/
abbrev bucketAt (key : Key) (step : ℕ) : Fin c.directorySize := c.probingfn.probe (c.home key) step

/-- The probe loop for `key` gets as far as `step` steps. -/
abbrev Reaches (key : Key) (step : ℕ) : Prop := c.probingfn.Reaches (c.home key) step

end Config

/-- No `std::vector` holds more elements than `PTRDIFF_MAX`, whatever their size; the constructors
throw for a longer directory. -/
def vectorMaxSize : ℕ := 2 ^ 63 - 1

/-! ### Small tables

Keys and buckets of a small table are numerals. One instance for each size serves every module. -/

scoped instance neZero_one : NeZero 1 := ⟨Nat.one_ne_zero⟩

scoped instance neZero_two : NeZero 2 := ⟨two_ne_zero⟩

scoped instance neZero_three : NeZero 3 := ⟨three_ne_zero⟩

scoped instance neZero_four : NeZero 4 := ⟨four_ne_zero⟩

scoped instance neZero_five : NeZero 5 := ⟨by decide⟩

theorem two_lt_two_pow : 2 < 2 ^ 64 := by norm_num

theorem three_lt_two_pow : 3 < 2 ^ 64 := by norm_num

/-! ### The probe loop -/

/-- Where a probe loop stands: its bucket, the steps taken, the next slot of the bucket. -/
structure Cursor (N : ℕ) where
  slotIndex : Fin N
  probingStep : ℕ
  i : ℕ

variable {N B : ℕ} {ρ : Type}

/-- One slot of the bucket, or the way on to the next bucket. `visit` answers for a slot, `cycle` is
the answer of a probe sequence that is back at `origSlotIndex`. -/
def probeBody (probingfn : ProbingFn) (origSlotIndex : Fin N) (visit : Fin N → ℕ → Fin B → Option ρ)
    (cycle : ρ) (c : Cursor N) : Pass (Cursor N) ρ :=
  if h : c.i < B then
    match visit c.slotIndex c.probingStep ⟨c.i, h⟩ with
    | some r => .leave r
    | none => .again { c with i := c.i + 1 }
  else
    let probingStep := (c.probingStep + 1) % 2 ^ 64
    let slotIndex := probingfn.probe origSlotIndex probingStep
    if slotIndex = origSlotIndex then .leave cycle
    else .again { slotIndex := slotIndex, probingStep := probingStep, i := 0 }

/-- The passes a probe loop can need: `probing_step` takes fewer than `2 ^ 64` values. -/
def probeBound (B : ℕ) : ℕ := 2 ^ 64 * (B + 1)

def probeLoop (probingfn : ProbingFn) (origSlotIndex : Fin N) (visit : Fin N → ℕ → Fin B → Option ρ)
    (cycle : ρ) : Option ρ :=
  Loop.run (probeBody probingfn origSlotIndex visit cycle) (probeBound B)
    { slotIndex := origSlotIndex, probingStep := 0, i := 0 }

/-- The visits before slot `i` of step `s` do not answer. -/
def Passed (f : ProbingFn) (h : Fin N) (visit : Fin N → ℕ → Fin B → Option ρ) (s i : ℕ) : Prop :=
  (∀ j < s, ∀ i', visit (f.probe h j) j i' = none) ∧
    ∀ i' : Fin B, (i' : ℕ) < i → visit (f.probe h s) s i' = none

/-- The answer of a probe loop: that of the first visit that has one, or `cycle` when the probe
sequence is back at its first bucket with no answer on the way. -/
inductive ProbeAnswer (f : ProbingFn) (h : Fin N) (visit : Fin N → ℕ → Fin B → Option ρ) (cycle : ρ) :
    ρ → Prop where
  | found (s : ℕ) (i : Fin B) (r : ρ) (hreach : f.Reaches h s) (hpassed : Passed f h visit s i)
      (hvisit : visit (f.probe h s) s i = some r) : ProbeAnswer f h visit cycle r
  | back (s : ℕ) (hreach : f.Reaches h s) (hpassed : Passed f h visit s B)
      (hback : f.probe h ((s + 1) % 2 ^ 64) = h) : ProbeAnswer f h visit cycle cycle

/-- **The probe loop ends** and answers as `ProbeAnswer` says. -/
theorem probeLoop_spec (f : ProbingFn) (hN : N ≤ 2 ^ 64) (h : Fin N)
    (visit : Fin N → ℕ → Fin B → Option ρ) (cycle : ρ) :
    ∃ r, probeLoop f h visit cycle = some r ∧ ProbeAnswer f h visit cycle r := by
  refine Loop.run_total (probeBody f h visit cycle)
    (fun c => c.slotIndex = f.probe h c.probingStep ∧ f.Reaches h c.probingStep ∧ c.i ≤ B ∧
      Passed f h visit c.probingStep c.i)
    (fun c => (2 ^ 64 - 1 - c.probingStep) * (B + 1) + (B - c.i)) _ ?_ _ _ ?_ ?_
  · rintro ⟨b, s, i⟩ ⟨hb, hreach, hi, hpassed⟩
    dsimp only at hb hreach hi hpassed
    subst hb
    unfold probeBody
    dsimp only
    split_ifs with hlt hback
    · cases hv : visit (f.probe h s) s ⟨i, hlt⟩ with
      | some r => exact .found s ⟨i, hlt⟩ r hreach hpassed hv
      | none =>
        refine ⟨⟨rfl, hreach, hlt, hpassed.1, fun i' hi' => ?_⟩, by dsimp only; omega⟩
        rcases Nat.lt_succ_iff_lt_or_eq.mp hi' with hi' | hi'
        · exact hpassed.2 i' hi'
        · rwa [show i' = ⟨i, hlt⟩ from Fin.ext hi']
    · obtain rfl : i = B := by omega
      exact .back s hreach hpassed hback
    · obtain ⟨hsucc, hmod⟩ := hreach.succ hN hback
      rw [hmod]
      refine ⟨⟨rfl, hsucc, Nat.zero_le _, fun j hj i' => ?_, fun i' hi' => by simp at hi'⟩, ?_⟩
      · rcases Nat.lt_succ_iff_lt_or_eq.mp hj with hj | rfl
        · exact hpassed.1 j hj i'
        · exact hpassed.2 i' (lt_of_lt_of_le i'.isLt (by omega))
      · have := hsucc.1
        have hstep : (2 ^ 64 - 1 - s) * (B + 1) = (2 ^ 64 - 1 - (s + 1)) * (B + 1) + (B + 1) := by
          rw [← Nat.succ_mul]; congr 1; omega
        dsimp only
        omega
  · exact ⟨(f.probe_zero hN h).symm, .zero f h, Nat.zero_le _, fun j hj => absurd hj (Nat.not_lt_zero _),
      fun i' hi' => absurd hi' (Nat.not_lt_zero _)⟩
  · simp only [probeBound]
    omega

end HashingArchive.Hashtable
