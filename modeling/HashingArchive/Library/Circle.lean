import Mathlib

/-!
# Keys on a circle of buckets

`N` buckets of size `B` stand in a circle. Every key of a finite set has a home and goes forward from there
to the bucket it ends up in, past full buckets only (`Packed`). What comes to a bucket stays there or
goes past it, and nothing goes past a bucket that is not full, so the homes alone determine how many keys go
past each bucket once one bucket lets nobody past (`Packed.crossing_eq`). With that the loads and
the sum of the distances are determined (`Packed.load_eq`, `Packed.sum_dist_eq`). If in addition no key goes
past another one that is closer to its own home (`HomeSorted`), the largest distance is the smallest
there can be (`Packed.exists_dist_le`).
-/

namespace HashingArchive.Circle

variable {N : ℕ}

/-! ### Distances -/

/-- The steps from `a` forward to `b`. -/
def dist (a b : Fin N) : ℕ := (b + (N - a)) % N

/-- The next bucket. -/
def succ (b : Fin N) : Fin N := ⟨(b + 1) % N, Nat.mod_lt _ b.pos⟩

theorem dist_eq (a b : Fin N) : dist a b = if a.val ≤ b.val then b.val - a.val else b.val + N - a.val := by
  have ha := a.isLt
  have hb := b.isLt
  unfold dist
  split_ifs with h
  · rw [show b.val + (N - a.val) = b.val - a.val + N by omega, Nat.add_mod_right, Nat.mod_eq_of_lt (by omega)]
  · rw [Nat.mod_eq_of_lt (by omega)]
    omega

theorem succ_val (b : Fin N) : (succ b).val = if b.val + 1 = N then 0 else b.val + 1 := by
  have hb := b.isLt
  change (b.val + 1) % N = _
  split_ifs with h
  · rw [h, Nat.mod_self]
  · exact Nat.mod_eq_of_lt (by omega)

theorem dist_lt (a b : Fin N) : dist a b < N := Nat.mod_lt _ a.pos

@[simp] theorem dist_self (a : Fin N) : dist a a = 0 := by
  rw [dist_eq, if_pos le_rfl, Nat.sub_self]

theorem dist_inj {a b b' : Fin N} (h : dist a b = dist a b') : b = b' := by
  have ha := a.isLt
  have hb := b.isLt
  have hb' := b'.isLt
  rw [dist_eq, dist_eq] at h
  apply Fin.ext
  split_ifs at h <;> omega

theorem exists_dist (a : Fin N) {d : ℕ} (hd : d < N) : ∃ b, dist a b = d := by
  have ha := a.isLt
  rcases Nat.lt_or_ge (a.val + d) N with hlt | hge
  · refine ⟨⟨a + d, hlt⟩, ?_⟩
    rw [dist_eq]
    dsimp only
    split_ifs <;> omega
  · refine ⟨⟨a + d - N, by omega⟩, ?_⟩
    rw [dist_eq]
    dsimp only
    split_ifs <;> omega

/-- A key gets as far as the next bucket if it is at home there or goes past this one. -/
theorem dist_succ_le_iff (a b : Fin N) (d : ℕ) :
    dist a (succ b) ≤ d ↔ a = succ b ∨ dist a b < d := by
  have ha := a.isLt
  have hb := b.isLt
  rw [dist_eq, dist_eq, Fin.ext_iff, succ_val]
  split_ifs <;> omega

theorem not_dist_lt_of_eq_succ {a b : Fin N} {d : ℕ} (hd : d < N) (h : a = succ b) : ¬ dist a b < d := by
  have hb := b.isLt
  have hval := congrArg Fin.val h
  rw [succ_val] at hval
  rw [dist_eq]
  split_ifs at hval ⊢ <;> omega

theorem exists_succ_eq (b : Fin N) : ∃ b', succ b' = b := by
  have hb := b.isLt
  rcases Nat.eq_zero_or_pos b.val with hzero | hpos
  · refine ⟨⟨N - 1, by omega⟩, Fin.ext ?_⟩
    rw [succ_val]
    dsimp only
    split_ifs <;> omega
  · refine ⟨⟨b - 1, by omega⟩, Fin.ext ?_⟩
    rw [succ_val]
    dsimp only
    split_ifs <;> omega

theorem dist_of_dist_succ {a b : Fin N} {d : ℕ} (h : dist a (succ b) = d + 1) : dist a b = d := by
  have ha := a.isLt
  have hb := b.isLt
  rw [dist_eq, succ_val] at h
  rw [dist_eq]
  split_ifs at h ⊢ <;> omega

/-- One step forward is one step closer. -/
theorem dist_succ_lt {a b : Fin N} (h : a ≠ b) : dist (succ a) b < dist a b := by
  have ha := a.isLt
  have hb := b.isLt
  have hval := Fin.val_ne_of_ne h
  rw [dist_eq, dist_eq, succ_val]
  split_ifs <;> omega

/-- What has come from `g` to `p` with at least the distance from `h` has come through `h`. -/
theorem dist_add_dist {g h p : Fin N} (hle : dist h p ≤ dist g p) : dist g h + dist h p = dist g p := by
  have hg := g.isLt
  have hh := h.isLt
  have hp := p.isLt
  rw [dist_eq, dist_eq] at hle
  rw [dist_eq, dist_eq, dist_eq]
  split_ifs at hle ⊢ <;> omega

/-- What comes from `g` through `h` to `p`. -/
theorem dist_le_of_dist_le {g h p : Fin N} (hle : dist g h ≤ dist g p) : dist h p ≤ dist g p := by
  have hg := g.isLt
  have hh := h.isLt
  have hp := p.isLt
  rw [dist_eq, dist_eq] at hle
  rw [dist_eq, dist_eq]
  split_ifs at hle ⊢ <;> omega

theorem card_dist_lt (a : Fin N) {d : ℕ} (hd : d ≤ N) : (Finset.univ.filter fun b => dist a b < d).card = d := by
  have himage : (Finset.univ.filter fun b => dist a b < d).card = (Finset.range d).card := by
    refine Finset.card_bij (fun b _ => dist a b) (fun b hb => ?_) (fun b _ b' _ h => dist_inj h) fun e he => ?_
    · exact Finset.mem_range.mpr (Finset.mem_filter.mp hb).2
    · rw [Finset.mem_range] at he
      obtain ⟨b, rfl⟩ := exists_dist a (lt_of_lt_of_le he hd)
      exact ⟨b, Finset.mem_filter.mpr ⟨Finset.mem_univ b, he⟩, rfl⟩
  rw [himage, Finset.card_range]

/-! ### Loads and crossings -/

section
variable {κ : Type*} (K : Finset κ) (home pos : κ → Fin N)

/-- How many keys are at `b`. -/
def load (b : Fin N) : ℕ := (K.filter fun k => pos k = b).card

/-- How many keys go past `b`. -/
def crossing (b : Fin N) : ℕ := (K.filter fun k => dist (home k) b < dist (home k) (pos k)).card

/-- How many keys come to `b`. -/
def arrivals (b : Fin N) : ℕ := (K.filter fun k => dist (home k) b ≤ dist (home k) (pos k)).card

theorem card_filter_or {p q : κ → Prop} [DecidablePred p] [DecidablePred q] (hdisj : ∀ k, p k → ¬ q k) :
    (K.filter fun k => p k ∨ q k).card = (K.filter p).card + (K.filter q).card := by
  classical
  rw [Finset.filter_or, Finset.card_union_of_disjoint]
  exact Finset.disjoint_filter.mpr fun k _ => hdisj k

/-- What comes to a bucket stays or goes past it. -/
theorem arrivals_eq (b : Fin N) : arrivals K home pos b = load K pos b + crossing K home pos b := by
  rw [arrivals, load, crossing, ← card_filter_or]
  · refine congrArg Finset.card (Finset.filter_congr fun k _ => ?_)
    rw [le_iff_eq_or_lt]
    refine or_congr_left ⟨fun h => (dist_inj h).symm, ?_⟩
    rintro rfl
    rfl
  · rintro k rfl
    exact lt_irrefl _

/-- What comes to the next bucket is at home there or has gone past this one. -/
theorem arrivals_succ (b : Fin N) :
    arrivals K home pos (succ b) = load K home (succ b) + crossing K home pos b := by
  rw [arrivals, load, crossing, ← card_filter_or]
  · exact congrArg Finset.card (Finset.filter_congr fun k _ => dist_succ_le_iff _ b _)
  · exact fun k h => not_dist_lt_of_eq_succ (dist_lt _ _) h

/-- A key goes past as many buckets as it has steps from home. -/
theorem sum_dist_eq_sum_crossing : ∑ k ∈ K, dist (home k) (pos k) = ∑ b, crossing K home pos b := by
  have hcount := Finset.sum_card_bipartiteAbove_eq_sum_card_bipartiteBelow (s := K) (t := Finset.univ)
    fun k b => dist (home k) b < dist (home k) (pos k)
  refine (Finset.sum_congr rfl fun k _ => ?_).trans hcount
  exact (card_dist_lt (home k) (dist_lt _ _).le).symm

end

/-! ### Packed keys -/

/-- No bucket holds more than `B` keys, keys go past full buckets only, and some bucket lets nobody past. -/
structure Packed {κ : Type*} (B : ℕ) (K : Finset κ) (home pos : κ → Fin N) : Prop where
  room : ∀ b, load K pos b ≤ B
  passed : ∀ k ∈ K, ∀ b, dist (home k) b < dist (home k) (pos k) → load K pos b = B
  closed : ∃ z, ∀ k ∈ K, ¬ dist (home k) z < dist (home k) (pos k)

section
variable {κ : Type*} {B : ℕ} {K : Finset κ} {home pos pos' : κ → Fin N}

/-- The keys that come to a bucket and find no room go past it. -/
theorem Packed.crossing_succ (h : Packed B K home pos) (b : Fin N) :
    crossing K home pos (succ b) = crossing K home pos b + load K home (succ b) - B := by
  have hflow := (arrivals_eq K home pos (succ b)).symm.trans (arrivals_succ K home pos b)
  have hroom := h.room (succ b)
  rcases Nat.eq_zero_or_pos (crossing K home pos (succ b)) with hzero | hpos
  · omega
  · obtain ⟨k, hk⟩ := Finset.card_pos.mp hpos
    rw [Finset.mem_filter] at hk
    have hfull := h.passed k hk.1 (succ b) hk.2
    omega

/-- More keys past one bucket are more keys past every bucket behind it. -/
theorem Packed.crossing_le (h : Packed B K home pos) (h' : Packed B K home pos') {z : Fin N}
    (hz : crossing K home pos z ≤ crossing K home pos' z) (b : Fin N) :
    crossing K home pos b ≤ crossing K home pos' b := by
  have hall : ∀ d b, dist z b = d → crossing K home pos b ≤ crossing K home pos' b := by
    intro d
    induction d with
    | zero =>
      intro b hb
      obtain rfl : z = b := dist_inj ((dist_self z).trans hb.symm)
      exact hz
    | succ d ih =>
      intro b hb
      obtain ⟨b, rfl⟩ := exists_succ_eq b
      have hle := ih b (dist_of_dist_succ hb)
      rw [h.crossing_succ, h'.crossing_succ]
      omega
  exact hall _ b rfl

theorem Packed.exists_crossing_eq_zero (h : Packed B K home pos) : ∃ z, crossing K home pos z = 0 := by
  obtain ⟨z, hz⟩ := h.closed
  exact ⟨z, Finset.card_eq_zero.mpr (Finset.filter_eq_empty_iff.mpr fun k hk => hz k hk)⟩

/-- **The homes determine the crossings.** -/
theorem Packed.crossing_eq (h : Packed B K home pos) (h' : Packed B K home pos') (b : Fin N) :
    crossing K home pos b = crossing K home pos' b := by
  obtain ⟨z, hz⟩ := h.exists_crossing_eq_zero
  obtain ⟨z', hz'⟩ := h'.exists_crossing_eq_zero
  apply le_antisymm
  · exact h.crossing_le h' (hz ▸ Nat.zero_le _) b
  · exact h'.crossing_le h (hz' ▸ Nat.zero_le _) b

theorem Packed.arrivals_eq (h : Packed B K home pos) (h' : Packed B K home pos') (b : Fin N) :
    arrivals K home pos b = arrivals K home pos' b := by
  obtain ⟨b, rfl⟩ := exists_succ_eq b
  rw [arrivals_succ, arrivals_succ, h.crossing_eq h']

theorem Packed.load_eq (h : Packed B K home pos) (h' : Packed B K home pos') (b : Fin N) :
    load K pos b = load K pos' b := by
  have harrive := h.arrivals_eq h' b
  have hcross := h.crossing_eq h' b
  rw [Circle.arrivals_eq, Circle.arrivals_eq] at harrive
  omega

theorem Packed.sum_dist_eq (h : Packed B K home pos) (h' : Packed B K home pos') :
    ∑ k ∈ K, dist (home k) (pos k) = ∑ k ∈ K, dist (home k) (pos' k) := by
  rw [sum_dist_eq_sum_crossing, sum_dist_eq_sum_crossing]
  exact Finset.sum_congr rfl fun b _ => h.crossing_eq h' b

/-! ### Robin hood order -/

/-- Whatever a key goes past is at least as far from its own home as the key is there. -/
def HomeSorted (K : Finset κ) (home pos : κ → Fin N) : Prop :=
  ∀ k ∈ K, ∀ e ∈ K, dist (home k) (pos e) < dist (home k) (pos k) → dist (home k) (pos e) ≤ dist (home e) (pos e)

/-- The keys at the buckets less than `d` steps from `a`. -/
theorem card_filter_dist_lt (K : Finset κ) (pos : κ → Fin N) (a : Fin N) (d : ℕ) :
    (K.filter fun k => dist a (pos k) < d).card = ∑ b ∈ Finset.univ.filter fun b => dist a b < d, load K pos b := by
  rw [Finset.card_eq_sum_card_fiberwise (f := pos) (t := Finset.univ.filter fun b => dist a b < d)]
  · refine Finset.sum_congr rfl fun b hb => congrArg Finset.card ?_
    rw [Finset.filter_filter]
    apply Finset.filter_congr
    intro k _
    constructor
    · exact fun h => h.2
    · rintro rfl
      exact ⟨(Finset.mem_filter.mp hb).2, rfl⟩
  · intro k hk
    exact Finset.mem_filter.mpr ⟨Finset.mem_univ _, (Finset.mem_filter.mp hk).2⟩

/-- **Robin hood order has the smallest largest distance.** -/
theorem Packed.exists_dist_le (h : Packed B K home pos) (hsorted : HomeSorted K home pos)
    (h' : Packed B K home pos') {k : κ} (hk : k ∈ K) : ∃ e ∈ K, dist (home k) (pos k) ≤ dist (home e) (pos' e) := by
  by_contra hless
  push Not at hless
  have hlt := dist_lt (home k) (pos k)
  -- in robin hood order the buckets `k` goes past are full of keys that have come through its home
  have hmany : dist (home k) (pos k) * B + 1 ≤ arrivals K home pos (home k) := by
    have hfull : (K.filter fun e => dist (home k) (pos e) < dist (home k) (pos k)).card =
        dist (home k) (pos k) * B := by
      rw [card_filter_dist_lt, Finset.sum_congr rfl fun b hb => h.passed k hk b (Finset.mem_filter.mp hb).2,
        Finset.sum_const, card_dist_lt _ hlt.le, smul_eq_mul]
    rw [← hfull]
    refine Finset.card_lt_card (Finset.ssubset_iff_of_subset (fun e he => ?_) |>.mpr ⟨k, ?_, ?_⟩)
    · rw [Finset.mem_filter] at he ⊢
      have hadd := dist_add_dist (hsorted k hk e he.1 he.2)
      exact ⟨he.1, by omega⟩
    · exact Finset.mem_filter.mpr ⟨hk, by rw [dist_self]; exact Nat.zero_le _⟩
    · exact fun hmem => lt_irrefl _ (Finset.mem_filter.mp hmem).2
  -- in the other order those keys are all in fewer buckets
  have hfew : arrivals K home pos' (home k) ≤ dist (home k) (pos k) * B := by
    have hroom : (K.filter fun e => dist (home k) (pos' e) < dist (home k) (pos k)).card ≤
        dist (home k) (pos k) * B := by
      rw [card_filter_dist_lt]
      refine (Finset.sum_le_card_nsmul _ _ B fun b _ => h'.room b).trans (le_of_eq ?_)
      rw [card_dist_lt _ hlt.le, smul_eq_mul]
    refine (Finset.card_le_card fun e he => ?_).trans hroom
    rw [Finset.mem_filter] at he ⊢
    exact ⟨he.1, (dist_le_of_dist_le he.2).trans_lt (hless e he.1)⟩
  rw [h.arrivals_eq h'] at hmany
  omega

end

end HashingArchive.Circle
