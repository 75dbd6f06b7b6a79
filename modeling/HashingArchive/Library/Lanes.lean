import Mathlib

/-!
# Vector lanes under masks

Vectors of `V` lanes, masks over them, and the operations that move masked lanes about: `compress`
packs the lanes of a mask to the front, `expand` spreads the front of a vector over them. What a
vector holds under a mask is the list `lanes m v`, in lane order. Two vectors that together hold no more
than `V` lanes go into one (`lanes_expand_low`), and a vector fills up from another that holds enough
(`ofFn_expand_perm`, `lanes_drop`). `noConflict` keeps one lane of each value, and `scatter` writes the lanes
to memory.
-/

namespace HashingArchive.Lanes

variable {V : ℕ} {α β : Type*}

abbrev Mask (V : ℕ) := Fin V → Bool

def noLanes (V : ℕ) : Mask V := fun _ => false

def allLanes (V : ℕ) : Mask V := fun _ => true

/-- The lowest `n` lanes. -/
def low (V n : ℕ) : Mask V := fun i => decide (i.val < n)

def knot (m : Mask V) : Mask V := fun i => !m i

def kand (m m' : Mask V) : Mask V := fun i => m i && m' i

/-- The lanes of `m'` that are not in `m`. -/
def kandn (m m' : Mask V) : Mask V := fun i => !m i && m' i

/-- The mask as a number, shifted right. -/
def kshiftr (m : Mask V) (s : ℕ) : Mask V := fun i => if h : i.val + s < V then m ⟨i + s, h⟩ else false

/-! ### What a vector holds -/

/-- The lanes of a mask, lowest first. -/
def indices (m : Mask V) : List (Fin V) := (List.finRange V).filter m

def popcnt (m : Mask V) : ℕ := (indices m).length

/-- What the lanes of a mask hold. -/
def lanes (m : Mask V) (v : Fin V → α) : List α := (indices m).map v

/-- How many lanes of the mask are below lane `i`. -/
def rank (m : Mask V) (i : Fin V) : ℕ := ((indices m).filter (· < i)).length

theorem mem_indices {m : Mask V} {i : Fin V} : i ∈ indices m ↔ m i = true := by
  simp [indices]

theorem indices_sorted (m : Mask V) : (indices m).Pairwise (· < ·) :=
  (List.pairwise_lt_finRange V).filter _

@[simp] theorem length_lanes (m : Mask V) (v : Fin V → α) : (lanes m v).length = popcnt m :=
  List.length_map _

@[simp] theorem lanes_allLanes (v : Fin V → α) : lanes (allLanes V) v = List.ofFn v := by
  have hall : indices (allLanes V) = List.finRange V := List.filter_eq_self.mpr fun _ _ => rfl
  rw [lanes, hall, List.ofFn_eq_map]

theorem popcnt_le (m : Mask V) : popcnt m ≤ V := by
  have hle := List.length_filter_le m (List.finRange V)
  rwa [List.length_finRange] at hle

theorem popcnt_eq_zero_iff {m : Mask V} : popcnt m = 0 ↔ m = noLanes V := by
  rw [popcnt, List.length_eq_zero_iff, indices, List.filter_eq_nil_iff]
  constructor
  · intro h
    funext i
    exact Bool.eq_false_iff.mpr (h i (List.mem_finRange i))
  · rintro rfl
    simp [noLanes]

/-- What a vector holds depends on the lanes of the mask only. -/
theorem lanes_congr {m : Mask V} {v w : Fin V → α} (h : ∀ i, m i = true → v i = w i) : lanes m v = lanes m w :=
  List.map_congr_left fun i hi => h i (mem_indices.mp hi)

theorem rank_lt (m : Mask V) (i : Fin V) : rank m i < V := by
  have hsub : (indices m).filter (· < i) = (List.finRange V).filter fun j => decide (j < i) && m j := by
    rw [indices, List.filter_filter]
  have hne : i ∉ (List.finRange V).filter fun j => decide (j < i) && m j := by simp
  have hlt : ((List.finRange V).filter fun j => decide (j < i) && m j).length < (List.finRange V).length := by
    rw [List.length_filter_lt_length_iff_exists]
    exact ⟨i, List.mem_finRange i, by simp⟩
  rw [rank, hsub]
  rwa [List.length_finRange] at hlt

/-- In a sorted list the numbers of smaller elements are `0, 1, 2, ...`. -/
theorem map_length_filter_lt {γ : Type*} [LinearOrder γ] {l : List γ} (h : l.Pairwise (· < ·)) :
    l.map (fun x => (l.filter (· < x)).length) = List.range l.length := by
  induction l with
  | nil => rfl
  | cons a l ih =>
    rw [List.pairwise_cons] at h
    have hhead : (List.filter (· < a) (a :: l)).length = 0 := by
      rw [List.length_eq_zero_iff, List.filter_eq_nil_iff]
      intro x hx
      rcases List.mem_cons.mp hx with rfl | hx
      · simp
      · simpa using (h.1 x hx).le
    have htail : ∀ x ∈ l, (List.filter (· < x) (a :: l)).length = (l.filter (· < x)).length + 1 := by
      intro x hx
      rw [List.filter_cons_of_pos (by simpa using h.1 x hx), List.length_cons]
    rw [List.map_cons, hhead, List.map_congr_left htail, List.length_cons, List.range_succ_eq_map, ← ih h.2,
      List.map_map]
    rfl

/-- The ranks of the lanes of a mask. -/
theorem map_rank (m : Mask V) : (indices m).map (rank m) = List.range (popcnt m) :=
  map_length_filter_lt (indices_sorted m)

/-! ### Parts of a mask -/

theorem indices_kand (q m : Mask V) : indices (kand q m) = (indices m).filter q := by
  rw [indices, indices, List.filter_filter]
  rfl

/-- What the lanes of a part hold and what the others hold. -/
theorem lanes_kandn_perm {m m' : Mask V} (hsub : ∀ i, m' i = true → m i = true) (v : Fin V → α) :
    (lanes m v).Perm (lanes m' v ++ lanes (kandn m' m) v) := by
  have hpart : indices m' = (indices m).filter m' := by
    rw [← indices_kand]
    congr 1
    funext i
    cases hi : m' i with
    | false => simp [kand, hi]
    | true => simp [kand, hi, hsub i hi]
  have hrest : indices (kandn m' m) = (indices m).filter fun i => !m' i := indices_kand (knot m') m
  rw [lanes, lanes, lanes, hpart, hrest, ← List.map_append]
  exact (List.filter_append_perm m' (indices m)).symm.map v

theorem filter_lanes_eq_nil {m : Mask V} {v : Fin V → α} {p : α → Bool} (h : ∀ i, m i = true → p (v i) = false) :
    (lanes m v).filter p = [] := by
  rw [List.filter_eq_nil_iff]
  intro x hx
  obtain ⟨i, hi, rfl⟩ := List.mem_map.mp hx
  rw [h i (mem_indices.mp hi)]
  exact Bool.false_ne_true

theorem filter_lanes_eq_singleton {m : Mask V} {v : Fin V → α} {p : α → Bool} {i : Fin V} (hi : m i = true)
    (hp : p (v i) = true) (honly : ∀ j, m j = true → p (v j) = true → j = i) : (lanes m v).filter p = [v i] := by
  have hnodup : ((indices m).filter (p ∘ v)).Nodup :=
    ((indices_sorted m).imp fun h => h.ne).filter _
  have hperm : ((indices m).filter (p ∘ v)).Perm [i] := by
    apply (List.perm_ext_iff_of_nodup hnodup (List.nodup_singleton i)).mpr
    intro j
    rw [List.mem_filter, mem_indices, List.mem_singleton]
    constructor
    · exact fun h => honly j h.1 h.2
    · rintro rfl
      exact ⟨hi, hp⟩
  rw [lanes, List.filter_map, List.perm_singleton.mp hperm, List.map_singleton]

/-- What the lanes of `q` add up to, lane by lane. -/
theorem sum_lanes_kand (q m : Mask V) (v : Fin V → α) (g : α → ℕ) :
    ((lanes (kand q m) v).map g).sum = ((indices m).map fun i => if q i = true then g (v i) else 0).sum := by
  rw [List.sum_map_ite, lanes, indices_kand, List.map_map]
  simp only [Bool.decide_eq_true, List.map_const', List.sum_replicate, smul_zero, add_zero]
  rfl

theorem sum_lanes (m : Mask V) (v : Fin V → α) (g : α → ℕ) :
    ((lanes m v).map g).sum = ((indices m).map fun i => g (v i)).sum := by
  rw [lanes, List.map_map]
  rfl

theorem popcnt_kand (q m : Mask V) :
    popcnt (kand q m) = ((indices m).map fun i => if q i = true then 1 else 0).sum := by
  have hsum := sum_lanes_kand q m (fun i => i) fun _ => 1
  rw [List.map_const', List.sum_replicate, length_lanes, smul_eq_mul, mul_one] at hsum
  exact hsum

/-! ### Packed vectors -/

/-- The lanes `0, ..., n - 1` come first. -/
theorem val_lt_of_mem_take {n : ℕ} {i : Fin V} (hi : i ∈ (List.finRange V).take n) : i.val < n := by
  obtain ⟨j, hj, rfl⟩ := List.mem_take_iff_getElem.mp hi
  simp only [List.getElem_finRange, Fin.val_cast]
  omega

theorem le_val_of_mem_drop {n : ℕ} {i : Fin V} (hi : i ∈ (List.finRange V).drop n) : n ≤ i.val := by
  obtain ⟨j, hj, rfl⟩ := List.mem_drop_iff_getElem.mp hi
  simp only [List.getElem_finRange, Fin.val_cast]
  omega

theorem filter_low {n : ℕ} {l : List (Fin V)} (h : ∀ i ∈ l, i.val < n) : l.filter (low V n) = l :=
  List.filter_eq_self.mpr fun i hi => decide_eq_true (h i hi)

theorem filter_knot_low {n : ℕ} {l : List (Fin V)} (h : ∀ i ∈ l, n ≤ i.val) : l.filter (knot (low V n)) = l := by
  apply List.filter_eq_self.mpr
  intro i hi
  simpa [knot, low] using h i hi

theorem filter_low_eq_nil {n : ℕ} {l : List (Fin V)} (h : ∀ i ∈ l, n ≤ i.val) : l.filter (low V n) = [] := by
  apply List.filter_eq_nil_iff.mpr
  intro i hi
  simpa [low] using h i hi

theorem filter_knot_low_eq_nil {n : ℕ} {l : List (Fin V)} (h : ∀ i ∈ l, i.val < n) :
    l.filter (knot (low V n)) = [] := by
  apply List.filter_eq_nil_iff.mpr
  intro i hi
  simpa [knot, low] using h i hi

theorem indices_low (n : ℕ) : indices (low V n) = (List.finRange V).take n := by
  rw [indices, ← List.take_append_drop n (List.finRange V), List.filter_append,
    filter_low fun _ => val_lt_of_mem_take, filter_low_eq_nil fun _ => le_val_of_mem_drop, List.append_nil,
    List.take_append_drop]

theorem indices_knot_low (n : ℕ) : indices (knot (low V n)) = (List.finRange V).drop n := by
  rw [indices, ← List.take_append_drop n (List.finRange V), List.filter_append,
    filter_knot_low_eq_nil fun _ => val_lt_of_mem_take, filter_knot_low fun _ => le_val_of_mem_drop,
    List.nil_append, List.take_append_drop]

theorem indices_low_knot_low {s t : ℕ} (hst : s ≤ t) :
    indices (kand (low V t) (knot (low V s))) = ((List.finRange V).take t).drop s := by
  have hand : indices (kand (low V t) (knot (low V s))) = (indices (low V t)).filter (knot (low V s)) := by
    rw [indices, indices, List.filter_filter]
    apply List.filter_congr
    intro i _
    rw [kand, Bool.and_comm]
  have htake : ((List.finRange V).take t).take s = (List.finRange V).take s := by
    rw [List.take_take, min_eq_left hst]
  have hrest : ∀ i ∈ ((List.finRange V).take t).drop s, s ≤ i.val := by
    intro i hi
    rw [List.drop_take] at hi
    exact le_val_of_mem_drop (List.mem_of_mem_take hi)
  have hfilter : (((List.finRange V).take t).take s ++ ((List.finRange V).take t).drop s).filter (knot (low V s)) =
      ((List.finRange V).take t).drop s := by
    rw [List.filter_append, htake, filter_knot_low_eq_nil fun _ => val_lt_of_mem_take, List.nil_append,
      filter_knot_low hrest]
  rw [List.take_append_drop] at hfilter
  rw [hand, indices_low, hfilter]

theorem popcnt_knot (m : Mask V) : popcnt (knot m) = V - popcnt m := by
  have hsum := (List.filter_append_perm m (List.finRange V)).length_eq
  rw [List.length_append, List.length_finRange] at hsum
  simp only [popcnt, indices]
  exact Nat.eq_sub_of_add_eq' hsum

theorem popcnt_low {n : ℕ} (hn : n ≤ V) : popcnt (low V n) = n := by
  rw [popcnt, indices_low, List.length_take, List.length_finRange, min_eq_left hn]

/-- A packed vector holds its first lanes. -/
theorem lanes_low (n : ℕ) (v : Fin V → α) : lanes (low V n) v = (List.ofFn v).take n := by
  rw [lanes, indices_low, List.map_take, List.ofFn_eq_map]

/-- Lane `i` of the result is the `i`-th lane of the mask, the rest is zeroed. -/
def compress (m : Mask V) (v : Fin V → α) (zero : α) : Fin V → α := fun i => (lanes m v).getD i zero

/-- The lanes of the mask get the first lanes of `a`, the others keep those of `src`. -/
def expand (src : Fin V → α) (m : Mask V) (a : Fin V → α) : Fin V → α :=
  fun i => if m i then a ⟨rank m i, rank_lt m i⟩ else src i

/-- **Compressing** keeps what the vector holds, in order. -/
theorem lanes_compress (m : Mask V) (v : Fin V → α) (zero : α) :
    lanes (low V (popcnt m)) (compress m v zero) = lanes m v := by
  rw [lanes_low]
  apply List.ext_getElem
  · rw [List.length_take, List.length_ofFn, length_lanes, min_eq_left (popcnt_le m)]
  · intro i h₁ h₂
    rw [List.getElem_take, List.getElem_ofFn]
    exact (List.getElem_eq_getD zero).symm

/-- The `j`-th lane of a mask has rank `j`. -/
theorem rank_getElem (m : Mask V) {j : ℕ} (hj : j < (indices m).length) : rank m (indices m)[j] = j := by
  have hmap := congrArg (·[j]?) (map_rank m)
  simpa [popcnt, hj] using hmap

/-- The lanes behind the first `t` have the ranks `0, 1, 2, ...`. -/
theorem rank_knot_low {t : ℕ} {i : Fin V} (hi : t ≤ i) : rank (knot (low V t)) i = i - t := by
  have hlen : i - t < (indices (knot (low V t))).length := by
    rw [indices_knot_low, List.length_drop, List.length_finRange]
    omega
  have hget : (indices (knot (low V t)))[i - t] = i := by
    apply Fin.ext
    simp only [indices_knot_low, List.getElem_drop, List.getElem_finRange, Fin.val_cast]
    omega
  have hrank := rank_getElem (knot (low V t)) hlen
  rwa [hget] at hrank

/-- **Expanding behind a packed vector** appends: what the second one holds goes behind the first. -/
theorem lanes_expand_low {t : ℕ} {m : Mask V} (v w : Fin V → α) (zero : α) (hroom : popcnt m + t ≤ V) :
    lanes (low V (popcnt m + t)) (expand w (knot (low V t)) (compress m v zero)) =
      lanes (low V t) w ++ lanes m v := by
  rw [lanes_low, lanes_low]
  apply List.ext_getElem
  · rw [List.length_take, List.length_ofFn, List.length_append, List.length_take, List.length_ofFn, length_lanes]
    omega
  · intro i h₁ h₂
    rw [List.length_take, List.length_ofFn] at h₁
    rw [List.getElem_take, List.getElem_ofFn, List.getElem_append, expand]
    split_ifs with hm hlt hlt
    · rw [List.length_take, List.length_ofFn] at hlt
      simp [knot, low] at hm
      omega
    · rw [List.length_take, List.length_ofFn, min_eq_left (by omega)] at hlt
      have hrank : rank (knot (low V t)) ⟨i, by omega⟩ = i - t := rank_knot_low (by simpa using hlt)
      simp only [compress, hrank, List.length_take, List.length_ofFn, min_eq_left (show t ≤ V by omega)]
      exact (List.getElem_eq_getD zero).symm
    · rw [List.getElem_take, List.getElem_ofFn]
    · rw [List.length_take, List.length_ofFn, min_eq_left (by omega)] at hlt
      simp [knot, low] at hm
      omega

/-- **Expanding into the free lanes** of a vector fills it up from the front of the other. -/
theorem ofFn_expand_perm (m : Mask V) (v w : Fin V → α) :
    (List.ofFn (expand v (knot m) w)).Perm (lanes m v ++ (List.ofFn w).take (V - popcnt m)) := by
  have hkept : (indices m).map (expand v (knot m) w) = lanes m v := by
    apply List.map_congr_left
    intro i hi
    rw [expand, knot, mem_indices.mp hi]
    rfl
  have hfilled : (indices (knot m)).map (expand v (knot m) w) = (List.ofFn w).take (V - popcnt m) := by
    apply List.ext_getElem
    · rw [List.length_map, List.length_take, List.length_ofFn, ← popcnt, popcnt_knot]
      omega
    · intro j h₁ h₂
      rw [List.length_map] at h₁
      have hmem := mem_indices.mp (List.getElem_mem h₁)
      rw [List.getElem_map, List.getElem_take, List.getElem_ofFn, expand, hmem, if_pos rfl]
      exact congrArg w (Fin.ext (rank_getElem (knot m) h₁))
  have hperm := (List.filter_append_perm m (List.finRange V)).map (expand v (knot m) w)
  rw [List.map_append, ← List.ofFn_eq_map] at hperm
  rw [← hkept, ← hfilled]
  exact hperm.symm

/-- Two vectors are compressed as one vector of pairs. -/
theorem compress_pair (m : Mask V) (v : Fin V → α) (w : Fin V → β) (zv : α) (zw : β) :
    (fun i => (compress m v zv i, compress m w zw i)) = compress m (fun i => (v i, w i)) (zv, zw) := by
  funext i
  simp only [compress, lanes, List.getD_eq_getElem?_getD, List.getElem?_map]
  cases (indices m)[i.val]? <;> rfl

theorem expand_pair (m : Mask V) (v a : Fin V → α) (w b : Fin V → β) :
    (fun i => (expand v m a i, expand w m b i)) = expand (fun i => (v i, w i)) m fun i => (a i, b i) := by
  funext i
  simp only [expand]
  split_ifs <;> rfl

/-- What is left of a packed vector without its first lanes. -/
theorem lanes_drop {s t : ℕ} (hst : s ≤ t) (v : Fin V → α) :
    lanes (kand (low V t) (knot (low V s))) v = ((List.ofFn v).take t).drop s := by
  rw [lanes, indices_low_knot_low hst, List.map_drop, List.map_take, List.ofFn_eq_map]

theorem kshiftr_low {s t : ℕ} (ht : t ≤ V) :
    kshiftr (kand (low V t) (knot (low V s))) s = low V (t - s) := by
  funext i
  have hi := i.isLt
  simp only [kshiftr, kand, knot, low]
  split_ifs with h
  · rw [Bool.eq_iff_iff]
    simp
    omega
  · symm
    rw [decide_eq_false_iff_not]
    omega

/-! ### Conflicts -/

section
variable [DecidableEq β]

/-- Lane `i` has the same value as a lower lane. -/
def conflict (v : Fin V → β) : Mask V := fun i => decide (∃ j < i, v j = v i)

/-- The lanes of the mask that have no lower lane of the mask with their value. The lanes outside the
mask are blended with a value no lane has. -/
def noConflict (m : Mask V) (v : Fin V → β) : Mask V :=
  kand (knot (conflict fun i => if m i then some (v i) else none)) m

theorem noConflict_iff {m : Mask V} {v : Fin V → β} {i : Fin V} :
    noConflict m v i = true ↔ m i = true ∧ ∀ j < i, m j = true → v j ≠ v i := by
  unfold noConflict kand knot conflict
  rw [Bool.and_eq_true, Bool.not_eq_true', decide_eq_false_iff_not, and_comm]
  apply and_congr_right
  intro hi
  simp only [hi, if_true, not_exists, not_and]
  refine forall_congr' fun j => imp_congr_right fun _ => ?_
  cases m j <;> simp

/-- The lanes kept have different values. -/
theorem noConflict_inj {m : Mask V} {v : Fin V → β} {i j : Fin V} (hi : noConflict m v i = true)
    (hj : noConflict m v j = true) (heq : v i = v j) : i = j := by
  rw [noConflict_iff] at hi hj
  rcases lt_trichotomy i j with hlt | heq' | hgt
  · exact absurd heq (hj.2 i hlt hi.1)
  · exact heq'
  · exact absurd heq.symm (hi.2 j hgt hj.1)

/-- Every value of the mask is kept in one lane. -/
theorem exists_noConflict {m : Mask V} {v : Fin V → β} {i : Fin V} (hi : m i = true) :
    ∃ j, noConflict m v j = true ∧ v j = v i := by
  induction i using WellFoundedLT.induction with
  | _ i ih =>
    by_cases hlow : ∃ j < i, m j = true ∧ v j = v i
    · obtain ⟨j, hlt, hj, heq⟩ := hlow
      obtain ⟨j', hj', heq'⟩ := ih j hlt hj
      exact ⟨j', hj', heq'.trans heq⟩
    · refine ⟨i, noConflict_iff.mpr ⟨hi, fun j hlt hj heq => hlow ⟨j, hlt, hj, heq⟩⟩, rfl⟩

end

/-! ### Scatter -/

section
variable {A B : Type*} [DecidableEq A]

/-- Write the lanes of the mask to memory, lowest lane first; `write i` is what lane `i` makes of the
cell. -/
def scatter (cells : A → B) (m : Mask V) (addr : Fin V → Option A) (write : Fin V → B → B) : A → B :=
  (indices m).foldl (fun cells i =>
    match addr i with
    | some a => Function.update cells a (write i (cells a))
    | none => cells) cells

theorem foldl_scatter_of_ne {cells : A → B} {addr : Fin V → Option A} {write : Fin V → B → B} {a : A}
    {l : List (Fin V)} (h : ∀ i ∈ l, addr i ≠ some a) :
    l.foldl (fun cells i =>
      match addr i with
      | some a => Function.update cells a (write i (cells a))
      | none => cells) cells a = cells a := by
  induction l generalizing cells with
  | nil => rfl
  | cons i l ih =>
    rw [List.foldl_cons, ih fun j hj => h j (List.mem_cons_of_mem i hj)]
    cases hi : addr i with
    | none => rfl
    | some a' =>
      refine Function.update_of_ne ?_ _ _
      rintro rfl
      exact h i List.mem_cons_self hi

/-- What no lane writes to stays. -/
theorem scatter_of_ne {cells : A → B} {m : Mask V} {addr : Fin V → Option A} {write : Fin V → B → B} {a : A}
    (h : ∀ i, m i = true → addr i ≠ some a) : scatter cells m addr write a = cells a :=
  foldl_scatter_of_ne fun i hi => h i (mem_indices.mp hi)

/-- A cell that one lane writes to. -/
theorem scatter_at {cells : A → B} {m : Mask V} {addr : Fin V → Option A} {write : Fin V → B → B} {a : A}
    {i : Fin V} (hi : m i = true) (ha : addr i = some a)
    (honly : ∀ j, m j = true → addr j = some a → j = i) :
    scatter cells m addr write a = write i (cells a) := by
  obtain ⟨before, after, hsplit⟩ := List.append_of_mem (mem_indices.mpr hi)
  have hmem : ∀ j ∈ indices m, j ≠ i → addr j ≠ some a :=
    fun j hj hne haddr => hne (honly j (mem_indices.mp hj) haddr)
  have hnodup : (before ++ i :: after).Pairwise (· < ·) := hsplit ▸ indices_sorted m
  rw [List.pairwise_append, List.pairwise_cons] at hnodup
  have hbefore : ∀ j ∈ before, addr j ≠ some a := fun j hj =>
    hmem j (by rw [hsplit]; exact List.mem_append_left _ hj) (hnodup.2.2 j hj i List.mem_cons_self).ne
  have hafter : ∀ j ∈ after, addr j ≠ some a := fun j hj =>
    hmem j (by rw [hsplit]; exact List.mem_append_right _ (List.mem_cons_of_mem i hj)) (hnodup.2.1.1 j hj).ne'
  rw [scatter, hsplit, List.foldl_append, List.foldl_cons, foldl_scatter_of_ne hafter]
  simp only [ha, Function.update_self]
  rw [foldl_scatter_of_ne hbefore]

end

end HashingArchive.Lanes
