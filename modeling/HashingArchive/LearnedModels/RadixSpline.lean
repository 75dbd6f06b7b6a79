import HashingArchive.Library.BinarySearch

/-!
# The radix spline of `rs/`

`Builder` draws a spline through the positions of sorted keys in one pass (`PossiblyAddKeyToSpline`), and keeps in the
radix table where the points with each prefix begin. `RadixSpline` looks up a key by its prefix. The operations on
doubles are the exact ones with their results rounded by `rnd`; an access out of bounds makes the result `none`.

Whatever the rounding is, the points have growing keys from the smallest to the largest and the radix table counts
them (`Spline`), so that every lookup stays in bounds and finds the segment of its key (`segment_spec`).
-/

namespace HashingArchive.LearnedModels.Rs

open HashingArchive.Library

/-- A CDF coordinate. -/
structure Coord where
  x : ℕ
  y : ℚ
  deriving DecidableEq

structure SearchBound where
  begin_ : ℕ
  end_ : ℕ
  deriving DecidableEq

structure RadixSpline where
  min_key : ℕ
  max_key : ℕ
  num_keys : ℕ
  num_radix_bits : ℕ
  num_shift_bits : ℕ
  max_error : ℕ
  radix_table : List ℕ
  spline_points : List Coord
  deriving DecidableEq

structure Builder where
  min_key : ℕ
  max_key : ℕ
  num_radix_bits : ℕ
  num_shift_bits : ℕ
  max_error : ℕ
  radix_table : List ℕ
  spline_points : List Coord
  curr_num_keys : ℕ
  curr_num_distinct_keys : ℕ
  prev_key : ℕ
  prev_position : ℕ
  prev_prefix_ : ℕ
  upper_limit : Coord
  lower_limit : Coord
  prev_point : Coord

/-! ### The builder -/

/-- `static_cast<uint32_t>` -/
def uint32 (n : ℕ) : ℕ := n % 2 ^ 32

/-- The prefix of a key, its place in the radix table; the constructor allows for no shift by all the bits of a key. -/
def prefixOf (min_key num_shift_bits key : ℕ) : ℕ := (key - min_key) >>> num_shift_bits

/-- For keys of `w` bits; `__builtin_clz` has no result for zero. -/
def GetNumShiftBits (w diff num_radix_bits : ℕ) : Option ℕ :=
  if diff = 0 then none
  else
    let clz := w - diff.size
    some (if w - clz < num_radix_bits then 0 else w - num_radix_bits - clz)

/-- What the constructor sets up for a number of shift bits; the limits and the previous point are set before they are
read. -/
def Builder.init (min_key max_key num_radix_bits max_error num_shift_bits : ℕ) : Builder :=
  let max_prefix_ := uint32 (prefixOf min_key num_shift_bits max_key)
  { min_key, max_key, num_radix_bits, num_shift_bits, max_error
    radix_table := List.replicate (uint32 (max_prefix_ + 2)) 0
    spline_points := []
    curr_num_keys := 0
    curr_num_distinct_keys := 0
    prev_key := min_key
    prev_position := 0
    prev_prefix_ := 0
    upper_limit := { x := 0, y := 0 }
    lower_limit := { x := 0, y := 0 }
    prev_point := { x := 0, y := 0 } }

/-- The constructor; a shift by all the bits of a key has no result. -/
def Builder.new (w min_key max_key num_radix_bits max_error : ℕ) : Option Builder := do
  let num_shift_bits ← GetNumShiftBits w (max_key - min_key) num_radix_bits
  if num_shift_bits < w then some (Builder.init min_key max_key num_radix_bits max_error num_shift_bits) else none

/-- `radix_table_[prefix] = index` for the `count` prefixes from `first` on. -/
def fill (table : List ℕ) (first count index : ℕ) : Option (List ℕ) :=
  (List.range' first count).foldlM
    (fun table entry => if entry < table.length then some (table.set entry index) else none) table

def PossiblyAddKeyToRadixTable (b : Builder) (key : ℕ) : Option Builder :=
  let curr_prefix_ := prefixOf b.min_key b.num_shift_bits key
  if curr_prefix_ ≠ b.prev_prefix_ then
    let curr_index := uint32 (b.spline_points.length - 1)
    (fill b.radix_table (b.prev_prefix_ + 1) (curr_prefix_ - b.prev_prefix_) curr_index).map fun radix_table =>
      { b with radix_table, prev_prefix_ := curr_prefix_ }
  else some b

def AddKeyToSpline (b : Builder) (key : ℕ) (position : ℚ) : Option Builder :=
  PossiblyAddKeyToRadixTable { b with spline_points := b.spline_points ++ [{ x := key, y := position }] } key

inductive Orientation where
  | Collinear
  | CW
  | CCW
  deriving DecidableEq

/-- `std::numeric_limits<double>::epsilon()` -/
def precision : ℚ := 1 / 2 ^ 52

section
variable (rnd : ℚ → ℚ)

/-- `std::fma` -/
def fma (a b c : ℚ) : ℚ := rnd (a * b + c)

def ComputeOrientation (dx1 dy1 dx2 dy2 : ℚ) : Orientation :=
  let expr := fma rnd dy1 dx2 (-fma rnd dy2 dx1 0)
  if precision < expr then .CW
  else if expr < -precision then .CCW
  else .Collinear

def PossiblyAddKeyToSpline (b : Builder) (key : ℕ) (position : ℚ) : Option Builder :=
  if b.curr_num_keys = 0 then
    (AddKeyToSpline b key position).map fun b =>
      { b with
        curr_num_distinct_keys := b.curr_num_distinct_keys + 1
        prev_point := { x := key, y := position } }
  else if key = b.prev_key then some b
  else
    let max_error := rnd b.max_error
    let upper_y := rnd (position + max_error)
    let lower_y := if position < max_error then 0 else rnd (position - max_error)
    if b.curr_num_distinct_keys + 1 = 2 then
      some { b with
        curr_num_distinct_keys := b.curr_num_distinct_keys + 1
        upper_limit := { x := key, y := upper_y }
        lower_limit := { x := key, y := lower_y }
        prev_point := { x := key, y := position } }
    else do
      let last ← b.spline_points.getLast?
      let upper_limit_x_diff := rnd ((b.upper_limit.x - last.x : ℕ) : ℚ)
      let lower_limit_x_diff := rnd ((b.lower_limit.x - last.x : ℕ) : ℚ)
      let x_diff := rnd ((key - last.x : ℕ) : ℚ)
      let upper_limit_y_diff := rnd (b.upper_limit.y - last.y)
      let lower_limit_y_diff := rnd (b.lower_limit.y - last.y)
      let y_diff := rnd (position - last.y)
      let b := { b with curr_num_distinct_keys := b.curr_num_distinct_keys + 1 }
      if ComputeOrientation rnd upper_limit_x_diff upper_limit_y_diff x_diff y_diff ≠ .CW ∨
          ComputeOrientation rnd lower_limit_x_diff lower_limit_y_diff x_diff y_diff ≠ .CCW then
        (AddKeyToSpline b b.prev_point.x b.prev_point.y).map fun b =>
          { b with
            upper_limit := { x := key, y := upper_y }
            lower_limit := { x := key, y := lower_y }
            prev_point := { x := key, y := position } }
      else
        let upper_y_diff := rnd (upper_y - last.y)
        let lower_y_diff := rnd (lower_y - last.y)
        some { b with
          upper_limit :=
            if ComputeOrientation rnd upper_limit_x_diff upper_limit_y_diff x_diff upper_y_diff = .CW then
              { x := key, y := upper_y }
            else b.upper_limit
          lower_limit :=
            if ComputeOrientation rnd lower_limit_x_diff lower_limit_y_diff x_diff lower_y_diff = .CCW then
              { x := key, y := lower_y }
            else b.lower_limit
          prev_point := { x := key, y := position } }

/-- The public `AddKey`, which calls the private one with the position of the key. -/
def AddKey (b : Builder) (key : ℕ) : Option Builder :=
  let position := if b.curr_num_keys = 0 then 0 else b.prev_position + 1
  (PossiblyAddKeyToSpline rnd b key (rnd position)).map fun b =>
    { b with
      curr_num_keys := b.curr_num_keys + 1
      prev_key := key
      prev_position := position }

def FinalizeRadixTable (b : Builder) : Option Builder :=
  let prev_prefix_ := b.prev_prefix_ + 1
  (fill b.radix_table prev_prefix_ (b.radix_table.length - prev_prefix_) (uint32 b.spline_points.length)).map
    fun radix_table => { b with radix_table, prev_prefix_ := max prev_prefix_ b.radix_table.length }

/-- The arguments of the constructor of `RadixSpline`. -/
def Builder.spline (b : Builder) : RadixSpline where
  min_key := b.min_key
  max_key := b.max_key
  num_keys := b.curr_num_keys
  num_radix_bits := b.num_radix_bits
  num_shift_bits := b.num_shift_bits
  max_error := b.max_error
  radix_table := b.radix_table
  spline_points := b.spline_points

def Finalize (b : Builder) : Option RadixSpline := do
  let b ←
    if 0 < b.curr_num_keys ∧ (b.spline_points.getLast?.map Coord.x) ≠ some b.prev_key then
      AddKeyToSpline b b.prev_key (rnd b.prev_position)
    else some b
  (FinalizeRadixTable b).map Builder.spline

/-- What the callers do with a builder: all keys in order, from the smallest to the largest. -/
def build (w num_radix_bits max_error : ℕ) (keys : List ℕ) : Option RadixSpline := do
  let min_key ← keys.head?
  let max_key ← keys.getLast?
  let b ← Builder.new w min_key max_key num_radix_bits max_error
  let b ← keys.foldlM (AddKey rnd) b
  Finalize rnd b

end

/-! ### The spline -/

/-- `while (spline_points_[current].x < key) ++current`, on the points from `current` on. -/
def linearSearch (key : ℕ) : List Coord → ℕ → Option ℕ
  | [], _ => none
  | point :: points, current => if point.x < key then linearSearch key points (current + 1) else some current

def GetSplineSegment (rs : RadixSpline) (key : ℕ) : Option ℕ := do
  let entry := prefixOf rs.min_key rs.num_shift_bits key
  let begin_ ← rs.radix_table[entry]?
  let end_ ← rs.radix_table[entry + 1]?
  if uint32 (end_ + 2 ^ 32 - begin_) < 32 then linearSearch key (rs.spline_points.drop begin_) begin_
  else
    lowerBound (fun i => (rs.spline_points[i]?).map fun coord => decide (coord.x < key)) begin_ (end_ - begin_)

section
variable (rnd : ℚ → ℚ)

def GetEstimatedPosition (rs : RadixSpline) (key : ℕ) : Option ℚ :=
  if key ≤ rs.min_key then some 0
  else if rs.max_key ≤ key then some (rnd ((rs.num_keys + 2 ^ 64 - 1) % 2 ^ 64 : ℕ))
  else do
    let index ← GetSplineSegment rs key
    let down ← if index = 0 then none else rs.spline_points[index - 1]?
    let up ← rs.spline_points[index]?
    let x_diff := rnd ((up.x - down.x : ℕ) : ℚ)
    let y_diff := rnd (up.y - down.y)
    let slope := rnd (y_diff / x_diff)
    let key_diff := rnd ((key - down.x : ℕ) : ℚ)
    some (fma rnd key_diff slope down.y)

def GetSearchBound (rs : RadixSpline) (key : ℕ) : Option SearchBound :=
  (GetEstimatedPosition rnd rs key).map fun position =>
    let estimate := ⌊position⌋₊
    { begin_ := if estimate < rs.max_error then 0 else estimate - rs.max_error
      end_ :=
        if rs.num_keys < (estimate + rs.max_error + 2) % 2 ^ 64 then rs.num_keys
        else (estimate + rs.max_error + 2) % 2 ^ 64 }

end

/-! ### Prefixes -/

section
variable {min_key shift : ℕ}

theorem prefixOf_mono (min_key shift : ℕ) {x y : ℕ} (h : x ≤ y) :
    prefixOf min_key shift x ≤ prefixOf min_key shift y := by
  simp only [prefixOf, Nat.shiftRight_eq_div_pow]
  exact Nat.div_le_div_right (by omega)

theorem prefixOf_self : prefixOf min_key shift min_key = 0 := by simp [prefixOf]

/-- The points whose prefix is below an entry of the radix table. -/
def before (min_key shift entry : ℕ) (points : List Coord) : ℕ :=
  points.countP fun c => prefixOf min_key shift c.x < entry

/-- The prefixes have as many bits as the radix. Without any, all the bits of the range are shifted out, which are not to
be all the bits of a key. -/
theorem exists_shift {w max_key num_radix_bits : ℕ} (hlt : min_key < max_key) (hmax : max_key < 2 ^ w)
    (hsome : 0 < num_radix_bits ∨ max_key - min_key < 2 ^ (w - 1)) :
    ∃ shift, GetNumShiftBits w (max_key - min_key) num_radix_bits = some shift ∧ shift < w ∧
      prefixOf min_key shift max_key < 2 ^ num_radix_bits := by
  have hpos : 0 < max_key - min_key := by omega
  have hlt' : max_key - min_key < 2 ^ w := by omega
  unfold prefixOf
  generalize max_key - min_key = diff at hpos hlt' hsome
  have hsize : diff.size ≤ w := Nat.size_le.mpr hlt'
  have hsizepos : 0 < diff.size := Nat.size_pos.mpr hpos
  have hsome' : 0 < num_radix_bits ∨ diff.size ≤ w - 1 := hsome.imp_right Nat.size_le.mpr
  have hdiff : diff < 2 ^ diff.size := Nat.lt_size_self diff
  refine ⟨_, by rw [GetNumShiftBits, if_neg hpos.ne'], by split_ifs <;> omega, ?_⟩
  rw [show w - (w - diff.size) = diff.size by omega, Nat.shiftRight_eq_div_pow]
  split_ifs with hfew
  · rw [pow_zero, Nat.div_one]
    exact hdiff.trans_le (Nat.pow_le_pow_right (by norm_num) (by omega))
  · rw [Nat.div_lt_iff_lt_mul (by positivity), ← pow_add]
    exact hdiff.trans_le (Nat.pow_le_pow_right (by norm_num) (by omega))

theorem Builder.new_eq {w max_key num_radix_bits : ℕ} (max_error : ℕ)
    (hshift : GetNumShiftBits w (max_key - min_key) num_radix_bits = some shift) (hlt : shift < w) :
    Builder.new w min_key max_key num_radix_bits max_error =
      some (Builder.init min_key max_key num_radix_bits max_error shift) := by
  rw [Builder.new, hshift, Option.bind_eq_bind, Option.bind_some, if_pos hlt]

/-- **The constructor** has a result for any two different keys, but for a range with the top bit set if there are no
radix bits. -/
theorem Builder.new_isSome_iff {w max_key : ℕ} (num_radix_bits max_error : ℕ) (hlt : min_key < max_key)
    (hmax : max_key < 2 ^ w) :
    (Builder.new w min_key max_key num_radix_bits max_error).isSome ↔
      0 < num_radix_bits ∨ max_key - min_key < 2 ^ (w - 1) := by
  constructor
  · intro hnew
    by_contra hnot
    obtain ⟨hbits, hdiff⟩ := not_or.mp hnot
    obtain rfl : num_radix_bits = 0 := by omega
    have hle : (max_key - min_key).size ≤ w := Nat.size_le.mpr (by omega)
    have hlt' : w - 1 < (max_key - min_key).size := Nat.lt_size.mpr (not_lt.mp hdiff)
    have hshift : GetNumShiftBits w (max_key - min_key) 0 = some w := by
      rw [GetNumShiftBits, if_neg (by omega), show w - (max_key - min_key).size = 0 by omega]
      rfl
    rw [Builder.new, hshift, Option.bind_eq_bind, Option.bind_some, if_neg (lt_irrefl w)] at hnew
    exact absurd hnew (by simp)
  · intro hsome
    obtain ⟨shift, hshift, hshiftlt, -⟩ := exists_shift hlt hmax hsome
    rw [Builder.new_eq max_error hshift hshiftlt]
    rfl

theorem init_radix_table {max_key : ℕ} (num_radix_bits max_error : ℕ) (h : prefixOf min_key shift max_key < 2 ^ 31) :
    (Builder.init min_key max_key num_radix_bits max_error shift).radix_table =
      List.replicate (prefixOf min_key shift max_key + 2) 0 := by
  have hlen : uint32 (uint32 (prefixOf min_key shift max_key) + 2) = prefixOf min_key shift max_key + 2 := by
    unfold uint32
    omega
  rw [Builder.init, hlen]

/-- The loop over the entries of the radix table sets the entries of its range. -/
theorem fill_spec (table : List ℕ) (first count index : ℕ) (h : count = 0 ∨ first + count ≤ table.length) :
    ∃ table', fill table first count index = some table' ∧ table'.length = table.length ∧
      ∀ i, table'[i]? = if first ≤ i ∧ i < first + count then some index else table[i]? := by
  induction count generalizing first table with
  | zero => exact ⟨table, rfl, rfl, fun i => by rw [if_neg (by omega)]⟩
  | succ count ih =>
    have hfirst : first < table.length := by omega
    obtain ⟨table', hfill, hlength, hget⟩ :=
      ih (table.set first index) (first + 1) (.inr (by simp; omega))
    refine ⟨table', ?_, by simpa using hlength, fun i => ?_⟩
    · rw [fill, List.range'_succ, List.foldlM_cons, if_pos hfirst]
      exact hfill
    · rw [hget, List.getElem?_set]
      by_cases hi : first = i
      · subst hi
        rw [if_neg (by omega), if_pos rfl, if_pos hfirst, if_pos (by omega)]
      · rw [if_neg hi]
        refine if_congr ?_ rfl rfl
        omega

end

/-! ### The points and the radix table -/

theorem head_le {l : List ℕ} (hsorted : l.Pairwise (· ≤ ·)) {a x : ℕ} (hhead : l.head? = some a) (hx : x ∈ l) :
    a ≤ x := by
  obtain ⟨rest, rfl⟩ := List.head?_eq_some_iff.mp hhead
  rcases List.mem_cons.mp hx with rfl | hx
  · exact le_rfl
  · exact (List.pairwise_cons.mp hsorted).1 x hx

theorem le_getLast {l : List ℕ} (hsorted : l.Pairwise (· ≤ ·)) {a x : ℕ} (hlast : l.getLast? = some a) (hx : x ∈ l) :
    x ≤ a := by
  obtain ⟨init, rfl⟩ := List.getLast?_eq_some_iff.mp hlast
  rcases List.mem_append.mp hx with hx | hx
  · exact (List.pairwise_append.mp hsorted).2.2 x hx a (List.mem_singleton.mpr rfl)
  · exact (List.mem_singleton.mp hx).le

/-- The points up to `last`, and the entries of the radix table up to the prefix of `last`. -/
structure Points (min_key max_key shift : ℕ) (points : List Coord) (table : List ℕ) (prev_prefix_ : ℕ) (last : Coord) :
    Prop where
  ends : ∃ init, points = init ++ [last]
  sorted : (points.map Coord.x).Pairwise (· < ·)
  head : points.head?.map Coord.x = some min_key
  last_le : last.x ≤ max_key
  prefix_eq : prev_prefix_ = prefixOf min_key shift last.x
  table_length : table.length = prefixOf min_key shift max_key + 2
  entries : ∀ entry ≤ prev_prefix_, table[entry]? = some (before min_key shift entry points)

section
variable {min_key max_key shift prev_prefix_ : ℕ} {points : List Coord} {table : List ℕ} {last : Coord}

theorem Points.getLast (h : Points min_key max_key shift points table prev_prefix_ last) :
    points.getLast? = some last := by
  obtain ⟨init, hends⟩ := h.ends
  simp [hends]

theorem Points.le_last (h : Points min_key max_key shift points table prev_prefix_ last) {c : Coord} (hc : c ∈ points) :
    c.x ≤ last.x :=
  le_getLast (h.sorted.imp le_of_lt) (by rw [List.getLast?_map, h.getLast, Option.map_some]) (List.mem_map_of_mem hc)

theorem Points.min_le (h : Points min_key max_key shift points table prev_prefix_ last) : min_key ≤ last.x :=
  head_le (h.sorted.imp le_of_lt) (by rw [List.head?_map, h.head])
    (List.mem_map_of_mem (List.mem_of_getLast? h.getLast))

/-- Apart from the radix table a point is all that is added. -/
theorem eq_of_AddKeyToSpline {b b' : Builder} {key : ℕ} {y : ℚ} (h : AddKeyToSpline b key y = some b') :
    b' = { b with
      spline_points := b.spline_points ++ [{ x := key, y := y }]
      radix_table := b'.radix_table
      prev_prefix_ := b'.prev_prefix_ } := by
  rw [AddKeyToSpline, PossiblyAddKeyToRadixTable] at h
  split at h
  · obtain ⟨table, -, rfl⟩ := Option.map_eq_some_iff.mp h
    rfl
  · obtain rfl := Option.some.inj h
    rfl

/-- Behind the last prefix all points are counted. -/
theorem Points.before_eq (h : Points min_key max_key shift points table prev_prefix_ last) {entry : ℕ}
    (hentry : prev_prefix_ < entry) : before min_key shift entry points = points.length := by
  refine List.countP_eq_length.mpr fun c hc => ?_
  have hle := prefixOf_mono min_key shift (h.le_last hc)
  rw [← h.prefix_eq] at hle
  simpa using hle.trans_lt hentry

/-- **A point further right** is added without an access out of bounds. -/
theorem Points.add {b : Builder}
    (h : Points b.min_key b.max_key b.num_shift_bits b.spline_points b.radix_table b.prev_prefix_ last) {key : ℕ}
    (y : ℚ) (hkey : last.x < key) (hmax : key ≤ b.max_key) (hsize : b.spline_points.length < 2 ^ 32) :
    ∃ table, AddKeyToSpline b key y = some { b with
        spline_points := b.spline_points ++ [{ x := key, y := y }]
        radix_table := table
        prev_prefix_ := prefixOf b.min_key b.num_shift_bits key } ∧
      Points b.min_key b.max_key b.num_shift_bits (b.spline_points ++ [{ x := key, y := y }]) table
        (prefixOf b.min_key b.num_shift_bits key) { x := key, y := y } := by
  have hpre : b.prev_prefix_ ≤ prefixOf b.min_key b.num_shift_bits key := by
    rw [h.prefix_eq]
    exact prefixOf_mono _ _ hkey.le
  have hpremax : prefixOf b.min_key b.num_shift_bits key ≤ prefixOf b.min_key b.num_shift_bits b.max_key :=
    prefixOf_mono _ _ hmax
  have hindex : uint32 ((b.spline_points ++ [Coord.mk key y]).length - 1) = b.spline_points.length := by
    simp only [uint32, List.length_append, List.length_singleton, Nat.add_sub_cancel]
    exact Nat.mod_eq_of_lt hsize
  -- an entry up to the prefix of the key counts the old points only
  have hbefore : ∀ entry ≤ prefixOf b.min_key b.num_shift_bits key,
      before b.min_key b.num_shift_bits entry (b.spline_points ++ [Coord.mk key y]) =
        before b.min_key b.num_shift_bits entry b.spline_points := by
    intro entry hentry
    simp [before, hentry]
  obtain ⟨table, hfill, hlength, hget⟩ := fill_spec b.radix_table (b.prev_prefix_ + 1)
    (prefixOf b.min_key b.num_shift_bits key - b.prev_prefix_) b.spline_points.length
    (.inr (by rw [h.table_length]; omega))
  refine ⟨table, ?_, ⟨b.spline_points, rfl⟩, ?_, ?_, hmax, rfl, hlength.trans h.table_length, ?_⟩
  · rw [AddKeyToSpline, PossiblyAddKeyToRadixTable]
    simp only [hindex]
    by_cases hsame : prefixOf b.min_key b.num_shift_bits key = b.prev_prefix_
    · have htable : table = b.radix_table := by
        rw [hsame, Nat.sub_self] at hfill
        exact (Option.some.inj hfill).symm
      rw [if_neg (not_not.mpr hsame), hsame, htable]
    · rw [if_pos hsame, hfill]
      rfl
  · rw [List.map_append, List.pairwise_append]
    refine ⟨h.sorted, by simp, ?_⟩
    intro x hx y' hy'
    obtain ⟨c, hc, rfl⟩ := List.mem_map.mp hx
    obtain rfl : y' = key := by simpa using hy'
    exact (h.le_last hc).trans_lt hkey
  · obtain ⟨init, hends⟩ := h.ends
    rw [List.head?_append_of_ne_nil _ (by simp [hends])]
    exact h.head
  · intro entry hentry
    rw [hget, hbefore entry hentry]
    split_ifs with hrange
    · rw [h.before_eq (by omega)]
    · exact h.entries entry (by omega)

end

/-! ### The keys -/

section
variable (rnd : ℚ → ℚ) {b : Builder} {last : Coord}

/-- The upper limit a point sets. -/
def upperAt (b : Builder) (position : ℚ) : ℚ := rnd (position + rnd b.max_error)

/-- The lower limit a point sets. -/
def lowerAt (b : Builder) (position : ℚ) : ℚ :=
  if position < rnd b.max_error then 0 else rnd (position - rnd b.max_error)

/-- How a point lies to a limit, as seen from the last point of the spline. -/
def orient (last limit : Coord) (key : ℕ) (position : ℚ) : Orientation :=
  ComputeOrientation rnd (rnd ((limit.x - last.x : ℕ) : ℚ)) (rnd (limit.y - last.y)) (rnd ((key - last.x : ℕ) : ℚ))
    (rnd (position - last.y))

/-- The point cuts the error corridor. -/
def Cuts (b : Builder) (last : Coord) (key : ℕ) (position : ℚ) : Prop :=
  orient rnd last b.upper_limit key position ≠ .CW ∨ orient rnd last b.lower_limit key position ≠ .CCW

instance (b : Builder) (last : Coord) (key : ℕ) (position : ℚ) : Decidable (Cuts rnd b last key position) :=
  inferInstanceAs (Decidable (_ ∨ _))

theorem AddKey_first (key : ℕ) (hnum : b.curr_num_keys = 0) :
    AddKey rnd b key = (AddKeyToSpline b key (rnd 0)).map fun b' =>
      { b' with
        curr_num_distinct_keys := b'.curr_num_distinct_keys + 1
        prev_point := { x := key, y := rnd 0 }
        curr_num_keys := b'.curr_num_keys + 1
        prev_key := key
        prev_position := 0 } := by
  simp only [AddKey, PossiblyAddKeyToSpline, hnum, reduceIte, Option.map_map, Nat.cast_zero]
  rfl

theorem AddKey_again (hnum : b.curr_num_keys ≠ 0) :
    AddKey rnd b b.prev_key = some { b with
      curr_num_keys := b.curr_num_keys + 1
      prev_position := b.prev_position + 1 } := by
  simp only [AddKey, PossiblyAddKeyToSpline, if_neg hnum, reduceIte, Option.map_some]

theorem AddKey_second {key : ℕ} (hnum : b.curr_num_keys ≠ 0) (hkey : key ≠ b.prev_key)
    (hdistinct : b.curr_num_distinct_keys = 1) :
    AddKey rnd b key = some { b with
      curr_num_keys := b.curr_num_keys + 1
      curr_num_distinct_keys := b.curr_num_distinct_keys + 1
      prev_key := key
      prev_position := b.prev_position + 1
      upper_limit := { x := key, y := upperAt rnd b (rnd (b.prev_position + 1 : ℕ)) }
      lower_limit := { x := key, y := lowerAt rnd b (rnd (b.prev_position + 1 : ℕ)) }
      prev_point := { x := key, y := rnd (b.prev_position + 1 : ℕ) } } := by
  simp only [AddKey, PossiblyAddKeyToSpline, if_neg hnum, if_neg hkey, hdistinct, reduceIte, Option.map_some, upperAt,
    lowerAt]

theorem AddKey_cut {key : ℕ} (hnum : b.curr_num_keys ≠ 0) (hkey : key ≠ b.prev_key)
    (hdistinct : b.curr_num_distinct_keys ≠ 1) (hlast : b.spline_points.getLast? = some last)
    (hcut : Cuts rnd b last key (rnd (b.prev_position + 1 : ℕ))) :
    AddKey rnd b key =
      (AddKeyToSpline { b with curr_num_distinct_keys := b.curr_num_distinct_keys + 1 } b.prev_point.x
        b.prev_point.y).map fun b' =>
          { b' with
            curr_num_keys := b'.curr_num_keys + 1
            prev_key := key
            prev_position := b.prev_position + 1
            upper_limit := { x := key, y := upperAt rnd b (rnd (b.prev_position + 1 : ℕ)) }
            lower_limit := { x := key, y := lowerAt rnd b (rnd (b.prev_position + 1 : ℕ)) }
            prev_point := { x := key, y := rnd (b.prev_position + 1 : ℕ) } } := by
  unfold Cuts orient at hcut
  simp only [AddKey, PossiblyAddKeyToSpline, if_neg hnum, if_neg hkey, hlast, Option.bind_eq_bind, Option.bind_some,
    if_pos hcut, show ¬ b.curr_num_distinct_keys + 1 = 2 by omega, reduceIte, Option.map_map, upperAt, lowerAt]
  rfl

theorem AddKey_on {key : ℕ} (hnum : b.curr_num_keys ≠ 0) (hkey : key ≠ b.prev_key)
    (hdistinct : b.curr_num_distinct_keys ≠ 1) (hlast : b.spline_points.getLast? = some last)
    (hcut : ¬ Cuts rnd b last key (rnd (b.prev_position + 1 : ℕ))) :
    AddKey rnd b key = some { b with
      curr_num_keys := b.curr_num_keys + 1
      curr_num_distinct_keys := b.curr_num_distinct_keys + 1
      prev_key := key
      prev_position := b.prev_position + 1
      upper_limit :=
        if orient rnd last b.upper_limit key (upperAt rnd b (rnd (b.prev_position + 1 : ℕ))) = .CW then
          { x := key, y := upperAt rnd b (rnd (b.prev_position + 1 : ℕ)) }
        else b.upper_limit
      lower_limit :=
        if orient rnd last b.lower_limit key (lowerAt rnd b (rnd (b.prev_position + 1 : ℕ))) = .CCW then
          { x := key, y := lowerAt rnd b (rnd (b.prev_position + 1 : ℕ)) }
        else b.lower_limit
      prev_point := { x := key, y := rnd (b.prev_position + 1 : ℕ) } } := by
  unfold Cuts orient at hcut
  simp only [AddKey, PossiblyAddKeyToSpline, if_neg hnum, if_neg hkey, hlast, Option.bind_eq_bind, Option.bind_some,
    if_neg hcut, show ¬ b.curr_num_distinct_keys + 1 = 2 by omega, reduceIte, Option.map_some, upperAt, lowerAt, orient]
  rfl

/-- What stays the same while keys are added. -/
def Builder.params (b : Builder) : ℕ × ℕ × ℕ × ℕ × ℕ :=
  (b.min_key, b.max_key, b.num_radix_bits, b.num_shift_bits, b.max_error)

/-- The builder after these keys: all of them are the same, or the last point is before the last key. -/
structure Building (params : ℕ × ℕ × ℕ × ℕ × ℕ) (keys : List ℕ) (last : Coord) (b : Builder) : Prop
    where
  points : Points b.min_key b.max_key b.num_shift_bits b.spline_points b.radix_table b.prev_prefix_ last
  params : b.params = params
  first : keys.head? = some b.min_key
  prev_key : keys.getLast? = some b.prev_key
  le_prev : ∀ key ∈ keys, key ≤ b.prev_key
  num : b.curr_num_keys = keys.length
  position : b.prev_position + 1 = keys.length
  few : b.spline_points.length ≤ keys.length
  recent : (b.curr_num_distinct_keys = 1 ∧ last.x = b.prev_key) ∨
    (2 ≤ b.curr_num_distinct_keys ∧ last.x < b.prev_key ∧ b.prev_point.x = b.prev_key ∧
      b.spline_points.length < keys.length)

variable {params : ℕ × ℕ × ℕ × ℕ × ℕ} {keys : List ℕ}

theorem Building.num_ne (h : Building params keys last b) : b.curr_num_keys ≠ 0 := by
  have hnum := h.num
  have hposition := h.position
  omega

theorem Building.last_le_prev (h : Building params keys last b) : last.x ≤ b.prev_key := by
  rcases h.recent with ⟨-, hlast⟩ | ⟨-, hlast, -, -⟩
  · exact hlast.le
  · exact hlast.le

/-- After one key there is one point. -/
theorem Building.points_first {key : ℕ} (h : Building params [key] last b) : b.spline_points = [last] := by
  obtain ⟨init, hends⟩ := h.points.ends
  have hfew := h.few
  rw [hends, List.length_append, List.length_singleton, List.length_singleton] at hfew
  rw [hends, List.length_eq_zero_iff.mp (by omega : init.length = 0), List.nil_append]

/-- The step lemma: no key makes the builder access anything out of bounds. -/
theorem Building.step (h : Building params keys last b) {key : ℕ} (hkey : b.prev_key ≤ key) (hmax : key ≤ b.max_key)
    (hsize : keys.length < 2 ^ 32) :
    ∃ b' last', AddKey rnd b key = some b' ∧ Building params (keys ++ [key]) last' b' := by
  have hhead : ∀ k, (keys ++ [k]).head? = some b.min_key := by
    intro k
    rw [List.head?_append_of_ne_nil _ (by rintro rfl; simpa using h.first)]
    exact h.first
  have hle : ∀ k ∈ keys ++ [key], k ≤ key := by
    intro k hk
    rcases List.mem_append.mp hk with hk | hk
    · exact (h.le_prev k hk).trans hkey
    · exact (List.mem_singleton.mp hk).le
  have hfew := h.few
  have hnum := h.num
  have hposition := h.position
  by_cases hsame : key = b.prev_key
  · subst hsame
    refine ⟨_, last, AddKey_again rnd h.num_ne, ?_⟩
    refine ⟨h.points, h.params, hhead _, by simp, hle,
      by simp [hnum], by simp [hposition], by simp; omega, ?_⟩
    rcases h.recent with hone | ⟨htwo, hlast, hprev, hlen⟩
    · exact .inl hone
    · exact .inr ⟨htwo, hlast, hprev, by simp; omega⟩
  · have hlt : b.prev_key < key := lt_of_le_of_ne hkey (Ne.symm hsame)
    rcases h.recent with ⟨hone, hlast⟩ | ⟨htwo, hlast, hprev, hlen⟩
    · refine ⟨_, last, AddKey_second rnd h.num_ne hsame hone, ?_⟩
      refine ⟨h.points, h.params, hhead _,
        by simp, hle, by simp [hnum], by simp [hposition], by simp; omega, .inr ⟨?_, ?_, rfl, ?_⟩⟩
      · show 2 ≤ b.curr_num_distinct_keys + 1
        omega
      · exact hlast.trans_lt hlt
      · simp only [List.length_append, List.length_singleton]
        omega
    · by_cases hcut : Cuts rnd b last key (rnd (b.prev_position + 1 : ℕ))
      · have hlast' : last.x < b.prev_point.x := by rwa [hprev]
        have hstep := AddKey_cut rnd h.num_ne hsame (by omega) h.points.getLast hcut
        obtain ⟨table, hadd, hpoints⟩ :=
          Points.add (b := { b with curr_num_distinct_keys := b.curr_num_distinct_keys + 1 }) h.points
            b.prev_point.y hlast' (by rw [hprev]; exact hkey.trans hmax)
            (by show b.spline_points.length < 2 ^ 32; omega)
        rw [hadd, Option.map_some] at hstep
        refine ⟨_, b.prev_point, hstep, hpoints, h.params, hhead _, by simp, hle, by simp [hnum],
          by simp [hposition], ?_, .inr ⟨?_, ?_, rfl, ?_⟩⟩
        · simp only [List.length_append, List.length_singleton]
          omega
        · show 2 ≤ b.curr_num_distinct_keys + 1
          omega
        · rw [hprev]
          exact hlt
        · simp only [List.length_append, List.length_singleton]
          omega
      · refine ⟨_, last, AddKey_on rnd h.num_ne hsame (by omega) h.points.getLast hcut, ?_⟩
        refine ⟨h.points, h.params, hhead _,
          by simp, hle, by simp [hnum], by simp [hposition], by simp; omega, .inr ⟨?_, ?_, rfl, ?_⟩⟩
        · show 2 ≤ b.curr_num_distinct_keys + 1
          omega
        · exact hlast.trans hlt
        · simp only [List.length_append, List.length_singleton]
          omega

/-- The run lemma, for what every further key keeps. -/
theorem Building.run {P : List ℕ → Builder → Prop} {total : ℕ} (htotal : total ≤ 2 ^ 32)
    (hP : ∀ keys last b key b', Building params keys last b → P keys b → keys.length < total → b.prev_key ≤ key →
      key ≤ b.max_key → AddKey rnd b key = some b' → P (keys ++ [key]) b')
    (h : Building params keys last b) (hp : P keys b) (rest : List ℕ) (hsorted : (keys ++ rest).Pairwise (· ≤ ·))
    (hmax : ∀ key ∈ rest, key ≤ b.max_key) (hsize : (keys ++ rest).length ≤ total) :
    ∃ b' last', rest.foldlM (AddKey rnd) b = some b' ∧ Building params (keys ++ rest) last' b' ∧
      P (keys ++ rest) b' := by
  induction rest generalizing keys b last with
  | nil => exact ⟨b, last, rfl, by simpa using h, by simpa using hp⟩
  | cons key rest ih =>
    have hprev : b.prev_key ≤ key := by
      have hmem := List.mem_of_getLast? h.prev_key
      exact (List.pairwise_append.mp hsorted).2.2 _ hmem _ (by simp)
    have hkeymax := hmax key (by simp)
    have hlt : keys.length < total := by
      simp only [List.length_append, List.length_cons] at hsize
      omega
    obtain ⟨b₁, last₁, hadd, hbuilding⟩ := h.step rnd hprev hkeymax (hlt.trans_le htotal)
    have hmaxkey : b₁.max_key = b.max_key := congrArg (fun q => q.2.1) (hbuilding.params.trans h.params.symm)
    have hnext := hP keys last b key b₁ h hp hlt hprev hkeymax hadd
    obtain ⟨b', last', hfold, hbuilding', hp'⟩ := ih hbuilding hnext (by simpa using hsorted)
      (fun k hk => by rw [hmaxkey]; exact hmax k (by simp [hk])) (by simpa using hsize)
    refine ⟨b', last', ?_, by simpa using hbuilding', by simpa using hp'⟩
    rw [List.foldlM_cons, hadd]
    exact hfold

/-- The builder after the smallest key. -/
theorem exists_building {w num_radix_bits min_key max_key : ℕ} (max_error : ℕ) (hlt : min_key < max_key)
    (hmax : max_key < 2 ^ w) (hsome : 0 < num_radix_bits ∨ max_key - min_key < 2 ^ (w - 1))
    (hbits : num_radix_bits ≤ 31) :
    ∃ shift b b', shift < w ∧ prefixOf min_key shift max_key < 2 ^ num_radix_bits ∧
      Builder.new w min_key max_key num_radix_bits max_error = some b ∧ AddKey rnd b min_key = some b' ∧
      Building (min_key, max_key, num_radix_bits, shift, max_error) [min_key] { x := min_key, y := rnd 0 } b' ∧
      b'.prev_point = { x := min_key, y := rnd 0 } := by
  obtain ⟨shift, hshift, hltw, hpre⟩ := exists_shift hlt hmax hsome
  have hpre' : prefixOf min_key shift max_key < 2 ^ 31 :=
    hpre.trans_le (Nat.pow_le_pow_right (by norm_num) hbits)
  have hadd := AddKey_first rnd (b := Builder.init min_key max_key num_radix_bits max_error shift) min_key rfl
  rw [AddKeyToSpline, PossiblyAddKeyToRadixTable, if_neg (by simp [Builder.init, prefixOf_self]),
    Option.map_some] at hadd
  refine ⟨shift, Builder.init min_key max_key num_radix_bits max_error shift, _, hltw, hpre,
    Builder.new_eq max_error hshift hltw, hadd, ?_, rfl⟩
  have htable := init_radix_table num_radix_bits max_error hpre'
  have hlength : (Builder.init min_key max_key num_radix_bits max_error shift).radix_table.length =
      prefixOf min_key shift max_key + 2 := by
    rw [htable, List.length_replicate]
  refine ⟨⟨⟨[], rfl⟩, List.pairwise_singleton _ _, rfl, hlt.le, prefixOf_self.symm, hlength, ?_⟩, rfl, rfl, rfl, ?_,
    rfl, rfl, le_rfl, .inl ⟨rfl, rfl⟩⟩
  · intro entry hentry
    obtain rfl : entry = 0 := Nat.le_zero.mp hentry
    show (Builder.init min_key max_key num_radix_bits max_error shift).radix_table[0]? = some (before _ _ 0 _)
    rw [htable]
    simp [before]
  · exact fun key hkey => (List.mem_singleton.mp hkey).le

end

/-! ### The finished spline -/

/-- The points go from the smallest key to the largest, and each entry of the radix table is the number of points with
smaller prefixes. -/
structure Spline (rs : RadixSpline) : Prop where
  sorted : (rs.spline_points.map Coord.x).Pairwise (· < ·)
  head : rs.spline_points.head?.map Coord.x = some rs.min_key
  last : rs.spline_points.getLast?.map Coord.x = some rs.max_key
  few : rs.spline_points.length ≤ rs.num_keys
  table_length : rs.radix_table.length = prefixOf rs.min_key rs.num_shift_bits rs.max_key + 2
  entries : ∀ entry ≤ prefixOf rs.min_key rs.num_shift_bits rs.max_key + 1,
    rs.radix_table[entry]? = some (before rs.min_key rs.num_shift_bits entry rs.spline_points)

section
variable (rnd : ℚ → ℚ) {b : Builder} {last : Coord} {params : ℕ × ℕ × ℕ × ℕ × ℕ} {keys : List ℕ}

theorem Points.finalize
    (h : Points b.min_key b.max_key b.num_shift_bits b.spline_points b.radix_table b.prev_prefix_ last)
    (hmax : last.x = b.max_key) (hsize : b.spline_points.length < 2 ^ 32) :
    ∃ table, FinalizeRadixTable b =
        some { b with radix_table := table, prev_prefix_ := max (b.prev_prefix_ + 1) b.radix_table.length } ∧
      table.length = b.radix_table.length ∧ ∀ entry ≤ prefixOf b.min_key b.num_shift_bits b.max_key + 1,
        table[entry]? = some (before b.min_key b.num_shift_bits entry b.spline_points) := by
  have hpre := h.prefix_eq
  rw [hmax] at hpre
  have hlength := h.table_length
  obtain ⟨table, hfill, hfilled, hget⟩ := fill_spec b.radix_table (b.prev_prefix_ + 1)
    (b.radix_table.length - (b.prev_prefix_ + 1)) b.spline_points.length (.inr (by omega))
  refine ⟨table, ?_, hfilled, fun entry hentry => ?_⟩
  · simp only [FinalizeRadixTable, uint32, Nat.mod_eq_of_lt hsize, hfill, Option.map_some]
  · rw [hget]
    split_ifs with hrange
    · rw [h.before_eq (by omega)]
    · exact h.entries entry (by omega)

/-- The last point is added unless it is there already. -/
theorem Building.finalize (h : Building params keys last b) (hmax : b.prev_key = b.max_key)
    (hsize : keys.length < 2 ^ 32) :
    ∃ rs, Finalize rnd b = some rs ∧ Spline rs ∧
      (rs.min_key, rs.max_key, rs.num_radix_bits, rs.num_shift_bits, rs.max_error) = params ∧
      rs.num_keys = keys.length ∧
      rs.spline_points = b.spline_points ++
        if last.x = b.prev_key then [] else [{ x := b.prev_key, y := rnd (b.prev_position : ℕ) }] := by
  have hnum := h.num_ne
  have hlast : b.spline_points.getLast?.map Coord.x = some last.x := by rw [h.points.getLast, Option.map_some]
  by_cases hsame : last.x = b.prev_key
  · have hfew := h.few
    obtain ⟨table, hfinal, hfilled, hentries⟩ := h.points.finalize (hsame.trans hmax) (by omega)
    have hdone : Finalize rnd b = (FinalizeRadixTable b).map Builder.spline := by
      rw [Finalize, if_neg (by simp [hlast, hsame]), Option.bind_eq_bind, Option.bind_some]
    rw [hfinal, Option.map_some] at hdone
    refine ⟨_, hdone, ⟨h.points.sorted, h.points.head, ?_, ?_, hfilled.trans h.points.table_length, hentries⟩,
      h.params, h.num, ?_⟩
    · exact hlast.trans (congrArg some (hsame.trans hmax))
    · exact hfew.trans h.num.ge
    · simp [Builder.spline, hsame]
  · have hlt := lt_of_le_of_ne h.last_le_prev hsame
    obtain ⟨hone, hx⟩ | ⟨-, -, -, hfew⟩ := h.recent
    · exact absurd hx hsame
    · obtain ⟨table, hadd, hpoints⟩ := h.points.add (rnd (b.prev_position : ℕ)) hlt hmax.le (by omega)
      obtain ⟨table', hfinal, hfilled, hentries⟩ := Points.finalize
        (b := { b with
          spline_points := b.spline_points ++ [{ x := b.prev_key, y := rnd (b.prev_position : ℕ) }]
          radix_table := table
          prev_prefix_ := prefixOf b.min_key b.num_shift_bits b.prev_key })
        hpoints hmax (by simp only [List.length_append, List.length_singleton]; omega)
      have hdone : Finalize rnd b = (AddKeyToSpline b b.prev_key (rnd (b.prev_position : ℕ))).bind fun b =>
          (FinalizeRadixTable b).map Builder.spline := by
        rw [Finalize, if_pos ⟨Nat.pos_of_ne_zero hnum, by simpa [hlast] using hsame⟩, Option.bind_eq_bind]
      rw [hadd, Option.bind_some, hfinal, Option.map_some] at hdone
      refine ⟨_, hdone, ⟨hpoints.sorted, hpoints.head, ?_, ?_, hfilled.trans hpoints.table_length, hentries⟩,
        h.params, h.num, ?_⟩
      · simp [Builder.spline, hmax]
      · have hnum' := h.num
        simp only [Builder.spline, List.length_append, List.length_singleton]
        omega
      · simp [Builder.spline, hsame]

/-- **The builder** makes a spline of every sorted list of keys that are not all the same, and nothing it does to the
radix table is out of bounds. What every key keeps holds in the end. -/
theorem build_spec {w num_radix_bits : ℕ} (max_error : ℕ) {P : List ℕ → Builder → Prop} {min_key max_key : ℕ}
    (hfirst : keys.head? = some min_key) (hlast : keys.getLast? = some max_key) (hlt : min_key < max_key)
    (hsorted : keys.Pairwise (· ≤ ·)) (hmax : max_key < 2 ^ w)
    (hsome : 0 < num_radix_bits ∨ max_key - min_key < 2 ^ (w - 1)) (hbits : num_radix_bits ≤ 31)
    (hsize : keys.length < 2 ^ 32)
    (hone : ∀ shift b, Building (min_key, max_key, num_radix_bits, shift, max_error) [min_key]
      { x := min_key, y := rnd 0 } b → b.prev_point = { x := min_key, y := rnd 0 } → P [min_key] b)
    (hP : ∀ shift keys' last b key b', Building (min_key, max_key, num_radix_bits, shift, max_error) keys' last b →
      P keys' b → keys'.length < keys.length → b.prev_key ≤ key → key ≤ b.max_key → AddKey rnd b key = some b' →
      P (keys' ++ [key]) b') :
    ∃ rs shift b last, shift < w ∧ prefixOf min_key shift max_key < 2 ^ num_radix_bits ∧
      build rnd w num_radix_bits max_error keys = some rs ∧ Spline rs ∧
      (rs.min_key, rs.max_key, rs.num_radix_bits, rs.num_shift_bits, rs.max_error) =
        (min_key, max_key, num_radix_bits, shift, max_error) ∧
      rs.num_keys = keys.length ∧
      rs.spline_points = b.spline_points ++
        (if last.x = b.prev_key then [] else [{ x := b.prev_key, y := rnd (b.prev_position : ℕ) }]) ∧
      Building (min_key, max_key, num_radix_bits, shift, max_error) keys last b ∧ P keys b := by
  obtain ⟨rest, rfl⟩ : ∃ rest, keys = min_key :: rest := by
    cases keys with
    | nil => simp at hfirst
    | cons key rest =>
      obtain rfl : key = min_key := by simpa using hfirst
      exact ⟨rest, rfl⟩
  obtain ⟨shift, b₀, b₁, hshift, hpre, hnew, hadd, hbuilding, hpoint⟩ :=
    exists_building rnd max_error hlt hmax hsome hbits
  have hmaxkey : b₁.max_key = max_key := congrArg (fun q => q.2.1) hbuilding.params
  obtain ⟨b, last, hfold, hbuilding', hp⟩ := hbuilding.run rnd hsize.le (hP shift) (hone shift b₁ hbuilding hpoint) rest
    hsorted (fun key hkey => by rw [hmaxkey]; exact le_getLast hsorted hlast (List.mem_cons_of_mem _ hkey)) le_rfl
  have hprev : b.prev_key = b.max_key := by
    have hkey := hbuilding'.prev_key
    rw [List.singleton_append, hlast] at hkey
    exact (Option.some.inj hkey).symm.trans (congrArg (fun q => q.2.1) hbuilding'.params).symm
  obtain ⟨rs, hfinal, hspline, hparams, hnum, hpoints⟩ := hbuilding'.finalize rnd hprev hsize
  refine ⟨rs, shift, b, last, hshift, hpre, ?_, hspline, hparams, hnum, hpoints, hbuilding', hp⟩
  simp only [build, hfirst, hlast, hnew, List.foldlM_cons, hadd, hfold, Option.bind_eq_bind, Option.bind_some, hfinal]

end

/-! ### The lookup of a segment -/

section
variable {rs : RadixSpline} {key : ℕ}

/-- The points before a key. -/
def position (points : List Coord) (key : ℕ) : ℕ := points.countP fun c => c.x < key

theorem lt_position_iff (key : ℕ) {points : List Coord} (hsorted : (points.map Coord.x).Pairwise (· < ·)) {i : ℕ}
    (hi : i < points.length) : points[i].x < key ↔ i < position points key := by
  have hpart := partitioned_iff (q := fun c : Coord => decide (c.x < key)) (l := points) (by
    refine (List.pairwise_map.mp hsorted).imp fun {a b} hab hb => ?_
    simp only [decide_eq_true_eq] at hb ⊢
    omega) hi
  simpa [position] using hpart

theorem linearSearch_eq {points : List Coord} (hsorted : (points.map Coord.x).Pairwise (· < ·))
    (hlt : position points key < points.length) (current : ℕ) (hcurrent : current ≤ position points key) :
    linearSearch key (points.drop current) current = some (position points key) := by
  induction hd : position points key - current generalizing current with
  | zero =>
    obtain rfl : current = position points key := by omega
    have hnot := (lt_position_iff key hsorted hlt).not.mpr (lt_irrefl _)
    rw [List.drop_eq_getElem_cons hlt, linearSearch, if_neg hnot]
  | succ d ih =>
    have hlen : current < points.length := by omega
    have hbelow := (lt_position_iff key hsorted hlen).mpr (by omega)
    rw [List.drop_eq_getElem_cons hlen, linearSearch, if_pos hbelow]
    exact ih (current + 1) (by omega) (by omega)

/-- **The segment of a key**: the lookup stays in bounds, and both searches find the first point that is not before the
key. -/
theorem Spline.segment_eq (h : Spline rs) (hmin : rs.min_key < key) (hmax : key ≤ rs.max_key) :
    GetSplineSegment rs key = some (position rs.spline_points key) ∧ 0 < position rs.spline_points key ∧
      position rs.spline_points key < rs.spline_points.length := by
  obtain ⟨head, hhead, hheadx⟩ := Option.map_eq_some_iff.mp h.head
  obtain ⟨last, hlast, hlastx⟩ := Option.map_eq_some_iff.mp h.last
  have hpos : 0 < rs.spline_points.length := List.length_pos_of_mem (List.mem_of_getLast? hlast)
  have hzero : 0 < position rs.spline_points key :=
    List.countP_pos_iff.mpr ⟨head, List.mem_of_head? hhead, by simpa [hheadx] using hmin⟩
  have hlt : position rs.spline_points key < rs.spline_points.length := by
    refine lt_of_le_of_ne List.countP_le_length fun heq => ?_
    have hall := List.countP_eq_length.mp heq last (List.mem_of_getLast? hlast)
    simp only [decide_eq_true_eq] at hall
    omega
  refine ⟨?_, hzero, hlt⟩
  have hpre := prefixOf_mono rs.min_key rs.num_shift_bits hmax
  have hbegin : before rs.min_key rs.num_shift_bits (prefixOf rs.min_key rs.num_shift_bits key) rs.spline_points ≤
      position rs.spline_points key := by
    refine List.countP_mono_left fun c _ hc => ?_
    simp only [decide_eq_true_eq] at hc ⊢
    by_contra hnot
    exact absurd (prefixOf_mono _ _ (not_lt.mp hnot)) (not_le.mpr hc)
  have hend : position rs.spline_points key ≤
      before rs.min_key rs.num_shift_bits (prefixOf rs.min_key rs.num_shift_bits key + 1) rs.spline_points := by
    refine List.countP_mono_left fun c _ hc => ?_
    simp only [decide_eq_true_eq] at hc ⊢
    exact Nat.lt_succ_of_le (prefixOf_mono _ _ hc.le)
  have hbound : before rs.min_key rs.num_shift_bits (prefixOf rs.min_key rs.num_shift_bits key + 1) rs.spline_points ≤
      rs.spline_points.length := List.countP_le_length
  have hfirst := h.entries (prefixOf rs.min_key rs.num_shift_bits key) (by omega)
  have hsecond := h.entries (prefixOf rs.min_key rs.num_shift_bits key + 1) (by omega)
  rw [GetSplineSegment, hfirst, Option.bind_eq_bind, Option.bind_some, hsecond, Option.bind_some]
  generalize uint32 _ = count
  split_ifs
  · exact linearSearch_eq h.sorted hlt _ hbegin
  · refine lowerBound_eq _ _ hbegin (by omega) fun i _ hi => ?_
    have hilt : i < rs.spline_points.length := by omega
    rw [List.getElem?_eq_getElem hilt, Option.map_some, decide_eq_decide.mpr (lt_position_iff key h.sorted hilt)]

theorem Spline.min_le (h : Spline rs) {c : Coord} (hc : c ∈ rs.spline_points) : rs.min_key ≤ c.x :=
  head_le (h.sorted.imp le_of_lt) (by rw [List.head?_map, h.head]) (List.mem_map_of_mem hc)

theorem Spline.le_max (h : Spline rs) {c : Coord} (hc : c ∈ rs.spline_points) : c.x ≤ rs.max_key :=
  le_getLast (h.sorted.imp le_of_lt) (by rw [List.getLast?_map, h.last]) (List.mem_map_of_mem hc)

/-- The points around a key. -/
theorem Spline.exists_segment (h : Spline rs) (hmin : rs.min_key < key) (hmax : key ≤ rs.max_key) :
    ∃ i down up, GetSplineSegment rs key = some (i + 1) ∧ rs.spline_points[i]? = some down ∧
      rs.spline_points[i + 1]? = some up ∧ down.x < key ∧ key ≤ up.x := by
  obtain ⟨hsegment, hpos, hlt⟩ := h.segment_eq hmin hmax
  obtain ⟨i, hi⟩ := Nat.exists_eq_add_one.mpr hpos
  rw [hi] at hsegment hlt
  refine ⟨i, rs.spline_points[i], rs.spline_points[i + 1], hsegment, List.getElem?_eq_getElem _,
    List.getElem?_eq_getElem _, ?_, ?_⟩
  · exact (lt_position_iff key h.sorted _).mpr (by omega)
  · exact not_lt.mp ((lt_position_iff key h.sorted hlt).not.mpr (by omega))

/-- The estimate on the segment of a key. -/
theorem GetEstimatedPosition_eq (rnd : ℚ → ℚ) {i : ℕ} {down up : Coord} (hmin : rs.min_key < key)
    (hmax : key < rs.max_key) (hsegment : GetSplineSegment rs key = some (i + 1))
    (hdown : rs.spline_points[i]? = some down) (hup : rs.spline_points[i + 1]? = some up) :
    GetEstimatedPosition rnd rs key =
      some (fma rnd (rnd ((key - down.x : ℕ) : ℚ))
        (rnd (rnd (up.y - down.y) / rnd ((up.x - down.x : ℕ) : ℚ))) down.y) := by
  rw [GetEstimatedPosition, if_neg (not_le.mpr hmin), if_neg (not_le.mpr hmax), hsegment, Option.bind_eq_bind,
    Option.bind_some, if_neg (Nat.succ_ne_zero i), Nat.add_sub_cancel, hdown]
  simp only [hup, Option.bind_eq_bind, Option.bind_some]

/-- **The radix spline, whatever the rounding is**: the builder makes one of every sorted list of keys that are not all
the same, its points have growing keys, every lookup stays in bounds, and that of a segment finds the points around the
key. The prefixes and the entries of the radix table are numbers of 32 bits. -/
theorem radix_spline_safe (rnd : ℚ → ℚ) {w num_radix_bits max_error min_key max_key : ℕ} {keys : List ℕ}
    (hsorted : keys.Pairwise (· ≤ ·)) (hfirst : keys.head? = some min_key) (hlast : keys.getLast? = some max_key)
    (hlt : min_key < max_key) (hmax : max_key < 2 ^ w)
    (hsome : 0 < num_radix_bits ∨ max_key - min_key < 2 ^ (w - 1)) (hbits : num_radix_bits ≤ 31)
    (hsize : keys.length < 2 ^ 32) :
    ∃ rs, build rnd w num_radix_bits max_error keys = some rs ∧ (rs.spline_points.map Coord.x).Pairwise (· < ·) ∧
      (∀ key, min_key < key → key ≤ max_key → ∃ i down up, GetSplineSegment rs key = some (i + 1) ∧
        rs.spline_points[i]? = some down ∧ rs.spline_points[i + 1]? = some up ∧ down.x < key ∧ key ≤ up.x) ∧
      ∀ key, (GetSearchBound rnd rs key).isSome := by
  obtain ⟨rs, shift, b, last, -, -, hbuild, hspline, hparams, -, -, -, -⟩ := build_spec rnd max_error
    (P := fun _ _ => True) hfirst hlast hlt hsorted hmax hsome hbits hsize (fun _ _ _ _ => trivial)
    fun _ _ _ _ _ _ _ _ _ _ _ _ => trivial
  have hminkey : rs.min_key = min_key := congrArg (fun q => q.1) hparams
  have hmaxkey : rs.max_key = max_key := congrArg (fun q => q.2.1) hparams
  refine ⟨rs, hbuild, hspline.sorted, fun key hmin hmax => ?_, fun key => ?_⟩
  · exact hspline.exists_segment (by rwa [hminkey]) (by rwa [hmaxkey])
  · rw [GetSearchBound, Option.isSome_map]
    by_cases hlow : key ≤ rs.min_key
    · rw [GetEstimatedPosition, if_pos hlow]
      rfl
    · by_cases hhigh : rs.max_key ≤ key
      · rw [GetEstimatedPosition, if_neg hlow, if_pos hhigh]
        rfl
      · obtain ⟨i, down, up, hsegment, hdown, hup, -, -⟩ :=
          hspline.exists_segment (not_le.mp hlow) (not_le.mp hhigh).le
        rw [GetEstimatedPosition_eq rnd (not_le.mp hlow) (not_le.mp hhigh) hsegment hdown hup]
        rfl

theorem radix_spline_safe_zero :
    ∃ rs, build (fun _ => 0) 32 2 1 [3, 5, 5, 9] = some rs ∧ (rs.spline_points.map Coord.x).Pairwise (· < ·) ∧
      (∀ key, 3 < key → key ≤ 9 → ∃ i down up, GetSplineSegment rs key = some (i + 1) ∧
        rs.spline_points[i]? = some down ∧ rs.spline_points[i + 1]? = some up ∧ down.x < key ∧ key ≤ up.x) ∧
      ∀ key, (GetSearchBound (fun _ => 0) rs key).isSome :=
  radix_spline_safe (fun _ => 0) (by decide) rfl rfl (by norm_num) (by norm_num) (by norm_num) (by norm_num)
    (by norm_num)

end

end HashingArchive.LearnedModels.Rs
