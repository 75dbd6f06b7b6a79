import HashingArchive.Library.LittleEndian
import HashingArchive.LearnedModels.RadixSplineError

/-!
# The bytes of a radix spline

`Serializer` writes the members of a spline one after the other, the table and the points after their sizes, and reads
them back in the same order. What comes after the bytes of a spline is not looked at, and every spline the builder makes
is read back as it was (`serializer_round_trip`).
-/

namespace HashingArchive.LearnedModels.Rs

open HashingArchive.Library HashingArchive.Library.LittleEndian

/-! ### The code -/

/-- `ToBytes`, for keys of `keySize` bytes: it appends to the bytes that are there. -/
def ToBytes (keySize : ℕ) (rs : RadixSpline) (bytes : List (BitVec 8)) : List (BitVec 8) :=
  bytes ++ (encode keySize rs.min_key ++ (encode keySize rs.max_key ++ (encode 8 rs.num_keys ++
    (encode 8 rs.num_radix_bits ++ (encode 8 rs.num_shift_bits ++ (encode 8 rs.max_error ++
    (encode 8 rs.radix_table.length ++ (rs.radix_table.flatMap (encode 4) ++
    (encode 8 rs.spline_points.length ++
      rs.spline_points.flatMap fun c => encode keySize c.x ++ encode 8 (doubleBits c.y))))))))))

/-- A point: a key and a double. -/
def readPoint (keySize : ℕ) (bytes : List (BitVec 8)) : Option (Coord × List (BitVec 8)) := do
  let (x, bytes) ← read keySize bytes
  let (y, bytes) ← read 8 bytes
  some ({ x := x, y := doubleValue y }, bytes)

/-- `FromBytes`; there is no result where bytes are missing, or where the `int` that counts the entries overflows. -/
def FromBytes (keySize : ℕ) (bytes : List (BitVec 8)) : Option RadixSpline := do
  let (min_key, bytes) ← read keySize bytes
  let (max_key, bytes) ← read keySize bytes
  let (num_keys, bytes) ← read 8 bytes
  let (num_radix_bits, bytes) ← read 8 bytes
  let (num_shift_bits, bytes) ← read 8 bytes
  let (max_error, bytes) ← read 8 bytes
  let (radix_table_size, bytes) ← read 8 bytes
  let (radix_table, bytes) ← if radix_table_size < 2 ^ 31 then readList (read 4) radix_table_size bytes else none
  let (spline_points_size, bytes) ← read 8 bytes
  let (spline_points, _) ←
    if spline_points_size < 2 ^ 31 then readList (readPoint keySize) spline_points_size bytes else none
  some { min_key, max_key, num_keys, num_radix_bits, num_shift_bits, max_error, radix_table, spline_points }

/-! ### The round trip -/

/-- What fits into the bytes of its members. -/
structure Storable (keySize : ℕ) (rs : RadixSpline) : Prop where
  min_key : rs.min_key < 256 ^ keySize
  max_key : rs.max_key < 256 ^ keySize
  num_keys : rs.num_keys < 256 ^ 8
  num_radix_bits : rs.num_radix_bits < 256 ^ 8
  num_shift_bits : rs.num_shift_bits < 256 ^ 8
  max_error : rs.max_error < 256 ^ 8
  entries : ∀ entry ∈ rs.radix_table, entry < 256 ^ 4
  radix_table_size : rs.radix_table.length < 2 ^ 31
  points : ∀ c ∈ rs.spline_points, c.x < 256 ^ keySize ∧ ∃ n < 2 ^ 53, c.y = (n : ℕ)
  spline_points_size : rs.spline_points.length < 2 ^ 31

section
variable {keySize : ℕ} {rs : RadixSpline}

theorem readPoint_append {c : Coord} (hx : c.x < 256 ^ keySize) {n : ℕ} (hn : n < 2 ^ 53) (hy : c.y = n)
    (rest : List (BitVec 8)) :
    readPoint keySize ((encode keySize c.x ++ encode 8 (doubleBits c.y)) ++ rest) = some (c, rest) := by
  have hbits : doubleBits c.y < 256 ^ 8 := by
    rw [hy]
    exact (doubleBits_lt hn).trans_le (by norm_num)
  have hvalue : doubleValue (doubleBits c.y) = c.y := by rw [hy, doubleValue_doubleBits hn]
  rw [readPoint, List.append_assoc, read_encode hx, Option.bind_eq_bind, Option.bind_some]
  simp only [read_encode hbits, hvalue, Option.bind_some]

/-- **What fits into its bytes** is read back, whatever comes after it. -/
theorem Storable.fromBytes (h : Storable keySize rs) (rest : List (BitVec 8)) :
    FromBytes keySize (ToBytes keySize rs [] ++ rest) = some rs := by
  have htable_size : rs.radix_table.length < 256 ^ 8 := h.radix_table_size.trans (by norm_num)
  have hpoints_size : rs.spline_points.length < 256 ^ 8 := h.spline_points_size.trans (by norm_num)
  have htable := readList_flatMap (read 4) (encode 4) rs.radix_table
    fun entry hentry rest => read_encode (h.entries entry hentry) rest
  have hpoints := readList_flatMap (readPoint keySize)
    (fun c => encode keySize c.x ++ encode 8 (doubleBits c.y)) rs.spline_points fun c hc rest => by
      obtain ⟨hx, n, hn, hy⟩ := h.points c hc
      exact readPoint_append hx hn hy rest
  rw [FromBytes, ToBytes, List.nil_append]
  simp only [List.append_assoc, read_encode h.min_key, read_encode h.max_key, read_encode h.num_keys,
    read_encode h.num_radix_bits, read_encode h.num_shift_bits, read_encode h.max_error, read_encode htable_size,
    read_encode hpoints_size, if_pos h.radix_table_size, if_pos h.spline_points_size, htable, hpoints,
    Option.bind_eq_bind, Option.bind_some]

end

/-! ### The points of the builder -/

/-- The points of the spline are at positions of the keys so far, and so is the one that may come next. -/
def Whole (keys : List ℕ) (b : Builder) : Prop :=
  ∀ c, c ∈ b.spline_points ∨ c = b.prev_point → ∃ position < keys.length, c.y = (position : ℕ)

section
variable {rnd : ℚ → ℚ} {params : ℕ × ℕ × ℕ × ℕ × ℕ} {keys : List ℕ} {last : Coord} {b b' : Builder} {key : ℕ}

/-- The next point is at the position of the new key, and what is added is at most the point that was next before. -/
theorem Whole.snoc (h : Whole keys b) (hprev : b'.prev_point.y = keys.length)
    (hpoints : ∀ c ∈ b'.spline_points, c ∈ b.spline_points ∨ c = b.prev_point) : Whole (keys ++ [key]) b' := by
  rintro c (hc | rfl)
  · obtain ⟨position, hlt, hy⟩ := h c (hpoints c hc)
    exact ⟨position, by simp; omega, hy⟩
  · exact ⟨keys.length, by simp, hprev⟩

theorem whole_first (hr : Rounds rnd 53) {min_key : ℕ} (hb : Building params [min_key] { x := min_key, y := rnd 0 } b)
    (hprev : b.prev_point = { x := min_key, y := rnd 0 }) : Whole [min_key] b := by
  rintro c (hc | rfl)
  · rw [hb.points_first] at hc
    obtain rfl := List.mem_singleton.mp hc
    exact ⟨0, by simp, by simp [hr.zero]⟩
  · exact ⟨0, by simp, by simp [hprev, hr.zero]⟩

theorem Whole.step (hr : Rounds rnd 53) (h : Whole keys b) (hb : Building params keys last b)
    (hsize : keys.length < 2 ^ 32) (hadd : AddKey rnd b key = some b') : Whole (keys ++ [key]) b' := by
  have hposition : rnd (b.prev_position + 1 : ℕ) = keys.length := by
    rw [hb.position]
    exact hr.natCast (by omega)
  by_cases hsame : key = b.prev_key
  · subst hsame
    rw [AddKey_again rnd hb.num_ne] at hadd
    obtain rfl := Option.some.inj hadd
    intro c hc
    obtain ⟨position, hlt, hy⟩ := h c hc
    exact ⟨position, by simp; omega, hy⟩
  · by_cases hone : b.curr_num_distinct_keys = 1
    · rw [AddKey_second rnd hb.num_ne hsame hone] at hadd
      obtain rfl := Option.some.inj hadd
      exact h.snoc hposition fun c hc => .inl hc
    · by_cases hcut : Cuts rnd b last key (rnd (b.prev_position + 1 : ℕ))
      · rw [AddKey_cut rnd hb.num_ne hsame hone hb.points.getLast hcut] at hadd
        obtain ⟨b₁, hb₁, rfl⟩ := Option.map_eq_some_iff.mp hadd
        have hpoints : b₁.spline_points = b.spline_points ++ [b.prev_point] := by
          rw [eq_of_AddKeyToSpline hb₁]
        refine h.snoc hposition fun c hc => ?_
        rw [hpoints] at hc
        exact (List.mem_append.mp hc).imp_right List.mem_singleton.mp
      · rw [AddKey_on rnd hb.num_ne hsame hone hb.points.getLast hcut] at hadd
        obtain rfl := Option.some.inj hadd
        exact h.snoc hposition fun c hc => .inl hc

end

/-! ### The splines of the builder -/

section
variable {rnd : ℚ → ℚ} {num_radix_bits max_error min_key max_key : ℕ} {keys : List ℕ}

/-- The entries of the radix table are numbers of points. -/
theorem Spline.entry_lt {rs : RadixSpline} (h : Spline rs) (hsize : rs.num_keys < 2 ^ 32) {entry : ℕ}
    (hentry : entry ∈ rs.radix_table) : entry < 256 ^ 4 := by
  obtain ⟨i, hi, rfl⟩ := List.getElem_of_mem hentry
  have hlength := h.table_length
  have heq := h.entries i (by omega)
  rw [List.getElem?_eq_getElem hi] at heq
  rw [Option.some.inj heq]
  exact (List.countP_le_length.trans h.few).trans_lt (hsize.trans_le (by norm_num))

/-- **A spline the builder makes** survives being stored and loaded. -/
theorem serializer_round_trip (hr : Rounds rnd 53) {keySize : ℕ} (hkeySize : keySize ≤ 8)
    (hsorted : keys.Pairwise (· ≤ ·)) (hfirst : keys.head? = some min_key) (hlast : keys.getLast? = some max_key)
    (hlt : min_key < max_key) (hmax : max_key < 2 ^ (8 * keySize))
    (hsome : 0 < num_radix_bits ∨ max_key - min_key < 2 ^ (8 * keySize - 1)) (hbits : num_radix_bits ≤ 30)
    (hsize : keys.length < 2 ^ 31) (herror : max_error < 2 ^ 64) :
    ∃ rs, build rnd (8 * keySize) num_radix_bits max_error keys = some rs ∧
      ∀ rest, FromBytes keySize (ToBytes keySize rs [] ++ rest) = some rs := by
  have hpow : 2 ^ (8 * keySize) = 256 ^ keySize := by
    rw [pow_mul]
    norm_num
  obtain ⟨rs, shift, b, last, hshift, hpre, hbuild, hspline, hparams, hnum, hpoints, hb, hwhole⟩ :=
    build_spec rnd max_error (P := Whole) hfirst hlast hlt hsorted hmax hsome (hbits.trans (by norm_num))
      (hsize.trans (by norm_num)) (fun _ _ hb hprev => whole_first hr hb hprev)
      fun _ _ _ _ _ _ hb hwhole hlen _ _ hadd => hwhole.step hr hb (by omega) hadd
  obtain ⟨hrsmin, hrsmax, hrsbits, hrsshift, hrserror⟩ :
      rs.min_key = min_key ∧ rs.max_key = max_key ∧ rs.num_radix_bits = num_radix_bits ∧
        rs.num_shift_bits = shift ∧ rs.max_error = max_error := by
    simpa only [Prod.mk.injEq] using hparams
  have hpre' : prefixOf rs.min_key rs.num_shift_bits rs.max_key < 2 ^ 30 := by
    rw [hrsmin, hrsmax, hrsshift]
    exact hpre.trans_le (Nat.pow_le_pow_right (by norm_num) hbits)
  have hfew := hspline.few
  -- the last point is that of the last key
  have hpositions : ∀ c ∈ rs.spline_points, ∃ position < keys.length, c.y = (position : ℕ) := by
    intro c hc
    rw [hpoints] at hc
    rcases List.mem_append.mp hc with hc | hc
    · exact hwhole c (.inl hc)
    · have hposition := hb.position
      split_ifs at hc
      · simp at hc
      · obtain rfl := List.mem_singleton.mp hc
        exact ⟨b.prev_position, by omega, hr.natCast (by omega)⟩
  rw [hpow] at hmax
  refine ⟨rs, hbuild, Storable.fromBytes ⟨by omega, by omega, ?_, ?_, ?_, ?_, ?_, ?_, fun c hc => ?_, by omega⟩⟩
  · norm_num
    omega
  · norm_num
    omega
  · norm_num
    omega
  · norm_num
    omega
  · exact fun entry hentry => hspline.entry_lt (by omega) hentry
  · rw [hspline.table_length]
    omega
  · obtain ⟨position, hlen, hy⟩ := hpositions c hc
    have hle := hspline.le_max hc
    exact ⟨by omega, position, by omega, hy⟩

/-- Keys that are too far apart for the arithmetic of the builder to be exact. -/
theorem serializer_round_trip_far :
    ∃ rs, build binary64 (8 * 8) 3 1 [0, 1, 2 ^ 46, 2 ^ 63] = some rs ∧
      ∀ rest, FromBytes 8 (ToBytes 8 rs [] ++ rest) = some rs :=
  serializer_round_trip rounds_binary64 (by norm_num) (by decide) rfl rfl (by norm_num) (by norm_num) (by norm_num)
    (by norm_num) (by norm_num) (by norm_num)

end

end HashingArchive.LearnedModels.Rs
