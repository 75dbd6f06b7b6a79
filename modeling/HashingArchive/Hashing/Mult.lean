import HashingArchive.Reduction.Fastrange

/-!
# Shortened multiplicative hashes

`MultiplicationHash` keeps the top `p` bits of a product with an odd constant. Every number of `p` bits is the hash of
equally many keys (`multiplicationHash_spreadsEvenly`), but `Fastrange` takes the hash for a word of its full width and
maps small words to the first buckets: with fewer bits than the word has it leaves buckets out (`measure64_onto_iff`).
-/

namespace HashingArchive.Hashing

open HashingArchive.Library HashingArchive.Library.Words HashingArchive.Reduction

/-! ### The code -/

/-- `MultiplicationHash<T, constant, base_name, p>` for a `T` of `t` bits. -/
def MultiplicationHash {t : ℕ} (constant : BitVec t) (p : ℕ) (key : BitVec t) : BitVec t := (key * constant) >>> (t - p)

/-- `MultiplicationHash<HASH_32, constant, base_name, p>`. -/
def MultiplicationHash32 (constant : BitVec 32) (p : ℕ) (key : BitVec 32) : BitVec 32 :=
  MultiplicationHash constant p key

/-- `MultiplicationHash<HASH_64, constant, base_name, p>`. -/
def MultiplicationHash64 (constant : BitVec 64) (p : ℕ) (key : BitVec 64) : BitVec 64 :=
  MultiplicationHash constant p key

/-- With `p = 32` this is `PrimeMultiplicationHash32`, and so for the others. -/
def PrimeMultiplicationShiftHash32 (p : ℕ) : BitVec 32 → BitVec 32 := MultiplicationHash32 0x238EF8E3 p

def PrimeMultiplicationShiftHash64 (p : ℕ) : BitVec 64 → BitVec 64 := MultiplicationHash64 0xC7455FEC83DD661F p

def FibonacciShiftHash32 (p : ℕ) : BitVec 32 → BitVec 32 := MultiplicationHash32 0x9E3779B9 p

def FibonacciShiftHash64 (p : ℕ) : BitVec 64 → BitVec 64 := MultiplicationHash64 0x9E3779B97F4A7C15 p

def FibonacciPrimeShiftHash32 (p : ℕ) : BitVec 32 → BitVec 32 := MultiplicationHash32 0x9E3779B1 p

def FibonacciPrimeShiftHash64 (p : ℕ) : BitVec 64 → BitVec 64 := MultiplicationHash64 0x9E3779B97F4A7C55 p

/-- The reducers of `measure64`. -/
inductive Reducerfn where
  | fastrange32
  | fastrange64
  | fastModulo64
  deriving DecidableEq

/-- A reducer for `N` buckets on a hash of 64 bits. `Fastrange<HASH_32>` takes a `HASH_32`, which the hash is
converted to. -/
def Reducerfn.apply : Reducerfn → BitVec 64 → BitVec 64 → BitVec 64
  | fastrange32, N, hash => (Fastrange32 N (hash.setWidth 32)).setWidth 64
  | fastrange64, N, hash => Fastrange64 N hash
  | fastModulo64, N, hash => FastModulo64 N hash

/-- The address `measure_collisions` computes, `reducefn(hashfn(key))`. -/
def htAddress (reducefn : Reducerfn) (N constant : BitVec 64) (p : ℕ) (key : BitVec 64) : BitVec 64 :=
  reducefn.apply N (MultiplicationHash64 constant p key)

/-! ### The hashes -/

theorem toNat_MultiplicationHash64 (constant : BitVec 64) (p : ℕ) (key : BitVec 64) :
    (MultiplicationHash64 constant p key).toNat = key.toNat * constant.toNat % 2 ^ 64 / 2 ^ (64 - p) := by
  rw [MultiplicationHash64, MultiplicationHash, BitVec.toNat_ushiftRight, BitVec.toNat_mul, Nat.shiftRight_eq_div_pow]

/-- The hash `f` takes equally many keys to each number of `p` bits, and none elsewhere. -/
structure SpreadsEvenly {t : ℕ} (p : ℕ) (f : BitVec t → BitVec t) : Prop where
  lt : ∀ key, (f key).toNat < 2 ^ p
  card : ∀ r < 2 ^ p, (Finset.univ.filter fun key => (f key).toNat = r).card = 2 ^ (t - p)

/-- Multiplying by an odd constant permutes the words, and the shift takes equally many words to each result. -/
theorem MultiplicationHash.spreadsEvenly {t p : ℕ} {constant : BitVec t} (hodd : Odd constant.toNat) (hp : p ≤ t) :
    SpreadsEvenly p (MultiplicationHash constant p) := by
  have hsplit : 2 ^ p * 2 ^ (t - p) = 2 ^ t := pow_mul_pow_sub 2 hp
  refine ⟨fun key => ?_, fun r hr => ?_⟩
  · rw [MultiplicationHash, BitVec.toNat_ushiftRight, Nat.shiftRight_eq_div_pow,
      Nat.div_lt_iff_lt_mul (Nat.two_pow_pos _), hsplit]
    exact BitVec.isLt _
  · have hfit : (r + 1) * 2 ^ (t - p) ≤ 2 ^ t := by
      rw [← hsplit]
      exact Nat.mul_le_mul_right _ hr
    rw [← card_shiftRight_eq hfit]
    apply Finset.card_bijective _ (mul_bijective hodd)
    simp [MultiplicationHash]

/-- All the constants in use are odd. -/
theorem shiftHash32_spreadsEvenly {p : ℕ} (hp : p ≤ 32) :
    SpreadsEvenly p (PrimeMultiplicationShiftHash32 p) ∧ SpreadsEvenly p (FibonacciShiftHash32 p) ∧
      SpreadsEvenly p (FibonacciPrimeShiftHash32 p) :=
  ⟨MultiplicationHash.spreadsEvenly (by decide) hp, MultiplicationHash.spreadsEvenly (by decide) hp,
    MultiplicationHash.spreadsEvenly (by decide) hp⟩

theorem shiftHash64_spreadsEvenly {p : ℕ} (hp : p ≤ 64) :
    SpreadsEvenly p (PrimeMultiplicationShiftHash64 p) ∧ SpreadsEvenly p (FibonacciShiftHash64 p) ∧
      SpreadsEvenly p (FibonacciPrimeShiftHash64 p) :=
  ⟨MultiplicationHash.spreadsEvenly (by decide) hp, MultiplicationHash.spreadsEvenly (by decide) hp,
    MultiplicationHash.spreadsEvenly (by decide) hp⟩

/-- **The keys are spread evenly** over the numbers of `p` bits, in both word sizes. -/
theorem multiplicationHash_spreadsEvenly :
    (∀ constant : BitVec 32, Odd constant.toNat → ∀ p, 1 ≤ p → p ≤ 32 →
        SpreadsEvenly p (MultiplicationHash32 constant p)) ∧
      ∀ constant : BitVec 64, Odd constant.toNat → ∀ p, 1 ≤ p → p ≤ 64 →
        SpreadsEvenly p (MultiplicationHash64 constant p) :=
  ⟨fun _ hodd _ _ hp => MultiplicationHash.spreadsEvenly hodd hp,
    fun _ hodd _ _ hp => MultiplicationHash.spreadsEvenly hodd hp⟩

/-- The constants of the golden ratio with the 28 bits of the benchmark. -/
theorem fibonacciShiftHash_spreadsEvenly :
    SpreadsEvenly 28 (FibonacciShiftHash32 28) ∧ SpreadsEvenly 28 (FibonacciShiftHash64 28) :=
  ⟨multiplicationHash_spreadsEvenly.1 0x9E3779B9 (by decide) 28 (by norm_num) (by norm_num),
    multiplicationHash_spreadsEvenly.2 0x9E3779B97F4A7C15 (by decide) 28 (by norm_num) (by norm_num)⟩

/-- The hashes are the numbers of `p` bits. -/
theorem range_MultiplicationHash64 {constant : BitVec 64} (hodd : Odd constant.toNat) {p : ℕ} (hp : p ≤ 64) :
    Set.range (fun key => (MultiplicationHash64 constant p key).toNat) = Set.Iio (2 ^ p) := by
  have heven : SpreadsEvenly p (MultiplicationHash64 constant p) := MultiplicationHash.spreadsEvenly hodd hp
  ext hash
  constructor
  · rintro ⟨key, rfl⟩
    exact heven.lt key
  · intro hlt
    have hpos : 0 < (Finset.univ.filter fun key => (MultiplicationHash64 constant p key).toNat = hash).card := by
      rw [heven.card hash hlt]
      exact Nat.two_pow_pos _
    obtain ⟨key, hkey⟩ := Finset.card_pos.mp hpos
    exact ⟨key, (Finset.mem_filter.mp hkey).2⟩

/-! ### Which addresses are reached -/

section
variable {N constant : BitVec 64} {p : ℕ}

/-- The addresses are what the reducer makes of the numbers of `p` bits. -/
theorem range_htAddress (hodd : Odd constant.toNat) (hp : p ≤ 64) {reducefn : Reducerfn} {f : ℕ → ℕ}
    (hf : ∀ hash, (reducefn.apply N hash).toNat = f hash.toNat) :
    Set.range (fun key => (htAddress reducefn N constant p key).toNat) = f '' Set.Iio (2 ^ p) := by
  rw [← range_MultiplicationHash64 hodd hp, ← Set.range_comp]
  exact congrArg Set.range (funext fun key => hf _)

theorem fastModulo64_onto (hpos : 1 ≤ N.toNat) (hNp : N.toNat ≤ 2 ^ p) :
    (fun x => x % N.toNat) '' Set.Iio (2 ^ p) = Set.Iio N.toNat := by
  ext r
  constructor
  · rintro ⟨x, -, rfl⟩
    exact Nat.mod_lt x hpos
  · intro hr
    exact ⟨r, Set.mem_Iio.mpr (lt_of_lt_of_le hr hNp), Nat.mod_eq_of_lt hr⟩

theorem fastrange64_onto_iff (hpos : 1 ≤ N.toNat) (hp : p ≤ 64) :
    (fun x => x * N.toNat / 2 ^ 64) '' Set.Iio (2 ^ p) = Set.Iio N.toNat ↔ N.toNat = 1 ∨ p = 64 := by
  rcases Nat.lt_or_eq_of_le hp with hlt | rfl
  · have hhalf : 2 * 2 ^ p ≤ 2 ^ 64 := by
      rw [← pow_succ']
      exact Nat.pow_le_pow_right (by norm_num) hlt
    rw [range_mul_div_half_iff hpos (Nat.two_pow_pos p) hhalf]
    omega
  · exact iff_of_true (range_mul_div hpos N.isLt.le) (Or.inr rfl)

/-- The low halves of the hashes are all words, or the hashes themselves. -/
theorem image_mod (p : ℕ) : (fun x => x % 2 ^ 32) '' Set.Iio (2 ^ p) = Set.Iio (2 ^ min p 32) := by
  ext r
  simp only [Set.mem_image, Set.mem_Iio]
  rcases le_total p 32 with hle | hle
  · have hpow : 2 ^ p ≤ 2 ^ 32 := Nat.pow_le_pow_right (by norm_num) hle
    rw [min_eq_left hle]
    constructor
    · rintro ⟨x, hx, rfl⟩
      exact (Nat.mod_le x _).trans_lt hx
    · exact fun hr => ⟨r, hr, Nat.mod_eq_of_lt (hr.trans_le hpow)⟩
  · have hpow : 2 ^ 32 ≤ 2 ^ p := Nat.pow_le_pow_right (by norm_num) hle
    rw [min_eq_right hle]
    constructor
    · rintro ⟨x, -, rfl⟩
      exact Nat.mod_lt x (by norm_num)
    · exact fun hr => ⟨r, hr.trans_le hpow, Nat.mod_eq_of_lt hr⟩

theorem fastrange32_onto_iff (hpos : 1 ≤ N.toNat) (hN : N.toNat ≤ 2 ^ 32) :
    (fun x => x % 2 ^ 32 * N.toNat / 2 ^ 32) '' Set.Iio (2 ^ p) = Set.Iio N.toNat ↔ N.toNat = 1 ∨ 32 ≤ p := by
  have himage : (fun x => x % 2 ^ 32 * N.toNat / 2 ^ 32) '' Set.Iio (2 ^ p) =
      (fun x => x * N.toNat / 2 ^ 32) '' Set.Iio (2 ^ min p 32) := by
    rw [← image_mod, Set.image_image]
  rw [himage]
  rcases Nat.lt_or_ge p 32 with hlt | hge
  · have hhalf : 2 * 2 ^ min p 32 ≤ 2 ^ 32 := by
      rw [← pow_succ']
      exact Nat.pow_le_pow_right (by norm_num) (by omega)
    rw [range_mul_div_half_iff hpos (Nat.two_pow_pos _) hhalf]
    omega
  · rw [min_eq_right hge]
    exact iff_of_true (range_mul_div hpos hN) (Or.inr hge)

/-- **The keys reach every bucket** unless `Fastrange` gets fewer bits than its word has, for more than one bucket. -/
theorem measure64_onto_iff (reducefn : Reducerfn) (hp : p ≤ 64) (hodd : Odd constant.toNat)
    (hpos : 1 ≤ N.toNat) (hN : N.toNat ≤ min (2 ^ p) (2 ^ 32)) :
    Set.range (fun key => (htAddress reducefn N constant p key).toNat) = Set.Iio N.toNat ↔
      N.toNat = 1 ∨ match reducefn with
        | .fastrange32 => 32 ≤ p
        | .fastrange64 => p = 64
        | .fastModulo64 => True := by
  have hN32 : N.toNat ≤ 2 ^ 32 := hN.trans (min_le_right _ _)
  cases reducefn with
  | fastrange32 =>
    rw [range_htAddress (f := fun x => x % 2 ^ 32 * N.toNat / 2 ^ 32) hodd hp fun hash => ?_]
    · exact fastrange32_onto_iff hpos hN32
    · rw [Reducerfn.apply, BitVec.toNat_setWidth, toNat_Fastrange32 hpos hN32, BitVec.toNat_setWidth]
      refine Nat.mod_eq_of_lt ((mul_div_lt hpos (by norm_num) (Nat.mod_lt _ (by norm_num))).trans N.isLt)
  | fastrange64 =>
    rw [range_htAddress (f := fun x => x * N.toNat / 2 ^ 64) hodd hp fun hash => ?_]
    · exact fastrange64_onto_iff hpos hp
    · exact toNat_Fastrange64 hpos hash
  | fastModulo64 =>
    rw [range_htAddress (f := fun x => x % N.toNat) hodd hp fun hash => ?_]
    · exact iff_of_true (fastModulo64_onto hpos (hN.trans (min_le_left _ _))) (Or.inr trivial)
    · exact toNat_FastModulo64 N hash

end

/-- The constant of the benchmark with its 28 bits and two buckets: `Fastrange<HASH_32>` never reaches the second. -/
theorem measure64_misses :
    ¬Set.range (fun key => (htAddress .fastrange32 2 0xC7455FEC83DD661F 28 key).toNat) = Set.Iio 2 := by
  intro honto
  obtain ⟨key, hkey⟩ : 1 ∈ Set.range (fun key => (htAddress .fastrange32 2 0xC7455FEC83DD661F 28 key).toNat) := by
    rw [honto]
    exact Set.mem_Iio.mpr (by norm_num)
  have hlt : (MultiplicationHash64 0xC7455FEC83DD661F 28 key).toNat < 2 ^ 28 := by
    rw [toNat_MultiplicationHash64]
    omega
  have haddress : (htAddress .fastrange32 2 0xC7455FEC83DD661F 28 key).toNat = 0 := by
    rw [htAddress, Reducerfn.apply, BitVec.toNat_setWidth, toNat_Fastrange32 (by decide) (by decide),
      BitVec.toNat_setWidth, show (2 : BitVec 64).toNat = 2 from rfl]
    omega
  simp only [haddress] at hkey
  omega

/-- All 64 bits of the hash are enough. -/
theorem measure64_onto_full :
    Set.range (fun key => (htAddress .fastrange64 1000 0xC7455FEC83DD661F 64 key).toNat) = Set.Iio 1000 :=
  (measure64_onto_iff .fastrange64 le_rfl ⟨0x63A2AFF641EEB30F, by rfl⟩ (by decide) (by decide)).mpr
    (Or.inr rfl)

end HashingArchive.Hashing
