import Mathlib

/-!
# Little-endian words

The bytes of a number, the lowest first (`encode`), and the number of a list of bytes (`decode`). Code that reads a
word ors shifted bytes together; `Assembled` says that a word holds the bytes read so far, and `Assembled.or` that one
more shifted byte keeps it so, as long as the word has room for it. A stream is read item by item (`read`, `readList`).
-/

namespace HashingArchive.Library.LittleEndian

/-- The `n` lowest bytes of `v`. -/
def encode : ℕ → ℕ → List (BitVec 8)
  | 0, _ => []
  | n + 1, v => BitVec.ofNat 8 v :: encode n (v / 256)

/-- The number with these bytes. -/
def decode (bytes : List (BitVec 8)) : ℕ := Nat.ofDigits 256 (bytes.map BitVec.toNat)

@[simp] theorem decode_nil : decode [] = 0 := rfl

@[simp] theorem decode_cons (b : BitVec 8) (bytes : List (BitVec 8)) :
    decode (b :: bytes) = b.toNat + 256 * decode bytes := Nat.ofDigits_cons

@[simp] theorem length_encode (n v : ℕ) : (encode n v).length = n := by
  induction n generalizing v with
  | zero => rfl
  | succ n ih => rw [encode, List.length_cons, ih]

theorem decode_encode (n : ℕ) : ∀ v, v < 256 ^ n → decode (encode n v) = v := by
  induction n with
  | zero =>
    intro v hv
    rw [pow_zero] at hv
    exact (Nat.lt_one_iff.mp hv).symm
  | succ n ih =>
    intro v hv
    rw [pow_succ, ← Nat.div_lt_iff_lt_mul (by norm_num)] at hv
    rw [encode, decode_cons, ih _ hv, BitVec.toNat_ofNat]
    exact Nat.mod_add_div v 256

theorem encode_decode (bytes : List (BitVec 8)) : encode bytes.length (decode bytes) = bytes := by
  induction bytes with
  | nil => rfl
  | cons b bytes ih =>
    have hb := b.isLt
    rw [List.length_cons, decode_cons, encode, show (b.toNat + 256 * decode bytes) / 256 = decode bytes by omega, ih]
    congr 1
    apply BitVec.eq_of_toNat_eq
    rw [BitVec.toNat_ofNat]
    omega

theorem decode_lt (bytes : List (BitVec 8)) : decode bytes < 256 ^ bytes.length := by
  have hlt : Nat.ofDigits 256 (bytes.map BitVec.toNat) < 256 ^ (bytes.map BitVec.toNat).length := by
    apply Nat.ofDigits_lt_base_pow_length (by norm_num)
    intro n hn
    obtain ⟨b, -, rfl⟩ := List.mem_map.mp hn
    exact b.isLt
  rwa [List.length_map] at hlt

theorem decode_append_singleton (bytes : List (BitVec 8)) (b : BitVec 8) :
    decode (bytes ++ [b]) = decode bytes + 256 ^ bytes.length * b.toNat := by
  rw [decode, List.map_append, Nat.ofDigits_append, List.length_map, List.map_singleton, Nat.ofDigits_singleton]
  rfl

/-- The word `acc` holds the bytes. -/
def Assembled {w : ℕ} (acc : BitVec w) (bytes : List (BitVec 8)) : Prop := acc.toNat = decode bytes

namespace Assembled

variable {w : ℕ}

theorem byte (b : BitVec 8) (hw : 8 ≤ w) : Assembled (b.setWidth w) [b] := by
  have hlt : b.toNat < 2 ^ w := b.isLt.trans_le (Nat.pow_le_pow_right (by norm_num) hw)
  simp [Assembled, BitVec.toNat_setWidth, Nat.mod_eq_of_lt hlt]

theorem or {acc : BitVec w} {bytes : List (BitVec 8)} (h : Assembled acc bytes) (b : BitVec 8)
    (hw : 8 * (bytes.length + 1) ≤ w) : Assembled (acc ||| b.setWidth w <<< (8 * bytes.length)) (bytes ++ [b]) := by
  have hpow : (256 : ℕ) ^ bytes.length = 2 ^ (8 * bytes.length) := by
    rw [pow_mul]
    norm_num
  have hacc : acc.toNat < 2 ^ (8 * bytes.length) := by
    rw [h, ← hpow]
    exact decode_lt bytes
  have hshift : b.toNat * 2 ^ (8 * bytes.length) < 2 ^ w := by
    calc b.toNat * 2 ^ (8 * bytes.length)
      _ < 2 ^ 8 * 2 ^ (8 * bytes.length) := Nat.mul_lt_mul_of_pos_right b.isLt (by positivity)
      _ = 2 ^ (8 * (bytes.length + 1)) := by rw [← pow_add]; congr 1; omega
      _ ≤ 2 ^ w := Nat.pow_le_pow_right (by norm_num) hw
  have hb : b.toNat < 2 ^ w := b.isLt.trans_le (Nat.pow_le_pow_right (by norm_num) (by omega))
  show BitVec.toNat _ = _
  rw [BitVec.toNat_or, BitVec.toNat_shiftLeft, BitVec.toNat_setWidth, Nat.mod_eq_of_lt hb, Nat.shiftLeft_eq,
    Nat.mod_eq_of_lt hshift, Nat.or_comm, ← Nat.shiftLeft_eq, ← Nat.shiftLeft_add_eq_or_of_lt hacc, h,
    decode_append_singleton, Nat.shiftLeft_eq, hpow, Nat.add_comm, Nat.mul_comm]

end Assembled

/-! ### Reading a stream -/

/-- The number in the first `n` bytes, and the bytes after them. -/
def read (n : ℕ) (bytes : List (BitVec 8)) : Option (ℕ × List (BitVec 8)) :=
  if n ≤ bytes.length then some (decode (bytes.take n), bytes.drop n) else none

@[simp] theorem read_encode {n v : ℕ} (hv : v < 256 ^ n) (rest : List (BitVec 8)) :
    read n (encode n v ++ rest) = some (v, rest) := by
  rw [read, if_pos (by simp), List.take_left' (length_encode n v), List.drop_left' (length_encode n v),
    decode_encode n v hv]

/-- Several items, one after the other. -/
def readList {α : Type} (item : List (BitVec 8) → Option (α × List (BitVec 8))) :
    ℕ → List (BitVec 8) → Option (List α × List (BitVec 8))
  | 0, bytes => some ([], bytes)
  | count + 1, bytes => do
    let (x, bytes) ← item bytes
    let (xs, bytes) ← readList item count bytes
    some (x :: xs, bytes)

/-- Items that are read back each are read back in a row. -/
theorem readList_flatMap {α : Type} (item : List (BitVec 8) → Option (α × List (BitVec 8)))
    (write : α → List (BitVec 8)) (xs : List α) (h : ∀ x ∈ xs, ∀ rest, item (write x ++ rest) = some (x, rest))
    (rest : List (BitVec 8)) : readList item xs.length (xs.flatMap write ++ rest) = some (xs, rest) := by
  induction xs with
  | nil => rfl
  | cons x xs ih =>
    have hrest := ih fun y hy => h y (List.mem_cons_of_mem _ hy)
    rw [List.flatMap_cons, List.append_assoc, List.length_cons, readList, h x List.mem_cons_self, Option.bind_eq_bind,
      Option.bind_some]
    simp only [hrest, Option.bind_eq_bind, Option.bind_some]

end HashingArchive.Library.LittleEndian
