import HashingArchive.Library.Words

/-!
# Tabulation hashes

A tabulation hash xors one table entry for each byte of the key. The columns have 255 rows and a byte has 256 values:
the bytes `0x00` and `0xFF` share a row, so keys that differ in no other way share their hash, whatever the table
holds (`largeTabulationHash_separates_iff`).
-/

namespace HashingArchive.Hashing

open HashingArchive.Library.Words

/-! ### The code -/

/-- `ROWS` of the three hashes. -/
def ROWS : ℕ := 0xFF

instance : NeZero ROWS := ⟨by decide⟩

/-- `static_cast<uint8_t>(key >> (8 * i))`. -/
def byte {t : ℕ} (key : BitVec t) (i : ℕ) : BitVec 8 := (key >>> (8 * i)).setWidth 8

/-- `_TabulationHashImplementation<T, seed, COLUMNS, ROWS>` for a `T` of `n` bytes, with the table it was built with. -/
def TabulationHash {n : ℕ} (COLUMNS : ℕ) [NeZero COLUMNS] (seed : BitVec (8 * n))
    (table : Fin COLUMNS → Fin ROWS → BitVec (8 * n)) (key : BitVec (8 * n)) : BitVec (8 * n) :=
  (List.range n).foldl
    (fun out i => out ^^^ table (Fin.ofNat COLUMNS i) (Fin.ofNat ROWS (byte key i).toNat)) seed

def SmallTabulationHash {n : ℕ} (seed : BitVec (8 * n)) := TabulationHash 1 seed

def MediumTabulationHash {n : ℕ} (seed : BitVec (8 * n)) := TabulationHash 4 seed

def LargeTabulationHash {n : ℕ} (seed : BitVec (8 * n)) := TabulationHash 8 seed

/-! ### Bytes and rows -/

/-- The two byte values that `% ROWS` makes one. -/
def Collapsed (a b : BitVec 8) : Prop := a = 0x00#8 ∧ b = 0xFF#8 ∨ a = 0xFF#8 ∧ b = 0x00#8

theorem row_eq_iff (a b : BitVec 8) : Fin.ofNat ROWS a.toNat = Fin.ofNat ROWS b.toNat ↔ a = b ∨ Collapsed a b := by
  have ha := a.isLt
  have hb := b.isLt
  rw [Fin.ext_iff, Fin.val_ofNat, Fin.val_ofNat, ROWS, Collapsed]
  simp only [← BitVec.toNat_inj, show (0x00#8).toNat = 0 from rfl, show (0xFF#8).toNat = 255 from rfl]
  omega

section
variable {n COLUMNS : ℕ} [NeZero COLUMNS] {seed x y : BitVec (8 * n)}

/-- Where the rows of all bytes agree, the hashes do. -/
theorem TabulationHash_congr (table : Fin COLUMNS → Fin ROWS → BitVec (8 * n))
    (hrows : ∀ i < n, byte x i = byte y i ∨ Collapsed (byte x i) (byte y i)) :
    TabulationHash COLUMNS seed table x = TabulationHash COLUMNS seed table y := by
  apply List.foldl_ext
  intro out i hi
  rw [(row_eq_iff _ _).mpr (hrows i (List.mem_range.mp hi))]

/-- Where the rows of one byte differ and the entries of the others agree, the hashes differ with that byte's entry. -/
theorem TabulationHash_eq_iff (table : Fin COLUMNS → Fin ROWS → BitVec (8 * n)) {j : ℕ} (hj : j < n)
    (hothers : ∀ i < n, i ≠ j → table (Fin.ofNat COLUMNS i) (Fin.ofNat ROWS (byte x i).toNat) =
      table (Fin.ofNat COLUMNS i) (Fin.ofNat ROWS (byte y i).toNat)) :
    TabulationHash COLUMNS seed table x = TabulationHash COLUMNS seed table y ↔
      table (Fin.ofNat COLUMNS j) (Fin.ofNat ROWS (byte x j).toNat) =
        table (Fin.ofNat COLUMNS j) (Fin.ofNat ROWS (byte y j).toNat) :=
  foldl_xor_eq_iff List.nodup_range (List.mem_range.mpr hj) (fun i hi => hothers i (List.mem_range.mp hi)) seed

/-- A column takes its bytes in any order: exchanging two of them keeps the hash. -/
theorem TabulationHash_swap (table : Fin COLUMNS → Fin ROWS → BitVec (8 * n)) {i j : ℕ} (hi : i < n) (hj : j < n)
    (hcolumn : i % COLUMNS = j % COLUMNS) (hswap : ∀ k < n, byte y k = byte x (Equiv.swap i j k)) :
    TabulationHash COLUMNS seed table y = TabulationHash COLUMNS seed table x := by
  have hcol : ∀ k, Fin.ofNat COLUMNS (Equiv.swap i j k) = Fin.ofNat COLUMNS k := by
    intro k
    rw [Fin.ext_iff, Fin.val_ofNat, Fin.val_ofNat, Equiv.swap_apply_def]
    split_ifs with hki hkj
    · rw [hki, hcolumn]
    · rw [hkj, hcolumn]
    · rfl
  have hlt : ∀ k < n, Equiv.swap i j k < n := by
    intro k hk
    rw [Equiv.swap_apply_def]
    split_ifs <;> assumption
  have hperm : ((List.range n).map (Equiv.swap i j)).Perm (List.range n) := by
    rw [List.perm_ext_iff_of_nodup (List.nodup_range.map (Equiv.injective _)) List.nodup_range]
    intro k
    simp only [List.mem_map, List.mem_range]
    constructor
    · rintro ⟨l, hl, rfl⟩
      exact hlt l hl
    · intro hk
      exact ⟨Equiv.swap i j k, hlt k hk, Equiv.swap_apply_self i j k⟩
  calc TabulationHash COLUMNS seed table y
    _ = ((List.range n).map (Equiv.swap i j)).foldl
          (fun out k => out ^^^ table (Fin.ofNat COLUMNS k) (Fin.ofNat ROWS (byte x k).toNat)) seed := by
      rw [List.foldl_map]
      apply List.foldl_ext
      intro out k hk
      rw [hcol, hswap k (List.mem_range.mp hk)]
    _ = TabulationHash COLUMNS seed table x := foldl_xor_perm hperm _ seed

/-- With a single column every two bytes can be exchanged. -/
theorem SmallTabulationHash_swap (table : Fin 1 → Fin ROWS → BitVec (8 * n)) {i j : ℕ} (hi : i < n) (hj : j < n)
    (hswap : ∀ k < n, byte y k = byte x (Equiv.swap i j k)) :
    SmallTabulationHash seed table y = SmallTabulationHash seed table x :=
  TabulationHash_swap table hi hj (by rw [Nat.mod_one, Nat.mod_one]) hswap

/-- With four columns the halves of a key of eight bytes can. -/
theorem MediumTabulationHash_swap (table : Fin 4 → Fin ROWS → BitVec (8 * n)) {i : ℕ} (hi : i + 4 < n)
    (hswap : ∀ k < n, byte y k = byte x (Equiv.swap i (i + 4) k)) :
    MediumTabulationHash seed table y = MediumTabulationHash seed table x :=
  TabulationHash_swap table (by omega) hi (Nat.add_mod_right i 4).symm hswap

end

/-! ### Which keys a table can separate -/

section
variable {n : ℕ} {x y : BitVec (8 * n)}

/-- Some byte of the keys differs, and other than as `0x00` from `0xFF`. -/
def Separable (x y : BitVec (8 * n)) : Prop := ∃ i < n, byte x i ≠ byte y i ∧ ¬Collapsed (byte x i) (byte y i)

/-- Keys without the byte `0xFF` are all separable. -/
theorem separable_of_ne (hx : ∀ i < n, byte x i ≠ 0xFF#8) (hy : ∀ i < n, byte y i ≠ 0xFF#8) (hne : x ≠ y) :
    Separable x y := by
  by_contra! hnot
  apply hne
  apply eq_of_bytes_eq
  intro i hi
  by_contra hbyte
  refine hnot ⟨i, hi, hbyte, ?_⟩
  rintro (⟨-, hff⟩ | ⟨hff, -⟩)
  · exact hy i hi hff
  · exact hx i hi hff

/-- A table with a single entry that is not zero. -/
def singleEntry (n : ℕ) (c : Fin 8) (r : Fin ROWS) : Fin 8 → Fin ROWS → BitVec (8 * n) :=
  fun c' r' => if c' = c ∧ r' = r then 1 else 0

/-- The byte that differs gets a column of its own, and in it the entry of one of the two keys. -/
theorem exists_table (hn : n ≤ 8) (seed : BitVec (8 * n)) (h : Separable x y) :
    ∃ table, LargeTabulationHash seed table x ≠ LargeTabulationHash seed table y := by
  obtain ⟨j, hj, hne, hcollapsed⟩ := h
  have hrow : Fin.ofNat ROWS (byte y j).toNat ≠ Fin.ofNat ROWS (byte x j).toNat := by
    intro heq
    rcases (row_eq_iff _ _).mp heq.symm with heq | hcol
    · exact hne heq
    · exact hcollapsed hcol
  refine ⟨singleEntry n (Fin.ofNat 8 j) (Fin.ofNat ROWS (byte x j).toNat), fun heq => ?_⟩
  rw [LargeTabulationHash, TabulationHash_eq_iff _ hj] at heq
  · rw [singleEntry, if_pos ⟨rfl, rfl⟩, singleEntry, if_neg fun h => hrow h.2] at heq
    have hone : (1 : BitVec (8 * n)).toNat = 1 := Nat.mod_eq_of_lt (Nat.one_lt_two_pow (by omega))
    rw [heq] at hone
    exact absurd hone (by simp)
  · intro i hi hij
    have hcol : Fin.ofNat 8 i ≠ Fin.ofNat 8 j := by
      rw [Ne, Fin.ext_iff, Fin.val_ofNat, Fin.val_ofNat]
      omega
    rw [singleEntry, if_neg fun h => hcol h.1, singleEntry, if_neg fun h => hcol h.1]

/-- With distinct entries in every column the byte that differs decides. -/
theorem ne_of_distinct_entries (seed : BitVec (8 * n)) {table : Fin 8 → Fin ROWS → BitVec (8 * n)}
    (htable : ∀ c, Function.Injective (table c)) {j : ℕ} (hj : j < n) (hne : byte x j ≠ byte y j)
    (hcollapsed : ¬Collapsed (byte x j) (byte y j)) (hothers : ∀ i < n, i ≠ j → byte x i = byte y i) :
    LargeTabulationHash seed table x ≠ LargeTabulationHash seed table y := by
  intro heq
  rw [LargeTabulationHash, TabulationHash_eq_iff _ hj fun i hi hij => by rw [hothers i hi hij]] at heq
  rcases (row_eq_iff _ _).mp (htable _ heq) with heq | hcol
  · exact hne heq
  · exact hcollapsed hcol

end

/-- **Tables separate two keys** exactly where some byte of them differs other than as `0x00` from `0xFF`. -/
theorem largeTabulationHash_separates_iff {n : ℕ} (hn : n ≤ 8) (seed x y : BitVec (8 * n)) :
    ((x ≠ y → ∃ table, LargeTabulationHash seed table x ≠ LargeTabulationHash seed table y) ∧
        ∀ table, (∀ c, Function.Injective (table c)) → (∃! i, i < n ∧ byte x i ≠ byte y i) →
          LargeTabulationHash seed table x ≠ LargeTabulationHash seed table y) ↔
      x = y ∨ Separable x y := by
  constructor
  · rintro ⟨hexists, -⟩
    by_contra! h
    obtain ⟨hne, hnot⟩ := h
    obtain ⟨table, hhash⟩ := hexists hne
    apply hhash
    apply TabulationHash_congr
    intro i hi
    by_contra! hi'
    exact hnot ⟨i, hi, hi'⟩
  · rintro (rfl | hsep)
    · refine ⟨fun hne => absurd rfl hne, ?_⟩
      rintro table - ⟨i, ⟨-, hne⟩, -⟩
      exact absurd rfl hne
    · refine ⟨fun _ => exists_table hn seed hsep, ?_⟩
      rintro table htable ⟨j, -, hunique⟩
      obtain ⟨i, hi, hne, hcollapsed⟩ := hsep
      refine ne_of_distinct_entries seed htable hi hne hcollapsed fun i' hi' hi'i => ?_
      by_contra hne'
      exact hi'i ((hunique i' ⟨hi', hne'⟩).trans (hunique i ⟨hi, hne⟩).symm)

/-- The keys 0 and 255 of 64 bits. -/
theorem largeTabulationHash_collapses :
    ¬((0 : BitVec (8 * 8)) ≠ 0xFF →
      ∃ table, LargeTabulationHash (0 : BitVec (8 * 8)) table 0 ≠ LargeTabulationHash 0 table 0xFF) := by
  intro h
  obtain ⟨table, hne⟩ := h (by decide)
  exact hne rfl

/-- The keys 0 and 1 of 64 bits. -/
theorem largeTabulationHash_separates_one :
    ∃ table, LargeTabulationHash (0 : BitVec (8 * 8)) table 0 ≠ LargeTabulationHash 0 table 1 :=
  ((largeTabulationHash_separates_iff (n := 8) le_rfl 0 0 1).mpr
    (Or.inr ⟨0, by norm_num, by decide, by unfold Collapsed; decide⟩)).1 (by decide)

end HashingArchive.Hashing
