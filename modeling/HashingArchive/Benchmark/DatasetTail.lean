import HashingArchive.Benchmark.Dataset

/-!
# Files with more room than their header declares

`Dataset::load` makes a vector of zeros with an entry for every value the file has room for, and reads as many values
as the header declares. The entries that are left over stay in the vector, so a value that the file does not declare
is loaded: the zero, unless it is among the declared ones anyway (`load_declared_iff`).
-/

namespace HashingArchive.Benchmark

open HashingArchive.Library.LittleEndian

/-! ### What a file declares -/

/-- The number of values in the header. -/
def numElements (bytes : List (BitVec 8)) : ℕ := decode (bytes.take 8)

/-- The value of eight bytes at position `i` after the header. -/
def entry (bytes : List (BitVec 8)) (i : ℕ) : ℕ := decode ((bytes.drop (8 + i * 8)).take 8)

def declared (bytes : List (BitVec 8)) : List ℕ := (List.range (numElements bytes)).map (entry bytes)

theorem decode_take_lt (bytes : List (BitVec 8)) : decode (bytes.take 8) < 2 ^ 64 := by
  calc decode (bytes.take 8) < 256 ^ (bytes.take 8).length := decode_lt _
    _ ≤ 256 ^ 8 := Nat.pow_le_pow_right (by norm_num) (List.length_take_le 8 bytes)
    _ = 2 ^ 64 := by norm_num

/-- Eight bytes that are there are read as the number they encode. -/
theorem readLittleEndian8_eq {bytes : List (BitVec 8)} {offset : ℕ} (hroom : offset + 8 ≤ bytes.length) :
    readLittleEndian8 bytes offset = some (BitVec.ofNat 64 (decode ((bytes.drop offset).take 8))) := by
  have hlength : ((bytes.drop offset).take 8).length = 8 := by
    rw [List.length_take, List.length_drop]
    omega
  have hencode : encode 8 (decode ((bytes.drop offset).take 8)) = (bytes.drop offset).take 8 := by
    have hround := encode_decode ((bytes.drop offset).take 8)
    rwa [hlength] at hround
  have hdrop : bytes.drop offset = encode 8 (decode ((bytes.drop offset).take 8)) ++ (bytes.drop offset).drop 8 := by
    rw [hencode, List.take_append_drop]
  exact readLittleEndian8_drop (decode_take_lt _) hdrop

/-! ### Loading -/

section
variable {path : String} {files : Files} {file : File}

/-- The values the loader sorts are the declared ones and a zero for each that is missing. -/
theorem load_declared (dist : ℕ → ℕ) (hfile : files path = some file) (hpos : 1 ≤ numElements file.bytes)
    (hroom : numElements file.bytes ≤ (file.bytes.length - 8) / 8) :
    Dataset.load { filepath := path, bytesPerValue := 8 } files dist =
      .ok (shuffle dist (deduplicate (sort ((declared file.bytes).map (BitVec.ofNat 64) ++
        List.replicate ((file.bytes.length - 8) / 8 - numElements file.bytes) 0)))) := by
  have hsize := file.size_lt
  have hmax : maxNumElements file.bytes.length 8 = (file.bytes.length - 8) / 8 := by
    rw [maxNumElements]
    omega
  have hheader : readLittleEndian8 file.bytes 0 = some (BitVec.ofNat 64 (numElements file.bytes)) :=
    readLittleEndian8_eq (by omega)
  have hnum : (BitVec.ofNat 64 (numElements file.bytes)).toNat = numElements file.bytes := by
    rw [numElements, BitVec.toNat_ofNat, Nat.mod_eq_of_lt (decode_take_lt _)]
  have hread : ∀ i v, (declared file.bytes)[i]? = some v →
      readLittleEndian8 file.bytes (i * 8 + 8) = some (BitVec.ofNat 64 v) := by
    intro i v hget
    obtain ⟨hi, rfl⟩ : i < numElements file.bytes ∧ entry file.bytes i = v := by
      simpa [declared, List.getElem?_eq_some_iff] using hget
    rw [readLittleEndian8_eq (by omega), entry, Nat.add_comm]
  have hparse := parse_eq_append hread ((file.bytes.length - 8) / 8 - numElements file.bytes)
  rw [show (declared file.bytes).length = numElements file.bytes by simp [declared], Nat.add_sub_cancel' hroom]
    at hparse
  unfold Dataset.load
  simp [hfile, hheader, hmax, hnum, hparse, hroom]

/-- A value is loaded if it is declared, and zero also if values are missing. -/
theorem mem_load_declared (dist : ℕ → ℕ) (hfile : files path = some file) (hpos : 1 ≤ numElements file.bytes)
    (hroom : numElements file.bytes ≤ (file.bytes.length - 8) / 8) :
    ∃ dataset, Dataset.load { filepath := path, bytesPerValue := 8 } files dist = .ok dataset ∧
      ∀ v, v ∈ dataset ↔ (∃ i < numElements file.bytes, v.toNat = entry file.bytes i) ∨
        numElements file.bytes < (file.bytes.length - 8) / 8 ∧ v = 0 := by
  refine ⟨_, load_declared dist hfile hpos hroom, fun v => ?_⟩
  rw [(shuffle_perm ..).mem_iff, mem_deduplicate, (sort_perm _).mem_iff, List.mem_append, List.mem_replicate]
  apply or_congr
  · simp only [declared, List.mem_map, List.mem_range]
    constructor
    · rintro ⟨_, ⟨i, hi, rfl⟩, rfl⟩
      exact ⟨i, hi, by rw [entry, BitVec.toNat_ofNat, Nat.mod_eq_of_lt (decode_take_lt _)]⟩
    · rintro ⟨i, hi, hv⟩
      exact ⟨_, ⟨i, hi, rfl⟩, by rw [← hv, BitVec.ofNat_toNat, BitVec.setWidth_eq]⟩
  · rw [Nat.sub_ne_zero_iff_lt]

end

/-- **The loaded values are the declared ones** exactly if the file has no room for more, or zero is declared. -/
theorem load_declared_iff {path : String} {files : Files} {file : File} (dist : ℕ → ℕ)
    (hfile : files path = some file) (hpos : 1 ≤ numElements file.bytes)
    (hroom : numElements file.bytes ≤ (file.bytes.length - 8) / 8) :
    (∃ dataset, Dataset.load { filepath := path, bytesPerValue := 8 } files dist = .ok dataset ∧
        ∀ v, v ∈ dataset ↔ ∃ i < numElements file.bytes, v.toNat = entry file.bytes i) ↔
      numElements file.bytes = (file.bytes.length - 8) / 8 ∨
        ∃ i < numElements file.bytes, entry file.bytes i = 0 := by
  obtain ⟨dataset, hload, hmem⟩ := mem_load_declared dist hfile hpos hroom
  constructor
  · rintro ⟨dataset', hload', hmem'⟩
    obtain rfl : dataset' = dataset := Except.ok.inj (hload'.symm.trans hload)
    by_contra! h
    obtain ⟨hne, hnozero⟩ := h
    obtain ⟨i, hi, hzero⟩ := (hmem' 0).mp ((hmem 0).mpr (Or.inr ⟨lt_of_le_of_ne hroom hne, rfl⟩))
    exact hnozero i hi hzero.symm
  · intro h
    refine ⟨dataset, hload, fun v => ?_⟩
    rw [hmem v]
    constructor
    · rintro (hdeclared | ⟨hlt, rfl⟩)
      · exact hdeclared
      · obtain ⟨i, hi, hzero⟩ := h.resolve_left hlt.ne
        exact ⟨i, hi, hzero.symm⟩
    · exact Or.inl

/-- The header declares one value, 5, and the file goes on. -/
def longFile : File where
  bytes := encode 8 1 ++ encode 8 5 ++ encode 8 7
  size_lt := by simp

theorem load_invents_zero :
    ¬∃ dataset, Dataset.load { filepath := "data", bytesPerValue := 8 } (fun _ => some longFile) (fun _ => 0) =
        .ok dataset ∧
      ∀ v, v ∈ dataset ↔ ∃ i < numElements longFile.bytes, v.toNat = entry longFile.bytes i := by
  rintro ⟨dataset', hload', hmem'⟩
  obtain ⟨dataset, hload, hmem⟩ :=
    @mem_load_declared "data" (fun _ => some longFile) longFile (fun _ => 0) rfl (by decide) (by decide)
  obtain rfl : dataset' = dataset := Except.ok.inj (hload'.symm.trans hload)
  obtain ⟨i, hi, hzero⟩ := (hmem' 0).mp ((hmem 0).mpr (Or.inr (by decide)))
  obtain rfl : i = 0 := Nat.lt_one_iff.mp hi
  exact absurd hzero (by decide)

/-- Two values, for which there is room. -/
def exactFile : File where
  bytes := encode 8 2 ++ encode 8 5 ++ encode 8 7
  size_lt := by simp

theorem load_exactFile :
    ∃ dataset, Dataset.load { filepath := "data", bytesPerValue := 8 } (fun _ => some exactFile) (fun _ => 0) =
        .ok dataset ∧
      ∀ v, v ∈ dataset ↔ ∃ i < numElements exactFile.bytes, v.toNat = entry exactFile.bytes i :=
  (load_declared_iff (fun _ => 0) rfl (by decide) (by decide)).mpr (Or.inl (by decide))

end HashingArchive.Benchmark
