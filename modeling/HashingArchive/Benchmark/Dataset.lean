import HashingArchive.Library.LittleEndian

/-!
# Dataset files

`write_dataset` of the generator script and `Dataset::load` of the benchmark. The file is a header of eight bytes
with the number of values and then the values, all little endian. The loader reads the values back, sorts them,
removes duplicates and shuffles; what the random engine yields is a parameter. Reading eight bytes gives the value
that was written, reading four gives it only below `2 ^ 31`: the highest byte is shifted as an `int`, and the sign is
extended when the `int` becomes an `uint64_t` (`readLittleEndian4_drop`).

Reads that fail and memory that runs out are not modelled.
-/

namespace HashingArchive.Benchmark

open HashingArchive.Library.LittleEndian

/-- A file, whose size is a `std::streamsize`. -/
structure File where
  bytes : List (BitVec 8)
  size_lt : bytes.length < 2 ^ 63

abbrev Files := String → Option File

/-! ### The writer -/

/-- `int.to_bytes`, which raises an error for a number that is too large. -/
def toBytes (v length : ℕ) : Option (List (BitVec 8)) := if v < 256 ^ length then some (encode length v) else none

/-- `byte_stream` after `n` numbers. -/
def byteStream (amount bytes_per_number : ℕ) : ℕ → List ℕ → Option (List (BitVec 8))
  | _, [] => some []
  | n, e :: numbers => do
    let bytes ← toBytes e bytes_per_number
    if amount ≤ n + 1 then
      return bytes
    else
      return bytes ++ (← byteStream amount bytes_per_number (n + 1) numbers)

def filepath (path name : String) (bytes_per_number : ℕ) : String :=
  path ++ "/" ++ name ++ "_uint" ++ toString (bytes_per_number * 8)

/-- The files after `write_dataset`, none if it raises an error. A file that exists is left alone. -/
def writeDataset (path name : String) (numbers : List ℕ) (amount bytes_per_number : ℕ) (files : Files) :
    Option Files :=
  if (files (filepath path name bytes_per_number)).isSome then some files
  else do
    let header ← toBytes amount 8
    let payload ← byteStream amount bytes_per_number 0 numbers
    if h : (header ++ payload).length < 2 ^ 63 then
      return Function.update files (filepath path name bytes_per_number)
        (some { bytes := header ++ payload, size_lt := h })
    else
      none

/-! ### The loader -/

structure Dataset where
  filepath : String
  bytesPerValue : ℕ

inductive Failure where
  | runtime_error (what : String)
  | assertion
  | divisionByZero
  | outOfBounds
  deriving DecidableEq

/-- An 8 byte number. Every byte is cast to `uint64_t` before the shift. -/
def readLittleEndian8 (buffer : List (BitVec 8)) (offset : ℕ) : Option (BitVec 64) := do
  let b₀ ← buffer[offset + 0]?
  let b₁ ← buffer[offset + 1]?
  let b₂ ← buffer[offset + 2]?
  let b₃ ← buffer[offset + 3]?
  let b₄ ← buffer[offset + 4]?
  let b₅ ← buffer[offset + 5]?
  let b₆ ← buffer[offset + 6]?
  let b₇ ← buffer[offset + 7]?
  return b₀.setWidth 64 ||| b₁.setWidth 64 <<< 8 ||| b₂.setWidth 64 <<< (2 * 8) ||| b₃.setWidth 64 <<< (3 * 8) |||
    b₄.setWidth 64 <<< (4 * 8) ||| b₅.setWidth 64 <<< (5 * 8) ||| b₆.setWidth 64 <<< (6 * 8) |||
    b₇.setWidth 64 <<< (7 * 8)

/-- A 4 byte number. The bytes are promoted to `int`, and the `int` is converted to `uint64_t` at the end. -/
def readLittleEndian4 (buffer : List (BitVec 8)) (offset : ℕ) : Option (BitVec 64) := do
  let b₀ ← buffer[offset + 0]?
  let b₁ ← buffer[offset + 1]?
  let b₂ ← buffer[offset + 2]?
  let b₃ ← buffer[offset + 3]?
  return (b₀.setWidth 32 ||| b₁.setWidth 32 <<< 8 ||| b₂.setWidth 32 <<< (2 * 8) |||
    b₃.setWidth 32 <<< (3 * 8)).signExtend 64

def sort (dataset : List (BitVec 64)) : List (BitVec 64) := dataset.mergeSort fun a b => a.ule b

/-- `std::unique`: one element of every run of equal ones. -/
def deduplicate : List (BitVec 64) → List (BitVec 64)
  | [] => []
  | [a] => [a]
  | a :: b :: dataset => if a = b then deduplicate (b :: dataset) else a :: deduplicate (b :: dataset)

/-- The swaps of `shuffle` from position `i` down. -/
def shuffleFrom (dist : ℕ → ℕ) : ℕ → List (BitVec 64) → List (BitVec 64)
  | 0, dataset => dataset
  | i + 1, dataset => shuffleFrom dist i (dataset.swap (i + 1) (dist (i + 1) % (i + 1)))

/-- `shuffle`, where `dist i` is what the random engine yields for position `i`. -/
def shuffle (dist : ℕ → ℕ) (dataset : List (BitVec 64)) : List (BitVec 64) :=
  if dataset = [] then dataset else shuffleFrom dist (dataset.length - 1) dataset

/-- The loop over the values of the file: entry `i` becomes what is read at `offset i`. -/
def parse (read : ℕ → Option (BitVec 64)) (offset : ℕ → ℕ) (numElements : ℕ) (dataset : List (BitVec 64)) :
    Option (List (BitVec 64)) :=
  (List.range numElements).foldlM (fun dataset i => (read (offset i)).map fun v => dataset.set i v) dataset

/-- How many values there is room for after the header. The subtraction of unsigned integers wraps around. -/
def maxNumElements (size bytesPerValue : ℕ) : ℕ := (size + 2 ^ 64 - 8) % 2 ^ 64 / bytesPerValue

def Dataset.load (ds : Dataset) (files : Files) (dist : ℕ → ℕ) : Except Failure (List (BitVec 64)) := do
  let some input := files ds.filepath
    | .error (.runtime_error ("Dataset file at data_folder_path '" ++ ds.filepath ++ "' does not exist"))
  if ds.bytesPerValue = 0 then .error .divisionByZero
  let dataset := List.replicate (maxNumElements input.bytes.length ds.bytesPerValue) 0
  let some numElements := readLittleEndian8 input.bytes 0 | .error .outOfBounds
  if maxNumElements input.bytes.length ds.bytesPerValue < numElements.toNat then .error .assertion
  if ds.bytesPerValue = 8 then
    match parse (readLittleEndian8 input.bytes) (fun i => i * 8 + 8) numElements.toNat dataset with
    | some dataset => .ok (shuffle dist (deduplicate (sort dataset)))
    | none => .error .outOfBounds
  else if ds.bytesPerValue = 4 then
    match parse (readLittleEndian4 input.bytes) (fun i => i * 4 + 8) numElements.toNat dataset with
    | some dataset => .ok (shuffle dist (deduplicate (sort dataset)))
    | none => .error .outOfBounds
  else
    .error (.runtime_error
      ("Unimplemented amount of bytes per value in dataset: " ++ toString ds.bytesPerValue))

/-! ### Reading one value -/

theorem readLittleEndian8_drop {buffer rest : List (BitVec 8)} {offset v : ℕ} (hv : v < 2 ^ 64)
    (hdrop : buffer.drop offset = encode 8 v ++ rest) :
    readLittleEndian8 buffer offset = some (BitVec.ofNat 64 v) := by
  simp only [readLittleEndian8, ← List.getElem?_drop, hdrop]
  simp only [encode, List.cons_append, List.nil_append, List.getElem?_cons_zero, List.getElem?_cons_succ,
    Option.bind_eq_bind, Option.bind_some]
  refine congrArg some (BitVec.eq_of_toNat_eq ?_)
  rw [BitVec.toNat_ofNat, Nat.mod_eq_of_lt hv]
  conv_rhs => rw [← decode_encode 8 v (by simpa using hv)]
  exact (((((((Assembled.byte _ (by norm_num)).or _ (by norm_num)).or _ (by norm_num)).or _ (by norm_num)).or _
    (by norm_num)).or _ (by norm_num)).or _ (by norm_num)).or _ (by norm_num)

/-- The value an `int` holds after its four bytes were set to those of `v`. -/
theorem readLittleEndian4_drop {buffer rest : List (BitVec 8)} {offset v : ℕ} (hv : v < 2 ^ 32)
    (hdrop : buffer.drop offset = encode 4 v ++ rest) :
    readLittleEndian4 buffer offset = some ((BitVec.ofNat 32 v).signExtend 64) := by
  simp only [readLittleEndian4, ← List.getElem?_drop, hdrop]
  simp only [encode, List.cons_append, List.nil_append, List.getElem?_cons_zero, List.getElem?_cons_succ,
    Option.bind_eq_bind, Option.bind_some]
  refine congrArg some (congrArg (BitVec.signExtend 64) (BitVec.eq_of_toNat_eq ?_))
  rw [BitVec.toNat_ofNat, Nat.mod_eq_of_lt hv]
  conv_rhs => rw [← decode_encode 4 v (by simpa using hv)]
  exact (((Assembled.byte _ (by norm_num)).or _ (by norm_num)).or _ (by norm_num)).or _ (by norm_num)

/-- A value from `2 ^ 31` on comes back as a negative `int` would. -/
theorem toNat_signExtend_ofNat {v : ℕ} (hv : v < 2 ^ 32) :
    ((BitVec.ofNat 32 v).signExtend 64).toNat = if v < 2 ^ 31 then v else v + (2 ^ 64 - 2 ^ 32) := by
  have hmsb : (BitVec.ofNat 32 v).msb = decide (2 ^ 31 ≤ v) := by
    rw [BitVec.msb_eq_decide, BitVec.toNat_ofNat, Nat.mod_eq_of_lt hv]
  rw [BitVec.toNat_signExtend, BitVec.toNat_setWidth, BitVec.toNat_ofNat, Nat.mod_eq_of_lt hv,
    Nat.mod_eq_of_lt (by omega), hmsb]
  by_cases hsmall : v < 2 ^ 31
  · rw [if_pos hsmall, if_neg (by simpa using hsmall), Nat.add_zero]
  · rw [if_neg hsmall, if_pos (by simpa using hsmall)]

/-! ### The file -/

/-- The payload of a file with these numbers. -/
def payload (bytes_per_number : ℕ) (numbers : List ℕ) : List (BitVec 8) := numbers.flatMap (encode bytes_per_number)

theorem length_payload (w : ℕ) (numbers : List ℕ) : (payload w numbers).length = numbers.length * w := by
  simp [payload, List.length_flatMap]

theorem drop_payload (w : ℕ) (numbers : List ℕ) (i : ℕ) :
    (payload w numbers).drop (i * w) = payload w (numbers.drop i) := by
  induction i generalizing numbers with
  | zero => simp
  | succ i ih =>
    cases numbers with
    | nil => simp [payload]
    | cons e numbers =>
      rw [List.drop_succ_cons, ← ih numbers, payload, List.flatMap_cons, Nat.succ_mul, Nat.add_comm, ← List.drop_drop]
      congr 1
      exact List.drop_left' (length_encode w e)

theorem byteStream_eq {amount w : ℕ} :
    ∀ {n : ℕ} {numbers : List ℕ}, n + numbers.length = amount → (∀ v ∈ numbers, v < 256 ^ w) →
      byteStream amount w n numbers = some (payload w numbers)
  | n, [], _, _ => rfl
  | n, e :: numbers, hamount, hlt => by
    rw [List.length_cons] at hamount
    have ih : byteStream amount w (n + 1) numbers = some (payload w numbers) :=
      byteStream_eq (by omega) fun v hv => hlt v (List.mem_cons_of_mem _ hv)
    rw [byteStream, toBytes, if_pos (hlt e List.mem_cons_self), ih]
    by_cases hlast : amount ≤ n + 1
    · have hnil : numbers = [] := List.length_eq_zero_iff.mp (by omega)
      subst hnil
      simp [hlast, payload]
    · simp [hlast, payload]

/-- What a successful `write_dataset` leaves in a new file. -/
theorem writeDataset_eq {path name : String} {numbers : List ℕ} {w : ℕ} {files files' : Files}
    (hlt : ∀ v ∈ numbers, v < 256 ^ w) (hnew : files (filepath path name w) = none)
    (hwrite : writeDataset path name numbers numbers.length w files = some files') :
    ∃ file, files' (filepath path name w) = some file ∧ file.bytes = encode 8 numbers.length ++ payload w numbers ∧
      numbers.length < 2 ^ 64 := by
  rw [writeDataset, hnew, byteStream_eq (Nat.zero_add _) hlt, toBytes] at hwrite
  by_cases hheader : numbers.length < 256 ^ 8
  · rw [if_pos hheader] at hwrite
    simp only [Option.isSome_none, Bool.false_eq_true, if_false, Option.bind_eq_bind, Option.bind_some] at hwrite
    split_ifs at hwrite with hsize
    obtain rfl := Option.some.inj hwrite
    exact ⟨_, Function.update_self .., rfl, by simpa using hheader⟩
  · rw [if_neg hheader] at hwrite
    cases hwrite

/-! ### The loops of the loader -/

/-- The vector may be longer than what is read: the zeros it was made with stay at its end. -/
theorem parse_eq_append {read : ℕ → Option (BitVec 64)} {offset : ℕ → ℕ} {numbers : List ℕ} {f : ℕ → BitVec 64}
    (hread : ∀ i v, numbers[i]? = some v → read (offset i) = some (f v)) (rest : ℕ) :
    parse read offset numbers.length (List.replicate (numbers.length + rest) 0#64) =
      some (numbers.map f ++ List.replicate rest 0#64) := by
  -- after `k` values the rest of the vector still is as it was
  have hloop : ∀ k ≤ numbers.length, (List.range k).foldlM
      (fun dataset i => (read (offset i)).map fun v => dataset.set i v) (List.replicate (numbers.length + rest) 0) =
      some ((numbers.take k).map f ++ List.replicate (numbers.length + rest - k) 0) := by
    intro k
    induction k with
    | zero => intro _; simp
    | succ k ih =>
      intro hk
      have hget : numbers[k]? = some numbers[k] := List.getElem?_eq_getElem hk
      rw [List.range_succ, List.foldlM_append, ih (by omega)]
      simp only [Option.bind_eq_bind, Option.bind_some, List.foldlM_cons, List.foldlM_nil, hread k _ hget,
        Option.map_some, Option.pure_def]
      refine congrArg some ?_
      have hlength : ((numbers.take k).map f).length = k := by simp; omega
      rw [List.set_append_right _ _ hlength.le, hlength, Nat.sub_self,
        show numbers.length + rest - k = numbers.length + rest - (k + 1) + 1 by omega, List.replicate_succ,
        List.set_cons_zero, List.take_add_one, hget, List.map_append, List.append_assoc]
      rfl
  have hall := hloop numbers.length le_rfl
  rwa [List.take_length, Nat.add_sub_cancel_left] at hall

theorem parse_eq {read : ℕ → Option (BitVec 64)} {offset : ℕ → ℕ} {numbers : List ℕ} {f : ℕ → BitVec 64}
    (hread : ∀ i v, numbers[i]? = some v → read (offset i) = some (f v)) :
    parse read offset numbers.length (List.replicate numbers.length 0#64) = some (numbers.map f) := by
  simpa using parse_eq_append hread 0

theorem shuffleFrom_perm (dist : ℕ → ℕ) (i : ℕ) (dataset : List (BitVec 64)) :
    (shuffleFrom dist i dataset).Perm dataset := by
  induction i generalizing dataset with
  | zero => exact List.Perm.refl _
  | succ i ih => exact (ih _).trans (List.swap_perm ..)

theorem shuffle_perm (dist : ℕ → ℕ) (dataset : List (BitVec 64)) : (shuffle dist dataset).Perm dataset := by
  unfold shuffle
  split_ifs
  · exact List.Perm.refl _
  · exact shuffleFrom_perm ..

theorem sort_perm (dataset : List (BitVec 64)) : (sort dataset).Perm dataset := List.mergeSort_perm ..

theorem sort_sorted (dataset : List (BitVec 64)) : (sort dataset).Pairwise fun a b => a.toNat ≤ b.toNat := by
  have hsorted : (dataset.mergeSort fun a b => a.ule b).Pairwise fun a b => a.ule b := List.pairwise_mergeSort
    (fun a b c hab hbc => by simp only [BitVec.ule_eq_decide, decide_eq_true_eq] at *; omega)
    (fun a b => by simp [BitVec.ule_eq_decide]; omega) dataset
  exact hsorted.imp fun h => by simpa [BitVec.ule_eq_decide] using h

theorem mem_deduplicate {a : BitVec 64} (dataset : List (BitVec 64)) : a ∈ deduplicate dataset ↔ a ∈ dataset := by
  fun_induction deduplicate dataset with
  | case1 => rfl
  | case2 => rfl
  | case3 b dataset ih => simp [ih]
  | case4 b c dataset hne ih => simp [ih]

/-- Of a sorted vector one element of every value is left. -/
theorem deduplicate_nodup (dataset : List (BitVec 64)) (hsorted : dataset.Pairwise fun a b => a.toNat ≤ b.toNat) :
    (deduplicate dataset).Nodup := by
  fun_induction deduplicate dataset with
  | case1 => exact List.nodup_nil
  | case2 => exact List.nodup_singleton _
  | case3 b dataset ih => exact ih hsorted.of_cons
  | case4 a b dataset hne ih =>
    refine List.nodup_cons.mpr ⟨fun hmem => ?_, ih hsorted.of_cons⟩
    rw [mem_deduplicate] at hmem
    obtain ⟨hle, htail⟩ := List.pairwise_cons.mp hsorted
    rcases List.mem_cons.mp hmem with heq | hmem
    · exact hne heq
    · -- `b` lies between `a` and a later `a`
      have hba := (List.pairwise_cons.mp htail).1 a hmem
      have hab := hle b List.mem_cons_self
      exact hne (BitVec.eq_of_toNat_eq (by omega))

/-! ### Loading a written file -/

/-- The value `load` reads for `v`. -/
def decoded (bytesPerValue v : ℕ) : BitVec 64 :=
  if bytesPerValue = 8 then BitVec.ofNat 64 v else (BitVec.ofNat 32 v).signExtend 64

/-- The bytes of a file from the `i`-th value on. -/
theorem drop_file {w i v : ℕ} {numbers : List ℕ} (hget : numbers[i]? = some v) :
    (encode 8 numbers.length ++ payload w numbers).drop (i * w + 8) =
      encode w v ++ payload w (numbers.drop (i + 1)) := by
  have hi : i < numbers.length := (List.getElem?_eq_some_iff.mp hget).1
  have hv : numbers[i] = v := (List.getElem?_eq_some_iff.mp hget).2
  rw [Nat.add_comm, ← List.drop_drop, List.drop_left' (length_encode 8 _), drop_payload, List.drop_eq_getElem_cons hi,
    hv, payload, List.flatMap_cons]
  rfl

theorem load_eq {path : String} {w : ℕ} (numbers : List ℕ) {files : Files} {file : File} (dist : ℕ → ℕ)
    (hw : w = 4 ∨ w = 8) (hlt : ∀ v ∈ numbers, v < 256 ^ w) (hlength : numbers.length < 2 ^ 64)
    (hfile : files path = some file) (hbytes : file.bytes = encode 8 numbers.length ++ payload w numbers) :
    Dataset.load { filepath := path, bytesPerValue := w } files dist =
      .ok (shuffle dist (deduplicate (sort (numbers.map (decoded w))))) := by
  have hsize : file.bytes.length = 8 + numbers.length * w := by
    rw [hbytes, List.length_append, length_encode, length_payload]
  have hsize_lt := file.size_lt
  have hmax : maxNumElements file.bytes.length w = numbers.length := by
    rw [maxNumElements, show file.bytes.length + 2 ^ 64 - 8 = numbers.length * w + 2 ^ 64 by omega, Nat.add_mod_right,
      Nat.mod_eq_of_lt (by omega), Nat.mul_div_cancel _ (by omega)]
  have hheader : readLittleEndian8 file.bytes 0 = some (BitVec.ofNat 64 numbers.length) :=
    readLittleEndian8_drop hlength (by rw [List.drop_zero, hbytes])
  have hnum : (BitVec.ofNat 64 numbers.length).toNat = numbers.length := by
    rw [BitVec.toNat_ofNat, Nat.mod_eq_of_lt hlength]
  have hmem : ∀ {i v}, numbers[i]? = some v → v < 256 ^ w := fun hget => hlt _ (List.mem_of_getElem? hget)
  unfold Dataset.load
  rcases hw with rfl | rfl
  · have hparse : parse (readLittleEndian4 file.bytes) (fun i => i * 4 + 8) numbers.length
        (List.replicate numbers.length 0#64) = some (numbers.map (decoded 4)) :=
      parse_eq fun i v hget => readLittleEndian4_drop (hmem hget) (by rw [hbytes]; exact drop_file hget)
    simp [hfile, hheader, hmax, hnum, hparse]
  · have hparse : parse (readLittleEndian8 file.bytes) (fun i => i * 8 + 8) numbers.length
        (List.replicate numbers.length 0#64) = some (numbers.map (decoded 8)) :=
      parse_eq fun i v hget => readLittleEndian8_drop (hmem hget) (by rw [hbytes]; exact drop_file hget)
    simp [hfile, hheader, hmax, hnum, hparse]

/-- What is left of the values read from a file. -/
theorem loaded_perm_iff (dist : ℕ → ℕ) (numbers : List ℕ) (f : ℕ → BitVec 64) :
    ((shuffle dist (deduplicate (sort (numbers.map f)))).map BitVec.toNat).Perm numbers.dedup ↔
      ∀ x, (∃ v ∈ numbers, (f v).toNat = x) ↔ x ∈ numbers := by
  have hnodup : ((shuffle dist (deduplicate (sort (numbers.map f)))).map BitVec.toNat).Nodup := by
    apply List.Nodup.map (fun a b h => BitVec.eq_of_toNat_eq h)
    rw [(shuffle_perm ..).nodup_iff]
    exact deduplicate_nodup _ (sort_sorted _)
  rw [List.perm_ext_iff_of_nodup hnodup (List.nodup_dedup numbers)]
  apply forall_congr'
  intro x
  rw [List.mem_dedup]
  simp only [List.mem_map, (shuffle_perm ..).mem_iff, mem_deduplicate, (sort_perm _).mem_iff]
  constructor <;> intro h
  · rw [← h]
    constructor
    · intro ⟨v, hv, hx⟩
      exact ⟨f v, ⟨v, hv, rfl⟩, hx⟩
    · intro ⟨_, ⟨v, hv, rfl⟩, hx⟩
      exact ⟨v, hv, hx⟩
  · rw [← h]
    constructor
    · intro ⟨_, ⟨v, hv, rfl⟩, hx⟩
      exact ⟨v, hv, hx⟩
    · intro ⟨v, hv, hx⟩
      exact ⟨f v, ⟨v, hv, rfl⟩, hx⟩

/-- Every value is read as it was written exactly if none of the four byte values is negative as an `int`. -/
theorem decoded_iff {w : ℕ} {numbers : List ℕ} (hw : w = 4 ∨ w = 8) (hlt : ∀ v ∈ numbers, v < 256 ^ w) :
    (∀ x, (∃ v ∈ numbers, (decoded w v).toNat = x) ↔ x ∈ numbers) ↔ w = 8 ∨ ∀ v ∈ numbers, v < 2 ^ 31 := by
  have hsame : (∀ v ∈ numbers, (decoded w v).toNat = v) →
      ∀ x, (∃ v ∈ numbers, (decoded w v).toNat = x) ↔ x ∈ numbers := by
    intro h x
    constructor
    · intro ⟨v, hv, hx⟩
      rwa [← hx, h v hv]
    · intro hx
      exact ⟨x, hx, h x hx⟩
  rcases hw with rfl | rfl
  · have hdecoded : ∀ v ∈ numbers, (decoded 4 v).toNat = if v < 2 ^ 31 then v else v + (2 ^ 64 - 2 ^ 32) :=
      fun v hv => toNat_signExtend_ofNat (hlt v hv)
    constructor
    · intro h
      apply Or.inr
      intro v hv
      obtain ⟨u, hu, huv⟩ := (h v).mpr hv
      rw [hdecoded u hu] at huv
      have hv32 := hlt v hv
      split_ifs at huv <;> omega
    · intro h
      apply hsame
      intro v hv
      rw [hdecoded v hv, if_pos (h.resolve_left (by norm_num) v hv)]
  · refine ⟨fun _ => .inl rfl, fun _ => hsame fun v hv => ?_⟩
    show (BitVec.ofNat 64 v).toNat = v
    have hv64 := hlt v hv
    rw [BitVec.toNat_ofNat, Nat.mod_eq_of_lt (by omega)]

/-- **A dataset file gives back the distinct values that were written** exactly if the values have eight bytes or all
are below `2 ^ 31`. -/
theorem load_write_dataset_iff (path name : String) (numbers : List ℕ) (w : ℕ) (files files' : Files) (dist : ℕ → ℕ)
    (hw : w = 4 ∨ w = 8) (hlt : ∀ v ∈ numbers, v < 2 ^ (8 * w))
    (hnew : files (filepath path name w) = none)
    (hwrite : writeDataset path name numbers numbers.length w files = some files') :
    (∃ dataset, Dataset.load { filepath := filepath path name w, bytesPerValue := w } files' dist = .ok dataset ∧
      (dataset.map BitVec.toNat).Perm numbers.dedup) ↔ w = 8 ∨ ∀ v ∈ numbers, v < 2 ^ 31 := by
  have hlt' : ∀ v ∈ numbers, v < 256 ^ w := fun v hv => by
    rw [show (256 : ℕ) = 2 ^ 8 by norm_num, ← pow_mul]
    exact hlt v hv
  obtain ⟨file, hfile, hbytes, hlength⟩ := writeDataset_eq hlt' hnew hwrite
  rw [load_eq numbers dist hw hlt' hlength hfile hbytes, ← decoded_iff hw hlt',
    ← loaded_perm_iff dist numbers (decoded w)]
  constructor
  · intro ⟨dataset, hload, hperm⟩
    rwa [Except.ok.inj hload]
  · intro hperm
    exact ⟨_, rfl, hperm⟩

/-- Three values of four bytes, two of them equal. -/
theorem load_write_dataset_three :
    ∃ files', writeDataset "data" "books" [9, 7, 9] 3 4 (fun _ => none) = some files' ∧
      ∃ dataset, Dataset.load { filepath := filepath "data" "books" 4, bytesPerValue := 4 } files' (fun _ => 0) =
        .ok dataset ∧ (dataset.map BitVec.toNat).Perm [7, 9] := by
  refine ⟨_, rfl, ?_⟩
  exact (load_write_dataset_iff "data" "books" [9, 7, 9] 4 (fun _ => none) _ (fun _ => 0) (.inl rfl) (by simp)
    rfl rfl).mpr (.inr (by simp))

/-- The value `2 ^ 31` of four bytes comes back as a value of eight. -/
theorem load_sign_extends :
    ∃ files', writeDataset "data" "books" [0x80000000] 1 4 (fun _ => none) = some files' ∧
      Dataset.load { filepath := filepath "data" "books" 4, bytesPerValue := 4 } files' (fun _ => 0) =
        .ok [0xFFFFFFFF80000000] ∧
      ¬ ∃ dataset, Dataset.load { filepath := filepath "data" "books" 4, bytesPerValue := 4 } files' (fun _ => 0) =
        .ok dataset ∧ (dataset.map BitVec.toNat).Perm [0x80000000] := by
  refine ⟨_, rfl, ?_⟩
  have hload : ∀ files' file, files' (filepath "data" "books" 4) = some file →
      file.bytes = encode 8 1 ++ payload 4 [0x80000000] →
      Dataset.load { filepath := filepath "data" "books" 4, bytesPerValue := 4 } files' (fun _ => 0) =
        .ok [0xFFFFFFFF80000000] := fun files' file hfile hbytes => by
    rw [load_eq [0x80000000] (fun _ => 0) (.inl rfl) (by simp) (by simp) hfile hbytes]
    simp [sort, deduplicate, shuffle, shuffleFrom, decoded]
  rw [hload _ _ (Function.update_self ..) rfl]
  refine ⟨rfl, ?_⟩
  intro ⟨dataset, hok, hperm⟩
  rw [← Except.ok.inj hok] at hperm
  have hmem := hperm.mem_iff (a := 0x80000000)
  simp at hmem

end HashingArchive.Benchmark
