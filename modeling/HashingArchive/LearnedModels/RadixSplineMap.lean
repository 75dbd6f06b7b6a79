import HashingArchive.LearnedModels.RadixSplineError

/-!
# `MultiMap` and `RadixSplineHash`

`MultiMap` sorts its data and finds a key by a binary search in the range the radix spline gives. As long as the
largest key occurs once, it finds the first entry of every key, and nothing for a key that is not there
(`multimap_find`). `RadixSplineHash` scales the estimate to the size of a table; its hashes are slots of it
(`radix_spline_hash_lt`).
-/

namespace HashingArchive.LearnedModels.Rs

open HashingArchive.Library

variable {V : Type}

structure MultiMap (V : Type) where
  data : List (ℕ × V)
  rs : RadixSpline

/-! ### The code -/

section
variable (rnd : ℚ → ℚ)

/-- `is_sorted`, from the loop that copies the data. -/
def isSorted : ℕ → List (ℕ × V) → Bool
  | _, [] => true
  | previous_key, current :: items => decide (previous_key ≤ current.1) && isSorted current.1 items

/-- The constructor; `sort` is `std::sort` by the keys. -/
def MultiMap.new (w num_radix_bits max_error : ℕ) (sort : List (ℕ × V) → List (ℕ × V)) (items : List (ℕ × V)) :
    Option (MultiMap V) :=
  match items with
  | [] => do
    let b ← Builder.new w 0 (2 ^ w - 1) num_radix_bits max_error
    let rs ← Finalize rnd b
    some { data := [], rs := rs }
  | first :: _ =>
    let data := if isSorted first.1 items then items else sort items
    (build rnd w num_radix_bits max_error (data.map Prod.fst)).map fun rs => { data := data, rs := rs }

/-- `lower_bound`, as a place in the data. -/
def MultiMap.lowerBound (m : MultiMap V) (key : ℕ) : Option ℕ := do
  let bound ← GetSearchBound rnd m.rs key
  if bound.begin_ ≤ bound.end_ then
    Library.lowerBound (fun i => (m.data[i]?).map fun lhs => decide (lhs.1 < key)) bound.begin_
      (bound.end_ - bound.begin_)
  else none

/-- `find`; the end of the data stands for a key that is not there. -/
def MultiMap.find (m : MultiMap V) (key : ℕ) : Option ℕ := do
  let iter ← m.lowerBound rnd key
  if iter = m.data.length then some m.data.length
  else
    let entry ← m.data[iter]?
    some (if entry.1 = key then iter else m.data.length)

structure RadixSplineHash where
  out_scale_fac : ℚ
  spline : RadixSpline

namespace RadixSplineHash

def name (NumRadixBits MaxError : ℕ) : String :=
  "radix_spline_err" ++ toString MaxError ++ "_rbits" ++ toString NumRadixBits

/-- The constructor: it throws if there are more models than allowed. -/
def new (w NumRadixBits MaxError MaxModels : ℕ) (sample : List ℕ) (full_size : ℕ) :
    Option (Except String RadixSplineHash) :=
  (build rnd w NumRadixBits MaxError sample).map fun spline =>
    if MaxModels < spline.spline_points.length then
      .error ("RS " ++ name NumRadixBits MaxError ++ " had more models than allowed: " ++
        toString spline.spline_points.length ++ " > " ++ toString MaxModels)
    else .ok { out_scale_fac := rnd (rnd full_size / rnd sample.length), spline := spline }

def modelCount (h : RadixSplineHash) : ℕ := h.spline.spline_points.length

/-- `operator()` -/
def hash (h : RadixSplineHash) (key : ℕ) : Option ℕ :=
  (GetEstimatedPosition rnd h.spline key).map fun position => ⌊rnd (position * h.out_scale_fac)⌋₊

end RadixSplineHash

end

/-! ### Sorted data -/

theorem isSorted_iff (previous_key : ℕ) (items : List (ℕ × V)) :
    isSorted previous_key items = true ↔ (previous_key :: items.map Prod.fst).Pairwise (· ≤ ·) := by
  induction items generalizing previous_key with
  | nil => simp [isSorted]
  | cons current items ih =>
    rw [isSorted, Bool.and_eq_true, decide_eq_true_eq, ih, List.map_cons]
    constructor
    · rintro ⟨hle, hsorted⟩
      refine List.pairwise_cons.mpr ⟨fun k hk => ?_, hsorted⟩
      rcases List.mem_cons.mp hk with rfl | hk
      · exact hle
      · exact hle.trans ((List.pairwise_cons.mp hsorted).1 k hk)
    · intro hsorted
      obtain ⟨hle, hrest⟩ := List.pairwise_cons.mp hsorted
      exact ⟨hle _ (by simp), hrest⟩

section
variable {keys : List ℕ} {key : ℕ}

/-- A key that occurs is first where the smaller ones end. -/
theorem idxOf_eq_countP (hsorted : keys.Pairwise (· ≤ ·)) (hkey : key ∈ keys) :
    keys.idxOf key = keys.countP fun k => k < key := by
  have hpart : keys.Pairwise fun a b => decide (b < key) → decide (a < key) :=
    hsorted.imp fun {a b} hab hb => by
      simp only [decide_eq_true_eq] at hb ⊢
      omega
  have hlen := List.idxOf_lt_length_of_mem hkey
  have hidx := partitioned_iff hpart hlen
  rw [List.getElem_idxOf, decide_eq_true_eq] at hidx
  apply le_antisymm
  · by_contra hlt
    have hcount : (keys.countP fun k => k < key) < keys.length := by omega
    have hnot := (partitioned_iff hpart hcount).not.mpr (lt_irrefl _)
    rw [decide_eq_true_eq] at hnot
    have hle := List.pairwise_iff_getElem.mp hsorted _ _ hcount hlen (not_le.mp hlt)
    rw [List.getElem_idxOf] at hle
    have hne := List.not_of_lt_findIdx (p := fun k => k == key) (not_le.mp hlt)
    rw [beq_eq_false_iff_ne] at hne
    exact hne (le_antisymm hle (not_lt.mp hnot))
  · exact not_lt.mp (hidx.not.mp (lt_irrefl _))

/-- A largest key that occurs once is the last one. -/
theorem idxOf_last (hlast : keys.getLast? = some key) (hcount : keys.count key = 1) :
    keys.idxOf key + 1 = keys.length := by
  obtain ⟨init, rfl⟩ := List.getLast?_eq_some_iff.mp hlast
  rw [List.count_append, List.count_singleton_self] at hcount
  have hnotmem : key ∉ init := List.count_eq_zero.mp (by omega)
  rw [List.idxOf_append_of_notMem hnotmem, List.idxOf_cons_self, List.length_append, List.length_singleton,
    Nat.add_zero]

end

/-! ### The lookup -/

section
variable {rnd : ℚ → ℚ} {m : MultiMap V} {bound : SearchBound} {key : ℕ}

/-- The search is over at the first key that is not smaller, cut off at the ends of the range. -/
theorem multiMap_lowerBound (hsorted : (m.data.map Prod.fst).Pairwise (· ≤ ·))
    (hbound : GetSearchBound rnd m.rs key = some bound) (hle : bound.begin_ ≤ bound.end_)
    (hend : bound.end_ ≤ m.data.length) :
    m.lowerBound rnd key =
      some (max bound.begin_ (min bound.end_ ((m.data.map Prod.fst).countP fun k => k < key))) := by
  have hpart : (m.data.map Prod.fst).Pairwise fun a b => decide (b < key) → decide (a < key) :=
    hsorted.imp fun {a b} hab hb => by
      simp only [decide_eq_true_eq] at hb ⊢
      omega
  rw [MultiMap.lowerBound, hbound, Option.bind_eq_bind, Option.bind_some, if_pos hle]
  refine lowerBound_eq _ _ (le_max_left _ _) (by omega) fun i hi hi' => ?_
  have hlen : i < m.data.length := by omega
  have hiff := partitioned_iff hpart (i := i) (by simpa using hlen)
  rw [List.getElem_map, decide_eq_true_eq] at hiff
  rw [List.getElem?_eq_getElem hlen, Option.map_some]
  congr 1
  rw [decide_eq_decide, hiff]
  omega

/-- What is found in a range that has the first entry of a key that is there. -/
theorem find_eq (hsorted : (m.data.map Prod.fst).Pairwise (· ≤ ·)) (hbound : GetSearchBound rnd m.rs key = some bound)
    (hle : bound.begin_ ≤ bound.end_) (hend : bound.end_ ≤ m.data.length)
    (hin : key ∈ m.data.map Prod.fst → bound.begin_ ≤ (m.data.map Prod.fst).idxOf key ∧
      (m.data.map Prod.fst).idxOf key < bound.end_) :
    m.find rnd key = some ((m.data.map Prod.fst).idxOf key) := by
  rw [MultiMap.find, multiMap_lowerBound hsorted hbound hle hend, Option.bind_eq_bind, Option.bind_some]
  by_cases hkey : key ∈ m.data.map Prod.fst
  · obtain ⟨hlow, hhigh⟩ := hin hkey
    have hidx := idxOf_eq_countP hsorted hkey
    rw [← hidx, max_eq_right (le_min hle hlow), min_eq_right hhigh.le, if_neg (by omega)]
    have hlen : (m.data.map Prod.fst).idxOf key < m.data.length := by omega
    have hfst : (m.data[(m.data.map Prod.fst).idxOf key]).1 = key := by
      have hget := List.getElem_idxOf (List.idxOf_lt_length_of_mem hkey)
      rwa [List.getElem_map] at hget
    rw [List.getElem?_eq_getElem hlen, Option.bind_eq_bind, Option.bind_some, if_pos hfst]
  · have hlength : (m.data.map Prod.fst).idxOf key = m.data.length := by
      rw [List.idxOf_eq_length hkey, List.length_map]
    have hbounds : max bound.begin_ (min bound.end_ ((m.data.map Prod.fst).countP fun k => k < key)) ≤ m.data.length :=
      max_le (hle.trans hend) ((min_le_left _ _).trans hend)
    rw [hlength]
    generalize max bound.begin_ (min bound.end_ _) = iter at hbounds ⊢
    split_ifs with hiter
    · rfl
    · have hlen : iter < m.data.length := by omega
      have hne : (m.data[iter]).1 ≠ key := fun heq => hkey (heq ▸ List.mem_map_of_mem (List.getElem_mem hlen))
      rw [List.getElem?_eq_getElem hlen, Option.bind_eq_bind, Option.bind_some, if_neg hne]

end

/-! ### The results -/

section
variable {rnd : ℚ → ℚ} {w num_radix_bits max_error min_key max_key : ℕ}

/-- **`find` of the multimap**, if the largest key occurs once: the first entry of a key in the sorted data, or the end
of it. -/
theorem multimap_find (hr : Rounds rnd 53) {sort : List (ℕ × V) → List (ℕ × V)}
    (hsort : ∀ l, (sort l).Perm l ∧ ((sort l).map Prod.fst).Pairwise (· ≤ ·)) {items : List (ℕ × V)}
    (hmin : min_key ∈ items.map Prod.fst) (hminle : ∀ k ∈ items.map Prod.fst, min_key ≤ k)
    (hlemax : ∀ k ∈ items.map Prod.fst, k ≤ max_key) (hcount : (items.map Prod.fst).count max_key = 1)
    (hlt : min_key < max_key) (hmax : max_key < 2 ^ w)
    (hsome : 0 < num_radix_bits ∨ max_key - min_key < 2 ^ (w - 1)) (hbits : num_radix_bits ≤ 31)
    (hsize : items.length < 2 ^ 32)
    (hfits : (max_key - min_key) * (items.length + max_error) ≤ 2 ^ 51) :
    ∃ m, MultiMap.new rnd w num_radix_bits max_error sort items = some m ∧ m.data.Perm items ∧
      (m.data.map Prod.fst).Pairwise (· ≤ ·) ∧
      ∀ key, m.find rnd key = some (m.data.findIdx fun entry => entry.1 == key) := by
  obtain ⟨data, hdata, hperm, hsorted⟩ : ∃ data, MultiMap.new rnd w num_radix_bits max_error sort items =
      (build rnd w num_radix_bits max_error (data.map Prod.fst)).map (fun rs => { data := data, rs := rs }) ∧
      data.Perm items ∧ (data.map Prod.fst).Pairwise (· ≤ ·) := by
    cases items with
    | nil => simp at hmin
    | cons first items =>
      rw [MultiMap.new]
      by_cases his : isSorted first.1 (first :: items)
      · refine ⟨first :: items, by rw [if_pos his], List.Perm.refl _, ?_⟩
        exact (List.pairwise_cons.mp ((isSorted_iff _ _).mp his)).2
      · exact ⟨sort (first :: items), by rw [if_neg his], (hsort _).1, (hsort _).2⟩
  have hkeys : (data.map Prod.fst).Perm (items.map Prod.fst) := hperm.map _
  have hlength : (data.map Prod.fst).length = items.length := by rw [List.length_map, hperm.length_eq]
  have hmaxmem : max_key ∈ data.map Prod.fst :=
    hkeys.mem_iff.mpr (List.count_pos_iff.mp (by omega))
  have hfirst : (data.map Prod.fst).head? = some min_key := by
    obtain ⟨k, hk⟩ := Option.ne_none_iff_exists'.mp
      (List.head?_eq_none_iff.not.mpr (List.ne_nil_of_mem hmaxmem))
    have hkmem := hkeys.mem_iff.mp (List.mem_of_head? hk)
    have hle := head_le hsorted hk (hkeys.mem_iff.mpr hmin)
    rw [hk, le_antisymm hle (hminle k hkmem)]
  have hlast : (data.map Prod.fst).getLast? = some max_key := by
    obtain ⟨k, hk⟩ := Option.ne_none_iff_exists'.mp
      (List.getLast?_eq_none_iff.not.mpr (List.ne_nil_of_mem hmaxmem))
    have hkmem := hkeys.mem_iff.mp (List.mem_of_getLast? hk)
    have hle := le_getLast hsorted hk hmaxmem
    rw [hk, le_antisymm (hlemax k hkmem) hle]
  have hidx := idxOf_last hlast (by rw [hkeys.count_eq, hcount])
  have hfits' : (max_key - min_key) * ((data.map Prod.fst).length + max_error) ≤ 2 ^ 51 := by rwa [hlength]
  obtain ⟨rs, hbuild, hrsmin, hrsmax, hfitted⟩ := exists_fitted hr hsorted hfirst hlast hlt hmax hsome hbits
    (by omega) hfits'
  rw [show (data.map Prod.fst).length - 1 - (data.map Prod.fst).idxOf max_key = 0 by omega] at hfitted
  have hpos : 0 < items.length := by omega
  have hD : max_key - min_key ≤ 2 ^ 51 := (Nat.le_mul_of_pos_right _ (by omega)).trans hfits
  have hE : items.length + max_error ≤ 2 ^ 51 := (Nat.le_mul_of_pos_left _ (by omega)).trans hfits
  refine ⟨{ data := data, rs := rs }, by rw [hdata, hbuild, Option.map_some], hperm, hsorted, fun key => ?_⟩
  obtain ⟨bound, hbound, hle, hend, hin⟩ := hfitted.searchBound hr (by omega) (by omega) (by omega) hsorted
    (by rwa [hrsmin]) (by rwa [hrsmax]) (by rwa [hrsmax]) key
  rw [find_eq hsorted hbound hle (by simpa using hend) hin, List.idxOf, List.findIdx_map]
  rfl

/-- `std::sort` by the keys. -/
def byKey (l : List (ℕ × ℕ)) : List (ℕ × ℕ) := l.mergeSort fun a b => decide (a.1 ≤ b.1)

theorem byKey_spec (l : List (ℕ × ℕ)) : (byKey l).Perm l ∧ ((byKey l).map Prod.fst).Pairwise (· ≤ ·) := by
  refine ⟨List.mergeSort_perm _ _, List.pairwise_map.mpr ?_⟩
  have hsorted : (byKey l).Pairwise fun a b => decide (a.1 ≤ b.1) = true := by
    apply List.pairwise_mergeSort
    · intro a b c hab hbc
      simp only [decide_eq_true_eq] at *
      exact hab.trans hbc
    · intro a b
      simp only [Bool.or_eq_true, decide_eq_true_eq]
      exact le_total _ _
  exact hsorted.imp fun {a b} hab => by simpa using hab

/-- The entries with key 3 are found at the first of them, and 4 is not there. -/
theorem multimap_find_byKey :
    ∃ m, MultiMap.new binary64 32 4 1 byKey [(9, 0), (3, 1), (5, 2), (3, 3)] = some m ∧
      m.data.Perm [(9, 0), (3, 1), (5, 2), (3, 3)] ∧ (m.data.map Prod.fst).Pairwise (· ≤ ·) ∧
      ∀ key, m.find binary64 key = some (m.data.findIdx fun entry => entry.1 == key) :=
  multimap_find rounds_binary64 byKey_spec (by decide) (by decide) (by decide) (by decide) (show 3 < 9 by norm_num)
    (by norm_num) (by norm_num) (by norm_num) (by norm_num) (by norm_num)

/-- A radix spline of no points. -/
def withoutPoints (w num_radix_bits max_error shift : ℕ) (table : List ℕ) : RadixSpline where
  min_key := 0
  max_key := 2 ^ w - 1
  num_keys := 0
  num_radix_bits := num_radix_bits
  num_shift_bits := shift
  max_error := max_error
  radix_table := table
  spline_points := []

/-- **An empty multimap** has a radix table for all keys, but no points: a lookup of any key but the smallest and the
largest one accesses the first point. -/
theorem multimap_empty (sort : List (ℕ × V) → List (ℕ × V)) (hw : 0 < w) (hsome : 0 < num_radix_bits)
    (hbits : num_radix_bits ≤ 31) :
    ∃ m, MultiMap.new rnd w num_radix_bits max_error sort [] = some m ∧
      ∀ key, 0 < key → key < 2 ^ w - 1 → m.find rnd key = none := by
  have hpow : 2 ≤ 2 ^ w := Nat.one_lt_two_pow hw.ne'
  obtain ⟨shift, hshift, hltw, hpre⟩ := exists_shift (show 0 < 2 ^ w - 1 by omega)
    (show 2 ^ w - 1 < 2 ^ w by omega) (Or.inl hsome)
  have htable := init_radix_table num_radix_bits max_error
    (hpre.trans_le (Nat.pow_le_pow_right (by norm_num) hbits))
  obtain ⟨table, hfill, -, hget⟩ := fill_spec (List.replicate (prefixOf 0 shift (2 ^ w - 1) + 2) 0)
    1 (prefixOf 0 shift (2 ^ w - 1) + 1) 0 (.inr (by simp; omega))
  have hnew := Builder.new_eq max_error hshift hltw
  have htablefinal :
      (FinalizeRadixTable (Builder.init 0 (2 ^ w - 1) num_radix_bits max_error shift)).map Builder.spline =
        some (withoutPoints w num_radix_bits max_error shift table) := by
    have hprev : (Builder.init 0 (2 ^ w - 1) num_radix_bits max_error shift).prev_prefix_ + 1 = 1 := rfl
    have hindex : uint32 (Builder.init 0 (2 ^ w - 1) num_radix_bits max_error shift).spline_points.length = 0 := rfl
    rw [FinalizeRadixTable, hprev, hindex, htable, List.length_replicate, Nat.add_sub_cancel (m := 1) _, hfill]
    rfl
  have hfinal : Finalize rnd (Builder.init 0 (2 ^ w - 1) num_radix_bits max_error shift) =
      some (withoutPoints w num_radix_bits max_error shift table) := by
    rw [Finalize, if_neg (by simp [Builder.init]), Option.bind_eq_bind, Option.bind_some]
    exact htablefinal
  refine ⟨{ data := [], rs := withoutPoints w num_radix_bits max_error shift table }, ?_, fun key hpos hlt => ?_⟩
  · rw [MultiMap.new, hnew, Option.bind_eq_bind, Option.bind_some, hfinal]
    rfl
  have hzero : ∀ entry ≤ prefixOf 0 shift (2 ^ w - 1) + 1, table[entry]? = some 0 := by
    intro entry hentry
    rw [hget]
    split_ifs with hrange
    · rfl
    · simp [show entry = 0 by omega]
  have hpre' := prefixOf_mono 0 shift hlt.le
  have hfirst := hzero (prefixOf 0 shift key) (by omega)
  have hsecond := hzero (prefixOf 0 shift key + 1) (by omega)
  have hsegment : GetSplineSegment (withoutPoints w num_radix_bits max_error shift table) key = none := by
    simp only [GetSplineSegment, withoutPoints, hfirst, hsecond, Option.bind_eq_bind, Option.bind_some]
    rfl
  have hlow : ¬ key ≤ (withoutPoints w num_radix_bits max_error shift table).min_key := not_le.mpr hpos
  have hhigh : ¬ (withoutPoints w num_radix_bits max_error shift table).max_key ≤ key := not_le.mpr hlt
  rw [MultiMap.find, MultiMap.lowerBound, GetSearchBound, GetEstimatedPosition, if_neg hlow, if_neg hhigh, hsegment]
  rfl

theorem multimap_empty_words :
    ∃ m, MultiMap.new binary64 64 18 32 byKey [] = some m ∧
      ∀ key, 0 < key → key < 2 ^ 64 - 1 → m.find binary64 key = none :=
  multimap_empty byKey (by norm_num) (by norm_num) (by norm_num)

/-- What is half a position short of the end stays short of it, in spite of four roundings. -/
theorem scaled_lt (hr : Rounds rnd 53) {n full_size : ℕ} (hn : 0 < n) (hsize : n < 2 ^ 32) (hfull : 0 < full_size)
    {position : ℚ} (hnonneg : 0 ≤ position) (hle : position + 1 / 2 ≤ n) :
    rnd (position * rnd (rnd full_size / rnd n)) < full_size := by
  have hnq : (0 : ℚ) < n := by exact_mod_cast hn
  have hsizeq : (n : ℚ) < 2 ^ 32 := by exact_mod_cast hsize
  have hfullq : (0 : ℚ) < full_size := by exact_mod_cast hfull
  obtain ⟨c, hc⟩ : ∃ c : ℚ, c = 1 + 1 / 2 ^ 53 := ⟨_, rfl⟩
  have hcpos : 0 < c := by
    rw [hc]
    positivity
  have hround : ∀ x, 0 ≤ x → rnd x ≤ x * c := by
    intro x hx
    calc rnd x ≤ x + x / 2 ^ 53 := hr.le hx
      _ = x * c := by rw [hc]; ring
  have hfullnonneg := hr.nonneg hfullq.le
  have hscale : rnd (rnd full_size / n) ≤ full_size * c / n * c := by
    refine (hround _ (by positivity)).trans ?_
    gcongr
    exact hround _ hfullq.le
  have hscalenonneg := hr.nonneg (x := rnd full_size / n) (by positivity)
  have hposition : position ≤ n - 1 / 2 := by linarith
  have hhalf : (0 : ℚ) ≤ n - 1 / 2 := hnonneg.trans hposition
  have hcube : ((n : ℚ) - 1 / 2) * c ^ 3 < n := by
    rw [hc]
    nlinarith
  rw [hr.natCast (show n ≤ 2 ^ 53 by omega)]
  calc rnd (position * rnd (rnd full_size / n)) ≤ position * rnd (rnd full_size / n) * c := hround _ (by positivity)
    _ ≤ (n - 1 / 2) * (full_size * c / n * c) * c := by gcongr
    _ = full_size * (((n - 1 / 2) * c ^ 3) / n) := by
      field_simp
    _ < full_size * 1 := by
      gcongr
      rwa [div_lt_one hnq]
    _ = full_size := mul_one _

/-- **The hashes are slots of the table**, of every key. -/
theorem radix_spline_hash_lt (hr : Rounds rnd 53) {sample : List ℕ} {MaxModels full_size : ℕ}
    (hsorted : sample.Pairwise (· ≤ ·)) (hfirst : sample.head? = some min_key)
    (hlast : sample.getLast? = some max_key) (hlt : min_key < max_key) (hmax : max_key < 2 ^ w)
    (hsome : 0 < num_radix_bits ∨ max_key - min_key < 2 ^ (w - 1)) (hbits : num_radix_bits ≤ 31)
    (hsize : sample.length < 2 ^ 32)
    (hfits : (max_key - min_key) * (sample.length + max_error) ≤ 2 ^ 51) (hfull : 0 < full_size) :
    ∃ result, RadixSplineHash.new rnd w num_radix_bits max_error MaxModels sample full_size = some result ∧
      ∀ h, result = .ok h → h.modelCount ≤ MaxModels ∧
        ∀ key, ∃ slot, h.hash rnd key = some slot ∧ slot < full_size := by
  obtain ⟨rs, hbuild, hmin, hmaxkey, hfitted⟩ :=
    exists_fitted hr hsorted hfirst hlast hlt hmax hsome hbits hsize hfits
  have hidx := List.idxOf_lt_length_of_mem (List.mem_of_getLast? hlast)
  have hD : max_key - min_key ≤ 2 ^ 51 := (Nat.le_mul_of_pos_right _ (by omega)).trans hfits
  refine ⟨_, by rw [RadixSplineHash.new, hbuild, Option.map_some], fun h hok => ?_⟩
  split_ifs at hok with hmodels
  obtain rfl := Except.ok.inj hok
  refine ⟨not_lt.mp hmodels, fun key => ?_⟩
  obtain ⟨position, hposition, hnonneg, hle, -⟩ := hfitted.estimate hr hsize (by omega) hsorted
    (by rwa [hmin]) (by rwa [hmaxkey]) (by rw [hmaxkey]; omega) key
  refine ⟨_, by rw [RadixSplineHash.hash, hposition, Option.map_some], ?_⟩
  have hscaled := scaled_lt hr (n := sample.length) (by omega) hsize hfull hnonneg hle
  exact (Nat.floor_lt' hfull.ne').mpr hscaled

theorem radix_spline_hash_lt_squares :
    ∃ result, RadixSplineHash.new binary64 64 3 1 4 squares 16 = some result ∧
      ∀ h, result = .ok h → h.modelCount ≤ 4 ∧ ∀ key, ∃ slot, h.hash binary64 key = some slot ∧ slot < 16 :=
  radix_spline_hash_lt rounds_binary64 (by decide) rfl rfl (by norm_num) (by norm_num) (by norm_num) (by norm_num)
    (by decide) (by decide) (by norm_num)

end

end HashingArchive.LearnedModels.Rs
