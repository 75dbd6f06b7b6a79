import HashingArchive.Join.Hashtable

/-!
# Relations in files

`write_relation` prints a relation of unsigned keys and payloads line by line, and `load_relation` reads as many tuples
as it is told from such a file. It does not look at what `fscanf` returns: where the file has fewer tuples, the last one
is repeated. A file without any tuple is read on for ever (`load_written`).
-/

namespace HashingArchive.Join

/-! ### The code -/

/-- The upper half of the eight bytes of a tuple. -/
def Tuple.payload (t : Tuple) : BitVec 32 := t.extractLsb' 32 32

/-- `%u` of `fprintf`. -/
def printUnsigned (x : BitVec 32) : List Char := Nat.toDigits 10 x.toNat

def printTuple (t : Tuple) : List Char := printUnsigned t.key ++ ' ' :: (printUnsigned t.payload ++ ['\n'])

/-- `write_relation` with `uint32_t` for keys and payloads. -/
def writeRelation (tuples : List Tuple) : List Char := "#KEY, VAL\n".toList ++ tuples.flatMap printTuple

/-- The loop that skips the header. At the end of the file `fgetc` has no line break to offer, and the loop does not
end. -/
def skipLine : List Char → Option (List Char)
  | [] => none
  | c :: text => if c = '\n' then some text else skipLine text

/-- The search for a space before the end of the line. -/
def fmtspace : List Char → Option Bool
  | [] => none
  | c :: text => if c = ' ' then some true else if c = '\n' then some false else fmtspace text

/-- `isspace` of the C library. -/
def isSpace (c : Char) : Bool := c = ' ' || (9 ≤ c.toNat && c.toNat ≤ 13)

/-- `%u` of `fscanf`: what `strtoul` makes of the digits after a sign, cut off, and the text that is left. -/
def scanUnsigned (text : List Char) : Option (BitVec 32) × List Char :=
  let text := text.dropWhile isSpace
  let negative : Bool := text.head? = some '-'
  let text := if negative ∨ text.head? = some '+' then text.tail else text
  let digits := text.takeWhile Char.isDigit
  let value := Nat.ofDigitChars 10 digits 0
  let result := if 2 ^ 64 ≤ value then BitVec.allOnes 32 else
    if negative then -BitVec.ofNat 32 value else BitVec.ofNat 32 value
  (if digits = [] then none else some result, text.dropWhile Char.isDigit)

/-- The loop of `read_relation`, where a conversion that fails leaves `key` and `payload` as they are. -/
def readTuples : ℕ → List Char → BitVec 32 → BitVec 32 → List Tuple
  | 0, _, _, _ => []
  | n + 1, text, key, payload =>
    match scanUnsigned text with
    | (none, text) => Tuple.mk key payload :: readTuples n text key payload
    | (some key, text) =>
      match scanUnsigned text with
      | (none, text) => Tuple.mk key payload :: readTuples n text key payload
      | (some payload, text) => Tuple.mk key payload :: readTuples n (text.dropWhile isSpace) key payload

/-- `load_relation` with enough memory, on a file that can be opened; `garbage` is the key before the first one is
read. -/
def loadRelation (garbage : BitVec 32) (numTuples : ℕ) (file : List Char) : Option (List Tuple) :=
  (skipLine file).bind fun text => (fmtspace text).map fun space =>
    if space then readTuples numTuples text garbage 0#32
    else List.replicate numTuples (Tuple.mk garbage 0#32)

/-! ### Numbers -/

theorem Tuple.mk_key_payload (t : Tuple) : Tuple.mk t.key t.payload = t := by
  apply BitVec.eq_of_getLsbD_eq
  intro i hi
  simp only [Tuple.mk, Tuple.key, Tuple.payload, BitVec.getLsbD_append]
  simp
  grind

theorem isDigit_printUnsigned {x : BitVec 32} {c : Char} (hc : c ∈ printUnsigned x) : c.isDigit = true :=
  Nat.isDigit_of_mem_toDigits (by norm_num) le_rfl hc

theorem le_of_isDigit {c : Char} (h : c.isDigit = true) : 48 ≤ c.toNat ∧ c.toNat ≤ 57 := by
  simp only [Char.isDigit, Bool.and_eq_true, decide_eq_true_eq] at h
  exact ⟨UInt32.le_iff_toNat_le.mp h.1, UInt32.le_iff_toNat_le.mp h.2⟩

/-- A number starts with a digit, neither with space nor with a sign. -/
theorem exists_printUnsigned (x : BitVec 32) :
    ∃ d ds, printUnsigned x = d :: ds ∧ isSpace d = false ∧ d ≠ '-' ∧ d ≠ '+' := by
  have hne : printUnsigned x ≠ [] := Nat.toDigits_ne_nil
  obtain ⟨d, ds, hcons⟩ := List.exists_cons_of_ne_nil hne
  have hdigit : d.isDigit = true := isDigit_printUnsigned (x := x) (by rw [hcons]; exact List.mem_cons_self)
  have hle := le_of_isDigit hdigit
  refine ⟨d, ds, hcons, ?_, ?_, ?_⟩
  · have hne : d ≠ ' ' := by
      rintro rfl
      cases hdigit
    simp only [isSpace, hne, decide_false, Bool.false_or, Bool.and_eq_false_iff, decide_eq_false_iff_not]
    omega
  · rintro rfl
    cases hdigit
  · rintro rfl
    cases hdigit

/-- What is printed is scanned, after any space and up to the next character that is no digit. -/
theorem scan_printed (space : List Char) (hspace : ∀ c ∈ space, isSpace c = true) (x : BitVec 32) {c : Char}
    (hc : c.isDigit = false) (rest : List Char) :
    scanUnsigned (space ++ (printUnsigned x ++ c :: rest)) = (some x, c :: rest) := by
  obtain ⟨d, ds, hcons, hd, hminus, hplus⟩ := exists_printUnsigned x
  have hdrop : (space ++ (printUnsigned x ++ c :: rest)).dropWhile isSpace = printUnsigned x ++ c :: rest := by
    rw [List.dropWhile_append_of_pos hspace, hcons, List.cons_append, List.dropWhile_cons_of_neg (by simp [hd])]
  have hhead : (printUnsigned x ++ c :: rest).head? = some d := by rw [hcons, List.cons_append, List.head?_cons]
  have htake : (printUnsigned x ++ c :: rest).takeWhile Char.isDigit = printUnsigned x := by
    rw [List.takeWhile_append_of_pos fun _ h => isDigit_printUnsigned h, List.takeWhile_cons_of_neg (by simp [hc]),
      List.append_nil]
  have hrest : (printUnsigned x ++ c :: rest).dropWhile Char.isDigit = c :: rest := by
    rw [List.dropWhile_append_of_pos fun _ h => isDigit_printUnsigned h, List.dropWhile_cons_of_neg (by simp [hc])]
  have hvalue : Nat.ofDigitChars 10 (printUnsigned x) 0 = x.toNat := Nat.ofDigitChars_ten_toDigits
  have hsmall : ¬2 ^ 64 ≤ x.toNat := by omega
  have hnonempty : printUnsigned x ≠ [] := by simp [hcons]
  simp only [scanUnsigned, hdrop, hhead, Option.some.injEq, hminus, hplus, decide_false, Bool.false_eq_true, or_self,
    if_false, htake, hrest, hvalue, hsmall, hnonempty, BitVec.ofNat_toNat, BitVec.setWidth_eq]

/-! ### What is written is loaded -/

/-- There is no space before a line. -/
theorem dropWhile_printed (tuples : List Tuple) :
    (tuples.flatMap printTuple).dropWhile isSpace = tuples.flatMap printTuple := by
  cases tuples with
  | nil => rfl
  | cons t tuples =>
    obtain ⟨d, ds, hcons, hd, -, -⟩ := exists_printUnsigned t.key
    rw [List.flatMap_cons, printTuple, hcons, List.cons_append, List.cons_append,
      List.dropWhile_cons_of_neg (by simp [hd])]

theorem readTuples_written (n : ℕ) (tuples : List Tuple) (key payload : BitVec 32) :
    readTuples n (tuples.flatMap printTuple) key payload =
      tuples.take n ++ List.replicate (n - tuples.length) (tuples.getLast?.getD (Tuple.mk key payload)) := by
  induction n generalizing tuples key payload with
  | zero => simp [readTuples]
  | succ n ih =>
    cases tuples with
    | nil =>
      -- Nothing is left to be scanned, and what was scanned last is taken again.
      have hnone : scanUnsigned [] = (none, []) := rfl
      have hrest := ih [] key payload
      simp only [List.flatMap_nil, List.take_nil, List.nil_append, List.length_nil, Nat.sub_zero, List.getLast?_nil,
        Option.getD_none] at hrest ⊢
      simp only [readTuples, hnone, hrest, List.replicate_succ]
    | cons t tuples =>
      have hline : (t :: tuples).flatMap printTuple = [] ++ (printUnsigned t.key ++ ' ' ::
          (printUnsigned t.payload ++ '\n' :: tuples.flatMap printTuple)) := by
        simp only [List.flatMap_cons, printTuple, List.append_assoc, List.cons_append, List.nil_append]
      have hkey := scan_printed [] (fun _ h => nomatch h) t.key (show ' '.isDigit = false from rfl)
        (printUnsigned t.payload ++ '\n' :: tuples.flatMap printTuple)
      have hpayload := scan_printed [' '] (by simp [isSpace]) t.payload
        (show '\n'.isDigit = false from rfl) (tuples.flatMap printTuple)
      have hbreak : ('\n' :: tuples.flatMap printTuple).dropWhile isSpace = tuples.flatMap printTuple := by
        rw [List.dropWhile_cons_of_pos rfl, dropWhile_printed]
      rw [List.singleton_append] at hpayload
      rw [hline]
      simp only [readTuples, hkey, hpayload, hbreak, ih, Tuple.mk_key_payload, List.take_succ_cons, List.length_cons,
        Nat.add_sub_add_right, List.getLast?_cons, Option.getD_some, List.cons_append]

theorem fmtspace_printed (x : BitVec 32) (rest : List Char) :
    fmtspace (printUnsigned x ++ ' ' :: rest) = some true := by
  have hdigits : ∀ c ∈ printUnsigned x, c.isDigit = true := fun _ h => isDigit_printUnsigned h
  generalize printUnsigned x = digits at hdigits
  induction digits with
  | nil => rfl
  | cons d digits ih =>
    obtain ⟨hd, hdigits⟩ := List.forall_mem_cons.mp hdigits
    have hspace : d ≠ ' ' := by
      rintro rfl
      cases hd
    have hbreak : d ≠ '\n' := by
      rintro rfl
      cases hd
    rw [List.cons_append, fmtspace, if_neg hspace, if_neg hbreak, ih hdigits]

/-- **What is loaded from a written file**: the tuples from the first one on, and the last one again if there are too
few. With no tuple at all the search for a space does not end. -/
theorem load_written (garbage : BitVec 32) (numTuples : ℕ) (tuples : List Tuple) :
    loadRelation garbage numTuples (writeRelation tuples) = tuples.getLast?.map fun last =>
      tuples.take numTuples ++ List.replicate (numTuples - tuples.length) last := by
  have hheader : skipLine (writeRelation tuples) = some (tuples.flatMap printTuple) := rfl
  rw [loadRelation, hheader, Option.bind_some]
  cases tuples with
  | nil => rfl
  | cons t tuples =>
    have hspace : fmtspace ((t :: tuples).flatMap printTuple) = some true := by
      rw [List.flatMap_cons, printTuple, List.append_assoc, List.cons_append, fmtspace_printed]
    rw [hspace, Option.map_some, if_pos rfl, readTuples_written, List.getLast?_cons, Option.map_some, Option.getD_some]

end HashingArchive.Join
