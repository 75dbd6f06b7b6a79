import Mathlib

/-!
# `CSV`

The results file of the benchmarks: the constructor, which writes the header of a new file and parses an existing
one, `write` and `exists`. A `std::string` is a list of bytes, a `std::map` an association list, and an
`std::istringstream` its unread bytes and whether a read has hit the end (`Stream`).

Every field but the last of a line ends with a comma, which is the last byte read. The end of the line is only noticed
by a read that fails and leaves `ch` as it was, so the last byte of the last field is appended once more
(`readField_end`).
-/

namespace HashingArchive.Benchmark

abbrev Text := List UInt8

abbrev Fields := AList fun _ : Text => Text

def comma : UInt8 := 44

def newline : UInt8 := 10

/-- The bytes of a string of ASCII characters. -/
def ascii (s : String) : Text := s.toList.map fun c => UInt8.ofNat c.toNat

def isspace (ch : UInt8) : Bool := ch = 32 ∨ 9 ≤ ch ∧ ch ≤ 13

/-! ### Streams -/

structure Stream where
  rest : Text
  eof : Bool

/-- `iss >> std::noskipws >> ch`, which leaves `ch` alone if it fails. -/
def Stream.read (iss : Stream) (ch : UInt8) : Stream × UInt8 :=
  match iss.rest with
  | [] => ({ rest := [], eof := true }, ch)
  | c :: rest => ({ rest := rest, eof := iss.eof }, c)

/-- How many reads are left before the stream is at its end. -/
def Stream.unread (iss : Stream) : ℕ := iss.rest.length + if iss.eof then 0 else 1

theorem Stream.unread_read (iss : Stream) (ch : UInt8) (heof : ¬ iss.eof) : (iss.read ch).1.unread < iss.unread := by
  obtain ⟨rest, eof⟩ := iss
  cases rest <;> simp_all [Stream.read, Stream.unread]

/-- `std::getline`, none if it fails. -/
def getline (infile : Text) : Option (Text × Text) :=
  if infile = [] then none
  else some (infile.takeWhile (· ≠ newline), (infile.dropWhile (· ≠ newline)).drop 1)

theorem getline_length {infile line infile' : Text} (h : getline infile = some (line, infile')) :
    infile'.length < infile.length := by
  unfold getline at h
  split_ifs at h with hnil
  simp only [Option.some.injEq, Prod.mk.injEq] at h
  have hle := (List.dropWhile_suffix (· ≠ newline) (l := infile)).length_le
  have hpos := List.length_pos_iff.mpr hnil
  rw [← h.2, List.length_drop]
  omega

/-- The lines of `while (std::getline(infile, line))`. -/
def getlines (infile : Text) : List Text :=
  match _hline : getline infile with
  | none => []
  | some (line, infile') => line :: getlines infile'
termination_by infile.length
decreasing_by exact getline_length _hline

/-! ### The code -/

structure CSV where
  columns : List Text
  existing_entries : List Fields

/-- The loop of `header` and of `write`: a comma between every two fields. -/
def joined : List Text → Text
  | [] => []
  | [field] => field
  | field :: field' :: fields => field ++ comma :: joined (field' :: fields)

def header (columns : List Text) : Text := joined columns

def trim (s : Text) : Text := ((s.dropWhile isspace).reverse.dropWhile isspace).reverse

/-- What `write` puts out for a column, nothing if the row has no value for it. -/
def value (data : Fields) (column : Text) : Text := (data.lookup column).getD []

/-- The results file after `write`. -/
def CSV.write (csv : CSV) (outfile : Text) (data : Fields) : Text :=
  outfile ++ joined (csv.columns.map (value data)) ++ [newline]

def CSV.exists (csv : CSV) (signature : Fields) : Bool :=
  csv.existing_entries.any fun entry => signature.entries.all fun it => entry.lookup it.1 = some it.2

/-- The `do … while` loop that reads one field. -/
def readField (iss : Stream) (ch : UInt8) (field : Text) : Stream × UInt8 × Text :=
  if iss.eof then (iss, ch, field)
  else if (iss.read ch).2 ≠ comma then readField (iss.read ch).1 (iss.read ch).2 (field ++ [(iss.read ch).2])
  else ((iss.read ch).1, (iss.read ch).2, field)
termination_by iss.unread
decreasing_by exact iss.unread_read ch (by assumption)

/-- `fields.emplace(column, field)`, which keeps a value that is already there. -/
def emplace (fields : Fields) (column field : Text) : Fields :=
  if column ∈ fields then fields else fields.insert column field

/-- The body of the loop over the columns. -/
def parseColumn (s : Stream × UInt8 × Fields) (column : Text) : Stream × UInt8 × Fields :=
  let (iss, ch, field) := readField s.1 s.2.1 []
  (iss, ch, emplace s.2.2 column field)

def parseLine (columns : List Text) (line : Text) : Fields :=
  (columns.foldl parseColumn ({ rest := line, eof := false }, comma, ∅)).2.2

def headerMessage (columns : List Text) (h_line : Text) : Text :=
  ascii "Expected csv header \n\t'" ++ header columns ++ ascii "' but existing file has \n\t'" ++ h_line ++ ascii "'"

/-- The constructor, with the results file before and after. -/
def CSV.construct (columns : List Text) : Option Text → Except Text (CSV × Text)
  | none => .ok ({ columns := columns, existing_entries := [] }, header columns ++ [newline])
  | some infile =>
    match getline infile with
    | none => .ok ({ columns := columns, existing_entries := [] }, infile ++ header columns ++ [newline])
    | some (h_line, rest) =>
      if header columns ≠ trim h_line then .error (headerMessage columns h_line)
      else .ok ({ columns := columns, existing_entries := (getlines rest).map (parseLine columns) }, infile)

/-! ### Lines -/

theorem getline_append {line : Text} (rest : Text) (hline : newline ∉ line) :
    getline (line ++ newline :: rest) = some (line, rest) := by
  have hne : ∀ c ∈ line, decide (c ≠ newline) = true := fun c hc => by
    rw [decide_eq_true_eq]
    rintro rfl
    exact hline hc
  rw [getline, if_neg (by simp), List.takeWhile_append_of_pos hne, List.dropWhile_append_of_pos hne,
    List.takeWhile_cons_of_neg (by simp), List.dropWhile_cons_of_neg (by simp), List.append_nil]
  rfl

theorem getlines_nil : getlines [] = [] := by rw [getlines, getline, if_pos rfl]

theorem getlines_append {line : Text} (rest : Text) (hline : newline ∉ line) :
    getlines (line ++ newline :: rest) = line :: getlines rest := by
  rw [getlines, getline_append rest hline]

/-- Lines written one after the other are read back. -/
theorem getlines_flatMap {α : Type} {line : α → Text} {rows : List α} (hline : ∀ data ∈ rows, newline ∉ line data) :
    getlines (rows.flatMap fun data => line data ++ [newline]) = rows.map line := by
  induction rows with
  | nil => exact getlines_nil
  | cons data rows ih =>
    rw [List.flatMap_cons, List.append_assoc, List.singleton_append,
      getlines_append _ (hline data List.mem_cons_self), ih fun d hd => hline d (List.mem_cons_of_mem _ hd),
      List.map_cons]

theorem mem_joined {ch : UInt8} : ∀ {fields : List Text}, ch ∈ joined fields → ch = comma ∨ ∃ field ∈ fields, ch ∈ field
  | [field], h => .inr ⟨field, List.mem_singleton_self _, h⟩
  | field :: field' :: fields, h => by
    rw [joined, List.mem_append, List.mem_cons] at h
    rcases h with h | h | h
    · exact .inr ⟨field, List.mem_cons_self, h⟩
    · exact .inl h
    · refine (mem_joined h).imp_right fun ⟨f, hf, hch⟩ => ?_
      exact ⟨f, List.mem_cons_of_mem _ hf, hch⟩

/-! ### The header -/

theorem dropWhile_eq_self_of_head? {α : Type} {p : α → Bool} {s : List α} (h : ∀ a, s.head? = some a → p a = false) :
    s.dropWhile p = s := by
  cases s with
  | nil => rfl
  | cons a s => rw [List.dropWhile_cons_of_neg (by simp [h a rfl])]

theorem trim_eq_self {s : Text} (hhead : ∀ ch, s.head? = some ch → isspace ch = false)
    (hlast : ∀ ch, s.getLast? = some ch → isspace ch = false) : trim s = s := by
  rw [trim, dropWhile_eq_self_of_head? hhead, dropWhile_eq_self_of_head? (by rwa [List.head?_reverse]),
    List.reverse_reverse]

theorem head?_joined {ch : UInt8} : ∀ {fields : List Text}, (joined fields).head? = some ch →
    ch = comma ∨ ∃ field ∈ fields, field.head? = some ch
  | [field], h => .inr ⟨field, List.mem_singleton_self _, h⟩
  | [] :: _ :: _, h => .inl (Option.some.inj h).symm
  | (c :: field) :: _ :: _, h => .inr ⟨c :: field, List.mem_cons_self, h⟩

theorem getLast?_joined {ch : UInt8} : ∀ {fields : List Text}, (joined fields).getLast? = some ch →
    ch = comma ∨ ∃ field ∈ fields, field.getLast? = some ch
  | [field], h => .inr ⟨field, List.mem_singleton_self _, h⟩
  | field :: field' :: fields, h => by
    rw [joined, List.getLast?_append, List.getLast?_cons] at h
    cases hlast : (joined (field' :: fields)).getLast? with
    | none =>
      rw [hlast] at h
      exact .inl (Option.some.inj h).symm
    | some ch' =>
      rw [hlast] at h
      obtain rfl := Option.some.inj h
      refine (getLast?_joined hlast).imp_right fun ⟨f, hf, hch⟩ => ?_
      exact ⟨f, List.mem_cons_of_mem _ hf, hch⟩

/-! ### Reading a field -/

/-- A field that ends with a comma is read as it is. -/
theorem readField_comma {v : Text} (rest : Text) (hv : comma ∉ v) (ch : UInt8) (field : Text) :
    readField { rest := v ++ comma :: rest, eof := false } ch field =
      ({ rest := rest, eof := false }, comma, field ++ v) := by
  induction v generalizing ch field with
  | nil =>
    rw [readField, if_neg (by simp)]
    simp [Stream.read]
  | cons c v ih =>
    rw [readField, if_neg (by simp), if_pos (by rintro (rfl : c = comma); exact hv List.mem_cons_self)]
    show readField { rest := v ++ comma :: rest, eof := false } c (field ++ [c]) = _
    rw [ih (fun h => hv (List.mem_cons_of_mem _ h)), List.append_assoc, List.singleton_append]

/-- At the end of the line the byte read last is appended once more, unless it is a comma. -/
theorem readField_end {v : Text} (hv : comma ∉ v) (ch : UInt8) (field : Text) :
    (readField { rest := v, eof := false } ch field).2.2 =
      field ++ v ++ if v.getLastD ch = comma then [] else [v.getLastD ch] := by
  induction v generalizing ch field with
  | nil =>
    rw [readField, if_neg (by simp)]
    by_cases hch : ch = comma
    · simp [Stream.read, hch]
    · rw [if_pos (by simpa [Stream.read] using hch)]
      show (readField { rest := [], eof := true } ch (field ++ [ch])).2.2 = _
      rw [readField, if_pos rfl]
      simp [hch]
  | cons c v ih =>
    rw [readField, if_neg (by simp), if_pos (by rintro (rfl : c = comma); exact hv List.mem_cons_self)]
    show (readField { rest := v, eof := false } c (field ++ [c])).2.2 = _
    rw [ih (fun h => hv (List.mem_cons_of_mem _ h)), List.getLastD_cons, List.append_cons field c v]

/-! ### Reading a line -/

/-- The field that is read for the value of the last column. -/
def doubled (v : Text) : Text := v ++ v.getLast?.toList

theorem doubled_eq_self_iff {v : Text} : doubled v = v ↔ v = [] := by
  rw [doubled, List.append_right_eq_self, Option.toList_eq_nil_iff, List.getLast?_eq_none_iff]

/-- At the last column, `ch` is the comma before it or the one `ch` starts as. -/
theorem readField_last {v : Text} (hv : comma ∉ v) :
    (readField { rest := v, eof := false } comma []).2.2 = doubled v := by
  rw [readField_end hv, List.nil_append, doubled]
  congr 1
  cases hlast : v.getLast? with
  | none => simp [List.getLast?_eq_none_iff.mp hlast]
  | some ch =>
    have hch : ch ≠ comma := by
      rintro rfl
      exact hv (List.mem_of_getLast? hlast)
    rw [List.getLastD_eq_getLast?, hlast, Option.getD_some, if_neg hch]
    rfl

theorem lookup_emplace_self {fields : Fields} {column : Text} (h : column ∉ fields) (field : Text) :
    (emplace fields column field).lookup column = some field := by
  rw [emplace, if_neg h, AList.lookup_insert]

theorem lookup_emplace_of_ne {fields : Fields} {column c : Text} (h : c ≠ column) (field : Text) :
    (emplace fields column field).lookup c = fields.lookup c := by
  unfold emplace
  split_ifs
  · rfl
  · exact AList.lookup_insert_ne h

theorem mem_emplace {fields : Fields} {column c : Text} (h : c ≠ column) (field : Text) :
    c ∈ emplace fields column field ↔ c ∈ fields := by
  rw [← AList.lookup_isSome, lookup_emplace_of_ne h, AList.lookup_isSome]

/-- The loop over the columns, of which the first ones are done. -/
theorem foldl_parseColumn {f : Text → Text} : ∀ {columns : List Text} (hne : columns ≠ []) {fields : Fields},
    columns.Nodup → (∀ c ∈ columns, comma ∉ f c) → (∀ c ∈ columns, c ∉ fields) → ∀ c,
    (columns.foldl parseColumn ({ rest := joined (columns.map f), eof := false }, comma, fields)).2.2.lookup c =
      if c = columns.getLast hne then some (doubled (f c)) else if c ∈ columns then some (f c) else fields.lookup c
  | [column], _, fields, _, hcomma, hnew, c => by
    have hlast := readField_last (hcomma column (List.mem_singleton_self _))
    show (emplace fields column _).lookup c = _
    rw [show (readField { rest := joined ([column].map f), eof := false } comma []).2.2 = _ from hlast]
    by_cases hc : c = column
    · subst hc
      rw [lookup_emplace_self (hnew c (List.mem_singleton_self _)), if_pos (List.getLast_singleton _).symm]
    · rw [lookup_emplace_of_ne hc, if_neg (by simpa using hc), if_neg (by simpa using hc)]
  | column :: column' :: columns, _, fields, hnodup, hcomma, hnew, c => by
    obtain ⟨hnot, htail⟩ := List.nodup_cons.mp hnodup
    have hread : readField { rest := joined ((column :: column' :: columns).map f), eof := false } comma [] = _ :=
      readField_comma (joined ((column' :: columns).map f)) (hcomma column List.mem_cons_self) comma []
    have hstep : parseColumn ({ rest := joined ((column :: column' :: columns).map f), eof := false }, comma, fields)
        column = ({ rest := joined ((column' :: columns).map f), eof := false }, comma,
          emplace fields column (f column)) := by
      show (_, _, emplace fields column _) = _
      rw [hread]
      rfl
    have hfresh : ∀ d ∈ column' :: columns, d ∉ emplace fields column (f column) := fun d hd => by
      rw [mem_emplace (ne_of_mem_of_not_mem hd hnot)]
      exact hnew d (List.mem_cons_of_mem _ hd)
    rw [List.foldl_cons, hstep, foldl_parseColumn (List.cons_ne_nil _ _) htail
      (fun d hd => hcomma d (List.mem_cons_of_mem _ hd)) hfresh, List.getLast_cons (List.cons_ne_nil _ _)]
    split_ifs with hlast hmem hmem' hmem'
    · rfl
    · rfl
    · exact absurd (List.mem_cons_of_mem _ hmem) hmem'
    · have hc : c = column := (List.mem_cons.mp hmem').resolve_right hmem
      subst hc
      exact lookup_emplace_self (hnew c List.mem_cons_self) _
    · exact lookup_emplace_of_ne (ne_of_mem_of_not_mem List.mem_cons_self hmem').symm _

/-- The entry for a line that `write` has written. -/
theorem lookup_parseLine (columns : List Text) (hne : columns ≠ []) (hnodup : columns.Nodup) (data : Fields)
    (hcomma : ∀ c ∈ columns, comma ∉ value data c) {c : Text} (hc : c ∈ columns) :
    (parseLine columns (joined (columns.map (value data)))).lookup c =
      some (if c = columns.getLast hne then doubled (value data c) else value data c) := by
  rw [parseLine, foldl_parseColumn hne hnodup hcomma (fun _ _ => AList.notMem_empty _) c, if_pos hc]
  split_ifs <;> rfl

/-! ### Reloading -/

/-- A name or a value with no separator in it. -/
def Separable (s : Text) : Prop := comma ∉ s ∧ newline ∉ s

/-- A name with no whitespace around it. -/
def Trimmed (s : Text) : Prop :=
  (∀ ch, s.head? = some ch → isspace ch = false) ∧ ∀ ch, s.getLast? = some ch → isspace ch = false

theorem newline_notMem_joined {fields : List Text} (h : ∀ field ∈ fields, Separable field) :
    newline ∉ joined fields := by
  intro hmem
  rcases mem_joined hmem with heq | ⟨field, hfield, hch⟩
  · exact absurd heq (by decide)
  · exact (h field hfield).2 hch

theorem trim_header {columns : List Text} (h : ∀ c ∈ columns, Trimmed c) : trim (header columns) = header columns := by
  refine trim_eq_self (fun ch hch => ?_) fun ch hch => ?_
  · rcases head?_joined hch with rfl | ⟨c, hc, hhead⟩
    · decide
    · exact (h c hc).1 ch hhead
  · rcases getLast?_joined hch with rfl | ⟨c, hc, hlast⟩
    · decide
    · exact (h c hc).2 ch hlast

theorem foldl_write (csv : CSV) (rows : List Fields) (outfile : Text) :
    rows.foldl csv.write outfile =
      outfile ++ rows.flatMap fun data => joined (csv.columns.map (value data)) ++ [newline] := by
  induction rows generalizing outfile with
  | nil => simp
  | cons data rows ih =>
    rw [List.foldl_cons, ih, CSV.write, List.flatMap_cons]
    simp only [List.append_assoc]

/-- The constructor on a file with these rows accepts the header and parses every line. -/
theorem construct_written (columns : List Text) (hname : ∀ c ∈ columns, Separable c ∧ Trimmed c) (rows : List Fields)
    (hvalue : ∀ data ∈ rows, ∀ c ∈ columns, Separable (value data c)) (csv : CSV) (hcsv : csv.columns = columns) :
    ∃ outfile, CSV.construct columns (some (rows.foldl csv.write (header columns ++ [newline]))) =
      .ok ({ columns := columns,
             existing_entries := rows.map fun data => parseLine columns (joined (columns.map (value data))) },
        outfile) := by
  have hheader : newline ∉ header columns := newline_notMem_joined fun c hc => (hname c hc).1
  have hlines : ∀ data ∈ rows, newline ∉ joined (columns.map (value data)) := fun data hdata =>
    newline_notMem_joined (by simpa using hvalue data hdata)
  rw [foldl_write, hcsv, List.append_assoc, List.singleton_append, CSV.construct, getline_append _ hheader]
  dsimp only
  rw [if_neg (not_not.mpr (trim_header fun c hc => (hname c hc).2).symm), getlines_flatMap hlines, List.map_map]
  exact ⟨_, rfl⟩

/-- The entry `exists` looks for is one whose fields agree with the signature. -/
theorem exists_iff {csv : CSV} {signature : Fields} :
    csv.exists signature = true ↔
      ∃ entry ∈ csv.existing_entries, ∀ it ∈ signature.entries, entry.lookup it.1 = some it.2 := by
  simp [CSV.exists]

/-- **The results file reloads what was written** exactly if no row has a value for the last column. -/
theorem csv_reload_iff (columns : List Text) (hne : columns ≠ []) (hnodup : columns.Nodup)
    (hname : ∀ c ∈ columns, Separable c ∧ Trimmed c) (rows : List Fields)
    (hvalue : ∀ data ∈ rows, ∀ c ∈ columns, Separable (value data c)) :
    ∃ fresh outfile, CSV.construct columns none = .ok (fresh, outfile) ∧
      ((∃ csv outfile', CSV.construct columns (some (rows.foldl fresh.write outfile)) = .ok (csv, outfile') ∧
        List.Forall₂ (fun data entry => ∀ c ∈ columns, entry.lookup c = some (value data c)) rows
          csv.existing_entries ∧
        ∀ signature : Fields, (∀ c ∈ signature, c ∈ columns) →
          (csv.exists signature = true ↔ ∃ data ∈ rows, ∀ it ∈ signature.entries, value data it.1 = it.2)) ↔
      ∀ data ∈ rows, value data (columns.getLast hne) = []) := by
  refine ⟨_, _, rfl, ?_⟩
  obtain ⟨outfile', hload⟩ :=
    construct_written columns hname rows hvalue { columns := columns, existing_entries := [] } rfl
  have hlookup : ∀ data ∈ rows, ∀ c ∈ columns, (parseLine columns (joined (columns.map (value data)))).lookup c =
      some (if c = columns.getLast hne then doubled (value data c) else value data c) :=
    fun data hdata c hc => lookup_parseLine columns hne hnodup data (fun d hd => (hvalue data hdata d hd).1) hc
  rw [hload]
  constructor
  · intro ⟨csv, _, hok, hentries, _⟩ data hdata
    obtain ⟨rfl, -⟩ := Prod.mk.inj (Except.ok.inj hok)
    have hall := (List.forall₂_map_right_iff.mp hentries)
    have hmem := List.getLast_mem hne
    have hsame := List.forall₂_same.mp hall data hdata _ hmem
    rw [hlookup data hdata _ hmem, if_pos rfl] at hsame
    exact doubled_eq_self_iff.mp (Option.some.inj hsame)
  · intro hlast
    have hentry : ∀ data ∈ rows, ∀ c ∈ columns, (parseLine columns (joined (columns.map (value data)))).lookup c =
        some (value data c) := fun data hdata c hc => by
      rw [hlookup data hdata c hc]
      split_ifs with hc'
      · rw [hc', hlast data hdata]
        rfl
      · rfl
    refine ⟨_, outfile', rfl, List.forall₂_map_right_iff.mpr (List.forall₂_same.mpr hentry), ?_⟩
    intro signature hsig
    have hcolumn : ∀ it ∈ signature.entries, it.1 ∈ columns := fun it hit =>
      hsig it.1 (AList.mem_keys.mpr (List.mem_map_of_mem hit))
    rw [exists_iff]
    constructor
    · intro ⟨entry, hentry', hagree⟩
      obtain ⟨data, hdata, rfl⟩ := List.mem_map.mp hentry'
      refine ⟨data, hdata, fun it hit => ?_⟩
      exact Option.some.inj ((hentry data hdata _ (hcolumn it hit)).symm.trans (hagree it hit))
    · intro ⟨data, hdata, hagree⟩
      refine ⟨_, List.mem_map_of_mem hdata, fun it hit => ?_⟩
      rw [hentry data hdata _ (hcolumn it hit), hagree it hit]

/-- Columns `a` and `b`, and a row with `x` for the first one. -/
theorem csv_reload_two_columns :
    ∃ fresh outfile, CSV.construct [[97], [98]] none = .ok (fresh, outfile) ∧
      ∃ csv outfile', CSV.construct [[97], [98]] (some (fresh.write outfile (AList.singleton [97] [120]))) =
        .ok (csv, outfile') ∧ ∃ entry, csv.existing_entries = [entry] ∧ entry.lookup [97] = some [120] := by
  obtain ⟨fresh, outfile, hfresh, hiff⟩ := csv_reload_iff [[97], [98]] (by simp) (by decide)
    (by simp [Separable, Trimmed, comma, newline, isspace]) [AList.singleton [97] [120]]
    (by simp [Separable, comma, newline, value, AList.lookup, AList.singleton])
  obtain ⟨csv, outfile', hok, hentries, -⟩ := hiff.mpr (by simp [value, AList.lookup, AList.singleton])
  refine ⟨fresh, outfile, hfresh, csv, outfile', hok, ?_⟩
  obtain ⟨entry, _, hentry, hnil, heq⟩ := List.forall₂_cons_left_iff.mp hentries
  rw [List.forall₂_nil_left_iff] at hnil
  exact ⟨entry, by rw [heq, hnil], hentry [97] (by simp)⟩

/-- With one column `a` the value `b` comes back as `bb`, and the row is not found. -/
theorem csv_last_field_doubled :
    ∃ fresh outfile, CSV.construct [[97]] none = .ok (fresh, outfile) ∧
      ∃ csv outfile', CSV.construct [[97]] (some (fresh.write outfile (AList.singleton [97] [98]))) =
        .ok (csv, outfile') ∧
      (∃ entry, csv.existing_entries = [entry] ∧ entry.lookup [97] = some [98, 98]) ∧
      csv.exists (AList.singleton [97] [98]) = false := by
  refine ⟨_, _, rfl, ?_⟩
  have hvalue : value (AList.singleton [97] [98]) [97] = [98] := by simp [value, AList.lookup, AList.singleton]
  obtain ⟨outfile', hload⟩ := construct_written [[97]] (by simp [Separable, Trimmed, comma, newline, isspace])
    [AList.singleton [97] [98]] (by simp [hvalue, Separable, comma, newline])
    { columns := [[97]], existing_entries := [] } rfl
  have hlookup : (parseLine [[97]] (joined ([[97]].map (value (AList.singleton [97] [98]))))).lookup [97] =
      some [98, 98] := by
    rw [lookup_parseLine [[97]] (by simp) (by simp) _ (by simp [hvalue, comma]) (by simp), hvalue]
    rfl
  refine ⟨_, outfile', hload, ⟨_, rfl, hlookup⟩, ?_⟩
  rw [Bool.eq_false_iff, Ne, exists_iff]
  intro ⟨entry, hentry, hagree⟩
  obtain rfl := List.mem_singleton.mp hentry
  have hfield := hagree ⟨[97], [98]⟩ (List.mem_singleton_self _)
  rw [hlookup] at hfield
  exact absurd hfield (by decide)

end HashingArchive.Benchmark
