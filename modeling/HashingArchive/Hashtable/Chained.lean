import HashingArchive.Hashtable.Probe

/-!
# `Chained`: the code and its invariant

A directory slot holds one entry inline and a chain of overflow buckets behind it. Every bucket of a
chain has one owner, so a chain is a list of buckets, the empty list standing for a null pointer
(`slot.buckets`, or `next` of the last bucket). `entry` reads a table slot by slot, over directory and
chain alike. `Filled` is the shape of a chain: every bucket but the last is full, the last one is not
empty and filled from the front. Under it an insert into a chain refuses a key the chain holds and
adds any other to exactly one slot (`insertChain_cases`).
-/

namespace HashingArchive.Hashtable.Chained

open HashingArchive.Library

structure Slot (Key Payload : Type) where
  key : Key
  payload : Payload

/-- The template and constructor parameters. `blank` is the payload a new bucket has in its empty
slots. -/
structure Config (Key Hash Payload : Type) where
  directorySize : ℕ
  bucketSize : ℕ
  bucketSize_pos : 0 < bucketSize
  hashfn : Key → Hash
  reductionfn : Hash → Fin directorySize
  sentinel : Key
  blank : Payload

variable {Key Hash Payload : Type}

abbrev Bucket (c : Config Key Hash Payload) := Fin c.bucketSize → Slot Key Payload

structure FirstLevelSlot (c : Config Key Hash Payload) where
  key : Key
  payload : Payload
  buckets : List (Bucket c)

abbrev Table (c : Config Key Hash Payload) := Fin c.directorySize → FirstLevelSlot c

/-! ### The code -/

section
variable [DecidableEq Key] (c : Config Key Hash Payload)

def Config.home (key : Key) : Fin c.directorySize := c.reductionfn (c.hashfn key)

/-- `new Bucket()` with its first slot set. -/
def newBucket (key : Key) (payload : Payload) : Bucket c :=
  Function.update (fun _ => { key := c.sentinel, payload := c.blank }) ⟨0, c.bucketSize_pos⟩
    { key := key, payload := payload }

/-- The slots of one bucket: take the first empty one, refuse a key that is there. -/
def insertBucket (key : Key) (payload : Payload) (bucket : Bucket c) : Option (Bool × Bucket c) :=
  (List.finRange c.bucketSize).findSome? fun i =>
    if (bucket i).key = c.sentinel then
      some (true, Function.update bucket i { key := key, payload := payload })
    else if (bucket i).key = key then some (false, bucket)
    else none

/-- The walk along a chain, up to a new bucket at its end. -/
def insertChain (key : Key) (payload : Payload) : List (Bucket c) → Bool × List (Bucket c)
  | [] => (true, [newBucket c key payload])
  | bucket :: next =>
    match insertBucket c key payload bucket with
    | some (r, bucket') => (r, bucket' :: next)
    | none =>
      let (r, next') := insertChain key payload next
      (r, bucket :: next')

def insert (t : Table c) (key : Key) (payload : Payload) : Outcome Bool × Table c :=
  if key = c.sentinel then (.value false, t)
  else
    let b := c.home key
    let slot := t b
    if slot.key = c.sentinel then
      (.value true, Function.update t b { slot with key := key, payload := payload })
    else
      let (r, buckets) := insertChain c key payload slot.buckets
      (.value r, Function.update t b { slot with buckets := buckets })

/-- The slots of one bucket: the payload if the key is there, nothing from an empty slot on. -/
def lookupBucket (key : Key) (bucket : Bucket c) : Option (Option Payload) :=
  (List.finRange c.bucketSize).findSome? fun i =>
    if (bucket i).key = key then some (some (bucket i).payload)
    else if (bucket i).key = c.sentinel then some none
    else none

def lookupChain (key : Key) : List (Bucket c) → Option Payload
  | [] => none
  | bucket :: next =>
    match lookupBucket c key bucket with
    | some r => r
    | none => lookupChain key next

def lookup (t : Table c) (key : Key) : Outcome (Option Payload) :=
  if key = c.sentinel then .value none
  else
    let slot := t (c.home key)
    if slot.key = key then .value (some slot.payload)
    else .value (lookupChain c key slot.buckets)

def clear (t : Table c) : Table c := fun b => { t b with key := c.sentinel, buckets := [] }

/-- The constructor: every directory slot gets the key `Sentinel` and no chain, over whatever memory
held. -/
def construct (memory : Table c) : Outcome (Table c) :=
  if c.directorySize ≤ vectorMaxSize then .value (clear c memory)
  else .thrown "cannot create std::vector larger than max_size()"

def store : Store (Table c) Key Payload Bool where
  insert := insert c
  lookup := lookup c
  clear := clear c

end

/-! ### Chains -/

section
variable [DecidableEq Key] {c : Config Key Hash Payload}

/-- What slot `i` of the `j`-th bucket of a chain holds, if there is such a slot and it is not empty. -/
def chainEntry (chain : List (Bucket c)) (j : ℕ) (i : Fin c.bucketSize) : Option (Slot Key Payload) :=
  match chain[j]? with
  | none => none
  | some bucket => if (bucket i).key = c.sentinel then none else some (bucket i)

@[simp] theorem chainEntry_nil (j : ℕ) (i : Fin c.bucketSize) : chainEntry ([] : List (Bucket c)) j i = none := rfl

@[simp] theorem chainEntry_zero (bucket : Bucket c) (next : List (Bucket c)) (i : Fin c.bucketSize) :
    chainEntry (bucket :: next) 0 i = if (bucket i).key = c.sentinel then none else some (bucket i) := rfl

@[simp] theorem chainEntry_succ (bucket : Bucket c) (next : List (Bucket c)) (j : ℕ) (i : Fin c.bucketSize) :
    chainEntry (bucket :: next) (j + 1) i = chainEntry next j i := rfl

/-- The key is in some slot of the chain. -/
def InChain (key : Key) (chain : List (Bucket c)) : Prop := ∃ bucket ∈ chain, ∃ i, (bucket i).key = key

/-- Every bucket but the last is full, the last is not empty and filled from the front. -/
def Filled : List (Bucket c) → Prop
  | [] => True
  | [bucket] => (bucket ⟨0, c.bucketSize_pos⟩).key ≠ c.sentinel ∧
      ∀ i i', i' ≤ i → (bucket i).key ≠ c.sentinel → (bucket i').key ≠ c.sentinel
  | bucket :: next => (∀ i, (bucket i).key ≠ c.sentinel) ∧ Filled next

omit [DecidableEq Key] in
theorem Filled.fromFront {bucket : Bucket c} {next : List (Bucket c)} (h : Filled (bucket :: next)) :
    ∀ i i', i' ≤ i → (bucket i).key ≠ c.sentinel → (bucket i').key ≠ c.sentinel := by
  cases next with
  | nil => exact h.2
  | cons bucket' next => exact fun _ i' _ _ => h.1 i'

omit [DecidableEq Key] in
theorem Filled.tail {bucket : Bucket c} {next : List (Bucket c)} (h : Filled (bucket :: next)) :
    Filled next := by
  cases next with
  | nil => trivial
  | cons bucket' next => exact h.2

omit [DecidableEq Key] in
theorem filled_cons {bucket : Bucket c} {next : List (Bucket c)} (hfull : ∀ i, (bucket i).key ≠ c.sentinel)
    (hnext : Filled next) : Filled (bucket :: next) := by
  cases next with
  | nil => exact ⟨hfull _, fun _ i' _ _ => hfull i'⟩
  | cons bucket' next => exact ⟨hfull, hnext⟩

omit [DecidableEq Key] in
/-- A bucket with an empty slot is the last of its chain. -/
theorem Filled.next_eq_nil {bucket : Bucket c} {next : List (Bucket c)} (h : Filled (bucket :: next))
    {i : Fin c.bucketSize} (hi : (bucket i).key = c.sentinel) : next = [] := by
  cases next with
  | nil => rfl
  | cons bucket' next => exact absurd hi (h.1 i)

theorem inChain_iff_entry {key : Key} (hkey : key ≠ c.sentinel) (chain : List (Bucket c)) :
    InChain key chain ↔ ∃ j i, ∃ s, chainEntry chain j i = some s ∧ s.key = key := by
  constructor
  · intro ⟨bucket, hmem, i, hi⟩
    obtain ⟨j, hj⟩ := List.getElem?_of_mem hmem
    refine ⟨j, i, bucket i, ?_, hi⟩
    rw [chainEntry, hj]
    exact if_neg (by rwa [hi])
  · intro ⟨j, i, s, hentry, hs⟩
    unfold chainEntry at hentry
    split at hentry
    · exact absurd hentry (by simp)
    · next bucket hj =>
      split_ifs at hentry
      obtain rfl := Option.some.inj hentry
      exact ⟨bucket, List.mem_of_getElem? hj, i, hs⟩

omit [DecidableEq Key] in
/-- A scan of the slots of a bucket answers with the first slot that has an answer. -/
theorem findSome?_finRange {n : ℕ} {ρ : Type} {f : Fin n → Option ρ} {r : ρ}
    (h : (List.finRange n).findSome? f = some r) : ∃ i, f i = some r ∧ ∀ i' < i, f i' = none := by
  obtain ⟨before, i, after, hsplit, hi, hbefore⟩ := List.findSome?_eq_some_iff.mp h
  refine ⟨i, hi, fun i' hlt => hbefore i' ?_⟩
  have hmem : i' ∈ before ++ i :: after := hsplit ▸ List.mem_finRange i'
  have hsorted : (before ++ i :: after).Pairwise (· < ·) := hsplit ▸ List.pairwise_lt_finRange n
  rw [List.pairwise_append, List.pairwise_cons] at hsorted
  rcases List.mem_append.mp hmem with hmem | hmem
  · exact hmem
  · rcases List.mem_cons.mp hmem with rfl | hmem
    · exact absurd hlt (lt_irrefl _)
    · exact absurd hlt (not_lt.mpr (hsorted.2.1.1 i' hmem).le)

/-- What a scan of one bucket finds: an empty slot after slots with other keys, the key, or neither. -/
theorem insertBucket_cases (key : Key) (payload : Payload) (bucket : Bucket c) :
    (∃ i, (bucket i).key = c.sentinel ∧
      (∀ i' < i, (bucket i').key ≠ c.sentinel ∧ (bucket i').key ≠ key) ∧ insertBucket c key payload bucket =
        some (true, Function.update bucket i { key := key, payload := payload })) ∨
    ((∃ i, (bucket i).key = key) ∧ insertBucket c key payload bucket = some (false, bucket)) ∨
    ((∀ i, (bucket i).key ≠ c.sentinel ∧ (bucket i).key ≠ key) ∧ insertBucket c key payload bucket = none) := by
  cases hscan : insertBucket c key payload bucket with
  | some r =>
    obtain ⟨i, hi, hbefore⟩ := findSome?_finRange hscan
    split_ifs at hi with hempty hsame
    · refine Or.inl ⟨i, hempty, fun i' hlt => ?_, hi.symm⟩
      have hnone := hbefore i' hlt
      split_ifs at hnone with h1 h2
      exact ⟨h1, h2⟩
    · exact Or.inr (Or.inl ⟨⟨i, hsame⟩, hi.symm⟩)
  | none =>
    refine Or.inr (Or.inr ⟨fun i => ?_, rfl⟩)
    have hnone := List.findSome?_eq_none_iff.mp hscan i (List.mem_finRange i)
    split_ifs at hnone with h1 h2
    exact ⟨h1, h2⟩

theorem chainEntry_update (bucket : Bucket c) {i : Fin c.bucketSize} {key : Key} {payload : Payload}
    (hkey : key ≠ c.sentinel) (j' : ℕ) (i' : Fin c.bucketSize) :
    chainEntry [Function.update bucket i { key := key, payload := payload }] j' i' =
      if j' = 0 ∧ i' = i then some { key := key, payload := payload } else chainEntry [bucket] j' i' := by
  cases j' with
  | zero =>
    by_cases hi : i' = i
    · subst hi
      simp [hkey]
    · simp [hi]
  | succ j' => simp

/-- The bucket an insert opens holds the pair in its first slot, and nothing else. -/
theorem filled_newBucket {key : Key} (hkey : key ≠ c.sentinel) (payload : Payload) :
    Filled (insertChain c key payload []).2 := by
  refine ⟨by simp [newBucket, hkey], fun i i' hle hi => ?_⟩
  have hzero : i = ⟨0, c.bucketSize_pos⟩ := by
    by_contra hne
    exact hi (by simp [newBucket, hne])
  subst hzero
  rw [le_antisymm hle (Fin.mk_le_of_le_val (Nat.zero_le _))]
  exact hi

omit [DecidableEq Key] in
/-- Writing the first empty slot of the last bucket leaves the chain filled. -/
theorem filled_update {bucket : Bucket c} (hfilled : Filled [bucket]) {i : Fin c.bucketSize}
    (hempty : (bucket i).key = c.sentinel) (hbefore : ∀ i' < i, (bucket i').key ≠ c.sentinel) {key : Key}
    (hkey : key ≠ c.sentinel) (payload : Payload) :
    Filled [Function.update bucket i { key := key, payload := payload }] := by
  refine ⟨?_, fun i₁ i₂ hle h₁ => ?_⟩
  · rcases eq_or_ne i ⟨0, c.bucketSize_pos⟩ with rfl | hne
    · simp [hkey]
    · rw [Function.update_of_ne hne.symm]
      exact hfilled.1
  · rcases lt_trichotomy i₂ i with hlt | rfl | hgt
    · rw [Function.update_of_ne hlt.ne]
      exact hbefore i₂ hlt
    · simp [hkey]
    · rw [Function.update_of_ne (hgt.trans_le hle).ne'] at h₁
      exact absurd hempty (hfilled.fromFront i₁ i (hgt.le.trans hle) h₁)

omit [DecidableEq Key] in
/-- A key is not in the last bucket when the scan meets an empty slot first. -/
theorem not_inChain_of_empty {bucket : Bucket c} (hfilled : Filled [bucket]) {i : Fin c.bucketSize}
    (hempty : (bucket i).key = c.sentinel) {key : Key} (hkey : key ≠ c.sentinel)
    (hbefore : ∀ i' < i, (bucket i').key ≠ key) : ¬ InChain key [bucket] := by
  intro ⟨bucket', hmem, i', hi'⟩
  rw [List.mem_singleton] at hmem
  subst hmem
  rcases lt_or_ge i' i with hlt | hge
  · exact hbefore i' hlt hi'
  · exact hfilled.fromFront i' i hge (by rwa [hi']) hempty

/-- **An insert into a filled chain** refuses a key the chain holds, and adds any other to one slot. -/
theorem insertChain_cases {key : Key} (hkey : key ≠ c.sentinel) (payload : Payload) (chain : List (Bucket c))
    (hfilled : Filled chain) :
    (InChain key chain ∧ insertChain c key payload chain = (false, chain)) ∨
    (¬ InChain key chain ∧ (insertChain c key payload chain).1 = true ∧
      Filled (insertChain c key payload chain).2 ∧
      ∃ j i, chainEntry chain j i = none ∧ ∀ j' i', chainEntry (insertChain c key payload chain).2 j' i' =
        if j' = j ∧ i' = i then some { key := key, payload := payload } else chainEntry chain j' i') := by
  induction chain with
  | nil =>
    refine Or.inr ⟨fun h => ?_, rfl, filled_newBucket hkey payload, 0, ⟨0, c.bucketSize_pos⟩, rfl,
      fun j' i' => ?_⟩
    · obtain ⟨bucket, hmem, -⟩ := h
      exact absurd hmem (by simp)
    · rw [insertChain, newBucket, chainEntry_update _ hkey]
      cases j' <;> simp
  | cons bucket next ih =>
    rcases insertBucket_cases key payload bucket with ⟨i, hempty, hbefore, hscan⟩ | ⟨⟨i, hi⟩, hscan⟩ |
      ⟨hpassed, hscan⟩
    · -- an empty slot: the bucket is the last one, and what follows the slot is empty too
      obtain rfl := hfilled.next_eq_nil hempty
      have hins : insertChain c key payload [bucket] =
          (true, [Function.update bucket i { key := key, payload := payload }]) := by
        rw [insertChain, hscan]
      rw [hins]
      exact Or.inr ⟨not_inChain_of_empty hfilled hempty hkey fun i' hlt => (hbefore i' hlt).2, rfl,
        filled_update hfilled hempty (fun i' hlt => (hbefore i' hlt).1) hkey payload, 0, i, by simp [hempty],
        fun j' i' => chainEntry_update bucket hkey j' i'⟩
    · exact Or.inl ⟨⟨bucket, List.mem_cons_self, i, hi⟩, by rw [insertChain, hscan]⟩
    · have hins : insertChain c key payload (bucket :: next) =
          ((insertChain c key payload next).1, bucket :: (insertChain c key payload next).2) := by
        rw [insertChain, hscan]
      rw [hins]
      rcases ih hfilled.tail with ⟨⟨bucket', hmem, hin⟩, hnext⟩ | ⟨hnot, hr, hfilled', j, i, hnone, hentry⟩
      · exact Or.inl ⟨⟨bucket', List.mem_cons_of_mem _ hmem, hin⟩, by rw [hnext]⟩
      · refine Or.inr ⟨?_, hr, filled_cons (fun i => (hpassed i).1) hfilled', j + 1, i, ?_, fun j' i' => ?_⟩
        · intro ⟨bucket', hmem, i', hi'⟩
          rcases List.mem_cons.mp hmem with rfl | hmem
          · exact (hpassed i').2 hi'
          · exact hnot ⟨bucket', hmem, i', hi'⟩
        · rwa [chainEntry_succ]
        · cases j' with
          | zero => simp
          | succ j' => simp [hentry]

end

end HashingArchive.Hashtable.Chained
