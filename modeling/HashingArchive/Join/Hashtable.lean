import Mathlib

/-!
# The hash table of the non-partitioned join

Buckets of one tuple (`BUCKET_SIZE` is 1), chained by `next` pointers. The heads of the chains are one
array, zeroed by `allocate_hashtable`; the buckets behind them come out of overflow buffers, whose
memory is whatever `malloc` left there. `Linked` follows the pointers of a chain. A chain survives every
write to a head or to a new overflow bucket, since the overflow buckets on it were allocated before
(`Linked.frame`, `not_allocated_new`).
-/

namespace HashingArchive.Join

/-! ### Tuples -/

/-- The 8 bytes of a tuple: the key in the low half, the payload in the high half. -/
abbrev Tuple := BitVec 64

def Tuple.mk (key payload : BitVec 32) : Tuple := payload ++ key

def Tuple.key (t : Tuple) : BitVec 32 := t.setWidth 32

@[simp] theorem Tuple.key_mk (key payload : BitVec 32) : (Tuple.mk key payload).key = key := by
  rw [Tuple.mk, Tuple.key, BitVec.setWidth_append, dif_pos (by norm_num), BitVec.setWidth_eq]

/-! ### Memory -/

/-- The address of a bucket: a head, or a slot of an overflow buffer (the buffers counted in the order
they are allocated). -/
inductive Addr (n : ℕ) where
  | head (i : Fin n)
  | overflow (buffer slot : ℕ)
  deriving DecidableEq

/-- A bucket, `tuple` being `tuples[0]` and `next = none` a null pointer. The latch is free whenever
a function of one thread returns, so it is left out. -/
structure Bucket (n : ℕ) where
  count : ℕ
  next : Option (Addr n)
  tuple : Tuple

/-- The buckets, the number of the current overflow buffer and how many of its buckets are taken. -/
structure Memory (n : ℕ) where
  bucket : Addr n → Bucket n
  buffer : ℕ
  used : ℕ

variable {n : ℕ}

namespace Memory

/-- Overwrite one bucket. -/
def write (m : Memory n) (a : Addr n) (b : Bucket n) : Memory n :=
  { m with bucket := Function.update m.bucket a b }

@[simp] theorem write_self (m : Memory n) (a : Addr n) (b : Bucket n) : (m.write a b).bucket a = b :=
  Function.update_self _ _ _

theorem write_of_ne {m : Memory n} {a a' : Addr n} {b : Bucket n} (h : a' ≠ a) :
    (m.write a b).bucket a' = m.bucket a' :=
  Function.update_of_ne h _ _

end Memory

def overflowBufSize : ℕ := 1024

/-- `get_new_bucket`: the next bucket of the current buffer, or the first one of a new buffer. -/
def getNewBucket (m : Memory n) : Addr n × Memory n :=
  if m.used < overflowBufSize then (.overflow m.buffer m.used, { m with used := m.used + 1 })
  else (.overflow (m.buffer + 1) 0, { m with buffer := m.buffer + 1, used := 1 })

/-- The memory `allocate_hashtable` and `init_bucket_buffer` leave: zeroed heads, and in the overflow
buffers whatever was there. -/
def freshMemory (garbage : ℕ → ℕ → Bucket n) : Memory n where
  bucket
    | .head _ => { count := 0, next := none, tuple := 0 }
    | .overflow buffer slot => garbage buffer slot
  buffer := 0
  used := 0

/-! ### Allocation -/

/-- The overflow bucket has been handed out. -/
def Memory.Allocated (m : Memory n) : Addr n → Prop
  | .head _ => False
  | .overflow buffer slot => buffer < m.buffer ∨ (buffer = m.buffer ∧ slot < m.used)

@[simp] theorem Memory.not_allocated_head (m : Memory n) (i : Fin n) : ¬ m.Allocated (.head i) := id

/-- Allocation does not depend on what the buckets hold. -/
@[simp] theorem Memory.allocated_write (m : Memory n) (a : Addr n) (b : Bucket n) (a' : Addr n) :
    (m.write a b).Allocated a' ↔ m.Allocated a' := by
  cases a' <;> exact Iff.rfl

theorem getNewBucket_bucket (m : Memory n) : (getNewBucket m).2.bucket = m.bucket := by
  unfold getNewBucket
  split_ifs <;> rfl

theorem not_allocated_new (m : Memory n) : ¬ m.Allocated (getNewBucket m).1 := by
  unfold getNewBucket
  split_ifs with h <;> simp only [Memory.Allocated] <;> omega

theorem new_ne_head (m : Memory n) (i : Fin n) : (getNewBucket m).1 ≠ .head i := by
  unfold getNewBucket
  split_ifs <;> simp

theorem allocated_new (m : Memory n) : (getNewBucket m).2.Allocated (getNewBucket m).1 := by
  unfold getNewBucket
  split_ifs with h
  · exact Or.inr ⟨rfl, Nat.lt_succ_self _⟩
  · exact Or.inr ⟨rfl, Nat.one_pos⟩

theorem Memory.Allocated.mono {m : Memory n} {a : Addr n} (h : m.Allocated a) :
    (getNewBucket m).2.Allocated a := by
  cases a with
  | head i => exact h
  | overflow buffer slot =>
    unfold getNewBucket
    simp only [Memory.Allocated] at h ⊢
    split_ifs <;> dsimp only <;> omega

/-! ### Chains -/

/-- Following `next` from `p` visits the buckets `l` and ends. -/
def Linked (m : Memory n) : Option (Addr n) → List (Addr n) → Prop
  | p, [] => p = none
  | p, a :: l => p = some a ∧ Linked m (m.bucket a).next l

theorem Linked.eq_nil {m : Memory n} {l : List (Addr n)} (h : Linked m none l) : l = [] := by
  cases l with
  | nil => rfl
  | cons a l => exact absurd h.1 (by simp)

/-- A chain is left alone by what does not write to it. -/
theorem Linked.frame {m m' : Memory n} {p : Option (Addr n)} {l : List (Addr n)} (h : Linked m p l)
    (hsame : ∀ a ∈ l, m'.bucket a = m.bucket a) : Linked m' p l := by
  induction l generalizing p with
  | nil => exact h
  | cons a l ih =>
    refine ⟨h.1, ?_⟩
    rw [hsame a List.mem_cons_self]
    exact ih h.2 fun a' ha' => hsame a' (List.mem_cons_of_mem a ha')

/-- Two ways along the same pointers are one. -/
theorem Linked.unique {m : Memory n} {p : Option (Addr n)} {l l' : List (Addr n)} (h : Linked m p l)
    (h' : Linked m p l') : l = l' := by
  induction l generalizing p l' with
  | nil =>
    obtain rfl : p = none := h
    exact h'.eq_nil.symm
  | cons a l ih =>
    obtain ⟨rfl, hl⟩ := h
    cases l' with
    | nil => exact absurd h' (by simp [Linked])
    | cons a' l' =>
      obtain ⟨ha, hl'⟩ := h'
      obtain rfl := Option.some.inj ha
      rw [ih hl hl']

/-- The tuples in the buckets of a chain. -/
def tuplesOf (m : Memory n) (l : List (Addr n)) : List Tuple := l.map fun a => (m.bucket a).tuple

@[simp] theorem tuplesOf_nil (m : Memory n) : tuplesOf m [] = [] := rfl

@[simp] theorem tuplesOf_cons (m : Memory n) (a : Addr n) (l : List (Addr n)) :
    tuplesOf m (a :: l) = (m.bucket a).tuple :: tuplesOf m l := rfl

theorem tuplesOf_frame {m m' : Memory n} {l : List (Addr n)} (hsame : ∀ a ∈ l, m'.bucket a = m.bucket a) :
    tuplesOf m' l = tuplesOf m l :=
  List.map_congr_left fun a ha => by rw [hsame a ha]

/-! ### What a bucket holds -/

/-- The bucket with head `i` holds the tuples `ts`: its head is empty, still zeroed and without a
chain, or it is full and `ts` are its tuple and those in the buckets `l` behind it. -/
structure Holds (m : Memory n) (i : Fin n) (l : List (Addr n)) (ts : List Tuple) : Prop where
  linked : Linked m (m.bucket (.head i)).next l
  allocated : ∀ a ∈ l, m.Allocated a
  holds : ((m.bucket (.head i)).count = 0 ∧ l = [] ∧ (m.bucket (.head i)).tuple = 0 ∧ ts = []) ∨
    ((m.bucket (.head i)).count = 1 ∧ ts.Perm (tuplesOf m (.head i :: l)))

theorem holds_fresh (garbage : ℕ → ℕ → Bucket n) (i : Fin n) : Holds (freshMemory garbage) i [] [] where
  linked := rfl
  allocated a ha := absurd ha (by simp)
  holds := Or.inl ⟨rfl, rfl, rfl, rfl⟩

/-- The bucket keeps what it holds if its head and the overflow buckets in use stay as they are. -/
theorem Holds.frame {m m' : Memory n} {i : Fin n} {l : List (Addr n)} {ts : List Tuple} (h : Holds m i l ts)
    (hhead : m'.bucket (.head i) = m.bucket (.head i)) (hsame : ∀ a, m.Allocated a → m'.bucket a = m.bucket a)
    (halloc : ∀ a, m.Allocated a → m'.Allocated a) : Holds m' i l ts := by
  have hl : ∀ a ∈ l, m'.bucket a = m.bucket a := fun a ha => hsame a (h.allocated a ha)
  refine ⟨?_, fun a ha => halloc a (h.allocated a ha), ?_⟩
  · rw [hhead]
    exact h.linked.frame hl
  · rw [tuplesOf_cons, hhead, tuplesOf_frame hl]
    exact h.holds

/-- An empty head takes a tuple. -/
theorem Holds.fill {m m' : Memory n} {i : Fin n} {l : List (Addr n)} {ts : List Tuple} (h : Holds m i l ts)
    (hempty : (m.bucket (.head i)).count = 0) {t : Tuple}
    (hhead : m'.bucket (.head i) = { m.bucket (.head i) with count := 1, tuple := t }) :
    ts = [] ∧ Holds m' i [] [t] := by
  rcases h.holds with ⟨-, rfl, -, rfl⟩ | ⟨hcount, -⟩
  · refine ⟨rfl, ?_, fun a ha => absurd ha (by simp), Or.inr ⟨by rw [hhead], ?_⟩⟩
    · rw [hhead]
      exact h.linked
    · rw [tuplesOf_cons, hhead, tuplesOf_nil]
  · rw [hempty] at hcount
    exact absurd hcount (by simp)

/-- A new bucket is hooked in behind a full head. -/
theorem Holds.push {m m' : Memory n} {i : Fin n} {l : List (Addr n)} {ts : List Tuple} (h : Holds m i l ts)
    (hfull : (m.bucket (.head i)).count ≠ 0) {t : Tuple} {b : Addr n}
    (hhead : m'.bucket (.head i) = { m.bucket (.head i) with next := some b })
    (hnext : (m'.bucket b).next = (m.bucket (.head i)).next) (htuple : (m'.bucket b).tuple = t)
    (hsame : ∀ a, m.Allocated a → m'.bucket a = m.bucket a) (hb : m'.Allocated b)
    (halloc : ∀ a, m.Allocated a → m'.Allocated a) : Holds m' i (b :: l) (t :: ts) := by
  have hl : ∀ a ∈ l, m'.bucket a = m.bucket a := fun a ha => hsame a (h.allocated a ha)
  rcases h.holds with ⟨hcount, -⟩ | ⟨hcount, hperm⟩
  · exact absurd hcount hfull
  · refine ⟨⟨by rw [hhead], ?_⟩, fun a ha => ?_, Or.inr ⟨by rw [hhead]; exact hcount, ?_⟩⟩
    · rw [hnext]
      exact h.linked.frame hl
    · rcases List.mem_cons.mp ha with rfl | ha
      · exact hb
      · exact halloc a (h.allocated a ha)
    · rw [tuplesOf_cons, tuplesOf_cons, hhead, htuple, tuplesOf_frame hl]
      exact (hperm.cons t).trans (List.Perm.swap _ _ _)

end HashingArchive.Join
