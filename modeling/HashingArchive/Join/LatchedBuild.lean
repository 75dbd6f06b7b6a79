import HashingArchive.Library.Chains
import HashingArchive.Library.Threads
import HashingArchive.Join.Hash

/-!
# The build with several threads

All threads put their tuples into one table: `hash_build_rel_r_partition` takes the latch of the head of a bucket,
a byte that is exchanged with 1 until it was 0, and overflow buckets come from buffers that every thread has for
itself. A step of a thread is one access to the table (`critical` between the latch and its release). The learned
build takes its index elsewhere and does the same.

Between the latch and its release a bucket is not a chain that holds its tuples, but becomes one by what its thread
has still to write (`Inside`); all it writes to is the head, the buckets behind it and a new one (`region`), and the
regions of two buckets have nothing in common. So no thread changes what another one is about to read or write, and
every bucket holds the tuples put into it so far (`Inv.step`).
-/

namespace HashingArchive.Join.Parallel

open HashingArchive.Library

/-! ### Memory -/

/-- The address of a bucket: a head, or a slot of an overflow buffer of a thread (the buffers of a thread counted in
the order they are allocated). -/
inductive Addr (Thread : Type) (n : ℕ) where
  | head (i : Fin n)
  | overflow (t : Thread) (buffer slot : ℕ)
  deriving DecidableEq

variable {Thread : Type} {n : ℕ}

structure Bucket (Thread : Type) (n : ℕ) where
  count : ℕ
  next : Option (Addr Thread n)
  tuples : ℕ → Tuple

/-- The buffer a thread takes its overflow buckets from: its number, and how many of its buckets are taken. -/
structure BucketBuffer where
  number : ℕ
  count : ℕ

/-- The latches of the heads (those of overflow buckets are never used), the buckets, and the buffers. -/
structure Memory (Thread : Type) (n : ℕ) where
  latch : Fin n → Bool
  bucket : Addr Thread n → Bucket Thread n
  overflowbuf : Thread → BucketBuffer

namespace Memory

def setLatch (m : Memory Thread n) (i : Fin n) (latch : Bool) : Memory Thread n :=
  { m with latch := Function.update m.latch i latch }

@[simp] theorem setLatch_bucket (m : Memory Thread n) (i : Fin n) (latch : Bool) :
    (m.setLatch i latch).bucket = m.bucket := rfl

@[simp] theorem setLatch_overflowbuf (m : Memory Thread n) (i : Fin n) (latch : Bool) :
    (m.setLatch i latch).overflowbuf = m.overflowbuf := rfl

@[simp] theorem setLatch_self (m : Memory Thread n) (i : Fin n) (latch : Bool) :
    (m.setLatch i latch).latch i = latch := by
  simp [setLatch]

theorem setLatch_of_ne {m : Memory Thread n} {i j : Fin n} {latch : Bool} (h : j ≠ i) :
    (m.setLatch i latch).latch j = m.latch j := by
  simp [setLatch, h]

variable [DecidableEq Thread]

/-- A write to some fields of a bucket. -/
def modify (m : Memory Thread n) (a : Addr Thread n) (f : Bucket Thread n → Bucket Thread n) : Memory Thread n :=
  { m with bucket := Function.update m.bucket a (f (m.bucket a)) }

@[simp] theorem modify_self (m : Memory Thread n) (a : Addr Thread n) (f : Bucket Thread n → Bucket Thread n) :
    (m.modify a f).bucket a = f (m.bucket a) := by
  simp [modify]

theorem modify_of_ne {m : Memory Thread n} {a a' : Addr Thread n} (f : Bucket Thread n → Bucket Thread n)
    (h : a' ≠ a) : (m.modify a f).bucket a' = m.bucket a' := by
  simp [modify, h]

@[simp] theorem modify_latch (m : Memory Thread n) (a : Addr Thread n) (f : Bucket Thread n → Bucket Thread n) :
    (m.modify a f).latch = m.latch := rfl

@[simp] theorem modify_overflowbuf (m : Memory Thread n) (a : Addr Thread n)
    (f : Bucket Thread n → Bucket Thread n) : (m.modify a f).overflowbuf = m.overflowbuf := rfl

end Memory

/-! ### The code -/

variable [DecidableEq Thread]

def overflowBufSize : ℕ := 1024

/-- `get_new_bucket`, from the buffers of the thread. -/
def getNewBucket (t : Thread) (m : Memory Thread n) : Addr Thread n × Memory Thread n :=
  let buf := m.overflowbuf t
  if buf.count < overflowBufSize then
    (.overflow t buf.number buf.count,
      { m with overflowbuf := Function.update m.overflowbuf t { buf with count := buf.count + 1 } })
  else
    (.overflow t (buf.number + 1) 0,
      { m with overflowbuf := Function.update m.overflowbuf t { number := buf.number + 1, count := 1 } })

/-- Where a thread is in the loop, with the local variables it needs from there on. -/
inductive Pc (Thread : Type) (n : ℕ) where
  /-- `lock(&curr->latch)` -/
  | lock
  /-- `nxt = curr->next` -/
  | loadNext
  /-- `curr->count == BUCKET_SIZE` -/
  | loadCount (nxt : Option (Addr Thread n))
  /-- `nxt->count == BUCKET_SIZE` -/
  | loadNextCount (nxt : Addr Thread n)
  /-- `get_new_bucket(&b, overflowbuf)` -/
  | newBucket (nxt : Option (Addr Thread n))
  /-- `curr->next = b` -/
  | linkHead (nxt : Option (Addr Thread n)) (b : Addr Thread n)
  /-- `b->next = nxt` -/
  | linkNext (nxt : Option (Addr Thread n)) (b : Addr Thread n)
  /-- `b->count = 1; dest = b->tuples` -/
  | setCount (b : Addr Thread n)
  /-- `dest = a->tuples + a->count`, for `curr` or `nxt` -/
  | loadDest (a : Addr Thread n)
  /-- the load of `a->count ++` -/
  | loadInc (a : Addr Thread n) (dest : ℕ)
  /-- the store of `a->count ++` -/
  | storeInc (a : Addr Thread n) (dest count : ℕ)
  /-- `*dest = rel_r_partition->tuples[i]` -/
  | store (a : Addr Thread n) (dest : ℕ)
  /-- `unlock(&curr->latch)` -/
  | unlock
  deriving DecidableEq

/-- One access between `lock` and `unlock`, for a tuple of bucket `i`. -/
def critical (BUCKET_SIZE : ℕ) (t : Thread) (i : Fin n) (tuple : Tuple) (m : Memory Thread n) :
    Pc Thread n → Option (Pc Thread n × Memory Thread n)
  | .lock => none
  | .loadNext => some (.loadCount (m.bucket (.head i)).next, m)
  | .loadCount nxt =>
    if (m.bucket (.head i)).count = BUCKET_SIZE then
      match nxt with
      | none => some (.newBucket none, m)
      | some nxt => some (.loadNextCount nxt, m)
    else some (.loadDest (.head i), m)
  | .loadNextCount nxt =>
    if (m.bucket nxt).count = BUCKET_SIZE then some (.newBucket (some nxt), m) else some (.loadDest nxt, m)
  | .newBucket nxt =>
    let (b, m') := getNewBucket t m
    some (.linkHead nxt b, m')
  | .linkHead nxt b => some (.linkNext nxt b, m.modify (.head i) fun c => { c with next := some b })
  | .linkNext nxt b => some (.setCount b, m.modify b fun c => { c with next := nxt })
  | .setCount b => some (.store b 0, m.modify b fun c => { c with count := 1 })
  | .loadDest a => some (.loadInc a (m.bucket a).count, m)
  | .loadInc a dest => some (.storeInc a dest (m.bucket a).count, m)
  | .storeInc a dest count => some (.store a dest, m.modify a fun c => { c with count := count + 1 })
  | .store a dest => some (.unlock, m.modify a fun c => { c with tuples := Function.update c.tuples dest tuple })
  | .unlock => none

/-- A thread in `hash_build_rel_r_partition`: the tuples from the current one on, and where it is with that. -/
structure Build (Thread : Type) (n : ℕ) where
  rest : List Tuple
  pc : Pc Thread n
  deriving DecidableEq

/-- One step of `hash_build_rel_r_partition`, none when the loop is over. -/
def hashBuildRelRPartition (BUCKET_SIZE : ℕ) (idx : BitVec 32 → Fin n) (t : Thread) (b : Build Thread n)
    (m : Memory Thread n) : Option (Build Thread n × Memory Thread n) :=
  match b.rest with
  | [] => none
  | tuple :: rest =>
    match b.pc with
    | .lock =>
      -- the exchange leaves the latch at 1; the thread is in if it was 0
      some ({ b with pc := if m.latch (idx tuple.key) then .lock else .loadNext }, m.setLatch (idx tuple.key) true)
    | .unlock => some ({ rest := rest, pc := .lock }, m.setLatch (idx tuple.key) false)
    | pc => (critical BUCKET_SIZE t (idx tuple.key) tuple m pc).map fun r => ({ b with pc := r.1 }, r.2)

/-- Zeroed heads, and in the overflow buffers what `malloc` left there; a thread's first buffer is number 0. -/
def freshMemory (garbage : Thread → ℕ → ℕ → Bucket Thread n) : Memory Thread n where
  latch _ := false
  bucket
    | .head _ => { count := 0, next := none, tuples := fun _ => 0 }
    | .overflow t buffer slot => garbage t buffer slot
  overflowbuf _ := { number := 0, count := 0 }

/-! ### Allocation -/

/-- The overflow bucket has been handed out. -/
def Memory.Allocated (m : Memory Thread n) : Addr Thread n → Prop
  | .head _ => False
  | .overflow t buffer slot =>
    buffer < (m.overflowbuf t).number ∨ (buffer = (m.overflowbuf t).number ∧ slot < (m.overflowbuf t).count)

omit [DecidableEq Thread] in
theorem Memory.allocated_congr {m m' : Memory Thread n} (h : m'.overflowbuf = m.overflowbuf) (a : Addr Thread n) :
    m'.Allocated a ↔ m.Allocated a := by
  cases a <;> simp [Memory.Allocated, h]

/-- What `get_new_bucket` does: a bucket of the thread that had not been handed out, and no write to the table. -/
theorem getNewBucket_spec (t : Thread) (m : Memory Thread n) :
    ¬ m.Allocated (getNewBucket t m).1 ∧ (getNewBucket t m).2.Allocated (getNewBucket t m).1 ∧
      (∀ a, m.Allocated a → (getNewBucket t m).2.Allocated a) ∧ (∀ i, (getNewBucket t m).1 ≠ .head i) ∧
      (getNewBucket t m).2.bucket = m.bucket ∧ (getNewBucket t m).2.latch = m.latch := by
  have hmono : ∀ buf : BucketBuffer, ((m.overflowbuf t).number < buf.number ∨
      ((m.overflowbuf t).number = buf.number ∧ (m.overflowbuf t).count ≤ buf.count)) → ∀ a, m.Allocated a →
      ({ m with overflowbuf := Function.update m.overflowbuf t buf } : Memory Thread n).Allocated a := by
    intro buf hbuf a ha
    cases a with
    | head i => exact ha
    | overflow u buffer slot =>
      simp only [Memory.Allocated] at ha ⊢
      by_cases hu : u = t
      · subst hu
        rw [Function.update_self]
        omega
      · rwa [Function.update_of_ne hu]
  unfold getNewBucket
  dsimp only
  split_ifs with hroom
  · refine ⟨?_, ?_, hmono _ (by simp), by simp, rfl, rfl⟩
    · simp [Memory.Allocated]
    · simp [Memory.Allocated]
  · refine ⟨?_, ?_, hmono _ (by simp), by simp, rfl, rfl⟩
    · simp [Memory.Allocated]
    · simp [Memory.Allocated]

/-! ### A bucket that nobody is at -/

section
omit [DecidableEq Thread]

/-- The tuples in a bucket. -/
def Bucket.held (b : Bucket Thread n) : List Tuple := (List.range b.count).map b.tuples

/-- The tuples in the buckets of a chain. -/
def heldBy (m : Memory Thread n) (l : List (Addr Thread n)) : List Tuple := l.flatMap fun a => (m.bucket a).held

@[simp] theorem heldBy_nil (m : Memory Thread n) : heldBy m [] = [] := rfl

@[simp] theorem heldBy_cons (m : Memory Thread n) (a : Addr Thread n) (l : List (Addr Thread n)) :
    heldBy m (a :: l) = (m.bucket a).held ++ heldBy m l := List.flatMap_cons

theorem heldBy_frame {m m' : Memory Thread n} {l : List (Addr Thread n)}
    (hsame : ∀ a ∈ l, m'.bucket a = m.bucket a) : heldBy m' l = heldBy m l :=
  List.flatMap_congr fun a ha => by rw [hsame a ha]

/-- A bucket takes one more tuple. -/
theorem held_add (b : Bucket Thread n) (next : Option (Addr Thread n)) (tuple : Tuple) :
    ({ count := b.count + 1, next := next, tuples := Function.update b.tuples b.count tuple } : Bucket Thread n).held =
      b.held ++ [tuple] := by
  unfold Bucket.held
  have hrest : (List.range b.count).map (Function.update b.tuples b.count tuple) =
      (List.range b.count).map b.tuples := by
    apply List.map_congr_left
    intro j hj
    have hlt := List.mem_range.mp hj
    rw [Function.update_of_ne (by omega)]
  simp [List.range_succ, hrest]

/-- Bucket `i` is its head and the overflow buckets `l` behind it, and holds the tuples `ts`. There are overflow buckets
only behind a full head, and only the first one of them may have room. -/
structure Idle (BUCKET_SIZE : ℕ) (m : Memory Thread n) (i : Fin n) (l : List (Addr Thread n)) (ts : List Tuple) :
    Prop where
  walk : Walk (fun a => (m.bucket a).next) (m.bucket (.head i)).next l
  nodup : (Addr.head i :: l).Nodup
  head_le : (m.bucket (.head i)).count ≤ BUCKET_SIZE
  head_full : l ≠ [] → (m.bucket (.head i)).count = BUCKET_SIZE
  first : ∀ a, l.head? = some a → 0 < (m.bucket a).count ∧ (m.bucket a).count ≤ BUCKET_SIZE
  full : ∀ a ∈ l.tail, (m.bucket a).count = BUCKET_SIZE
  /-- An empty head is still zeroed. -/
  empty : (m.bucket (.head i)).count = 0 → (m.bucket (.head i)).tuples 0 = 0
  holds : ts.Perm (heldBy m (.head i :: l))

variable {B : ℕ} {m m' : Memory Thread n} {i : Fin n} {l : List (Addr Thread n)} {ts : List Tuple}

theorem idle_fresh (garbage : Thread → ℕ → ℕ → Bucket Thread n) (i : Fin n) : Idle B (freshMemory garbage) i [] [] where
  walk := rfl
  nodup := by simp
  head_le := Nat.zero_le _
  head_full h := absurd rfl h
  first a ha := absurd ha (by simp)
  full a ha := absurd ha (by simp)
  empty _ := rfl
  holds := List.Perm.refl _

theorem Idle.frame (h : Idle B m i l ts) (hsame : ∀ a ∈ Addr.head i :: l, m'.bucket a = m.bucket a) :
    Idle B m' i l ts := by
  have hhead := hsame (.head i) List.mem_cons_self
  have hl : ∀ a ∈ l, m'.bucket a = m.bucket a := fun a ha => hsame a (List.mem_cons_of_mem _ ha)
  refine ⟨?_, h.nodup, by rw [hhead]; exact h.head_le, fun hne => by rw [hhead]; exact h.head_full hne, ?_, ?_,
    by rw [hhead]; exact h.empty, ?_⟩
  · rw [hhead]
    exact h.walk.frame fun a ha => by rw [hl a ha]
  · intro a ha
    rw [hl a (List.mem_of_mem_head? ha)]
    exact h.first a ha
  · intro a ha
    rw [hl a (List.mem_of_mem_tail ha)]
    exact h.full a ha
  · rw [heldBy_frame hsame]
    exact h.holds

/-- There is room in `a`, which is the head or the first bucket behind it. -/
def Room (B : ℕ) (m : Memory Thread n) (i : Fin n) (l : List (Addr Thread n)) (a : Addr Thread n) : Prop :=
  (m.bucket a).count < B ∧ (a = .head i ∨ l.head? = some a)

theorem Room.mem {a : Addr Thread n} (h : Room B m i l a) : a ∈ Addr.head i :: l := by
  rcases h.2 with rfl | ha
  · exact List.mem_cons_self
  · exact List.mem_cons_of_mem _ (List.mem_of_mem_head? ha)

end

/-! ### What is still to be written -/

section
variable {B : ℕ} {m m' : Memory Thread n} {i : Fin n} {region : List (Addr Thread n)} {ts : List Tuple} {tuple : Tuple}

/-- `*dest = tuple` -/
def storeTuple (tuple : Tuple) (a : Addr Thread n) (dest : ℕ) (m : Memory Thread n) : Memory Thread n :=
  m.modify a fun c => { c with tuples := Function.update c.tuples dest tuple }

/-- `b->count = 1; dest = b->tuples; *dest = tuple` -/
def storeFirst (tuple : Tuple) (b : Addr Thread n) (m : Memory Thread n) : Memory Thread n :=
  storeTuple tuple b 0 (m.modify b fun c => { c with count := 1 })

/-- The table after the writes that are left to a thread before it releases the latch, once it knows where they go. -/
def finish (i : Fin n) (tuple : Tuple) (m : Memory Thread n) : Pc Thread n → Memory Thread n
  | .store a dest => storeTuple tuple a dest m
  | .storeInc a dest count => storeTuple tuple a dest (m.modify a fun c => { c with count := count + 1 })
  | .setCount b => storeFirst tuple b m
  | .linkNext nxt b => storeFirst tuple b (m.modify b fun c => { c with next := nxt })
  | .linkHead nxt b =>
    storeFirst tuple b
      ((m.modify (.head i) fun c => { c with next := some b }).modify b fun c => { c with next := nxt })
  | _ => m

/-- A bucket with room takes the tuple. -/
theorem Idle.fill {a : Addr Thread n} (h : Idle B m i region ts) (hroom : Room B m i region a) :
    Idle B (finish i tuple m (.storeInc a (m.bucket a).count (m.bucket a).count)) i region (tuple :: ts) := by
  have hself : (finish i tuple m (.storeInc a (m.bucket a).count (m.bucket a).count)).bucket a =
      { count := (m.bucket a).count + 1, next := (m.bucket a).next,
        tuples := Function.update (m.bucket a).tuples (m.bucket a).count tuple } := by
    simp [finish, storeTuple]
  have hother : ∀ a', a' ≠ a → (finish i tuple m (.storeInc a (m.bucket a).count (m.bucket a).count)).bucket a' =
      m.bucket a' := fun a' ha' => by
    simp [finish, storeTuple, Memory.modify_of_ne _ ha']
  generalize finish i tuple m (.storeInc a (m.bucket a).count (m.bucket a).count) = m' at hself hother
  have hnext : ∀ a', (m'.bucket a').next = (m.bucket a').next := by
    intro a'
    by_cases ha' : a' = a
    · rw [ha', hself]
    · rw [hother a' ha']
  have hadded : (m'.bucket a).held = (m.bucket a).held ++ [tuple] := by
    rw [hself]
    exact held_add _ _ _
  have hwalk : Walk (fun a => (m'.bucket a).next) (m'.bucket (.head i)).next region := by
    rw [hnext]
    exact h.walk.frame fun a' _ => hnext a'
  have hnodup := h.nodup
  rcases hroom with ⟨hlt, rfl | ha⟩
  · -- the head has room, so there is nothing behind it
    obtain rfl : region = [] := by
      by_contra hne
      have hfull := h.head_full hne
      omega
    refine ⟨hwalk, hnodup, ?_, fun hne => absurd rfl hne, by simp, by simp, by simp [hself], ?_⟩
    · rw [hself]
      exact hlt
    · have hperm := h.holds
      simp only [heldBy_cons, heldBy_nil, List.append_nil] at hperm ⊢
      rw [hadded]
      exact (hperm.cons tuple).trans (List.perm_append_singleton _ _).symm
  · obtain ⟨rest, rfl⟩ : ∃ rest, region = a :: rest := by
      cases region with
      | nil => exact absurd ha (by simp)
      | cons b rest => exact ⟨rest, by rw [Option.some.inj ha]⟩
    have hhead : m'.bucket (.head i) = m.bucket (.head i) := hother _ (by rintro rfl; simp at hnodup)
    have hrest : ∀ a' ∈ rest, m'.bucket a' = m.bucket a' := fun a' ha' => hother _ (by rintro rfl; simp_all)
    refine ⟨hwalk, hnodup, by rw [hhead]; exact h.head_le, fun hne => by rw [hhead]; exact h.head_full hne, ?_, ?_,
      by rw [hhead]; exact h.empty, ?_⟩
    · intro a' ha'
      obtain rfl := Option.some.inj ha'
      rw [hself]
      exact ⟨Nat.succ_pos _, hlt⟩
    · intro a' ha'
      rw [hrest a' ha']
      exact h.full a' ha'
    · have hperm := h.holds
      simp only [heldBy_cons] at hperm ⊢
      rw [hhead, hadded, heldBy_frame hrest, List.append_assoc, List.singleton_append]
      refine (hperm.cons tuple).trans ?_
      exact ((List.perm_middle (a := tuple)).symm.trans (List.Perm.append_left _ List.perm_middle.symm))

/-- Where all buckets are full, a new one goes behind the head. -/
theorem Idle.push {nxt : Option (Addr Thread n)} {b : Addr Thread n} (h : Idle B m i region ts) (hB : 0 < B)
    (hnxt : (m.bucket (.head i)).next = nxt) (hfull : ∀ a ∈ Addr.head i :: region, (m.bucket a).count = B)
    (hb : b ∉ Addr.head i :: region) : Idle B (finish i tuple m (.linkHead nxt b)) i (b :: region) (tuple :: ts) := by
  have hbhead : b ≠ .head i := fun heq => hb (heq ▸ List.mem_cons_self)
  have hself : (finish i tuple m (.linkHead nxt b)).bucket b =
      { count := 1, next := nxt, tuples := Function.update (m.bucket b).tuples 0 tuple } := by
    simp [finish, storeFirst, storeTuple, Memory.modify_of_ne _ hbhead]
  have hhead : (finish i tuple m (.linkHead nxt b)).bucket (.head i) = { m.bucket (.head i) with next := some b } := by
    simp [finish, storeFirst, storeTuple, Memory.modify_of_ne _ hbhead.symm]
  have hrest : ∀ a ∈ region, (finish i tuple m (.linkHead nxt b)).bucket a = m.bucket a := by
    intro a ha
    have hab : a ≠ b := by
      rintro rfl
      exact hb (List.mem_cons_of_mem _ ha)
    have hah : a ≠ .head i := by
      rintro rfl
      exact (List.nodup_cons.mp h.nodup).1 ha
    simp [finish, storeFirst, storeTuple, Memory.modify_of_ne _ hab, Memory.modify_of_ne _ hah]
  generalize finish i tuple m (.linkHead nxt b) = m' at hself hhead hrest
  have hheadfull : (m'.bucket (.head i)).count = B := by
    rw [hhead]
    exact hfull _ List.mem_cons_self
  refine ⟨⟨by rw [hhead], ?_⟩, ?_, hheadfull.le, fun _ => hheadfull, ?_, ?_,
    fun hzero => by omega, ?_⟩
  · dsimp only
    rw [hself, ← hnxt]
    exact h.walk.frame fun a ha => by rw [hrest a ha]
  · have hnodup := h.nodup
    simp only [List.nodup_cons, List.mem_cons, not_or] at hnodup hb ⊢
    exact ⟨⟨hbhead.symm, hnodup.1⟩, hb.2, hnodup.2⟩
  · intro a ha
    obtain rfl := Option.some.inj ha
    rw [hself]
    exact ⟨Nat.one_pos, hB⟩
  · intro a ha
    rw [hrest a ha]
    exact hfull a (List.mem_cons_of_mem _ ha)
  · have hheld : (m'.bucket b).held = [tuple] := by
      rw [hself]
      simp [Bucket.held]
    have hheadheld : (m'.bucket (.head i)).held = (m.bucket (.head i)).held := by
      rw [hhead]
      rfl
    have hperm := h.holds
    simp only [heldBy_cons] at hperm ⊢
    rw [hheld, hheadheld, heldBy_frame hrest, List.singleton_append]
    exact (hperm.cons tuple).trans List.perm_middle.symm

/-! ### A bucket while a thread is at it -/

/-- The bucket the next step of a thread in the critical section reads or writes. -/
def Pc.accesses (i : Fin n) : Pc Thread n → Option (Addr Thread n)
  | .loadNext | .loadCount _ | .linkHead _ _ => some (.head i)
  | .loadNextCount a | .linkNext _ a | .setCount a | .loadDest a | .loadInc a _ | .storeInc a _ _ | .store a _ => some a
  | .lock | .newBucket _ | .unlock => none

/-- What holds of bucket `i`, of the overflow buckets that belong to it and of the tuples in it while a thread is at
`pc` with one more tuple. -/
def Inside (B : ℕ) (m : Memory Thread n) (i : Fin n) (tuple : Tuple) (region : List (Addr Thread n)) (ts : List Tuple) :
    Pc Thread n → Prop
  | .lock => False
  | .loadNext => Idle B m i region ts
  | .loadCount nxt => Idle B m i region ts ∧ (m.bucket (.head i)).next = nxt
  | .loadNextCount nxt =>
    Idle B m i region ts ∧ (m.bucket (.head i)).next = some nxt ∧ (m.bucket (.head i)).count = B
  | .newBucket nxt =>
    Idle B m i region ts ∧ (m.bucket (.head i)).next = nxt ∧ ∀ a ∈ Addr.head i :: region, (m.bucket a).count = B
  | .loadDest a => Idle B m i region ts ∧ Room B m i region a
  | .loadInc a dest => Idle B m i region ts ∧ Room B m i region a ∧ dest = (m.bucket a).count
  | .storeInc a dest count =>
    a ∈ Addr.head i :: region ∧ dest < B ∧ Idle B (finish i tuple m (.storeInc a dest count)) i region (tuple :: ts)
  | .store a dest =>
    a ∈ Addr.head i :: region ∧ dest < B ∧ Idle B (finish i tuple m (.store a dest)) i region (tuple :: ts)
  | .linkHead nxt b => b ∈ region ∧ Idle B (finish i tuple m (.linkHead nxt b)) i region (tuple :: ts)
  | .linkNext nxt b => b ∈ region ∧ Idle B (finish i tuple m (.linkNext nxt b)) i region (tuple :: ts)
  | .setCount b => b ∈ region ∧ Idle B (finish i tuple m (.setCount b)) i region (tuple :: ts)
  | .unlock => Idle B m i region (tuple :: ts)

/-- A thread at a bucket reads and writes buckets of its region only. -/
theorem Inside.accesses_mem {pc : Pc Thread n} {a : Addr Thread n} (h : Inside B m i tuple region ts pc)
    (ha : pc.accesses i = some a) : a ∈ Addr.head i :: region := by
  cases pc with
  | lock => exact h.elim
  | loadNext | loadCount _ | linkHead _ _ =>
    obtain rfl := Option.some.inj ha
    exact List.mem_cons_self
  | loadNextCount nxt =>
    obtain rfl := Option.some.inj ha
    exact List.mem_cons_of_mem _ (List.mem_of_mem_head? (h.1.walk.head?.trans h.2.1))
  | newBucket _ | unlock => exact absurd ha (by simp [Pc.accesses])
  | loadDest a | loadInc a _ =>
    obtain rfl := Option.some.inj ha
    first | exact h.2.mem | exact h.2.1.mem
  | storeInc a _ _ | store a _ =>
    obtain rfl := Option.some.inj ha
    exact h.1
  | linkNext _ b | setCount b =>
    obtain rfl := Option.some.inj ha
    exact List.mem_cons_of_mem _ h.1

/-- A write to a bucket of a region does the same wherever the region is the same. -/
theorem Memory.modify_agree {F : List (Addr Thread n)} (hsame : ∀ x ∈ F, m'.bucket x = m.bucket x) {a : Addr Thread n}
    (ha : a ∈ F) (f : Bucket Thread n → Bucket Thread n) :
    ∀ x ∈ F, (m'.modify a f).bucket x = (m.modify a f).bucket x := by
  intro x hx
  by_cases hxa : x = a
  · subst hxa
    simp [hsame x ha]
  · simp [Memory.modify_of_ne f hxa, hsame x hx]

theorem storeTuple_agree {F : List (Addr Thread n)} (hsame : ∀ x ∈ F, m'.bucket x = m.bucket x) {a : Addr Thread n}
    (ha : a ∈ F) (dest : ℕ) : ∀ x ∈ F, (storeTuple tuple a dest m').bucket x = (storeTuple tuple a dest m).bucket x :=
  Memory.modify_agree hsame ha _

theorem storeFirst_agree {F : List (Addr Thread n)} (hsame : ∀ x ∈ F, m'.bucket x = m.bucket x) {b : Addr Thread n}
    (hb : b ∈ F) : ∀ x ∈ F, (storeFirst tuple b m').bucket x = (storeFirst tuple b m).bucket x :=
  storeTuple_agree (Memory.modify_agree hsame hb _) hb 0

/-- What holds of a bucket holds as long as nobody else writes to its region. -/
theorem Inside.frame {pc : Pc Thread n} (h : Inside B m i tuple region ts pc)
    (hsame : ∀ a ∈ Addr.head i :: region, m'.bucket a = m.bucket a) : Inside B m' i tuple region ts pc := by
  have hhead : m'.bucket (.head i) = m.bucket (.head i) := hsame _ List.mem_cons_self
  have hroom : ∀ {a}, Room B m i region a → Room B m' i region a := fun {a} h => by
    unfold Room at *
    rwa [hsame a (Room.mem h)]
  cases pc with
  | lock => exact h.elim
  | loadNext | unlock => exact Idle.frame h hsame
  | loadCount nxt => exact ⟨h.1.frame hsame, by rw [hhead]; exact h.2⟩
  | loadNextCount nxt => exact ⟨h.1.frame hsame, by rw [hhead]; exact h.2⟩
  | newBucket nxt =>
    exact ⟨h.1.frame hsame, by rw [hhead]; exact h.2.1, fun a ha => by rw [hsame a ha]; exact h.2.2 a ha⟩
  | loadDest a => exact ⟨h.1.frame hsame, hroom h.2⟩
  | loadInc a dest =>
    refine ⟨h.1.frame hsame, hroom h.2.1, ?_⟩
    rw [hsame a h.2.1.mem]
    exact h.2.2
  | storeInc a dest count =>
    exact ⟨h.1, h.2.1, h.2.2.frame (storeTuple_agree (Memory.modify_agree hsame h.1 _) h.1 dest)⟩
  | store a dest => exact ⟨h.1, h.2.1, h.2.2.frame (storeTuple_agree hsame h.1 dest)⟩
  | linkHead nxt b =>
    have hb := List.mem_cons_of_mem (Addr.head i) h.1
    exact ⟨h.1, h.2.frame (storeFirst_agree
      (Memory.modify_agree (Memory.modify_agree hsame List.mem_cons_self _) hb _) hb)⟩
  | linkNext nxt b =>
    have hb := List.mem_cons_of_mem (Addr.head i) h.1
    exact ⟨h.1, h.2.frame (storeFirst_agree (Memory.modify_agree hsame hb _) hb)⟩
  | setCount b => exact ⟨h.1, h.2.frame (storeFirst_agree hsame (List.mem_cons_of_mem _ h.1))⟩

/-- What a step in the critical section does to the table: it writes to the region of its bucket, and hands out at
most a bucket that had not been handed out. -/
structure Owns (m m' : Memory Thread n) (i : Fin n) (region region' : List (Addr Thread n)) : Prop where
  new : ∀ a ∈ region', a ∈ region ∨ ¬ m.Allocated a
  allocated : ∀ a ∈ region', m'.Allocated a
  mono : ∀ a, m.Allocated a → m'.Allocated a
  same : ∀ a, a ∉ Addr.head i :: region → m'.bucket a = m.bucket a
  latch : m'.latch = m.latch

omit [DecidableEq Thread] in
theorem Owns.refl (halloc : ∀ a ∈ region, m.Allocated a) : Owns m m i region region :=
  ⟨fun _ => Or.inl, halloc, fun _ => id, fun _ _ => rfl, rfl⟩

theorem Owns.modify (halloc : ∀ a ∈ region, m.Allocated a) {a : Addr Thread n} (ha : a ∈ Addr.head i :: region)
    (f : Bucket Thread n → Bucket Thread n) : Owns m (m.modify a f) i region region := by
  have hsame : ∀ a', (m.modify a f).Allocated a' ↔ m.Allocated a' := Memory.allocated_congr (m.modify_overflowbuf a f)
  refine ⟨fun _ => Or.inl, fun a' ha' => (hsame a').mpr (halloc a' ha'), fun a' => (hsame a').mpr, fun a' ha' => ?_,
    rfl⟩
  refine Memory.modify_of_ne f ?_
  rintro rfl
  exact ha' ha

/-- The step lemma of the critical section. -/
theorem Inside.step {t : Thread} {pc pc' : Pc Thread n} (hB : 0 < B) (h : Inside B m i tuple region ts pc)
    (halloc : ∀ a ∈ region, m.Allocated a) (hstep : critical B t i tuple m pc = some (pc', m')) :
    pc' ≠ .lock ∧ ∃ region', Inside B m' i tuple region' ts pc' ∧ Owns m m' i region region' := by
  cases pc with
  | lock => exact h.elim
  | loadNext =>
    obtain ⟨rfl, rfl⟩ := Prod.mk.inj (Option.some.inj hstep)
    exact ⟨nofun, region, ⟨h, rfl⟩, .refl halloc⟩
  | loadCount nxt =>
    obtain ⟨hidle, hnxt⟩ := h
    simp only [critical] at hstep
    split_ifs at hstep with hfull
    · cases nxt with
      | none =>
        obtain ⟨rfl, rfl⟩ := Prod.mk.inj (Option.some.inj hstep)
        -- no bucket behind the head, so nothing else is to be full
        obtain rfl : region = [] := List.head?_eq_none_iff.mp (hidle.walk.head?.trans hnxt)
        exact ⟨nofun, [], ⟨hidle, hnxt, by simpa using hfull⟩, .refl halloc⟩
      | some nxt =>
        obtain ⟨rfl, rfl⟩ := Prod.mk.inj (Option.some.inj hstep)
        exact ⟨nofun, region, ⟨hidle, hnxt, hfull⟩, .refl halloc⟩
    · obtain ⟨rfl, rfl⟩ := Prod.mk.inj (Option.some.inj hstep)
      exact ⟨nofun, region, ⟨hidle, lt_of_le_of_ne hidle.head_le hfull, .inl rfl⟩, .refl halloc⟩
  | loadNextCount nxt =>
    obtain ⟨hidle, hnxt, hfull⟩ := h
    have hfirst : region.head? = some nxt := hidle.walk.head?.trans hnxt
    simp only [critical] at hstep
    split_ifs at hstep with hnfull
    · obtain ⟨rfl, rfl⟩ := Prod.mk.inj (Option.some.inj hstep)
      refine ⟨nofun, region, ⟨hidle, hnxt, fun a ha => ?_⟩, .refl halloc⟩
      rcases List.mem_cons.mp ha with rfl | ha
      · exact hfull
      · obtain ⟨rest, rfl⟩ : ∃ rest, region = nxt :: rest := List.head?_eq_some_iff.mp hfirst
        rcases List.mem_cons.mp ha with rfl | ha
        · exact hnfull
        · exact hidle.full a ha
    · obtain ⟨rfl, rfl⟩ := Prod.mk.inj (Option.some.inj hstep)
      exact ⟨nofun, region, ⟨hidle, lt_of_le_of_ne (hidle.first nxt hfirst).2 hnfull, .inr hfirst⟩, .refl halloc⟩
  | newBucket nxt =>
    obtain ⟨hidle, hnxt, hfull⟩ := h
    obtain ⟨hnew, hallocated, hmono, hhead, hbucket, hlatch⟩ := getNewBucket_spec t m
    simp only [critical] at hstep
    generalize getNewBucket t m = r at hnew hallocated hmono hhead hbucket hlatch hstep
    obtain ⟨b, m₁⟩ := r
    obtain ⟨rfl, rfl⟩ := Prod.mk.inj (Option.some.inj hstep)
    have hb : b ∉ Addr.head i :: region := by
      intro hmem
      rcases List.mem_cons.mp hmem with rfl | hmem
      · exact hhead i rfl
      · exact hnew (halloc b hmem)
    have hidle' : Idle B m₁ i region ts := hidle.frame fun a _ => by rw [hbucket]
    refine ⟨nofun, b :: region, ⟨List.mem_cons_self, hidle'.push hB ?_ ?_ hb⟩, ?_, ?_, hmono, ?_, hlatch⟩
    · rw [hbucket]
      exact hnxt
    · rw [hbucket]
      exact hfull
    · intro a ha
      rcases List.mem_cons.mp ha with rfl | ha
      · exact .inr hnew
      · exact .inl ha
    · intro a ha
      rcases List.mem_cons.mp ha with rfl | ha
      · exact hallocated
      · exact hmono a (halloc a ha)
    · intro a _
      rw [hbucket]
  | linkHead nxt b =>
    obtain ⟨rfl, rfl⟩ := Prod.mk.inj (Option.some.inj hstep)
    exact ⟨nofun, region, h, .modify halloc List.mem_cons_self _⟩
  | linkNext nxt b =>
    obtain ⟨rfl, rfl⟩ := Prod.mk.inj (Option.some.inj hstep)
    exact ⟨nofun, region, h, .modify halloc (List.mem_cons_of_mem _ h.1) _⟩
  | setCount b =>
    obtain ⟨rfl, rfl⟩ := Prod.mk.inj (Option.some.inj hstep)
    have hb := List.mem_cons_of_mem (Addr.head i) h.1
    exact ⟨nofun, region, ⟨hb, hB, h.2⟩, .modify halloc hb _⟩
  | loadDest a =>
    obtain ⟨rfl, rfl⟩ := Prod.mk.inj (Option.some.inj hstep)
    exact ⟨nofun, region, ⟨h.1, h.2, rfl⟩, .refl halloc⟩
  | loadInc a dest =>
    obtain ⟨hidle, hroom, rfl⟩ := h
    obtain ⟨rfl, rfl⟩ := Prod.mk.inj (Option.some.inj hstep)
    exact ⟨nofun, region, ⟨hroom.mem, hroom.1, hidle.fill hroom⟩, .refl halloc⟩
  | storeInc a dest count =>
    obtain ⟨rfl, rfl⟩ := Prod.mk.inj (Option.some.inj hstep)
    exact ⟨nofun, region, h, .modify halloc h.1 _⟩
  | store a dest =>
    obtain ⟨rfl, rfl⟩ := Prod.mk.inj (Option.some.inj hstep)
    exact ⟨nofun, region, h.2.2, .modify halloc h.1 _⟩
  | unlock => exact absurd hstep (by simp [critical])

end

/-! ### All threads -/

section
variable {B : ℕ} {idx : BitVec 32 → Fin n} {m m' : Memory Thread n} {builds : Thread → Build Thread n} {t : Thread}
  {tuple : Tuple} {rest : List Tuple}

/-- The thread holds the latch of bucket `i`. -/
def Build.At (idx : BitVec 32 → Fin n) (b : Build Thread n) (i : Fin n) : Prop :=
  b.pc ≠ .lock ∧ ∃ tuple rest, b.rest = tuple :: rest ∧ idx tuple.key = i

/-- What belongs to the buckets: overflow buckets, and the tuples put into them. -/
structure Owned (Thread : Type) (n : ℕ) where
  region : Fin n → List (Addr Thread n)
  held : Fin n → List Tuple

variable [Fintype Thread]

/-- The invariant of the build: every bucket whose latch is free is a chain with its tuples, every other one is with
the one thread that holds its latch, and every tuple of a thread's part is still to come or in its bucket. -/
structure Inv (B : ℕ) (idx : BitVec 32 → Fin n) (relR : Thread → List Tuple) (g : Owned Thread n)
    (builds : Thread → Build Thread n) (m : Memory Thread n) : Prop where
  allocated : ∀ i, ∀ a ∈ g.region i, m.Allocated a
  disjoint : ∀ i j a, a ∈ g.region i → a ∈ g.region j → i = j
  idle : ∀ i, m.latch i = false → Idle B m i (g.region i) (g.held i)
  inside : ∀ t tuple rest, (builds t).rest = tuple :: rest → (builds t).pc ≠ .lock →
    m.latch (idx tuple.key) = true ∧
      Inside B m (idx tuple.key) tuple (g.region (idx tuple.key)) (g.held (idx tuple.key)) (builds t).pc
  taken : ∀ i, m.latch i = true → ∃ t, (builds t).At idx i
  one : ∀ t u i, (builds t).At idx i → (builds u).At idx i → t = u
  home : ∀ i, ∀ x ∈ g.held i, idx x.key = i
  account : ∀ x : Tuple, (g.held (idx x.key)).count x + ∑ t, (builds t).rest.count x = ∑ t, (relR t).count x

variable {relR : Thread → List Tuple} {g : Owned Thread n}

theorem inv_fresh (garbage : Thread → ℕ → ℕ → Bucket Thread n) :
    Inv B idx relR { region := fun _ => [], held := fun _ => [] } (fun t => { rest := relR t, pc := .lock })
      (freshMemory garbage) where
  allocated i a ha := absurd ha (by simp)
  disjoint i j a ha := absurd ha (by simp)
  idle i _ := idle_fresh garbage i
  inside t tuple rest _ hpc := absurd rfl hpc
  taken i h := absurd h (by simp [freshMemory])
  one t u i ht := absurd rfl ht.1
  home i x hx := absurd hx (by simp)
  account x := by simp

/-- What is still to come changes with the thread that moves. -/
theorem count_update (builds : Thread → Build Thread n) (t : Thread) (b : Build Thread n) (x : Tuple) :
    ∑ u, (Function.update builds t b u).rest.count x + (builds t).rest.count x =
      ∑ u, (builds u).rest.count x + b.rest.count x :=
  sum_update (fun b : Build Thread n => b.rest.count x) builds t b

/-- Where a thread is does not matter when it has no tuple left. -/
theorem Inv.congr (h : Inv B idx relR g builds m) {builds' : Thread → Build Thread n}
    (hrest : ∀ t, (builds' t).rest = (builds t).rest)
    (hpc : ∀ t, (builds t).rest ≠ [] → (builds' t).pc = (builds t).pc) : Inv B idx relR g builds' m := by
  have hat : ∀ t i, (builds' t).At idx i ↔ (builds t).At idx i := by
    intro t i
    unfold Build.At
    rw [hrest t]
    by_cases hnil : (builds t).rest = []
    · simp [hnil]
    · rw [hpc t hnil]
  refine ⟨h.allocated, h.disjoint, h.idle, ?_, ?_, ?_, h.home, ?_⟩
  · intro t tuple rest ht
    rw [hrest t] at ht
    rw [hpc t (by simp [ht])]
    exact h.inside t tuple rest ht
  · intro i hi
    obtain ⟨t, ht⟩ := h.taken i hi
    exact ⟨t, (hat t i).mpr ht⟩
  · intro t u i ht hu
    exact h.one t u i ((hat t i).mp ht) ((hat u i).mp hu)
  · intro x
    simp only [hrest]
    exact h.account x

/-- Nobody else is at the bucket of a thread. -/
theorem Inv.other_ne (h : Inv B idx relR g builds m) (hrest : (builds t).rest = tuple :: rest)
    (hpc : (builds t).pc ≠ .lock) {u : Thread} (hu : u ≠ t) {tuple' : Tuple} {rest' : List Tuple}
    (hrest' : (builds u).rest = tuple' :: rest') (hpc' : (builds u).pc ≠ .lock) : idx tuple'.key ≠ idx tuple.key :=
  fun heq => hu (h.one u t (idx tuple.key) ⟨hpc', tuple', rest', hrest', heq⟩ ⟨hpc, tuple, rest, hrest, rfl⟩)

/-- The region of one bucket is left alone by what a thread does to that of another one. -/
theorem Inv.same_of_ne (h : Inv B idx relR g builds m) {i j : Fin n} (hij : j ≠ i) {region' : List (Addr Thread n)}
    (howns : Owns m m' i (g.region i) region') {a : Addr Thread n} (ha : a ∈ Addr.head j :: g.region j) :
    m'.bucket a = m.bucket a := by
  apply howns.same
  intro hmem
  rcases List.mem_cons.mp ha with rfl | ha
  · rcases List.mem_cons.mp hmem with heq | hmem
    · exact hij (Addr.head.inj heq)
    · exact (h.allocated i _ hmem).elim
  · rcases List.mem_cons.mp hmem with rfl | hmem
    · exact (h.allocated j _ ha).elim
    · exact hij (h.disjoint j i a ha hmem)

/-- A thread takes the latch. -/
theorem Inv.take (h : Inv B idx relR g builds m) (hrest : (builds t).rest = tuple :: rest)
    (hpc : (builds t).pc = .lock) (hfree : m.latch (idx tuple.key) = false) :
    Inv B idx relR g (Function.update builds t { rest := (builds t).rest, pc := .loadNext })
      (m.setLatch (idx tuple.key) true) := by
  have hnone : ∀ u, ¬ (builds u).At idx (idx tuple.key) := by
    intro u ⟨hpcu, tuple', rest', hrest', hidx⟩
    have hlatch := (h.inside u tuple' rest' hrest' hpcu).1
    rw [hidx, hfree] at hlatch
    exact absurd hlatch (by simp)
  have hat : ∀ u i, (Function.update builds t { rest := (builds t).rest, pc := .loadNext } u).At idx i →
      (u = t ∧ i = idx tuple.key) ∨ (u ≠ t ∧ i ≠ idx tuple.key ∧ (builds u).At idx i) := by
    intro u i hu
    by_cases hut : u = t
    · subst hut
      obtain ⟨-, tuple', rest', hrest', hidx⟩ := hu
      simp only [Function.update_self, hrest, List.cons.injEq] at hrest'
      exact .inl ⟨rfl, by rw [← hidx, hrest'.1]⟩
    · rw [Function.update_of_ne hut] at hu
      exact .inr ⟨hut, fun heq => hnone u (heq ▸ hu), hu⟩
  refine ⟨h.allocated, h.disjoint, ?_, ?_, ?_, ?_, h.home, ?_⟩
  · intro i hi
    have hne : i ≠ idx tuple.key := by
      rintro rfl
      simp at hi
    rw [Memory.setLatch_of_ne hne] at hi
    exact (h.idle i hi).frame fun _ _ => rfl
  · intro u tuple' rest' hrest' hpc'
    by_cases hut : u = t
    · subst hut
      simp only [Function.update_self, hrest, List.cons.injEq] at hrest'
      obtain ⟨rfl, rfl⟩ := hrest'
      rw [Function.update_self]
      exact ⟨Memory.setLatch_self _ _ _, (h.idle _ hfree).frame fun _ _ => rfl⟩
    · rw [Function.update_of_ne hut] at hrest' hpc' ⊢
      obtain ⟨hlatch, hinside⟩ := h.inside u tuple' rest' hrest' hpc'
      have hne : idx tuple'.key ≠ idx tuple.key := fun heq => hnone u ⟨hpc', tuple', rest', hrest', heq⟩
      exact ⟨(Memory.setLatch_of_ne hne).trans hlatch, hinside.frame fun _ _ => rfl⟩
  · intro i hi
    by_cases hne : i = idx tuple.key
    · exact ⟨t, by simp [Build.At, hrest, hne]⟩
    · rw [Memory.setLatch_of_ne hne] at hi
      obtain ⟨u, hu⟩ := h.taken i hi
      have hut : u ≠ t := by
        rintro rfl
        exact hu.1 hpc
      exact ⟨u, by rwa [Function.update_of_ne hut]⟩
  · intro u v i hu hv
    rcases hat u i hu with ⟨rfl, hi⟩ | ⟨-, hi, hu⟩
    · rcases hat v i hv with ⟨rfl, -⟩ | ⟨-, hi', -⟩
      · rfl
      · exact absurd hi hi'
    · rcases hat v i hv with ⟨-, hi'⟩ | ⟨-, -, hv⟩
      · exact absurd hi' hi
      · exact h.one u v i hu hv
  · intro x
    have hsum := count_update builds t { rest := (builds t).rest, pc := .loadNext } x
    have haccount := h.account x
    dsimp only at hsum
    omega

/-- A thread works at its bucket. -/
theorem Inv.work (hB : 0 < B) (h : Inv B idx relR g builds m) (hrest : (builds t).rest = tuple :: rest)
    (hpc : (builds t).pc ≠ .lock) {pc' : Pc Thread n}
    (hstep : critical B t (idx tuple.key) tuple m (builds t).pc = some (pc', m')) :
    ∃ g', Inv B idx relR g' (Function.update builds t { rest := (builds t).rest, pc := pc' }) m' := by
  obtain ⟨hlatch, hinside⟩ := h.inside t tuple rest hrest hpc
  obtain ⟨hpc', region', hinside', howns⟩ := hinside.step hB (h.allocated _) hstep
  generalize hi : idx tuple.key = i at *
  have hat : ∀ u j,
      (Function.update builds t { rest := (builds t).rest, pc := pc' } u).At idx j ↔ (builds u).At idx j := by
    intro u j
    by_cases hut : u = t
    · subst hut
      simp [Build.At, hpc, hpc']
    · rw [Function.update_of_ne hut]
  have hregion : ∀ j a, j ≠ i → a ∈ region' → a ∉ g.region j := by
    intro j a hj ha haj
    rcases howns.new a ha with hold | hnew
    · exact hj (h.disjoint j i a haj hold)
    · exact hnew (h.allocated j a haj)
  refine ⟨{ g with region := Function.update g.region i region' }, ?_, ?_, ?_, ?_, ?_, ?_, h.home, ?_⟩
  · intro j a ha
    by_cases hj : j = i
    · simp only [hj, Function.update_self] at ha
      exact howns.allocated a ha
    · simp only [Function.update_of_ne hj] at ha
      exact howns.mono a (h.allocated j a ha)
  · intro j k a hj hk
    by_cases hji : j = i <;> by_cases hki : k = i
    · rw [hji, hki]
    · simp only [hji, Function.update_self, Function.update_of_ne hki] at hj hk
      exact absurd hk (hregion k a hki hj)
    · simp only [hki, Function.update_self, Function.update_of_ne hji] at hj hk
      exact absurd hj (hregion j a hji hk)
    · simp only [Function.update_of_ne hji, Function.update_of_ne hki] at hj hk
      exact h.disjoint j k a hj hk
  · intro j hj
    rw [howns.latch] at hj
    have hne : j ≠ i := by
      rintro rfl
      rw [hlatch] at hj
      exact absurd hj (by simp)
    dsimp only
    rw [Function.update_of_ne hne]
    exact (h.idle j hj).frame fun a ha => h.same_of_ne hne howns ha
  · intro u tuple' rest' hrest' hpcu
    rw [howns.latch]
    by_cases hut : u = t
    · subst hut
      simp only [Function.update_self, hrest, List.cons.injEq] at hrest'
      obtain ⟨rfl, rfl⟩ := hrest'
      simp only [Function.update_self, hi]
      exact ⟨hlatch, hinside'⟩
    · rw [Function.update_of_ne hut] at hrest' hpcu ⊢
      obtain ⟨hlatch', hin⟩ := h.inside u tuple' rest' hrest' hpcu
      have hne : idx tuple'.key ≠ i := by
        rw [← hi]
        exact h.other_ne hrest hpc hut hrest' hpcu
      dsimp only
      rw [Function.update_of_ne hne]
      exact ⟨hlatch', hin.frame fun a ha => h.same_of_ne hne howns ha⟩
  · intro j hj
    rw [howns.latch] at hj
    obtain ⟨u, hu⟩ := h.taken j hj
    exact ⟨u, (hat u j).mpr hu⟩
  · intro u v j hu hv
    exact h.one u v j ((hat u j).mp hu) ((hat v j).mp hv)
  · intro x
    have hsum := count_update builds t { rest := (builds t).rest, pc := pc' } x
    have haccount := h.account x
    dsimp only at hsum ⊢
    omega

/-- A thread releases the latch and goes on to its next tuple. -/
theorem Inv.leave (h : Inv B idx relR g builds m) (hrest : (builds t).rest = tuple :: rest)
    (hpc : (builds t).pc = .unlock) :
    ∃ g', Inv B idx relR g' (Function.update builds t { rest := rest, pc := .lock })
      (m.setLatch (idx tuple.key) false) := by
  have hlock : (builds t).pc ≠ .lock := by simp [hpc]
  obtain ⟨hlatch, hinside⟩ := h.inside t tuple rest hrest hlock
  rw [hpc] at hinside
  have hat : ∀ u j, (Function.update builds t { rest := rest, pc := .lock } u).At idx j →
      u ≠ t ∧ j ≠ idx tuple.key ∧ (builds u).At idx j := by
    intro u j hu
    have hut : u ≠ t := by
      rintro rfl
      rw [Function.update_self] at hu
      exact hu.1 rfl
    rw [Function.update_of_ne hut] at hu
    refine ⟨hut, ?_, hu⟩
    rintro rfl
    exact hut (h.one u t _ hu ⟨hlock, tuple, rest, hrest, rfl⟩)
  refine ⟨{ g with held := Function.update g.held (idx tuple.key) (tuple :: g.held (idx tuple.key)) },
    h.allocated, h.disjoint, ?_, ?_, ?_, ?_, ?_, ?_⟩
  · intro i hi
    by_cases hne : i = idx tuple.key
    · subst hne
      dsimp only
      rw [Function.update_self]
      exact Idle.frame hinside fun _ _ => rfl
    · rw [Memory.setLatch_of_ne hne] at hi
      dsimp only
      rw [Function.update_of_ne hne]
      exact (h.idle i hi).frame fun _ _ => rfl
  · intro u tuple' rest' hrest' hpc'
    obtain ⟨hut, hne, -⟩ := hat u (idx tuple'.key) ⟨hpc', tuple', rest', hrest', rfl⟩
    rw [Function.update_of_ne hut] at hrest' hpc' ⊢
    obtain ⟨hlatch', hin⟩ := h.inside u tuple' rest' hrest' hpc'
    dsimp only
    rw [Function.update_of_ne hne]
    exact ⟨(Memory.setLatch_of_ne hne).trans hlatch', hin.frame fun _ _ => rfl⟩
  · intro i hi
    have hne : i ≠ idx tuple.key := by
      rintro rfl
      simp at hi
    rw [Memory.setLatch_of_ne hne] at hi
    obtain ⟨u, hu⟩ := h.taken i hi
    have hut : u ≠ t := by
      rintro rfl
      obtain ⟨-, tuple', rest', hrest', hidx⟩ := hu
      rw [hrest] at hrest'
      exact hne (by rw [← hidx, (List.cons.inj hrest').1])
    exact ⟨u, by rwa [Function.update_of_ne hut]⟩
  · intro u v i hu hv
    exact h.one u v i (hat u i hu).2.2 (hat v i hv).2.2
  · intro i x hx
    by_cases hne : i = idx tuple.key
    · subst hne
      simp only [Function.update_self, List.mem_cons] at hx
      rcases hx with rfl | hx
      · rfl
      · exact h.home _ x hx
    · simp only [Function.update_of_ne hne] at hx
      exact h.home i x hx
  · intro x
    have hsum := count_update builds t { rest := rest, pc := .lock } x
    have haccount := h.account x
    rw [hrest, List.count_cons] at hsum
    dsimp only at hsum ⊢
    have hheld : (Function.update g.held (idx tuple.key) (tuple :: g.held (idx tuple.key)) (idx x.key)).count x =
        (g.held (idx x.key)).count x + if tuple == x then 1 else 0 := by
      by_cases hx : tuple = x
      · subst hx
        simp
      · by_cases hidx : idx x.key = idx tuple.key
        · simp [hidx, hx]
        · simp [Function.update_of_ne hidx, hx]
    omega

/-- **The step lemma of the build**: a step of any thread keeps the invariant. -/
theorem Inv.step (hB : 0 < B) (h : Inv B idx relR g builds m) {b' : Build Thread n}
    (hstep : hashBuildRelRPartition B idx t (builds t) m = some (b', m')) :
    ∃ g', Inv B idx relR g' (Function.update builds t b') m' := by
  unfold hashBuildRelRPartition at hstep
  cases hrest : (builds t).rest with
  | nil => simp [hrest] at hstep
  | cons tuple rest =>
    simp only [hrest] at hstep
    by_cases hlock : (builds t).pc = .lock
    · simp only [hlock, Option.some.injEq, Prod.mk.injEq] at hstep
      obtain ⟨rfl, rfl⟩ := hstep
      cases hlatch : m.latch (idx tuple.key) with
      | true =>
        -- the thread spins
        have hm : m.setLatch (idx tuple.key) true = m := by
          rw [← hlatch]
          simp [Memory.setLatch]
        have hb : Function.update builds t { rest := (builds t).rest, pc := if true then .lock else .loadNext } =
            builds := by
          rw [if_pos rfl, ← hlock]
          exact Function.update_eq_self t builds
        rw [← hrest, hb, hm]
        exact ⟨g, h⟩
      | false =>
        have htake := h.take hrest hlock hlatch
        rw [hrest] at htake
        exact ⟨g, htake⟩
    · by_cases hunlock : (builds t).pc = .unlock
      · simp only [hunlock, Option.some.injEq, Prod.mk.injEq] at hstep
        obtain ⟨rfl, rfl⟩ := hstep
        exact h.leave hrest hunlock
      · have hwork : (critical B t (idx tuple.key) tuple m (builds t).pc).map
            (fun r => (({ rest := (builds t).rest, pc := r.1 } : Build Thread n), r.2)) = some (b', m') := by
          cases hpc : (builds t).pc <;> simp_all
        obtain ⟨⟨pc', m₁⟩, hcrit, heq⟩ := Option.map_eq_some_iff.mp hwork
        obtain ⟨rfl, rfl⟩ := Prod.mk.inj heq
        exact h.work hB hrest hlock hcrit

/-! ### Progress -/

/-- How many steps are left of the current tuple at most. -/
def Pc.rank : Pc Thread n → ℕ
  | .lock => 13
  | .loadNext => 12
  | .loadCount _ => 11
  | .loadNextCount _ => 10
  | .newBucket _ => 9
  | .linkHead _ _ => 8
  | .linkNext _ _ => 7
  | .setCount _ => 6
  | .loadDest _ => 9
  | .loadInc _ _ => 8
  | .storeInc _ _ _ => 7
  | .store _ _ => 5
  | .unlock => 4

/-- How many steps are left of the loop at most, the spinning left out. -/
def Build.rank (b : Build Thread n) : ℕ :=
  match b.rest with
  | [] => 0
  | _ :: rest => 14 * rest.length + b.pc.rank + 1

omit [Fintype Thread] in
theorem rank_critical {i : Fin n} {pc pc' : Pc Thread n} (hstep : critical B t i tuple m pc = some (pc', m')) :
    pc'.rank < pc.rank := by
  cases pc <;> simp only [critical, Option.some.injEq, Prod.mk.injEq, reduceCtorEq] at hstep
  case loadCount nxt =>
    cases nxt <;> split_ifs at hstep <;> obtain ⟨rfl, -⟩ := Prod.mk.inj (Option.some.inj hstep) <;> simp [Pc.rank]
  case loadNextCount nxt =>
    split_ifs at hstep <;> obtain ⟨rfl, -⟩ := Prod.mk.inj (Option.some.inj hstep) <;> simp [Pc.rank]
  all_goals
    obtain ⟨rfl, -⟩ := hstep
    simp [Pc.rank]

omit [Fintype Thread] in
/-- A step is a spin or brings the thread closer to the end of its loop. -/
theorem rank_step {b b' : Build Thread n} (hstep : hashBuildRelRPartition B idx t b m = some (b', m')) :
    (b' = b ∧ m' = m) ∨ b'.rank < b.rank := by
  obtain ⟨rest, pc⟩ := b
  unfold hashBuildRelRPartition at hstep
  cases rest with
  | nil => simp at hstep
  | cons tuple rest =>
    dsimp only at hstep
    by_cases hlock : pc = .lock
    · simp only [hlock, Option.some.injEq, Prod.mk.injEq] at hstep
      obtain ⟨rfl, rfl⟩ := hstep
      cases hlatch : m.latch (idx tuple.key) with
      | true =>
        refine .inl ⟨by simp [hlock], ?_⟩
        rw [← hlatch]
        simp [Memory.setLatch]
      | false => exact .inr (by simp [Build.rank, Pc.rank, hlock])
    · by_cases hunlock : pc = .unlock
      · simp only [hunlock, Option.some.injEq, Prod.mk.injEq] at hstep
        obtain ⟨rfl, rfl⟩ := hstep
        refine .inr ?_
        cases rest with
        | nil => simp [Build.rank, Pc.rank, hunlock]
        | cons _ _ =>
          simp only [Build.rank, Pc.rank, hunlock, List.length_cons]
          omega
      · have hwork : (critical B t (idx tuple.key) tuple m pc).map
            (fun r => (({ rest := tuple :: rest, pc := r.1 } : Build Thread n), r.2)) = some (b', m') := by
          cases pc <;> simp_all
        obtain ⟨⟨pc', m₁⟩, hcrit, heq⟩ := Option.map_eq_some_iff.mp hwork
        obtain ⟨rfl, rfl⟩ := Prod.mk.inj heq
        refine .inr ?_
        have hlt := rank_critical hcrit
        simp only [Build.rank]
        omega

omit [Fintype Thread] in
/-- The loop is over only when no tuple is left. -/
theorem hash_build_isSome (B : ℕ) (idx : BitVec 32 → Fin n) (t : Thread) {b : Build Thread n} (m : Memory Thread n)
    (hrest : b.rest = tuple :: rest) : (hashBuildRelRPartition B idx t b m).isSome := by
  obtain ⟨brest, pc⟩ := b
  obtain rfl : brest = tuple :: rest := hrest
  unfold hashBuildRelRPartition
  cases pc with
  | loadCount nxt =>
    simp only [critical]
    split_ifs
    · cases nxt <;> rfl
    · rfl
  | loadNextCount nxt =>
    simp only [critical]
    split_ifs <;> rfl
  | _ => rfl

omit [Fintype Thread] in
/-- Only a thread at a taken latch does not get closer to the end of its loop. -/
theorem exists_step {b : Build Thread n} (hrest : b.rest = tuple :: rest)
    (hfree : b.pc = .lock → m.latch (idx tuple.key) = false) :
    ∃ b' m', hashBuildRelRPartition B idx t b m = some (b', m') ∧ b'.rank < b.rank := by
  obtain ⟨⟨b', m'⟩, hstep⟩ := Option.isSome_iff_exists.mp (hash_build_isSome B idx t m hrest)
  refine ⟨b', m', hstep, ?_⟩
  rcases rank_step hstep with ⟨rfl, -⟩ | hlt
  · obtain ⟨brest, pc⟩ := b'
    obtain rfl : brest = tuple :: rest := hrest
    -- a thread that is still where it was has not got the latch
    cases pc with
    | lock => simp [hashBuildRelRPartition, hfree rfl] at hstep
    | unlock => simp [hashBuildRelRPartition] at hstep
    | loadCount nxt =>
      simp only [hashBuildRelRPartition, critical] at hstep
      split_ifs at hstep <;> cases nxt <;> simp at hstep
    | loadNextCount nxt =>
      simp only [hashBuildRelRPartition, critical] at hstep
      split_ifs at hstep <;> simp at hstep
    | _ => simp [hashBuildRelRPartition, critical] at hstep
  · exact hlt

/-- **While a thread has a tuple left, some thread gets on**: a thread that waits for a latch waits for one that
does. -/
theorem Inv.progress (h : Inv B idx relR g builds m) (hrest : (builds t).rest = tuple :: rest) :
    ∃ u b' m', (builds u).rest ≠ [] ∧ hashBuildRelRPartition B idx u (builds u) m = some (b', m') ∧
      b'.rank < (builds u).rank := by
  by_cases hfree : (builds t).pc = .lock → m.latch (idx tuple.key) = false
  · obtain ⟨b', m', hstep, hlt⟩ := exists_step hrest hfree
    exact ⟨t, b', m', by simp [hrest], hstep, hlt⟩
  · obtain ⟨-, htaken⟩ : (builds t).pc = .lock ∧ m.latch (idx tuple.key) = true := by simpa using hfree
    obtain ⟨u, hpc, tuple', rest', hrest', -⟩ := h.taken _ htaken
    obtain ⟨b', m', hstep, hlt⟩ := exists_step hrest' fun hlock => absurd hlock hpc
    exact ⟨u, b', m', by simp [hrest'], hstep, hlt⟩

/-! ### What the invariant says -/

/-- **No data race**: two threads whose next steps read or write the same bucket are one thread. -/
theorem Inv.race_free (h : Inv B idx relR g builds m) {t u : Thread} {tuple tuple' : Tuple} {rest rest' : List Tuple}
    (ht : (builds t).rest = tuple :: rest) (hu : (builds u).rest = tuple' :: rest') {a : Addr Thread n}
    (hta : (builds t).pc.accesses (idx tuple.key) = some a) (hua : (builds u).pc.accesses (idx tuple'.key) = some a) :
    t = u := by
  have htlock : (builds t).pc ≠ .lock := by
    intro hlock
    simp [hlock, Pc.accesses] at hta
  have hulock : (builds u).pc ≠ .lock := by
    intro hlock
    simp [hlock, Pc.accesses] at hua
  have htm := (h.inside t tuple rest ht htlock).2.accesses_mem hta
  have hum := (h.inside u tuple' rest' hu hulock).2.accesses_mem hua
  have hidx : idx tuple.key = idx tuple'.key := by
    rcases List.mem_cons.mp htm with rfl | htm
    · rcases List.mem_cons.mp hum with heq | hum
      · exact Addr.head.inj heq
      · exact (h.allocated _ _ hum).elim
    · rcases List.mem_cons.mp hum with rfl | hum
      · exact (h.allocated _ _ htm).elim
      · exact h.disjoint _ _ a htm hum
  exact h.one t u (idx tuple.key) ⟨htlock, tuple, rest, ht, rfl⟩ ⟨hulock, tuple', rest', hu, hidx.symm⟩

/-- A tuple is stored inside of its bucket. -/
theorem Inv.store_lt (h : Inv B idx relR g builds m) (hrest : (builds t).rest = tuple :: rest) {a : Addr Thread n}
    {dest : ℕ} (hpc : (builds t).pc = .store a dest) : dest < B := by
  have hinside := (h.inside t tuple rest hrest (by simp [hpc])).2
  rw [hpc] at hinside
  exact hinside.2.1

omit [DecidableEq Thread] [Fintype Thread] in
/-- Every bucket behind a head holds a tuple. -/
theorem Idle.length_le {i : Fin n} {l : List (Addr Thread n)} {ts : List Tuple} (hB : 0 < B) (h : Idle B m i l ts) :
    l.length ≤ ts.length := by
  have hpos : ∀ a ∈ l, 1 ≤ (m.bucket a).held.length := by
    intro a ha
    simp only [Bucket.held, List.length_map, List.length_range]
    cases l with
    | nil => exact absurd ha (by simp)
    | cons b l =>
      rcases List.mem_cons.mp ha with rfl | ha
      · exact (h.first a rfl).1
      · rw [h.full a ha]
        exact hB
  have hsum : (l.map fun _ => 1).sum ≤ (l.map fun a => (m.bucket a).held.length).sum := List.sum_le_sum hpos
  rw [h.holds.length_eq, heldBy_cons, List.length_append, heldBy, List.length_flatMap]
  simp only [List.map_const', List.sum_replicate, smul_eq_mul, mul_one] at hsum
  omega

/-- The tuples of a bucket come from the parts of the threads, each at most as often as there. -/
theorem Inv.held_le (h : Inv B idx relR g builds m) (i : Fin n) :
    (g.held i : Multiset Tuple) ≤ ∑ t, (relR t : Multiset Tuple) := by
  rw [Multiset.le_iff_count]
  intro x
  rw [Multiset.coe_count, Multiset.count_sum']
  simp only [Multiset.coe_count]
  by_cases hx : idx x.key = i
  · have haccount := h.account x
    rw [hx] at haccount
    omega
  · rw [List.count_eq_zero_of_not_mem fun hmem => hx (h.home i x hmem)]
    exact Nat.zero_le _

/-- When all threads are done, nobody is at a bucket. -/
theorem Inv.idle_of_done (h : Inv B idx relR g builds m) (hdone : ∀ t, (builds t).rest = []) (i : Fin n) :
    Idle B m i (g.region i) (g.held i) := by
  apply h.idle
  by_contra htaken
  obtain ⟨t, -, tuple, rest, hrest, -⟩ := h.taken i (by simpa using htaken)
  rw [hdone t] at hrest
  exact absurd hrest (by simp)

/-- When all threads are done, every bucket holds the tuples of its keys. -/
theorem Inv.held_eq (h : Inv B idx relR g builds m) (hdone : ∀ t, (builds t).rest = []) (i : Fin n) :
    (g.held i : Multiset Tuple) = (∑ t, (relR t : Multiset Tuple)).filter fun x => idx x.key = i := by
  ext x
  rw [Multiset.coe_count, Multiset.count_filter, Multiset.count_sum']
  simp only [Multiset.coe_count]
  split_ifs with hx
  · have haccount := h.account x
    simp only [hdone, List.count_nil, Finset.sum_const_zero, add_zero] at haccount
    rw [← hx]
    exact haccount
  · exact List.count_eq_zero_of_not_mem fun hmem => hx (h.home i x hmem)

end

end HashingArchive.Join.Parallel
