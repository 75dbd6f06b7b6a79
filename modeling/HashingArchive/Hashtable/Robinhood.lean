import HashingArchive.Hashtable.Probing

/-!
# `RobinhoodProbing`: the code and its invariant

A slot records its probe sequence length `psl`, and `insert` takes the slot of any key with a smaller
`psl` than the key in hand, whose probing it then goes on with. `Inv` is the robin hood order: within
a bucket `psl` does not increase, and a key with `psl` `s` has every bucket on its way filled with
slots whose `psl` is at least the step index (`FullTo`). Forgetting `psl` gives a `Probing` table
(`forget`), and its lookup is the lookup of that table.
-/

namespace HashingArchive.Hashtable.Robinhood

open HashingArchive.Library HashingArchive.Loop

structure Slot (Key Payload : Type) where
  key : Key
  psl : ℕ
  payload : Payload

abbrev Table {Key Hash : Type} (c : Config Key Hash) (Payload : Type) :=
  Grid c.directorySize c.bucketSize (Slot Key Payload)

/-- The local variables of `insert`: the table, the key in hand with its payload, how far it has come
on its probe sequence, and the next slot of the bucket. -/
structure Hand {Key Hash : Type} (c : Config Key Hash) (Payload : Type) where
  table : Table c Payload
  key : Key
  payload : Payload
  origSlotIndex : Fin c.directorySize
  slotIndex : Fin c.directorySize
  probingStep : ℕ
  i : ℕ

/-- The state an insert starts its loop from. -/
def Hand.start {Key Hash Payload : Type} {c : Config Key Hash} (t : Table c Payload) (k : Key) (p : Payload) :
    Hand c Payload where
  table := t
  key := k
  payload := p
  origSlotIndex := c.home k
  slotIndex := c.home k
  probingStep := 0
  i := 0

/-! ### The code -/

section
variable {Key Hash Payload : Type} [DecidableEq Key] (c : Config Key Hash)

def name : String := c.probingfn.name ++ "_robinhood_probing"

def cycleMessage : String :=
  "Building " ++ name c ++ " failed: detected cycle during probing, all buckets along the way are full"

def loopMessage : String := "insertion failed, infinite loop detected"

/-- One slot of the bucket, or the way on to the next bucket. -/
def insertBody (origKey : Key) (s : Hand c Payload) : Pass (Hand c Payload) (Outcome Bool × Table c Payload) :=
  if h : s.i < c.bucketSize then
    let slot := s.table s.slotIndex ⟨s.i, h⟩
    let placed := s.table.set s.slotIndex ⟨s.i, h⟩
      { key := s.key, psl := s.probingStep, payload := s.payload }
    if slot.key = c.sentinel then .leave (.value true, placed)
    else if slot.key = s.key then .leave (.value false, s.table)
    else if slot.psl < s.probingStep then
      if origKey = slot.key then .leave (.thrown loopMessage, s.table)
      else .again
        { table := placed
          key := slot.key
          payload := slot.payload
          origSlotIndex := c.home slot.key
          slotIndex := s.slotIndex
          probingStep := slot.psl
          i := s.i + 1 }
    else .again { s with i := s.i + 1 }
  else
    let probingStep := (s.probingStep + 1) % 2 ^ 64
    let slotIndex := c.probingfn.probe s.origSlotIndex probingStep
    if slotIndex = s.origSlotIndex then .leave (.thrown (cycleMessage c), s.table)
    else .again { s with slotIndex := slotIndex, probingStep := probingStep, i := 0 }

/-- The passes an insert can need: a displacement raises one `psl` by what the hand loses. -/
def insertBound : ℕ := (c.directorySize * c.bucketSize + 1) * 2 ^ 64 * (c.bucketSize + 1) + (c.bucketSize + 1)

def insert (t : Table c Payload) (k : Key) (p : Payload) : Outcome Bool × Table c Payload :=
  if k = c.sentinel then (.value false, t)
  else (Loop.run (insertBody c k) (insertBound c) (Hand.start t k p)).getD (.diverged, t)

/-- One slot of `lookup`. -/
def lookupVisit (t : Table c Payload) (key : Key) (b : Fin c.directorySize) (_ : ℕ)
    (i : Fin c.bucketSize) : Option (Outcome (Option Payload)) :=
  if (t b i).key = key then some (.value (some (t b i).payload))
  else if (t b i).key = c.sentinel then some (.value none)
  else none

def lookup (t : Table c Payload) (key : Key) : Outcome (Option Payload) :=
  if key = c.sentinel then .value none
  else (probeLoop c.probingfn (c.home key) (lookupVisit c t key) (.value none)).getD .diverged

def clear (t : Table c Payload) : Table c Payload := fun b i => { t b i with key := c.sentinel }

/-- The constructor: every slot gets the key `Sentinel`, over whatever memory held. -/
def construct (memory : Table c Payload) : Outcome (Table c Payload) :=
  if c.directorySize ≤ vectorMaxSize then .value (clear c memory)
  else .thrown "cannot create std::vector larger than max_size()"

def store : Store (Table c Payload) Key Payload Bool where
  insert := insert c
  lookup := lookup c
  clear := clear c

end

/-! ### What a table holds -/

section
variable {Key Hash Payload : Type} {c : Config Key Hash}

def Occupied (t : Table c Payload) (b : Fin c.directorySize) (i : Fin c.bucketSize) : Prop :=
  (t b i).key ≠ c.sentinel

def Resident (t : Table c Payload) (key : Key) : Prop := ∃ b i, (t b i).key = key

instance [DecidableEq Key] (t : Table c Payload) (key : Key) : Decidable (Resident t key) :=
  inferInstanceAs (Decidable (∃ b i, (t b i).key = key))

def Stores (t : Table c Payload) (key : Key) (payload : Payload) : Prop :=
  ∃ b i, (t b i).key = key ∧ (t b i).payload = payload

/-- Every slot of the bucket is occupied, with a `psl` of at least `s`. -/
def FullTo (t : Table c Payload) (b : Fin c.directorySize) (s : ℕ) : Prop :=
  ∀ i, Occupied t b i ∧ s ≤ (t b i).psl

/-- The robin hood order. -/
structure Inv (t : Table c Payload) : Prop where
  filled : ∀ b i i', i' ≤ i → Occupied t b i → Occupied t b i'
  sorted : ∀ b i i', i' ≤ i → Occupied t b i → (t b i).psl ≤ (t b i').psl
  unique : ∀ b i b' i', Occupied t b i → (t b' i').key = (t b i).key → b' = b ∧ i' = i
  reaches : ∀ b i, Occupied t b i → c.Reaches (t b i).key (t b i).psl
  bucket : ∀ b i, Occupied t b i → c.bucketAt (t b i).key (t b i).psl = b
  full : ∀ b i, Occupied t b i → ∀ j < (t b i).psl, FullTo t (c.bucketAt (t b i).key j) j

theorem not_occupied_clear (t : Table c Payload) (b : Fin c.directorySize) (i : Fin c.bucketSize) :
    ¬ Occupied (clear c t) b i :=
  not_not_intro rfl

theorem inv_clear (t : Table c Payload) : Inv (clear c t) where
  filled b i _ _ h := absurd h (not_occupied_clear t b i)
  sorted b i _ _ h := absurd h (not_occupied_clear t b i)
  unique b i _ _ h := absurd h (not_occupied_clear t b i)
  reaches b i h := absurd h (not_occupied_clear t b i)
  bucket b i h := absurd h (not_occupied_clear t b i)
  full b i h := absurd h (not_occupied_clear t b i)

theorem not_resident_clear (t : Table c Payload) {key : Key} (hkey : key ≠ c.sentinel) :
    ¬ Resident (clear c t) key := by
  rintro ⟨b, i, h⟩
  exact hkey h.symm

theorem Stores.resident {t : Table c Payload} {key : Key} {payload : Payload} (h : Stores t key payload) :
    Resident t key := by
  obtain ⟨b, i, hkey, -⟩ := h
  exact ⟨b, i, hkey⟩

theorem Resident.stores {t : Table c Payload} {key : Key} (h : Resident t key) :
    ∃ payload, Stores t key payload := by
  obtain ⟨b, i, hkey⟩ := h
  exact ⟨_, b, i, hkey, rfl⟩

/-! ### The table without its `psl` fields -/

/-- The `Probing` table with the same keys and payloads in the same slots. -/
def forget (t : Table c Payload) : Probing.Table c Payload :=
  fun b i => { key := (t b i).key, payload := (t b i).payload }

theorem Inv.forget {t : Table c Payload} (hinv : Inv t) : Probing.Inv (forget t) where
  filled := hinv.filled
  unique := hinv.unique
  reach b i hocc :=
    ⟨(t b i).psl, hinv.reaches b i hocc, hinv.bucket b i hocc,
      fun j hj i' => (hinv.full b i hocc j hj i').1⟩

theorem stores_forget_iff {t : Table c Payload} {key : Key} {payload : Payload} :
    Probing.Stores (forget t) key payload ↔ Stores t key payload := by
  simp only [Probing.Stores, Stores, Robinhood.forget, Probing.Slot.mk.injEq]

theorem lookup_forget [DecidableEq Key] (t : Table c Payload) (key : Key) :
    Probing.lookup c (forget t) key = lookup c t key := rfl

theorem lookup_of_stores [DecidableEq Key] {t : Table c Payload} (hinv : Inv t) {key : Key}
    (hkey : key ≠ c.sentinel) {payload : Payload} (h : Stores t key payload) :
    lookup c t key = .value (some payload) := by
  rw [← lookup_forget]
  exact Probing.lookup_of_stores hinv.forget hkey (stores_forget_iff.mpr h)

theorem lookup_of_not_resident [DecidableEq Key] {t : Table c Payload} (hinv : Inv t) {key : Key}
    (hkey : key ≠ c.sentinel) (h : ¬ Resident t key) : lookup c t key = .value none := by
  rw [← lookup_forget]
  exact Probing.lookup_of_not_resident hinv.forget hkey h

theorem lookup_answers [DecidableEq Key] {t : Table c Payload} (hinv : Inv t) {key : Key} (hkey : key ≠ c.sentinel) :
    Answers (Stores t key) (lookup c t key) where
  stored _ h := lookup_of_stores hinv hkey h
  absent h := lookup_of_not_resident hinv hkey fun hres => hres.stores.elim h

end

/-! ### The key in hand -/

section
variable {Key Hash Payload : Type} {c : Config Key Hash}

/-- What holds of a key in hand that has passed `i` slots of the bucket `s` steps from its home: it is
in no slot, and what it passed outranks it. -/
structure Carries (t : Table c Payload) (key : Key) (s i : ℕ) : Prop where
  key_ne : key ≠ c.sentinel
  absent : ¬ Resident t key
  reaches : c.Reaches key s
  full : ∀ j < s, FullTo t (c.bucketAt key j) j
  before : ∀ i' : Fin c.bucketSize, (i' : ℕ) < i → Occupied t (c.bucketAt key s) i' ∧
    s ≤ (t (c.bucketAt key s) i').psl

variable {t : Table c Payload} {key : Key} {s : ℕ} {i : Fin c.bucketSize} {payload : Payload}

/-- The table after the key in hand took slot `i`. -/
def put (t : Table c Payload) (key : Key) (s : ℕ) (i : Fin c.bucketSize) (payload : Payload) :
    Table c Payload :=
  t.set (c.bucketAt key s) i { key := key, psl := s, payload := payload }

@[simp] theorem put_self :
    put t key s i payload (c.bucketAt key s) i = { key := key, psl := s, payload := payload } :=
  Grid.set_self _ _ _ _

theorem put_of_ne {b : Fin c.directorySize} {i' : Fin c.bucketSize}
    (h : ¬ (b = c.bucketAt key s ∧ i' = i)) : put t key s i payload b i' = t b i' :=
  Grid.set_of_ne h

theorem Carries.occupied_put_iff (h : Carries t key s i) (b : Fin c.directorySize) (i' : Fin c.bucketSize) :
    Occupied (put t key s i payload) b i' ↔ Occupied t b i' ∨ (b = c.bucketAt key s ∧ i' = i) := by
  by_cases hslot : b = c.bucketAt key s ∧ i' = i
  · obtain ⟨rfl, rfl⟩ := hslot
    simp [Occupied, h.key_ne]
  · simp only [Occupied, put_of_ne hslot, hslot, or_false]

/-- Taking a slot whose `psl` is smaller leaves full buckets at least as full. -/
theorem FullTo.put (hrich : Occupied t (c.bucketAt key s) i → (t (c.bucketAt key s) i).psl < s)
    (hkey : key ≠ c.sentinel) {b : Fin c.directorySize} {j : ℕ} (hfull : FullTo t b j) :
    FullTo (put t key s i payload) b j := by
  intro i'
  by_cases hslot : b = c.bucketAt key s ∧ i' = i
  · obtain ⟨rfl, rfl⟩ := hslot
    simp only [Occupied, put_self]
    exact ⟨hkey, le_trans (hfull i').2 (hrich (hfull i').1).le⟩
  · simp only [Occupied, put_of_ne hslot]
    exact hfull i'

theorem occupied_of_put {b : Fin c.directorySize} {i' : Fin c.bucketSize}
    (hslot : ¬ (b = c.bucketAt key s ∧ i' = i)) (hocc : Occupied (put t key s i payload) b i') : Occupied t b i' := by
  rwa [Occupied, put_of_ne hslot] at hocc

theorem Carries.filled_put (h : Carries t key s i) (hinv : Inv t) (b : Fin c.directorySize)
    (i₁ i₂ : Fin c.bucketSize) (hle : i₂ ≤ i₁) (h₁ : Occupied (put t key s i payload) b i₁) :
    Occupied (put t key s i payload) b i₂ := by
  rw [h.occupied_put_iff]
  by_cases hslot : b = c.bucketAt key s ∧ i₁ = i
  · obtain ⟨rfl, rfl⟩ := hslot
    rcases lt_or_eq_of_le hle with hlt | rfl
    · exact Or.inl (h.before i₂ hlt).1
    · exact Or.inr ⟨rfl, rfl⟩
  · exact Or.inl (hinv.filled b i₁ i₂ hle (occupied_of_put hslot h₁))

theorem Carries.sorted_put (h : Carries t key s i) (hinv : Inv t)
    (hrich : Occupied t (c.bucketAt key s) i → (t (c.bucketAt key s) i).psl < s) (b : Fin c.directorySize)
    (i₁ i₂ : Fin c.bucketSize) (hle : i₂ ≤ i₁) (h₁ : Occupied (put t key s i payload) b i₁) :
    (put t key s i payload b i₁).psl ≤ (put t key s i payload b i₂).psl := by
  by_cases hslot₁ : b = c.bucketAt key s ∧ i₁ = i
  · obtain ⟨rfl, rfl⟩ := hslot₁
    rcases lt_or_eq_of_le hle with hlt | rfl
    · rw [put_self, put_of_ne fun he => absurd he.2 hlt.ne]
      exact (h.before i₂ hlt).2
    · exact le_rfl
  · have hold := occupied_of_put hslot₁ h₁
    have hsorted := hinv.sorted b i₁ i₂ hle hold
    rw [put_of_ne hslot₁]
    by_cases hslot₂ : b = c.bucketAt key s ∧ i₂ = i
    · obtain ⟨rfl, rfl⟩ := hslot₂
      rw [put_self]
      exact hsorted.trans (hrich (hinv.filled _ i₁ _ hle hold)).le
    · rwa [put_of_ne hslot₂]

theorem Carries.unique_put (h : Carries t key s i) (hinv : Inv t) (b : Fin c.directorySize) (i₁ : Fin c.bucketSize)
    (b' : Fin c.directorySize) (i₂ : Fin c.bucketSize) (h₁ : Occupied (put t key s i payload) b i₁)
    (heq : (put t key s i payload b' i₂).key = (put t key s i payload b i₁).key) : b' = b ∧ i₂ = i₁ := by
  by_cases hslot₁ : b = c.bucketAt key s ∧ i₁ = i <;> by_cases hslot₂ : b' = c.bucketAt key s ∧ i₂ = i
  · exact ⟨hslot₂.1.trans hslot₁.1.symm, hslot₂.2.trans hslot₁.2.symm⟩
  · obtain ⟨rfl, rfl⟩ := hslot₁
    rw [put_of_ne hslot₂, put_self] at heq
    exact absurd ⟨b', i₂, heq⟩ h.absent
  · obtain ⟨rfl, rfl⟩ := hslot₂
    rw [put_of_ne hslot₁, put_self] at heq
    exact absurd ⟨b, i₁, heq.symm⟩ h.absent
  · rw [put_of_ne hslot₁, put_of_ne hslot₂] at heq
    exact hinv.unique b i₁ b' i₂ (occupied_of_put hslot₁ h₁) heq

/-- The key in hand takes an empty slot or one with a smaller `psl`: the order is kept. -/
theorem Carries.inv_put (h : Carries t key s i) (hinv : Inv t)
    (hrich : Occupied t (c.bucketAt key s) i → (t (c.bucketAt key s) i).psl < s) :
    Inv (put t key s i payload) := by
  have hfullTo : ∀ {b j}, FullTo t b j → FullTo (put t key s i payload) b j := FullTo.put hrich h.key_ne
  refine ⟨h.filled_put hinv, h.sorted_put hinv hrich, h.unique_put hinv, fun b i₁ h₁ => ?_, fun b i₁ h₁ => ?_,
    fun b i₁ h₁ j hj => ?_⟩ <;> by_cases hslot : b = c.bucketAt key s ∧ i₁ = i
  · obtain ⟨rfl, rfl⟩ := hslot
    rw [put_self]
    exact h.reaches
  · rw [put_of_ne hslot]
    exact hinv.reaches b i₁ (occupied_of_put hslot h₁)
  · obtain ⟨rfl, rfl⟩ := hslot
    rw [put_self]
  · rw [put_of_ne hslot]
    exact hinv.bucket b i₁ (occupied_of_put hslot h₁)
  · obtain ⟨rfl, rfl⟩ := hslot
    rw [put_self] at hj ⊢
    exact hfullTo (h.full j hj)
  · rw [put_of_ne hslot] at hj ⊢
    exact hfullTo (hinv.full b i₁ (occupied_of_put hslot h₁) j hj)

/-- The key displaced from slot `i` is carried on from the next slot of the same bucket. -/
theorem Carries.displaced (h : Carries t key s i) (hinv : Inv t)
    (hocc : Occupied t (c.bucketAt key s) i) (hrich : (t (c.bucketAt key s) i).psl < s) :
    Carries (put t key s i payload) (t (c.bucketAt key s) i).key (t (c.bucketAt key s) i).psl (i + 1) := by
  have hbucket := hinv.bucket _ i hocc
  refine ⟨hocc, ?_, hinv.reaches _ i hocc, fun j hj => ?_, fun i' hi' => ?_⟩
  · rintro ⟨b, i', heq⟩
    by_cases hslot : b = c.bucketAt key s ∧ i' = i
    · obtain ⟨rfl, rfl⟩ := hslot
      rw [put_self] at heq
      exact h.absent ⟨_, _, heq.symm⟩
    · rw [put_of_ne hslot] at heq
      exact hslot (hinv.unique _ i b i' hocc heq)
  · exact FullTo.put (fun _ => hrich) h.key_ne (hinv.full _ i hocc j hj)
  · rw [hbucket]
    rcases Nat.lt_succ_iff_lt_or_eq.mp hi' with hlt | heq
    · have hslot : ¬ (c.bucketAt key s = c.bucketAt key s ∧ i' = i) := fun he => absurd he.2 (by omega)
      simp only [Occupied, put_of_ne hslot]
      exact ⟨hinv.filled _ i i' (by omega) hocc, hinv.sorted _ i i' (by omega) hocc⟩
    · obtain rfl : i' = i := Fin.ext heq
      simp only [Occupied, put_self]
      exact ⟨h.key_ne, hrich.le⟩

/-- A key in hand that has passed a whole bucket goes on to the next one. -/
theorem Carries.next (h : Carries t key s c.bucketSize)
    (hne : c.bucketAt key ((s + 1) % 2 ^ 64) ≠ c.home key) :
    Carries t key (s + 1) 0 ∧ (s + 1) % 2 ^ 64 = s + 1 := by
  obtain ⟨hsucc, hmod⟩ := h.reaches.succ c.directorySize_lt.le hne
  refine ⟨⟨h.key_ne, h.absent, hsucc, fun j hj => ?_, fun i' hi' => absurd hi' (Nat.not_lt_zero _)⟩, hmod⟩
  rcases Nat.lt_succ_iff_lt_or_eq.mp hj with hj | rfl
  · exact h.full j hj
  · exact fun i' => h.before i' i'.isLt

/-- What the table stores after the key in hand took slot `i`. -/
theorem Carries.stores_put_iff (h : Carries t key s i) (hinv : Inv t) {k : Key} (hk : k ≠ c.sentinel)
    (q : Payload) :
    Stores (put t key s i payload) k q ↔
      (Stores t k q ∧ k ≠ (t (c.bucketAt key s) i).key) ∨ (k = key ∧ q = payload) := by
  constructor
  · rintro ⟨b, i', hkey, hpay⟩
    by_cases hslot : b = c.bucketAt key s ∧ i' = i
    · obtain ⟨rfl, rfl⟩ := hslot
      rw [put_self] at hkey hpay
      exact Or.inr ⟨hkey.symm, hpay.symm⟩
    · rw [put_of_ne hslot] at hkey hpay
      refine Or.inl ⟨⟨b, i', hkey, hpay⟩, fun he => hslot ?_⟩
      have hocc : Occupied t (c.bucketAt key s) i := by rw [Occupied, ← he]; exact hk
      exact hinv.unique _ i b i' hocc (hkey.trans he)
  · rintro (⟨⟨b, i', hkey, hpay⟩, hne⟩ | ⟨hkey, hpay⟩)
    · have hslot : ¬ (b = c.bucketAt key s ∧ i' = i) := by
        rintro ⟨rfl, rfl⟩
        exact hne hkey.symm
      refine ⟨b, i', ?_⟩
      rw [put_of_ne hslot]
      exact ⟨hkey, hpay⟩
    · refine ⟨c.bucketAt key s, i, ?_⟩
      rw [put_self]
      exact ⟨hkey.symm, hpay.symm⟩

theorem Inv.stores_unique (hinv : Inv t) (hkey : key ≠ c.sentinel) {p q : Payload} (hp : Stores t key p)
    (hq : Stores t key q) : p = q :=
  hinv.forget.stores_unique hkey (stores_forget_iff.mpr hp) (stores_forget_iff.mpr hq)

end

end HashingArchive.Hashtable.Robinhood
