import HashingArchive.Hashtable.Probe

/-!
# `Cuckoo`: the code and its invariant

`insert` puts a key into one of its two candidate buckets, kicking a random slot out of a full one and
going on with the key it kicked. `kick` is the common body of the two kicking functors; the outputs
of the generator they draw from are a parameter of the table, and the table counts the draws. `Sound` says that
a key sits in one slot and that this slot is in a candidate bucket of the key; a key that takes a slot of a
candidate bucket keeps it (`Sound.take`). `Inv` says besides that buckets fill from the front. It is kept where the
slot taken is the first free one or one of a full bucket (`Takes.inv`), and no content is lost but that of the slot
taken (`stores_take_iff`).
-/

namespace HashingArchive.Hashtable.Cuckoo

open HashingArchive.Library HashingArchive.Loop

structure Slot (Key Payload : Type) where
  key : Key
  payload : Payload

/-- The kicking functors. `threshold_` is what the constructor of `BiasedKicking<Bias>` computes from
`Bias` in floating point. -/
inductive KickingFn where
  | BalancedKicking
  | BiasedKicking (threshold_ : BitVec 32)

/-- The template and constructor parameters. `rand_` is the output sequence of the generator of
`kickingfn`. -/
structure Config (Key Hash1 Hash2 : Type) where
  directorySize : ℕ
  bucketSize : ℕ
  bucketSize_pos : 0 < bucketSize
  hashfn1 : Key → Hash1
  hashfn2 : Key → Hash1 → Hash2
  reductionfn1 : Hash1 → Fin directorySize
  reductionfn2 : Hash2 → Fin directorySize
  kickingfn : KickingFn
  rand_ : ℕ → BitVec 32
  sentinel : Key

variable {Key Hash1 Hash2 Payload : Type}

abbrev Buckets (c : Config Key Hash1 Hash2) (Payload : Type) :=
  Grid c.directorySize c.bucketSize (Slot Key Payload)

/-- The buckets, and how often the generator has been drawn from. -/
structure Table (c : Config Key Hash1 Hash2) (Payload : Type) where
  buckets : Buckets c Payload
  draws : ℕ

/-- The local variables of `insert`. -/
structure Hand (c : Config Key Hash1 Hash2) (Payload : Type) where
  table : Table c Payload
  key : Key
  payload : Payload
  kickCount : ℕ

/-! ### The code -/

namespace Config
variable (c : Config Key Hash1 Hash2)

def i1 (key : Key) : Fin c.directorySize := c.reductionfn1 (c.hashfn1 key)

/-- The second candidate bucket: the next one where it would be the first again. -/
def i2 (key : Key) : Fin c.directorySize :=
  let i2 := c.reductionfn2 (c.hashfn2 key (c.hashfn1 key))
  if i2 = c.i1 key then
    if h : (c.i1 key : ℕ) = c.directorySize - 1 then ⟨0, i2.pos⟩ else ⟨c.i1 key + 1, by omega⟩
  else i2

end Config

section
variable [DecidableEq Key] (c : Config Key Hash1 Hash2)

def MaxKickCycleLength : ℕ := 50000

def cycleMessage : String := "maximum kick cycle length (" ++ toString MaxKickCycleLength ++ ") reached"

/-- The slots of the bucket with a key other than `Sentinel`. -/
def count (g : Buckets c Payload) (b : Fin c.directorySize) : ℕ :=
  ∑ i, if (g b i).key = c.sentinel then 0 else 1

/-- A kicking functor: `b1` where it `prefers` that by the counts, else `b2`, else kick a random slot
out of the bucket that `fromFirst` picks by the number drawn. -/
def kick (prefers : ℕ → ℕ → Bool) (fromFirst : BitVec 32 → Bool) (t : Table c Payload)
    (b1 b2 : Fin c.directorySize) (key : Key) (payload : Payload) :
    Option (Key × Payload) × Table c Payload :=
  let slot : Slot Key Payload := { key := key, payload := payload }
  if h : prefers (count c t.buckets b1) (count c t.buckets b2) ∧ count c t.buckets b1 < c.bucketSize then
    (none, { t with buckets := t.buckets.set b1 ⟨count c t.buckets b1, h.2⟩ slot })
  else if h : count c t.buckets b2 < c.bucketSize then
    (none, { t with buckets := t.buckets.set b2 ⟨count c t.buckets b2, h⟩ slot })
  else
    let rng := c.rand_ t.draws
    let victimBucket := if fromFirst rng then b1 else b2
    let victimIndex : Fin c.bucketSize := ⟨rng.toNat % c.bucketSize, Nat.mod_lt _ c.bucketSize_pos⟩
    let victim := t.buckets victimBucket victimIndex
    (some (victim.key, victim.payload),
      { buckets := t.buckets.set victimBucket victimIndex slot, draws := t.draws + 1 })

def BalancedKicking (t : Table c Payload) (b1 b2 : Fin c.directorySize) (key : Key) (payload : Payload) :
    Option (Key × Payload) × Table c Payload :=
  kick c (fun c1 c2 => c1 ≤ c2) (fun rng => rng &&& 1 ≠ 0) t b1 b2 key payload

def BiasedKicking (threshold_ : BitVec 32) (t : Table c Payload) (b1 b2 : Fin c.directorySize) (key : Key)
    (payload : Payload) : Option (Key × Payload) × Table c Payload :=
  kick c (fun _ _ => true) (fun rng => threshold_ < rng) t b1 b2 key payload

def kickingfn (t : Table c Payload) (b1 b2 : Fin c.directorySize) (key : Key) (payload : Payload) :
    Option (Key × Payload) × Table c Payload :=
  match c.kickingfn with
  | .BalancedKicking => BalancedKicking c t b1 b2 key payload
  | .BiasedKicking threshold_ => BiasedKicking c threshold_ t b1 b2 key payload

/-- The slot the update loop of `insert` stops at: at each index `b1` before `b2`. -/
def findSlot (g : Buckets c Payload) (key : Key) : Option (Fin c.directorySize × Fin c.bucketSize) :=
  (List.finRange c.bucketSize).findSome? fun i =>
    if (g (c.i1 key) i).key = key then some (c.i1 key, i)
    else if (g (c.i2 key) i).key = key then some (c.i2 key, i)
    else none

/-- From the label `start` to the `goto`. -/
def insertBody (s : Hand c Payload) : Pass (Hand c Payload) (Outcome Unit × Table c Payload) :=
  if MaxKickCycleLength < s.kickCount then .leave (.thrown cycleMessage, s.table)
  else
    match findSlot c s.table.buckets s.key with
    | some (b, i) =>
      .leave (.value (), { s.table with
        buckets := s.table.buckets.set b i { s.table.buckets b i with payload := s.payload } })
    | none =>
      match kickingfn c s.table (c.i1 s.key) (c.i2 s.key) s.key s.payload with
      | (none, t) => .leave (.value (), t)
      | (some (key, payload), t) =>
        .again { table := t, key := key, payload := payload, kickCount := s.kickCount + 1 }

def insert (t : Table c Payload) (key : Key) (value : Payload) : Outcome Unit × Table c Payload :=
  (Loop.run (insertBody c) (MaxKickCycleLength + 2)
    { table := t, key := key, payload := value, kickCount := 0 }).getD (.diverged, t)

/-- One bucket of `lookup`. -/
def lookupBucket (g : Buckets c Payload) (b : Fin c.directorySize) (key : Key) : Option Payload :=
  (List.finRange c.bucketSize).findSome? fun i => if (g b i).key = key then some (g b i).payload else none

def lookup (t : Table c Payload) (key : Key) : Outcome (Option Payload) :=
  match lookupBucket c t.buckets (c.i1 key) key with
  | some payload => .value (some payload)
  | none => .value (lookupBucket c t.buckets (c.i2 key) key)

def clear (t : Table c Payload) : Table c Payload :=
  { t with buckets := fun b i => { t.buckets b i with key := c.sentinel } }

/-- The constructor: every slot gets the key `Sentinel`, over whatever memory held, and the generator
is fresh. -/
def construct (memory : Buckets c Payload) : Outcome (Table c Payload) :=
  if c.directorySize ≤ vectorMaxSize then .value (clear c { buckets := memory, draws := 0 })
  else .thrown "cannot create std::vector larger than max_size()"

def store : Store (Table c Payload) Key Payload Unit where
  insert := insert c
  lookup := lookup c
  clear := clear c

end

/-! ### What a table holds -/

section
variable {c : Config Key Hash1 Hash2}

def Occupied (g : Buckets c Payload) (b : Fin c.directorySize) (i : Fin c.bucketSize) : Prop :=
  (g b i).key ≠ c.sentinel

def Resident (g : Buckets c Payload) (key : Key) : Prop := ∃ b i, (g b i).key = key

instance [DecidableEq Key] (g : Buckets c Payload) (key : Key) : Decidable (Resident g key) :=
  inferInstanceAs (Decidable (∃ b i, (g b i).key = key))

def Stores (g : Buckets c Payload) (key : Key) (payload : Payload) : Prop :=
  ∃ b i, g b i = { key := key, payload := payload }

theorem Stores.resident {g : Buckets c Payload} {key : Key} {payload : Payload} (h : Stores g key payload) :
    Resident g key := by
  obtain ⟨b, i, hbi⟩ := h
  exact ⟨b, i, by rw [hbi]⟩

theorem Resident.stores {g : Buckets c Payload} {key : Key} (h : Resident g key) :
    ∃ payload, Stores g key payload := by
  obtain ⟨b, i, rfl⟩ := h
  exact ⟨_, b, i, rfl⟩

/-- What every run keeps. -/
structure Sound (g : Buckets c Payload) : Prop where
  unique : ∀ b i b' i', Occupied g b i → (g b' i').key = (g b i).key → b' = b ∧ i' = i
  candidate : ∀ b i, Occupied g b i → b = c.i1 (g b i).key ∨ b = c.i2 (g b i).key

/-- What a run keeps that does not insert `Sentinel`. -/
structure Inv (g : Buckets c Payload) : Prop extends Sound g where
  filled : ∀ b i i', i' ≤ i → Occupied g b i → Occupied g b i'

theorem not_occupied_clear (t : Table c Payload) (b : Fin c.directorySize) (i : Fin c.bucketSize) :
    ¬ Occupied (clear c t).buckets b i :=
  not_not_intro rfl

theorem inv_clear (t : Table c Payload) : Inv (clear c t).buckets where
  unique b i _ _ h := absurd h (not_occupied_clear t b i)
  candidate b i h := absurd h (not_occupied_clear t b i)
  filled b i _ _ h := absurd h (not_occupied_clear t b i)

theorem not_resident_clear (t : Table c Payload) {key : Key} (hkey : key ≠ c.sentinel) :
    ¬ Resident (clear c t).buckets key := by
  intro ⟨b, i, h⟩
  exact hkey h.symm

variable {g : Buckets c Payload}

theorem Sound.stores_unique (hsound : Sound g) {key : Key} (hkey : key ≠ c.sentinel) {p q : Payload}
    (hp : Stores g key p) (hq : Stores g key q) : p = q := by
  obtain ⟨b, i, hbi⟩ := hp
  obtain ⟨b', i', hbi'⟩ := hq
  have hocc : Occupied g b i := by rw [Occupied, hbi]; exact hkey
  obtain ⟨rfl, rfl⟩ := hsound.unique b i b' i' hocc (by rw [hbi, hbi'])
  rw [hbi] at hbi'
  exact congrArg Slot.payload hbi'

/-! ### Taking a slot -/

/-- A key may take slot `i` of bucket `b`: it is a candidate bucket and the slots before are occupied. -/
structure Takes (g : Buckets c Payload) (key : Key) (b : Fin c.directorySize) (i : Fin c.bucketSize) :
    Prop where
  candidate : b = c.i1 key ∨ b = c.i2 key
  before : ∀ i' < i, Occupied g b i'

variable {key : Key} {b : Fin c.directorySize} {i : Fin c.bucketSize} {payload : Payload}

/-- The buckets after the key took the slot. -/
def take (g : Buckets c Payload) (key : Key) (b : Fin c.directorySize) (i : Fin c.bucketSize)
    (payload : Payload) : Buckets c Payload :=
  g.set b i { key := key, payload := payload }

@[simp] theorem take_self : take g key b i payload b i = { key := key, payload := payload } :=
  Grid.set_self _ _ _ _

theorem take_of_ne {b' : Fin c.directorySize} {i' : Fin c.bucketSize} (h : ¬ (b' = b ∧ i' = i)) :
    take g key b i payload b' i' = g b' i' :=
  Grid.set_of_ne h

theorem occupied_take_iff (hkey : key ≠ c.sentinel) (b' : Fin c.directorySize) (i' : Fin c.bucketSize) :
    Occupied (take g key b i payload) b' i' ↔ Occupied g b' i' ∨ (b' = b ∧ i' = i) := by
  by_cases hslot : b' = b ∧ i' = i
  · obtain ⟨rfl, rfl⟩ := hslot
    simp [Occupied, hkey]
  · simp only [Occupied, take_of_ne hslot, hslot, or_false]

/-- Taking a slot trades its content for the key's. -/
theorem stores_take_iff (g : Buckets c Payload) (key : Key) (b : Fin c.directorySize) (i : Fin c.bucketSize)
    (payload : Payload) (k : Key) (q : Payload) :
    Stores (take g key b i payload) k q ∨ ((g b i).key = k ∧ (g b i).payload = q) ↔
      Stores g k q ∨ (k = key ∧ q = payload) := by
  have hold : (g b i).key = k ∧ (g b i).payload = q ↔ g b i = { key := k, payload := q } := by
    cases g b i
    simp
  rw [hold]
  constructor
  · intro h
    rcases h with ⟨b', i', hbi⟩ | hbi
    · by_cases hslot : b' = b ∧ i' = i
      · obtain ⟨rfl, rfl⟩ := hslot
        rw [take_self, Slot.mk.injEq] at hbi
        exact Or.inr ⟨hbi.1.symm, hbi.2.symm⟩
      · rw [take_of_ne hslot] at hbi
        exact Or.inl ⟨b', i', hbi⟩
    · exact Or.inl ⟨b, i, hbi⟩
  · intro h
    rcases h with ⟨b', i', hbi⟩ | ⟨rfl, rfl⟩
    · by_cases hslot : b' = b ∧ i' = i
      · obtain ⟨rfl, rfl⟩ := hslot
        exact Or.inr hbi
      · exact Or.inl ⟨b', i', by rw [take_of_ne hslot, hbi]⟩
    · exact Or.inl ⟨b, i, take_self⟩

/-- A key in no slot, or `Sentinel`, takes a slot of a candidate bucket: the table stays sound. -/
theorem Sound.take (hsound : Sound g) (hcandidate : b = c.i1 key ∨ b = c.i2 key)
    (habsent : key ≠ c.sentinel → ¬ Resident g key) : Sound (take g key b i payload) := by
  have hocc : ∀ {b' i'}, ¬ (b' = b ∧ i' = i) → Occupied (Cuckoo.take g key b i payload) b' i' → Occupied g b' i' := by
    intro b' i' hslot hb
    rwa [Occupied, take_of_ne hslot] at hb
  refine ⟨fun b₁ i₁ b₂ i₂ h₁ heq => ?_, fun b' i₁ h₁ => ?_⟩
  · by_cases hslot₁ : b₁ = b ∧ i₁ = i <;> by_cases hslot₂ : b₂ = b ∧ i₂ = i
    · exact ⟨hslot₂.1.trans hslot₁.1.symm, hslot₂.2.trans hslot₁.2.symm⟩
    · obtain ⟨rfl, rfl⟩ := hslot₁
      rw [Occupied, take_self] at h₁
      rw [take_self, take_of_ne hslot₂] at heq
      exact absurd ⟨b₂, i₂, heq⟩ (habsent h₁)
    · obtain ⟨rfl, rfl⟩ := hslot₂
      rw [Occupied, take_of_ne hslot₁] at h₁
      rw [take_self, take_of_ne hslot₁] at heq
      exact absurd ⟨b₁, i₁, heq.symm⟩ (habsent fun h => h₁ (heq.symm.trans h))
    · rw [take_of_ne hslot₁, take_of_ne hslot₂] at heq
      exact hsound.unique b₁ i₁ b₂ i₂ (hocc hslot₁ h₁) heq
  · by_cases hslot : b' = b ∧ i₁ = i
    · obtain ⟨rfl, rfl⟩ := hslot
      rw [take_self]
      exact hcandidate
    · rw [take_of_ne hslot]
      exact hsound.candidate b' i₁ (hocc hslot h₁)

/-- An absent key takes the first free slot or one of a full bucket: the buckets stay filled from the front. -/
theorem Takes.inv (h : Takes g key b i) (hinv : Inv g) (hkey : key ≠ c.sentinel) (habsent : ¬ Resident g key) :
    Inv (take g key b i payload) := by
  refine ⟨hinv.toSound.take h.candidate fun _ => habsent, fun b' i₁ i₂ hle h₁ => ?_⟩
  rw [occupied_take_iff hkey] at h₁ ⊢
  rcases h₁ with h₁ | ⟨rfl, rfl⟩
  · exact Or.inl (hinv.filled b' i₁ i₂ hle h₁)
  · rcases lt_or_eq_of_le hle with hlt | rfl
    · exact Or.inl (h.before i₂ hlt)
    · exact Or.inr ⟨rfl, rfl⟩

/-- The key kicked out of its slot is in no other. -/
theorem Sound.not_resident_take (hsound : Sound g) (hocc : Occupied g b i)
    (habsent : key ≠ c.sentinel → ¬ Resident g key) : ¬ Resident (Cuckoo.take g key b i payload) (g b i).key := by
  intro ⟨b', i', heq⟩
  by_cases hslot : b' = b ∧ i' = i
  · obtain ⟨rfl, rfl⟩ := hslot
    rw [take_self] at heq
    exact habsent (fun h => hocc (heq.symm.trans h)) ⟨_, _, heq.symm⟩
  · rw [take_of_ne hslot] at heq
    exact hslot (hsound.unique b i b' i' hocc heq)

/-- Writing the payload of a slot leaves all keys where they are. -/
theorem take_key (hkey : (g b i).key = key) (b' : Fin c.directorySize) (i' : Fin c.bucketSize) :
    (take g key b i payload b' i').key = (g b' i').key := by
  by_cases hslot : b' = b ∧ i' = i
  · obtain ⟨rfl, rfl⟩ := hslot
    rw [take_self, hkey]
  · rw [take_of_ne hslot]

theorem Sound.overwrite (hsound : Sound g) (hkey : (g b i).key = key) : Sound (Cuckoo.take g key b i payload) := by
  refine ⟨fun b₁ i₁ b₂ i₂ h heq => ?_, fun b' i' h => ?_⟩
  · simp only [Occupied, take_key hkey] at h heq
    exact hsound.unique b₁ i₁ b₂ i₂ h heq
  · simp only [Occupied, take_key hkey] at h ⊢
    exact hsound.candidate b' i' h

theorem Inv.overwrite (hinv : Inv g) (hkey : (g b i).key = key) : Inv (Cuckoo.take g key b i payload) := by
  refine ⟨hinv.toSound.overwrite hkey, fun b' i₁ i₂ hle h => ?_⟩
  simp only [Occupied, take_key hkey] at h ⊢
  exact hinv.filled b' i₁ i₂ hle h

end

end HashingArchive.Hashtable.Cuckoo
