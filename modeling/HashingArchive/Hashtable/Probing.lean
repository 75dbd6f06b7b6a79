import HashingArchive.Hashtable.Probe

/-!
# `Probing`: open addressing

`insert`, `lookup`, `lookup_statistics` and `clear` of `Hashtable::Probing` over a grid of slots. The
payload of an empty slot is whatever memory held. `Inv` is what every run keeps: buckets fill from
the front, a key sits in one slot, and every bucket a key's probe sequence passes before its own is
full. Under `Inv` an insert does one of three things (`insert_cases`) and a lookup finds what is
stored (`lookup_of_stores`, `lookup_of_not_resident`).
-/

namespace HashingArchive.Hashtable.Probing

open HashingArchive.Library

structure Slot (Key Payload : Type) where
  key : Key
  payload : Payload

abbrev Table {Key Hash : Type} (c : Config Key Hash) (Payload : Type) :=
  Grid c.directorySize c.bucketSize (Slot Key Payload)

/-! ### The code -/

section
variable {Key Hash Payload : Type} [DecidableEq Key] (c : Config Key Hash)

def name : String := c.probingfn.name ++ "_probing"

def cycleMessage : String :=
  "Building " ++ name c ++ " failed: detected cycle during probing, all buckets along the way are full"

/-- One slot of `insert`: take it if it is empty, refuse if the key is there. -/
def insertVisit (t : Table c Payload) (key : Key) (payload : Payload) (b : Fin c.directorySize) (_ : ℕ)
    (i : Fin c.bucketSize) : Option (Outcome Bool × Table c Payload) :=
  if (t b i).key = c.sentinel then some (.value true, t.set b i { key := key, payload := payload })
  else if (t b i).key = key then some (.value false, t)
  else none

def insert (t : Table c Payload) (key : Key) (payload : Payload) : Outcome Bool × Table c Payload :=
  if key = c.sentinel then (.value false, t)
  else
    (probeLoop c.probingfn (c.home key) (insertVisit c t key payload) (.thrown (cycleMessage c), t)).getD
      (.diverged, t)

/-- One slot of `lookup`: the payload if the key is there, nothing if the slot is empty. -/
def lookupVisit (t : Table c Payload) (key : Key) (b : Fin c.directorySize) (_ : ℕ)
    (i : Fin c.bucketSize) : Option (Outcome (Option Payload)) :=
  if (t b i).key = key then some (.value (some (t b i).payload))
  else if (t b i).key = c.sentinel then some (.value none)
  else none

def lookup (t : Table c Payload) (key : Key) : Outcome (Option Payload) :=
  if key = c.sentinel then .value none
  else (probeLoop c.probingfn (c.home key) (lookupVisit c t key) (.value none)).getD .diverged

def clear (t : Table c Payload) : Table c Payload := fun b i => { t b i with key := c.sentinel }

/-- The constructor: every slot gets the key `Sentinel`, over whatever memory held. -/
def construct (memory : Table c Payload) : Outcome (Table c Payload) :=
  if c.directorySize ≤ vectorMaxSize then .value (clear c memory)
  else .thrown "cannot create std::vector larger than max_size()"

def store : Store (Table c Payload) Key Payload Bool where
  insert := insert c
  lookup := lookup c
  clear := clear c

end

/-! ### What a table holds -/

section
variable {Key Hash Payload : Type} {c : Config Key Hash}

def Occupied (t : Table c Payload) (b : Fin c.directorySize) (i : Fin c.bucketSize) : Prop :=
  (t b i).key ≠ c.sentinel

/-- Every slot of the bucket is occupied. -/
def Full (t : Table c Payload) (b : Fin c.directorySize) : Prop := ∀ i, Occupied t b i

def Resident (t : Table c Payload) (key : Key) : Prop := ∃ b i, (t b i).key = key

def Stores (t : Table c Payload) (key : Key) (payload : Payload) : Prop :=
  ∃ b i, t b i = { key := key, payload := payload }

theorem Stores.resident {t : Table c Payload} {key : Key} {payload : Payload} (h : Stores t key payload) :
    Resident t key := by
  obtain ⟨b, i, hbi⟩ := h
  exact ⟨b, i, by rw [hbi]⟩

theorem Resident.stores {t : Table c Payload} {key : Key} (h : Resident t key) :
    ∃ payload, Stores t key payload := by
  obtain ⟨b, i, rfl⟩ := h
  exact ⟨_, b, i, rfl⟩

/-- What every run keeps. -/
structure Inv (t : Table c Payload) : Prop where
  filled : ∀ b i i', i' ≤ i → Occupied t b i → Occupied t b i'
  unique : ∀ b i b' i', Occupied t b i → (t b' i').key = (t b i).key → b' = b ∧ i' = i
  reach : ∀ b i, Occupied t b i → ∃ s, c.Reaches (t b i).key s ∧ c.bucketAt (t b i).key s = b ∧
    ∀ j < s, Full t (c.bucketAt (t b i).key j)

theorem not_occupied_clear (t : Table c Payload) (b : Fin c.directorySize) (i : Fin c.bucketSize) :
    ¬ Occupied (clear c t) b i :=
  not_not_intro rfl

theorem inv_clear (t : Table c Payload) : Inv (clear c t) where
  filled b i _ _ h := absurd h (not_occupied_clear t b i)
  unique b i _ _ h := absurd h (not_occupied_clear t b i)
  reach b i h := absurd h (not_occupied_clear t b i)

theorem not_resident_clear (t : Table c Payload) {key : Key} (hkey : key ≠ c.sentinel) :
    ¬ Resident (clear c t) key := by
  rintro ⟨b, i, h⟩
  exact hkey h.symm

/-- A resident key is not at a slot a probe loop for it passes, nor beyond an empty slot it meets. -/
theorem Inv.resident_visit {t : Table c Payload} (hinv : Inv t) {key : Key} (hkey : key ≠ c.sentinel)
    (hres : Resident t key) {s i : ℕ}
    (hbefore : ∀ j < s, ∀ i', (t (c.bucketAt key j) i').key ≠ key)
    (hbucket : ∀ i' : Fin c.bucketSize, (i' : ℕ) < i → (t (c.bucketAt key s) i').key ≠ key) :
    (∀ i' : Fin c.bucketSize, (i' : ℕ) = i → (t (c.bucketAt key s) i').key ≠ key →
      Occupied t (c.bucketAt key s) i') ∧
    (c.bucketSize ≤ i → c.Reaches key (s + 1)) := by
  obtain ⟨b, i₀, hb⟩ := hres
  subst hb
  obtain ⟨s₀, hreach, hbucketAt, hfull⟩ := hinv.reach b i₀ hkey
  have hs : s ≤ s₀ := by
    by_contra hlt
    exact hbefore s₀ (by omega) i₀ (by rw [hbucketAt])
  refine ⟨fun i' hi' hne => ?_, fun hi => ?_⟩
  · rcases Nat.lt_or_eq_of_le hs with hlt | rfl
    · exact hfull s hlt i'
    · rw [hbucketAt] at hbucket hne ⊢
      have hle : i' ≤ i₀ := by
        by_contra hlt
        exact hbucket i₀ (by omega) rfl
      exact hinv.filled b i₀ i' hle hkey
  · rcases Nat.lt_or_eq_of_le hs with hlt | rfl
    · exact hreach.mono hlt
    · rw [hbucketAt] at hbucket
      exact absurd rfl (hbucket i₀ (by omega))

theorem Inv.stores_unique {t : Table c Payload} (hinv : Inv t) {key : Key} (hkey : key ≠ c.sentinel)
    {p q : Payload} (hp : Stores t key p) (hq : Stores t key q) : p = q := by
  obtain ⟨b, i, hbi⟩ := hp
  obtain ⟨b', i', hbi'⟩ := hq
  have hocc : Occupied t b i := by rw [Occupied, hbi]; exact hkey
  obtain ⟨rfl, rfl⟩ := hinv.unique b i b' i' hocc (by rw [hbi, hbi'])
  rw [hbi] at hbi'
  exact congrArg Slot.payload hbi'

end

/-! ### Placing a key -/

section
variable {Key Hash Payload : Type} {c : Config Key Hash}

/-- Where an insert puts an absent key: in the first empty slot its probe sequence meets. -/
structure Placed (t : Table c Payload) (key : Key) (s : ℕ) (i : Fin c.bucketSize) : Prop where
  reaches : c.Reaches key s
  full : ∀ j < s, Full t (c.bucketAt key j)
  before : ∀ i' < i, Occupied t (c.bucketAt key s) i'
  empty : ¬ Occupied t (c.bucketAt key s) i

/-- A probe sequence that is back at the home bucket and has met no empty slot. -/
def Exhausted (t : Table c Payload) (key : Key) : Prop :=
  ∃ s, c.Reaches key s ∧ (∀ j ≤ s, Full t (c.bucketAt key j)) ∧
    c.bucketAt key ((s + 1) % 2 ^ 64) = c.home key

/-- With linear probing a probe sequence that met no empty slot has seen the whole directory. -/
theorem Exhausted.full (hlinear : c.probingfn = .linear) (hN : c.directorySize ≤ 2 ^ 63)
    {t : Table c Payload} {key : Key} (hexh : Exhausted t key) (b : Fin c.directorySize) : Full t b := by
  obtain ⟨s, hreach, hfull, hback⟩ := hexh
  simp only [Config.Reaches, Config.bucketAt, hlinear] at hreach hfull hback
  have hs := (ProbingFn.reaches_linear_iff hN (c.home key)).mp hreach
  rw [Nat.mod_eq_of_lt (by omega), ProbingFn.probe_linear_eq_self_iff hN _ (by omega)] at hback
  obtain ⟨j, hj, rfl⟩ := ProbingFn.exists_probe_linear hN (c.home key) b
  exact hfull j (by omega)

variable {t : Table c Payload} {key : Key} {s : ℕ} {i : Fin c.bucketSize}

/-- Placing a key leaves the occupied slots as they are. -/
theorem Placed.set_of_occupied (h : Placed t key s i) (payload : Payload) {b : Fin c.directorySize}
    {i' : Fin c.bucketSize} (hocc : Occupied t b i') :
    t.set (c.bucketAt key s) i { key := key, payload := payload } b i' = t b i' := by
  apply Grid.set_of_ne
  rintro ⟨rfl, rfl⟩
  exact h.empty hocc

theorem Placed.occupied_iff (h : Placed t key s i) (hkey : key ≠ c.sentinel) (payload : Payload)
    (b : Fin c.directorySize) (i' : Fin c.bucketSize) :
    Occupied (t.set (c.bucketAt key s) i { key := key, payload := payload }) b i' ↔
      Occupied t b i' ∨ (b = c.bucketAt key s ∧ i' = i) := by
  by_cases hslot : b = c.bucketAt key s ∧ i' = i
  · obtain ⟨rfl, rfl⟩ := hslot
    simp [Occupied, hkey]
  · simp only [Occupied, Grid.set_of_ne hslot, hslot, or_false]

theorem Placed.inv (h : Placed t key s i) (hinv : Inv t) (hkey : key ≠ c.sentinel)
    (hres : ¬ Resident t key) (payload : Payload) :
    Inv (t.set (c.bucketAt key s) i { key := key, payload := payload }) := by
  have hocc := h.occupied_iff hkey payload
  refine ⟨fun b i₁ i₂ hle h₁ => ?_, fun b i₁ b' i₂ h₁ heq => ?_, fun b i₁ h₁ => ?_⟩
  · rw [hocc] at h₁ ⊢
    rcases h₁ with h₁ | ⟨rfl, rfl⟩
    · exact Or.inl (hinv.filled b i₁ i₂ hle h₁)
    · rcases lt_or_eq_of_le hle with hlt | rfl
      · exact Or.inl (h.before i₂ hlt)
      · exact Or.inr ⟨rfl, rfl⟩
  · have hne : ∀ b i', Occupied t b i' → (t b i').key ≠ key := fun b i' _ he => hres ⟨b, i', he⟩
    have h₂ : Occupied (t.set (c.bucketAt key s) i { key := key, payload := payload }) b' i₂ := by
      unfold Occupied at h₁ ⊢
      rwa [heq]
    rcases (hocc b i₁).mp h₁ with hold₁ | ⟨rfl, rfl⟩ <;>
      rcases (hocc b' i₂).mp h₂ with hold₂ | ⟨rfl, rfl⟩
    · rw [h.set_of_occupied payload hold₁, h.set_of_occupied payload hold₂] at heq
      exact hinv.unique b i₁ b' i₂ hold₁ heq
    · rw [h.set_of_occupied payload hold₁, Grid.set_self] at heq
      exact absurd heq.symm (hne _ _ hold₁)
    · rw [h.set_of_occupied payload hold₂, Grid.set_self] at heq
      exact absurd heq (hne _ _ hold₂)
    · exact ⟨rfl, rfl⟩
  · have hfull : ∀ b, Full t b →
        Full (t.set (c.bucketAt key s) i { key := key, payload := payload }) b :=
      fun b hb i' => (hocc b i').mpr (Or.inl (hb i'))
    rcases (hocc b i₁).mp h₁ with h₁ | ⟨rfl, rfl⟩
    · rw [h.set_of_occupied payload h₁]
      obtain ⟨s₀, hreach, hbucket, hbefore⟩ := hinv.reach b i₁ h₁
      exact ⟨s₀, hreach, hbucket, fun j hj => hfull _ (hbefore j hj)⟩
    · rw [Grid.set_self]
      exact ⟨s, h.reaches, rfl, fun j hj => hfull _ (h.full j hj)⟩

theorem Placed.stores_iff (h : Placed t key s i) (hkey : key ≠ c.sentinel) (payload : Payload) {k : Key}
    (hk : k ≠ c.sentinel) (q : Payload) :
    Stores (t.set (c.bucketAt key s) i { key := key, payload := payload }) k q ↔
      Stores t k q ∨ (k = key ∧ q = payload) := by
  constructor
  · rintro ⟨b, i', hbi⟩
    have hocc : Occupied (t.set (c.bucketAt key s) i { key := key, payload := payload }) b i' := by
      rw [Occupied, hbi]
      exact hk
    rcases (h.occupied_iff hkey payload b i').mp hocc with hocc | ⟨rfl, rfl⟩
    · rw [h.set_of_occupied payload hocc] at hbi
      exact Or.inl ⟨b, i', hbi⟩
    · rw [Grid.set_self] at hbi
      cases hbi
      exact Or.inr ⟨rfl, rfl⟩
  · rintro (⟨b, i', hbi⟩ | ⟨rfl, rfl⟩)
    · refine ⟨b, i', ?_⟩
      rwa [h.set_of_occupied payload]
      rw [Occupied, hbi]
      exact hk
    · exact ⟨_, _, Grid.set_self _ _ _ _⟩

end

/-! ### Insert -/

section
variable {Key Hash Payload : Type} [DecidableEq Key] {c : Config Key Hash}

theorem insertVisit_eq_none {t : Table c Payload} {key : Key} {payload : Payload}
    {b : Fin c.directorySize} {s : ℕ} {i : Fin c.bucketSize} :
    insertVisit c t key payload b s i = none ↔ Occupied t b i ∧ (t b i).key ≠ key := by
  unfold insertVisit Occupied
  split_ifs <;> simp_all

/-- **What an insert does**: refuse a resident key, place an absent one, or throw. -/
theorem insert_cases {t : Table c Payload} (hinv : Inv t) {key : Key} (hkey : key ≠ c.sentinel)
    (payload : Payload) :
    (Resident t key ∧ insert c t key payload = (.value false, t)) ∨
    (¬ Resident t key ∧ ∃ s i, Placed t key s i ∧ insert c t key payload =
      (.value true, t.set (c.bucketAt key s) i { key := key, payload := payload })) ∨
    (¬ Resident t key ∧ Exhausted t key ∧
      insert c t key payload = (.thrown (cycleMessage c), t)) := by
  obtain ⟨r, hr, hanswer⟩ := probeLoop_spec c.probingfn c.directorySize_lt.le (c.home key)
    (insertVisit c t key payload) (.thrown (cycleMessage c), t)
  have hins : insert c t key payload = r := by
    rw [insert, if_neg hkey, hr, Option.getD_some]
  rw [hins]
  cases hanswer with
  | found s i r hreach hpassed hvisit =>
    unfold insertVisit at hvisit
    split_ifs at hvisit with hempty heq
    · refine Or.inr (Or.inl ⟨fun hres => ?_, s, i, ⟨hreach, ?_, ?_, not_not_intro hempty⟩, ?_⟩)
      · have hne : (t (c.bucketAt key s) i).key ≠ key := fun h => hkey (h.symm.trans hempty)
        exact (hinv.resident_visit hkey hres
          (fun j hj i' => (insertVisit_eq_none.mp (hpassed.1 j hj i')).2)
          (fun i' hi' => (insertVisit_eq_none.mp (hpassed.2 i' hi')).2)).1 i rfl hne hempty
      · exact fun j hj i' => (insertVisit_eq_none.mp (hpassed.1 j hj i')).1
      · exact fun i' hi' => (insertVisit_eq_none.mp (hpassed.2 i' hi')).1
      · exact (Option.some.inj hvisit).symm
    · exact Or.inl ⟨⟨_, _, heq⟩, (Option.some.inj hvisit).symm⟩
  | back s hreach hpassed hback =>
    refine Or.inr (Or.inr ⟨fun hres => ?_, ⟨s, hreach, fun j hj i' => ?_, hback⟩, rfl⟩)
    · have hsucc := (hinv.resident_visit hkey hres
        (fun j hj i' => (insertVisit_eq_none.mp (hpassed.1 j hj i')).2)
        (fun i' hi' => (insertVisit_eq_none.mp (hpassed.2 i' hi')).2)).2 le_rfl
      rw [Nat.mod_eq_of_lt hsucc.1] at hback
      exact hsucc.2 (s + 1) (by omega) le_rfl hback
    · rcases Nat.lt_or_eq_of_le hj with hj | rfl
      · exact (insertVisit_eq_none.mp (hpassed.1 j hj i')).1
      · exact (insertVisit_eq_none.mp (hpassed.2 i' i'.isLt)).1

end

/-! ### Lookup -/

section
variable {Key Hash Payload : Type} [DecidableEq Key] {c : Config Key Hash} {t : Table c Payload} {key : Key}

theorem lookupVisit_eq_none {b : Fin c.directorySize} {s : ℕ} {i : Fin c.bucketSize} :
    lookupVisit c t key b s i = none ↔ Occupied t b i ∧ (t b i).key ≠ key := by
  unfold lookupVisit Occupied
  split_ifs <;> simp_all

/-- A lookup ends, and with a payload only if the table holds it. -/
theorem lookup_cases (hinv : Inv t) (hkey : key ≠ c.sentinel) :
    (∃ payload, Stores t key payload ∧ lookup c t key = .value (some payload)) ∨
    (¬ Resident t key ∧ lookup c t key = .value none) := by
  obtain ⟨r, hr, hanswer⟩ := probeLoop_spec c.probingfn c.directorySize_lt.le (c.home key)
    (lookupVisit c t key) (.value none)
  have hlook : lookup c t key = r := by
    rw [lookup, if_neg hkey, hr, Option.getD_some]
  rw [hlook]
  cases hanswer with
  | found s i r hreach hpassed hvisit =>
    unfold lookupVisit at hvisit
    split_ifs at hvisit with heq hempty
    · refine Or.inl ⟨_, ⟨c.bucketAt key s, i, ?_⟩, (Option.some.inj hvisit).symm⟩
      exact congrArg (Slot.mk · _) heq
    · refine Or.inr ⟨fun hres => ?_, (Option.some.inj hvisit).symm⟩
      exact (hinv.resident_visit hkey hres
        (fun j hj i' => (lookupVisit_eq_none.mp (hpassed.1 j hj i')).2)
        (fun i' hi' => (lookupVisit_eq_none.mp (hpassed.2 i' hi')).2)).1 i rfl heq hempty
  | back s hreach hpassed hback =>
    refine Or.inr ⟨fun hres => ?_, rfl⟩
    have hsucc := (hinv.resident_visit hkey hres
      (fun j hj i' => (lookupVisit_eq_none.mp (hpassed.1 j hj i')).2)
      (fun i' hi' => (lookupVisit_eq_none.mp (hpassed.2 i' hi')).2)).2 le_rfl
    rw [Nat.mod_eq_of_lt hsucc.1] at hback
    exact hsucc.2 (s + 1) (by omega) le_rfl hback

theorem lookup_of_stores (hinv : Inv t) (hkey : key ≠ c.sentinel) {payload : Payload}
    (h : Stores t key payload) : lookup c t key = .value (some payload) := by
  rcases lookup_cases hinv hkey with ⟨q, hq, hlook⟩ | ⟨hres, -⟩
  · rw [hlook, hinv.stores_unique hkey h hq]
  · exact absurd h.resident hres

theorem lookup_of_not_resident (hinv : Inv t) (hkey : key ≠ c.sentinel) (h : ¬ Resident t key) :
    lookup c t key = .value none := by
  rcases lookup_cases hinv hkey with ⟨q, hq, -⟩ | ⟨-, hlook⟩
  · exact absurd hq.resident h
  · exact hlook

theorem lookup_answers (hinv : Inv t) (hkey : key ≠ c.sentinel) : Answers (Stores t key) (lookup c t key) where
  stored _ h := lookup_of_stores hinv hkey h
  absent h := lookup_of_not_resident hinv hkey fun hres => hres.stores.elim h

end

end HashingArchive.Hashtable.Probing
