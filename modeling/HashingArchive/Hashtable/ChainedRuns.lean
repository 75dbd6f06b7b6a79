import HashingArchive.Hashtable.Chained

/-!
# `Chained` and duplicate keys

An insert looks for its key in the chain but not in the directory slot. Along any run `Inv` holds,
and the directory slot of a bucket holds the first key inserted there since the last clear
(`opener`, `Opened`). So an insert is truthful, and each key stays in one slot, exactly as long as the
key that opened a bucket is not inserted again.
-/

namespace HashingArchive.Hashtable.Chained

open HashingArchive.Library

variable {Key Hash Payload : Type} [DecidableEq Key] {c : Config Key Hash Payload}

/-! ### The table slot by slot -/

/-- A slot of one bucket of the directory: the directory slot itself, or slot `i` of the `j`-th bucket
of its chain. -/
abbrev Place (c : Config Key Hash Payload) := Option (ℕ × Fin c.bucketSize)

/-- What the table holds at a place, if there is such a slot and it is not empty. -/
def entry (t : Table c) (b : Fin c.directorySize) : Place c → Option (Slot Key Payload)
  | none => if (t b).key = c.sentinel then none else some { key := (t b).key, payload := (t b).payload }
  | some (j, i) => chainEntry (t b).buckets j i

/-- The key is in some slot of the table. -/
def Resident (t : Table c) (key : Key) : Prop := ∃ b place s, entry t b place = some s ∧ s.key = key

/-- No key is in two slots. -/
def AtMostOnce (t : Table c) : Prop :=
  ∀ b place s b' place' s', entry t b place = some s → entry t b' place' = some s' → s.key = s'.key →
    b' = b ∧ place' = place

/-- One slot of bucket `b` becomes occupied, by the entry given, and the others stay as they are. -/
def AddsOne (t t' : Table c) (b : Fin c.directorySize) (s : Slot Key Payload) : Prop :=
  ∃ place, entry t b place = none ∧
    ∀ b' place', entry t' b' place' = if b' = b ∧ place' = place then some s else entry t b' place'

/-- What the documentation of `insert` says: it inserts into one free slot and returns `true` if the
key is not resident, and else returns `false` and changes nothing. -/
def Truthful (t : Table c) (key : Key) (payload : Payload) : Prop :=
  (¬ Resident t key ∧ (insert c t key payload).1 = .value true ∧
    AddsOne t (insert c t key payload).2 (c.home key) { key := key, payload := payload }) ∨
  (Resident t key ∧ insert c t key payload = (.value false, t))

/-- What every run keeps. -/
structure Inv (t : Table c) : Prop where
  home : ∀ b place s, entry t b place = some s → c.home s.key = b
  filled : ∀ b, Filled (t b).buckets
  opened : ∀ b, (t b).key = c.sentinel → (t b).buckets = []

theorem entry_clear (t : Table c) (b : Fin c.directorySize) (place : Place c) :
    entry (clear c t) b place = none := by
  cases place with
  | none => exact if_pos rfl
  | some p => rfl

theorem inv_clear (t : Table c) : Inv (clear c t) where
  home b place s h := absurd h (by rw [entry_clear]; simp)
  filled b := trivial
  opened b _ := rfl

theorem atMostOnce_clear (t : Table c) : AtMostOnce (clear c t) := by
  intro b place s b' place' s' h
  exact absurd h (by rw [entry_clear]; simp)

/-- A key is in the directory slot or in the chain of its home bucket. -/
theorem Inv.resident_iff {t : Table c} (hinv : Inv t) {key : Key} (hkey : key ≠ c.sentinel) :
    Resident t key ↔ (t (c.home key)).key = key ∨ InChain key (t (c.home key)).buckets := by
  rw [inChain_iff_entry hkey]
  constructor
  · intro ⟨b, place, s, hs, hskey⟩
    obtain rfl : c.home key = b := by rw [← hskey]; exact hinv.home b place s hs
    cases place with
    | none =>
      unfold entry at hs
      split_ifs at hs
      obtain rfl := Option.some.inj hs
      exact Or.inl hskey
    | some p => exact Or.inr ⟨p.1, p.2, s, hs, hskey⟩
  · intro h
    rcases h with h | ⟨j, i, s, hs, hskey⟩
    · exact ⟨c.home key, none, _, if_neg (by rwa [h]), h⟩
    · exact ⟨c.home key, some (j, i), s, hs, hskey⟩

/-! ### One insert -/

/-- Changing one bucket of the directory so that one slot of it gets an entry. -/
theorem addsOne_update {t : Table c} {b : Fin c.directorySize} {slot : FirstLevelSlot c} (place : Place c)
    {s : Slot Key Payload} (hnone : entry t b place = none)
    (hentry : ∀ place', entry (Function.update t b slot) b place' =
      if place' = place then some s else entry t b place') :
    AddsOne t (Function.update t b slot) b s := by
  refine ⟨place, hnone, fun b' place' => ?_⟩
  by_cases hb : b' = b
  · subst hb
    simp [hentry]
  · rw [if_neg fun h => hb h.1]
    cases place' <;> simp [entry, hb]

/-- What an insert does: it refuses a key of the chain, and puts any other into one free slot. -/
theorem insert_cases {t : Table c} (hinv : Inv t) {key : Key} (hkey : key ≠ c.sentinel) (payload : Payload) :
    (InChain key (t (c.home key)).buckets ∧ insert c t key payload = (.value false, t)) ∨
    (¬ InChain key (t (c.home key)).buckets ∧ ∃ slot : FirstLevelSlot c, slot.key ≠ c.sentinel ∧
      Filled slot.buckets ∧ (slot.key = if (t (c.home key)).key = c.sentinel then key else (t (c.home key)).key) ∧
      insert c t key payload = (.value true, Function.update t (c.home key) slot) ∧
      AddsOne t (Function.update t (c.home key) slot) (c.home key) { key := key, payload := payload }) := by
  unfold insert
  rw [if_neg hkey]
  dsimp only
  by_cases hdir : (t (c.home key)).key = c.sentinel
  · have hchain := hinv.opened _ hdir
    refine Or.inr ⟨fun h => ?_, { t (c.home key) with key := key, payload := payload }, hkey,
      hinv.filled _, (if_pos hdir).symm, if_pos hdir, addsOne_update none (if_pos hdir) fun place' => ?_⟩
    · obtain ⟨bucket, hmem, -⟩ := h
      rw [hchain] at hmem
      exact absurd hmem (by simp)
    · cases place' with
      | none => simp [entry, hkey]
      | some p => simp [entry]
  · rw [if_neg hdir]
    rcases insertChain_cases hkey payload _ (hinv.filled (c.home key)) with ⟨hin, hins⟩ |
      ⟨hnot, hr, hfilled, j, i, hnone, hentry⟩
    · refine Or.inl ⟨hin, ?_⟩
      rw [hins]
      exact congrArg (Prod.mk _) (Function.update_eq_self _ _)
    · refine Or.inr ⟨hnot, { t (c.home key) with buckets := (insertChain c key payload _).2 }, hdir, hfilled,
        (if_neg hdir).symm, by rw [hr], addsOne_update (some (j, i)) hnone fun place' => ?_⟩
      cases place' with
      | none => simp [entry]
      | some p =>
        simp only [entry, Function.update_self, hentry, Option.some.injEq, Prod.ext_iff]

/-- An insert keeps the invariant. -/
theorem Inv.insert {t : Table c} (hinv : Inv t) {key : Key} (hkey : key ≠ c.sentinel) (payload : Payload) :
    Inv (insert c t key payload).2 := by
  rcases insert_cases hinv hkey payload with ⟨-, hins⟩ | ⟨-, slot, hdir, hfilled, -, hins, place, -, hentry⟩ <;>
    rw [hins]
  · exact hinv
  · refine ⟨fun b place' s hs => ?_, fun b => ?_, fun b hb => ?_⟩
    · rw [hentry] at hs
      split_ifs at hs with hnew
      · obtain rfl := Option.some.inj hs
        exact hnew.1.symm
      · exact hinv.home b place' s hs
    · by_cases hb : b = c.home key
      · subst hb
        simpa using hfilled
      · simpa [hb] using hinv.filled b
    · by_cases hbk : b = c.home key
      · subst hbk
        exact absurd (by simpa using hb) hdir
      · simp only [Function.update_of_ne hbk] at hb ⊢
        exact hinv.opened b hb

/-- An insert is truthful if its key is not the one in the directory slot. -/
theorem truthful_of_ne {t : Table c} (hinv : Inv t) {key : Key} (hkey : key ≠ c.sentinel) (payload : Payload)
    (hne : (t (c.home key)).key ≠ key) : Truthful t key payload := by
  unfold Truthful
  rw [hinv.resident_iff hkey, or_iff_right hne]
  rcases insert_cases hinv hkey payload with ⟨hin, hins⟩ | ⟨hnot, slot, -, -, -, hins, hadds⟩
  · exact Or.inr ⟨hin, hins⟩
  · rw [hins]
    exact Or.inl ⟨hnot, rfl, hadds⟩

/-- An insert of the key in the directory slot is not truthful, or has been before. -/
theorem not_truthful_of_eq {t : Table c} (hinv : Inv t) {key : Key} (hkey : key ≠ c.sentinel)
    (payload : Payload) (heq : (t (c.home key)).key = key) (honce : AtMostOnce t) :
    ¬ Truthful t key payload := by
  have hres : Resident t key := (hinv.resident_iff hkey).mpr (Or.inl heq)
  intro htruth
  rcases htruth with ⟨hnot, -⟩ | ⟨-, hfalse⟩
  · exact hnot hres
  · rcases insert_cases hinv hkey payload with ⟨hin, -⟩ | ⟨-, slot, -, -, -, hins, -⟩
    · obtain ⟨j, i, s, hs, hskey⟩ := (inChain_iff_entry hkey _).mp hin
      have hdir : entry t (c.home key) none = some { key := key, payload := (t (c.home key)).payload } := by
        rw [entry, if_neg (by rwa [heq]), heq]
      exact absurd (honce _ none _ _ (some (j, i)) s hdir hs hskey.symm).2 (by simp)
    · rw [hins] at hfalse
      exact absurd hfalse (by simp)

/-- A truthful insert keeps every key in one slot. -/
theorem Truthful.atMostOnce {t : Table c} {key : Key} {payload : Payload} (htruth : Truthful t key payload)
    (honce : AtMostOnce t) : AtMostOnce (Chained.insert c t key payload).2 := by
  rcases htruth with ⟨habsent, -, place, -, hentry⟩ | ⟨-, hfalse⟩
  · intro b₁ place₁ s₁ b₂ place₂ s₂ h₁ h₂ heq
    rw [hentry] at h₁ h₂
    split_ifs at h₁ h₂ with hnew₁ hnew₂ hnew₂
    · exact ⟨hnew₂.1.trans hnew₁.1.symm, hnew₂.2.trans hnew₁.2.symm⟩
    · obtain rfl := Option.some.inj h₁
      exact absurd ⟨b₂, place₂, s₂, h₂, heq.symm⟩ habsent
    · obtain rfl := Option.some.inj h₂
      exact absurd ⟨b₁, place₁, s₁, h₁, heq⟩ habsent
    · exact honce b₁ place₁ s₁ b₂ place₂ s₂ h₁ h₂ heq
  · rw [hfalse]
    exact honce

/-! ### Runs -/

/-- The first key inserted into bucket `b` since the last clear. -/
def opener (c : Config Key Hash Payload) (b : Fin c.directorySize) : History Key Payload Bool → Option Key
  | [] => none
  | .clear :: _ => none
  | .lookup _ _ :: h => opener c b h
  | .insert key _ _ :: h =>
    match opener c b h with
    | some k => some k
    | none => if c.home key = b then some key else none

/-- The key in a directory slot. -/
def directoryKey (t : Table c) (b : Fin c.directorySize) : Option Key :=
  if (t b).key = c.sentinel then none else some (t b).key

theorem directoryKey_eq_some_iff (t : Table c) (b : Fin c.directorySize) {key : Key} (hkey : key ≠ c.sentinel) :
    directoryKey t b = some key ↔ (t b).key = key := by
  unfold directoryKey
  split_ifs with hb
  · rw [hb]
    exact iff_of_false (by simp) (Ne.symm hkey)
  · simp

/-- The table is sound, and its directory slots hold the keys that opened the buckets. -/
structure Opened (h : History Key Payload Bool) (t : Table c) : Prop where
  inv : Inv t
  opener_eq : ∀ b, opener c b h = directoryKey t b

theorem opened_clear (t : Table c) : Opened [] (clear c t) where
  inv := inv_clear t
  opener_eq _ := (if_pos rfl).symm

/-- The step lemma. -/
theorem Opened.step {h : History Key Payload Bool} {t : Table c} (ho : Opened h t) (op : Op Key Payload)
    (hop : op.Avoids (· = c.sentinel)) :
    Opened (((store c).step t op).1 :: h) ((store c).step t op).2 := by
  cases op with
  | lookup k => exact ⟨ho.inv, ho.opener_eq⟩
  | clear => exact ⟨inv_clear t, fun b => (if_pos rfl).symm⟩
  | insert key payload =>
    have hkey : key ≠ c.sentinel := hop
    refine ⟨ho.inv.insert hkey payload, fun b => ?_⟩
    have hopener : opener c b (((store c).step t (.insert key payload)).1 :: h) =
        match directoryKey t b with
        | some k => some k
        | none => if c.home key = b then some key else none := by
      rw [← ho.opener_eq b]
      rfl
    have hnext : ((store c).step t (.insert key payload)).2 = (Chained.insert c t key payload).2 := rfl
    rw [hopener, hnext]
    rcases insert_cases ho.inv hkey payload with ⟨⟨bucket, hmem, -⟩, hins⟩ | ⟨-, slot, hdir, -, hslot, hins, -⟩ <;>
      rw [hins]
    · by_cases hb : (t b).key = c.sentinel
      · -- the chain of an empty directory slot is empty
        have hne : c.home key ≠ b := by
          intro hhome
          rw [hhome, ho.inv.opened _ hb] at hmem
          exact absurd hmem (by simp)
        simp [directoryKey, hb, hne]
      · simp [directoryKey, hb]
    · by_cases hb : b = c.home key
      · subst hb
        by_cases hempty : (t (c.home key)).key = c.sentinel
        · rw [if_pos hempty] at hslot
          simp [directoryKey, hempty, hslot, hkey]
        · rw [if_neg hempty] at hslot
          simp [directoryKey, hslot, hempty]
      · have hne : c.home key ≠ b := Ne.symm hb
        by_cases hempty : (t b).key = c.sentinel <;> simp [directoryKey, hb, hne, hempty]

/-- The run lemma. -/
theorem opened_run (memory : Table c) (ops : List (Op Key Payload))
    (hops : ∀ op ∈ ops, op.Avoids (· = c.sentinel)) :
    Opened ((store c).run (clear c memory) ops).1 ((store c).run (clear c memory) ops).2 :=
  Store.run_induction (·.Avoids (· = c.sentinel)) Opened (opened_clear memory)
    (fun _ _ op hop ho => ho.step op hop) ops hops

/-- **When `Chained` stores a key once and reports it truthfully.** Every insert of a run from a fresh
table is truthful and every state reached has each key in one slot, if and only if no insert of the
run is of the key that opened its bucket. -/
theorem chained_truthful_iff (c : Config Key Hash Payload) (memory : Table c) (ops : List (Op Key Payload))
    (hops : ∀ op ∈ ops, op.Avoids (· = c.sentinel)) :
    ((∀ ops₁ key payload, ops₁ ++ [.insert key payload] <+: ops →
        Truthful ((store c).run (clear c memory) ops₁).2 key payload) ∧
      ∀ ops₁, ops₁ <+: ops → AtMostOnce ((store c).run (clear c memory) ops₁).2) ↔
    ∀ ops₁ key payload, ops₁ ++ [.insert key payload] <+: ops →
      opener c (c.home key) ((store c).run (clear c memory) ops₁).1 ≠ some key := by
  have hok : ∀ ops₁, ops₁ <+: ops →
      Opened ((store c).run (clear c memory) ops₁).1 ((store c).run (clear c memory) ops₁).2 :=
    fun ops₁ hpre => opened_run memory ops₁ fun op hop => hops op (hpre.subset hop)
  have hkeys : ∀ ops₁ key payload, ops₁ ++ [.insert key payload] <+: ops → key ≠ c.sentinel :=
    fun ops₁ key payload hpre => hops (.insert key payload) (hpre.subset (by simp))
  constructor
  · intro ⟨htruth, honce⟩ ops₁ key payload hpre
    have hpre₁ : ops₁ <+: ops := (List.prefix_append _ _).trans hpre
    have hkey := hkeys ops₁ key payload hpre
    rw [ne_eq, (hok ops₁ hpre₁).opener_eq, directoryKey_eq_some_iff _ _ hkey]
    exact fun heq => not_truthful_of_eq (hok ops₁ hpre₁).inv hkey payload heq (honce ops₁ hpre₁)
      (htruth ops₁ key payload hpre)
  · intro hne
    have htruth : ∀ ops₁ key payload, ops₁ ++ [.insert key payload] <+: ops →
        Truthful ((store c).run (clear c memory) ops₁).2 key payload := by
      intro ops₁ key payload hpre
      have hpre₁ : ops₁ <+: ops := (List.prefix_append _ _).trans hpre
      have hkey := hkeys ops₁ key payload hpre
      have hopener := hne ops₁ key payload hpre
      rw [ne_eq, (hok ops₁ hpre₁).opener_eq, directoryKey_eq_some_iff _ _ hkey] at hopener
      exact truthful_of_ne (hok ops₁ hpre₁).inv hkey payload hopener
    refine ⟨htruth, fun ops₁ => ?_⟩
    induction ops₁ using List.reverseRecOn with
    | nil => exact fun _ => atMostOnce_clear memory
    | append_singleton ops₁ op ih =>
      intro hpre
      have honce := ih ((List.prefix_append _ _).trans hpre)
      rw [Store.run_concat]
      cases op with
      | lookup k => exact honce
      | clear => exact atMostOnce_clear _
      | insert key payload => exact (htruth ops₁ key payload hpre).atMostOnce honce

/-- One directory bucket with overflow buckets of one slot, the keys `0` and `1` and the sentinel `2`. -/
def oneBucket : Config (Fin 3) (Fin 3) ℕ where
  directorySize := 1
  bucketSize := 1
  bucketSize_pos := Nat.one_pos
  hashfn := id
  reductionfn _ := 0
  sentinel := 2
  blank := 9

/-- A fresh table of `oneBucket`. -/
def freshBucket : Table oneBucket := clear oneBucket fun _ => { key := 1, payload := 9, buckets := [] }

/-- The second insert of key `0` returns `true` and stores the key a second time. -/
theorem chained_inserts_twice :
    let t := ((store oneBucket).run freshBucket [.insert 0 5]).2
    let t' := (insert oneBucket t 0 6).2
    lookup oneBucket t 0 = .value (some 5) ∧ (insert oneBucket t 0 6).1 = .value true ∧
      entry t' (0 : Fin 1) none = some { key := 0, payload := 5 } ∧
      entry t' (0 : Fin 1) (some (0, (0 : Fin 1))) = some { key := 0, payload := 6 } :=
  ⟨by decide, by decide, rfl, rfl⟩

/-- The key `1` goes to the chain behind key `0`, and its second insert is refused. -/
theorem chained_truthful_one_bucket :
    Truthful ((store oneBucket).run freshBucket [.insert 0 5, .insert 1 6]).2 1 7 := by
  refine ((chained_truthful_iff oneBucket (fun _ => { key := 1, payload := 9, buckets := [] })
    [.insert 0 5, .insert 1 6, .insert 1 7] (by decide)).mpr ?_).1 [.insert 0 5, .insert 1 6] 1 7 (by simp)
  intro ops₁ key payload hpre
  rcases ops₁ with _ | ⟨op₁, _ | ⟨op₂, _ | ⟨op₃, _⟩⟩⟩ <;> simp [List.cons_prefix_cons] at hpre
  · obtain ⟨rfl, rfl⟩ := hpre
    decide
  · obtain ⟨rfl, rfl, rfl⟩ := hpre
    decide
  · obtain ⟨rfl, rfl, rfl, rfl⟩ := hpre
    decide

end HashingArchive.Hashtable.Chained
