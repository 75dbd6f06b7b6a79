import HashingArchive.Hashtable.CuckooInsert

/-!
# `Cuckoo` is an overwriting map, and what a throw costs

A run from a fresh table that does not throw is a run of the last-writer-wins map
(`cuckoo_refines`). Every run leaves the table sound, with throwing inserts and inserts of `Sentinel`
(`sound_run`), and a throwing insert drops the key in hand after the last kick: one key of those resident
before and the key to insert.
-/

namespace HashingArchive.Hashtable.Cuckoo

open HashingArchive.Library HashingArchive.Loop

variable {Key Hash1 Hash2 Payload : Type} [DecidableEq Key] {c : Config Key Hash1 Hash2}

/-- A fresh table over what memory held. -/
def fresh (c : Config Key Hash1 Hash2) (memory : Buckets c Payload) : Table c Payload :=
  clear c { buckets := memory, draws := 0 }

/-- Any run of any operations leaves the table sound. -/
theorem sound_run (memory : Buckets c Payload) (ops : List (Op Key Payload)) :
    Sound ((store c).run (fresh c memory) ops).2.buckets := by
  refine Store.run_induction (fun _ => True) (fun _ (t : Table c Payload) => Sound t.buckets) (inv_clear _).toSound
    (fun h t op _ hsound => ?_) ops fun _ _ => trivial
  cases op with
  | lookup k => exact hsound
  | clear => exact (inv_clear t).toSound
  | insert k p => exact hsound.insert k p

/-! ### Runs that do not throw -/

/-- The table stands for the abstract map `a`. -/
structure Represents (t : Table c Payload) (a : Key → Option Payload) : Prop where
  inv : Inv t.buckets
  stores_iff : ∀ key, key ≠ c.sentinel → ∀ payload, Stores t.buckets key payload ↔ a key = some payload

theorem Represents.lookup_eq {t : Table c Payload} {a : Key → Option Payload} (hr : Represents t a) {key : Key}
    (hkey : key ≠ c.sentinel) : lookup c t key = .value (a key) :=
  (lookup_answers hr.inv.toSound hkey).eq_value (hr.stores_iff key hkey)

omit [DecidableEq Key] in
theorem represents_clear (t : Table c Payload) : Represents (clear c t) (fun _ => none) where
  inv := inv_clear t
  stores_iff key hkey payload :=
    iff_of_false (fun hs => not_resident_clear t hkey hs.resident) (by simp)

/-- A step that does not throw is a step of the overwriting map. -/
theorem Represents.step {t : Table c Payload} {a : Key → Option Payload} (hr : Represents t a)
    (op : Op Key Payload) (hop : op.Avoids (· = c.sentinel)) (hthrow : ¬ ((store c).step t op).1.Throws) :
    ((store c).step t op).1 = (lastWriter.step a op).1 ∧
      Represents ((store c).step t op).2 (lastWriter.step a op).2 := by
  cases op with
  | lookup k =>
    have hk : k ≠ c.sentinel := hop
    refine ⟨?_, hr⟩
    simp only [Store.step, store, lastWriter]
    rw [hr.lookup_eq hk]
  | clear => exact ⟨rfl, represents_clear t⟩
  | insert k p =>
    have hk : k ≠ c.sentinel := hop
    simp only [Store.step, store, lastWriter] at hthrow ⊢
    by_cases hres : Resident t.buckets k
    · obtain ⟨b, i, hkey, hins⟩ := insert_resident hr.inv.toSound hk hres p
      rw [hins]
      refine ⟨rfl, hr.inv.overwrite hkey, fun key hne q => ?_⟩
      rw [hr.inv.toSound.stores_overwrite hk hkey p key q]
      split_ifs with hkk
      · subst hkk
        simp [eq_comm]
      · rw [Function.update_of_ne hkk, hr.stores_iff key hne q]
    · have hsettled := insert_absent hr.inv hk hres p
      generalize insert c t k p = r at hsettled hthrow ⊢
      cases hsettled with
      | thrown t' v pv _ _ => exact absurd (by simp) hthrow
      | stored t' hinv hstores =>
        refine ⟨rfl, hinv, fun key hkey q => ?_⟩
        rw [hstores key hkey q]
        by_cases hkk : key = k
        · subst hkk
          have hnone : ¬ Stores t.buckets key q := fun hs => hres hs.resident
          simp [hnone, eq_comm]
        · rw [Function.update_of_ne hkk, hr.stores_iff key hkey q]
          simp [hkk]

/-- **Refinement.** A run from a fresh table that does not throw has the history of the overwriting map. -/
theorem cuckoo_refines (memory : Buckets c Payload) (ops : List (Op Key Payload))
    (hops : ∀ op ∈ ops, op.Avoids (· = c.sentinel))
    (hthrow : ∀ e ∈ ((store c).run (fresh c memory) ops).1, ¬ e.Throws) :
    ((store c).run (fresh c memory) ops).1 = (lastWriter.run (fun _ => none) ops).1 ∧
      Represents ((store c).run (fresh c memory) ops).2 (lastWriter.run (fun _ => none) ops).2 :=
  Store.run_refines (represents_clear _) (fun _ _ op hop hr hthrow => hr.step op hop hthrow) ops hops hthrow

/-- **`Cuckoo` refines a last-writer-wins map**, in every state a run without a throw reaches from a
fresh table. -/
theorem cuckoo_last_writer_wins (c : Config Key Hash1 Hash2) (memory : Buckets c Payload)
    (ops : List (Op Key Payload)) (hops : ∀ op ∈ ops, op.Avoids (· = c.sentinel))
    (hthrow : ∀ e ∈ ((store c).run (fresh c memory) ops).1, ¬ e.Throws) :
    let h := ((store c).run (fresh c memory) ops).1
    let t := ((store c).run (fresh c memory) ops).2
    h = (lastWriter.run (fun _ => none) ops).1 ∧
    (∀ key, key ≠ c.sentinel → Resident t.buckets key →
      ∃! slot : Fin c.directorySize × Fin c.bucketSize, (t.buckets slot.1 slot.2).key = key) ∧
    (∀ b i, (t.buckets b i).key ≠ c.sentinel →
      b = c.i1 (t.buckets b i).key ∨ b = c.i2 (t.buckets b i).key) ∧
    (∀ b i i', i' ≤ i → (t.buckets b i).key ≠ c.sentinel → (t.buckets b i').key ≠ c.sentinel) ∧
    ∀ key, key ≠ c.sentinel → lookup c t key = .value (lastWrite key h) := by
  intro h t
  obtain ⟨hhist, hrep⟩ := cuckoo_refines memory ops hops hthrow
  have hinv : Inv t.buckets := hrep.inv
  refine ⟨hhist, fun key hkey hres => ?_, hinv.candidate, hinv.filled, fun key hkey => ?_⟩
  · obtain ⟨b, i, hbi⟩ := hres
    refine ⟨(b, i), hbi, ?_⟩
    intro ⟨b', i'⟩ hbi'
    have hocc : Occupied t.buckets b i := by rw [Occupied, hbi]; exact hkey
    obtain ⟨rfl, rfl⟩ := hinv.unique b i b' i' hocc (hbi'.trans hbi.symm)
    rfl
  · have hlook : lookup c t key = _ := hrep.lookup_eq hkey
    rw [hlook, lastWriter_state, ← hhist]

/-- Three buckets of one slot, the keys `0`, `1` and `2` and the sentinel `3`. -/
def threeBuckets (kickingfn : KickingFn) (rand_ : ℕ → BitVec 32) : Config (Fin 4) (Fin 4) (Fin 4) where
  directorySize := 3
  bucketSize := 1
  bucketSize_pos := Nat.one_pos
  hashfn1 := id
  hashfn2 key _ := key
  reductionfn1 := ![0, 1, 0, 0]
  reductionfn2 := ![2, 0, 1, 1]
  kickingfn := kickingfn
  rand_ := rand_
  sentinel := 3

/-- The buckets of key `2` are those of the keys `0` and `1`: its insert kicks key `0` into the last bucket. -/
theorem cuckoo_last_writer_wins_three_buckets :
    let c := threeBuckets .BalancedKicking fun _ => 1
    let t := ((store c).run (fresh c fun _ _ => { key := 1, payload := 9 })
      [.insert 0 5, .insert 1 6, .insert 2 7, .insert 0 8]).2
    (t.buckets (2 : Fin 3) (0 : Fin 1)).key = 0 ∧ t.draws = 1 ∧ lookup c t 0 = .value (some (8 : ℕ)) ∧
      lookup c t 1 = .value (some 6) ∧ lookup c t 2 = .value (some 7) := by
  intro c t
  obtain ⟨-, -, -, -, hlook⟩ := cuckoo_last_writer_wins c (fun _ _ => { key := 1, payload := 9 })
    [.insert 0 5, .insert 1 6, .insert 2 7, .insert 0 8] (by decide) (by decide)
  exact ⟨by decide, by decide, (hlook 0 (by decide)).trans (by decide), (hlook 1 (by decide)).trans (by decide),
    (hlook 2 (by decide)).trans (by decide)⟩

/-! ### Inserts that throw -/

/-- **A throwing insert leaves one key out.** In every state a run reaches from a fresh table, throwing
inserts and inserts of `Sentinel` included: an insert that throws was of an absent key, and of the keys
resident before and the key to insert exactly one is not found afterwards, the others with the payload
they had. -/
theorem cuckoo_throw_leaves_one_out (c : Config Key Hash1 Hash2) (memory : Buckets c Payload)
    (ops : List (Op Key Payload)) (key : Key) (hkey : key ≠ c.sentinel) (payload : Payload) (what : String) :
    let t := ((store c).run (fresh c memory) ops).2
    let t' := (insert c t key payload).2
    (insert c t key payload).1 = .thrown what →
    ¬ Resident t.buckets key ∧
    ∃ v, v ≠ c.sentinel ∧ (v = key ∨ Resident t.buckets v) ∧ ¬ Resident t'.buckets v ∧
      lookup c t' v = .value none ∧
      ∀ k, k ≠ c.sentinel → k ≠ v →
        lookup c t' k = if k = key then .value (some payload) else lookup c t k := by
  intro t t' hthrow
  have hsound : Sound t.buckets := sound_run memory ops
  obtain ⟨habsent, v, pv, hout⟩ := insert_throws hsound hkey hthrow
  refine ⟨habsent, v, hout.key_ne, ?_, hout.absent, lookup_of_not_resident hout.absent, fun k hk hkv => ?_⟩
  · rcases (hout.stores_iff v hout.key_ne pv).mp (Or.inr ⟨rfl, rfl⟩) with hst | ⟨hvk, -⟩
    · exact Or.inr hst.resident
    · exact Or.inl hvk
  · have hst : ∀ q, Stores t'.buckets k q ↔ Stores t.buckets k q ∨ (k = key ∧ q = payload) := by
      intro q
      rw [← hout.stores_iff k hk q]
      exact (or_iff_left fun h => hkv h.1).symm
    exact (lookup_answers hsound hk).after_insert (lookup_answers hout.sound hk) hst

/-! ### Two keys for one slot -/

/-- One bucket of one slot, the keys `0` and `1` and the sentinel `2`: the second candidate bucket is
the first. -/
def oneSlot (kickingfn : KickingFn) (rand_ : ℕ → BitVec 32) : Config (Fin 3) (Fin 3) (Fin 3) where
  directorySize := 1
  bucketSize := 1
  bucketSize_pos := Nat.one_pos
  hashfn1 := id
  hashfn2 key _ := key
  reductionfn1 _ := 0
  reductionfn2 _ := 0
  kickingfn := kickingfn
  rand_ := rand_
  sentinel := 2

section
variable {kickingfn : KickingFn} {rand_ : ℕ → BitVec 32}

/-- The one slot holds `key`. -/
def oneSlotTable (kickingfn : KickingFn) (rand_ : ℕ → BitVec 32) (key : Fin 3) (payload draws : ℕ) :
    Table (oneSlot kickingfn rand_) ℕ where
  buckets := fun _ _ => { key := key, payload := payload }
  draws := draws

/-- The one slot holds `a`, and an insert has `b` in hand after `n` kicks. -/
def oneSlotHand (kickingfn : KickingFn) (rand_ : ℕ → BitVec 32) (a : Fin 3) (p : ℕ) (b : Fin 3) (q draws n : ℕ) :
    Hand (oneSlot kickingfn rand_) ℕ where
  table := oneSlotTable kickingfn rand_ a p draws
  key := b
  payload := q
  kickCount := n

/-- A pass swaps the key in hand with the key in the slot. -/
theorem insertBody_oneSlot {a b : Fin 3} (ha : a ≠ 2) (hab : a ≠ b) (p q draws n : ℕ)
    (hn : n ≤ MaxKickCycleLength) :
    insertBody (oneSlot kickingfn rand_) (oneSlotHand kickingfn rand_ a p b q draws n) =
      .again (oneSlotHand kickingfn rand_ b q a p (draws + 1) (n + 1)) := by
  have hcount : ∀ x, count (oneSlot kickingfn rand_) (oneSlotTable kickingfn rand_ a p draws).buckets x = 1 := by
    intro x
    show (∑ _i : Fin 1, if a = 2 then 0 else 1) = 1
    simp [ha]
  have hset : ∀ x y, Grid.set (oneSlotTable kickingfn rand_ a p draws).buckets x y ⟨b, q⟩ =
      (oneSlotTable kickingfn rand_ b q (draws + 1)).buckets := by
    intro x y
    funext x' y'
    rw [Subsingleton.elim (α := Fin 1) x' x, Subsingleton.elim (α := Fin 1) y' y, Grid.set_self]
    rfl
  have hfind : findSlot (oneSlot kickingfn rand_) (oneSlotTable kickingfn rand_ a p draws).buckets b = none := by
    rw [findSlot_eq_none_iff]
    exact fun _ => ⟨hab, hab⟩
  have hkick : ∀ prefers fromFirst x y, kick (oneSlot kickingfn rand_) prefers fromFirst
      (oneSlotTable kickingfn rand_ a p draws) x y b q =
        (some (a, p), oneSlotTable kickingfn rand_ b q (draws + 1)) := by
    intro prefers fromFirst x y
    unfold kick
    simp only [hcount, hset]
    rw [dif_neg (fun h => absurd h.2 (lt_irrefl 1)), 
      dif_neg (show ¬ 1 < (oneSlot kickingfn rand_).bucketSize from lt_irrefl 1)]
    rfl
  unfold insertBody oneSlotHand
  rw [if_neg (not_lt.mpr hn), hfind]
  unfold Cuckoo.kickingfn BalancedKicking BiasedKicking
  simp only [hkick]
  cases kickingfn <;> rfl

/-- After an odd number of kicks the key to insert is in the slot and the other one in hand. -/
theorem run_oneSlot {a b : Fin 3} (ha : a ≠ 2) (hb : b ≠ 2) (hab : a ≠ b) (p q : ℕ) (m : ℕ) :
    ∀ n draws, n + 2 * m = MaxKickCycleLength → ∃ draws',
      Loop.run (insertBody (oneSlot kickingfn rand_)) (2 * m + 2)
        (oneSlotHand kickingfn rand_ a p b q draws n) =
          some (.thrown cycleMessage, oneSlotTable kickingfn rand_ b q draws') := by
  induction m with
  | zero =>
    intro n draws hn
    refine ⟨draws + 1, ?_⟩
    rw [Loop.run_again (insertBody_oneSlot ha hab p q draws n (by omega))]
    apply Loop.run_leave
    unfold insertBody oneSlotHand
    rw [if_pos (by dsimp only; omega)]
  | succ m ih =>
    intro n draws hn
    obtain ⟨draws', hrun⟩ := ih (n + 2) (draws + 2) (by omega)
    refine ⟨draws', ?_⟩
    rw [show 2 * (m + 1) + 2 = 2 * m + 2 + 1 + 1 by omega,
      Loop.run_again (insertBody_oneSlot ha hab p q draws n (by omega)),
      Loop.run_again (insertBody_oneSlot hb hab.symm q p (draws + 1) (n + 1) (by omega)), hrun]

theorem insert_oneSlot (kickingfn : KickingFn) (rand_ : ℕ → BitVec 32) {a b : Fin 3} (ha : a ≠ 2) (hb : b ≠ 2)
    (hab : a ≠ b) (p q draws : ℕ) :
    ∃ draws', insert (oneSlot kickingfn rand_) (oneSlotTable kickingfn rand_ a p draws) b q =
      (.thrown cycleMessage, oneSlotTable kickingfn rand_ b q draws') := by
  obtain ⟨draws', hrun⟩ := run_oneSlot ha hb hab p q 25000 0 draws rfl
  refine ⟨draws', ?_⟩
  show (Loop.run _ (2 * 25000 + 2) (oneSlotHand kickingfn rand_ a p b q draws 0)).getD _ = _
  rw [hrun, Option.getD_some]

/-- Key `0` inserted into the fresh table. -/
theorem run_insert_oneSlot : ((store (oneSlot kickingfn rand_)).run
      (fresh (oneSlot kickingfn rand_) fun _ _ => { key := 2, payload := 9 }) [.insert 0 5]).2 =
    oneSlotTable kickingfn rand_ 0 5 0 := by
  have hbuckets : ∀ b i, ((store (oneSlot kickingfn rand_)).run
      (fresh (oneSlot kickingfn rand_) fun _ _ => { key := 2, payload := 9 }) [.insert 0 5]).2.buckets b i =
        { key := 0, payload := 5 } := by
    intro b i
    rw [Subsingleton.elim (α := Fin 1) b (0 : Fin 1), Subsingleton.elim (α := Fin 1) i (0 : Fin 1)]
    cases kickingfn <;> rfl
  refine congrArg₂ Table.mk (funext fun b => funext fun i => hbuckets b i) ?_
  cases kickingfn <;> rfl

end

/-- Key `0` is resident in the one slot; the insert of key `1` throws after 50001 kicks, with key `1` in
the slot and key `0` lost. -/
theorem cuckoo_throw_loses_resident :
    let c := oneSlot .BalancedKicking fun _ => 0
    let t := ((store c).run (fresh c fun _ _ => { key := 2, payload := 9 }) [.insert 0 5]).2
    let r := insert c t 1 6
    lookup c t 0 = .value (some 5) ∧ ¬ Resident t.buckets 1 ∧ r.1 = .thrown cycleMessage ∧
      lookup c r.2 0 = .value none ∧ Resident r.2.buckets 1 := by
  intro c t r
  obtain ⟨draws, hins⟩ := insert_oneSlot .BalancedKicking (fun _ => 0) (a := 0) (b := 1)
    (by decide) (by decide) (by decide) 5 6 0
  have ht : t = oneSlotTable .BalancedKicking (fun _ => 0) 0 5 0 := run_insert_oneSlot
  have hr : r = _ := (congrArg (insert c · 1 6) ht).trans hins
  rw [ht, hr]
  refine ⟨rfl, ?_, rfl, rfl, (0 : Fin 1), (0 : Fin 1), rfl⟩
  decide

theorem cuckoo_throw_leaves_one_out_one_slot :
    let c := oneSlot .BalancedKicking fun _ => 0
    let t := ((store c).run (fresh c fun _ _ => { key := 2, payload := 9 }) [.insert 0 5]).2
    ∃ v, v ≠ 2 ∧ (v = 1 ∨ Resident t.buckets v) ∧ lookup c (insert c t 1 6).2 v = .value none := by
  intro c t
  obtain ⟨draws, hins⟩ := insert_oneSlot .BalancedKicking (fun _ => 0) (a := 0) (b := 1)
    (by decide) (by decide) (by decide) 5 6 0
  have ht : t = oneSlotTable .BalancedKicking (fun _ => 0) 0 5 0 := run_insert_oneSlot
  have hthrow : (insert c t 1 6).1 = .thrown cycleMessage := by
    rw [ht, hins]
  obtain ⟨-, v, hv, hwas, -, hlook, -⟩ := cuckoo_throw_leaves_one_out c
    (fun _ _ => { key := 2, payload := 9 }) [.insert 0 5] 1 (by decide) 6 cycleMessage hthrow
  exact ⟨v, hv, hwas, hlook⟩

end HashingArchive.Hashtable.Cuckoo
