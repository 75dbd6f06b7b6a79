import HashingArchive.Library.Circle
import HashingArchive.Hashtable.ProbingRuns
import HashingArchive.Hashtable.RobinhoodRuns

/-!
# Filling a table with linear probing

With linear probing the buckets stand in a circle. An insert into a table with an empty slot does not throw and
stops at the first bucket that is not full, so nothing goes past a bucket that was not full before
(`Placed.closed`, `insert_room`). A fresh table that takes distinct keys, no more than it has slots, holds
these keys and has a bucket nothing went past (`Loaded`), whichever of the two algorithms fills it and in
whatever order the keys come (`loaded_run`).
-/

namespace HashingArchive.Hashtable

open HashingArchive.Library HashingArchive.Loop

/-! ### Linear probing on the circle -/

namespace ProbingFn

section
variable {N : ℕ} (hN : N ≤ 2 ^ 63) (h : Fin N)
include hN

theorem probe_dist (b : Fin N) : linear.probe h (Circle.dist h b) = b := by
  have hh := h.isLt
  have hb := b.isLt
  have hlt := Circle.dist_lt h b
  apply Fin.ext
  rw [probe_linear_of_le hN h hlt.le, Circle.dist_eq]
  split_ifs with hle
  · rw [Nat.add_sub_cancel' hle, Nat.mod_eq_of_lt hb]
  · rw [show h.val + (b.val + N - h.val) = b.val + N by omega, Nat.add_mod_right, Nat.mod_eq_of_lt hb]

theorem dist_probe {j : ℕ} (hj : j < N) : Circle.dist h (linear.probe h j) = j := by
  obtain ⟨b, rfl⟩ := Circle.exists_dist h hj
  rw [probe_dist hN h b]

/-- One more step is one bucket further. -/
theorem probe_succ {j : ℕ} (hj : j < N) : linear.probe h (j + 1) = Circle.succ (linear.probe h j) := by
  apply Fin.ext
  rw [probe_linear_of_le hN h hj]
  show (h.val + (j + 1)) % N = ((linear.probe h j).val + 1) % N
  rw [probe_linear_of_le hN h hj.le, Nat.mod_add_mod, Nat.add_assoc]

end

end ProbingFn

/-! ### Filling a table -/

/-- The inserts of the keys, in the order given. -/
def inserts {Key Payload : Type} (payload : Key → Payload) (keys : List Key) : List (Op Key Payload) :=
  keys.map fun key => .insert key (payload key)

theorem inserts_concat {Key Payload : Type} (payload : Key → Payload) (keys : List Key) (key : Key) :
    inserts payload (keys ++ [key]) = inserts payload keys ++ [.insert key (payload key)] := by
  simp [inserts]

namespace Probing

section
variable {Key Hash Payload : Type} {c : Config Key Hash} {t : Table c Payload}

instance [DecidableEq Key] (b : Fin c.directorySize) (i : Fin c.bucketSize) : Decidable (Occupied t b i) :=
  inferInstanceAs (Decidable ((t b i).key ≠ c.sentinel))

/-- The number of occupied slots of a bucket. -/
def occupancy [DecidableEq Key] (t : Table c Payload) (b : Fin c.directorySize) : ℕ :=
  (Finset.univ.filter fun i => Occupied t b i).card

theorem construct_eq [DecidableEq Key] {memory t₀ : Table c Payload} (h : construct c memory = .value t₀) :
    c.directorySize ≤ 2 ^ 63 ∧ t₀ = clear c memory := by
  unfold construct vectorMaxSize at h
  split_ifs at h with hle
  · cases h
    exact ⟨by omega, rfl⟩

/-- Nothing in the table goes past the bucket `z`. -/
def Closed (t : Table c Payload) (z : Fin c.directorySize) : Prop :=
  ∀ b i, Occupied t b i → ¬ Circle.dist (c.home (t b i).key) z < Circle.dist (c.home (t b i).key) b

/-- The table holds the keys `keys` and nothing else, and some bucket lets nothing past. -/
structure Loaded (t : Table c Payload) (keys : List Key) : Prop where
  inv : Inv t
  mem_iff : ∀ key, key ∈ keys ↔ key ≠ c.sentinel ∧ Resident t key
  closed : ∃ z, Closed t z

theorem Loaded.mem {keys : List Key} (h : Loaded t keys) {b : Fin c.directorySize} {i : Fin c.bucketSize}
    (hocc : Occupied t b i) : (t b i).key ∈ keys := (h.mem_iff _).mpr ⟨hocc, b, i, rfl⟩

theorem loaded_clear (hpos : 1 ≤ c.directorySize) (t : Table c Payload) : Loaded (clear c t) [] where
  inv := inv_clear t
  mem_iff _ := iff_of_false List.not_mem_nil fun h => not_resident_clear t h.1 h.2
  closed := ⟨⟨0, hpos⟩, fun b i hocc => absurd hocc (not_occupied_clear t b i)⟩

/-- A table with fewer keys than slots has an empty slot. -/
theorem Loaded.exists_empty {keys : List Key} (h : Loaded t keys)
    (hlen : keys.length < c.directorySize * c.bucketSize) : ∃ b i, ¬ Occupied t b i := by
  classical
  by_contra hfull
  push Not at hfull
  have hcard := Finset.card_le_card_of_injOn (s := Finset.univ) (t := keys.toFinset)
    (fun x : Fin c.directorySize × Fin c.bucketSize => (t x.1 x.2).key)
    (fun x _ => List.mem_toFinset.mpr (h.mem (hfull x.1 x.2)))
    (fun x _ y _ heq => by
      obtain ⟨hb, hi⟩ := h.inv.unique y.1 y.2 x.1 x.2 (hfull y.1 y.2) heq
      exact Prod.ext hb hi)
  rw [Finset.card_univ, Fintype.card_prod, Fintype.card_fin, Fintype.card_fin] at hcard
  have hle := keys.toFinset_card_le
  omega

/-- A table that stores one key more. -/
theorem Loaded.concat {t' : Table c Payload} {keys : List Key} (h : Loaded t keys) {key : Key}
    (hkey : key ≠ c.sentinel) (payload : Payload) (hinv : Inv t')
    (hstores : ∀ k, k ≠ c.sentinel → ∀ q, Stores t' k q ↔ Stores t k q ∨ (k = key ∧ q = payload))
    {z : Fin c.directorySize} (hclosed : Closed t' z) : Loaded t' (keys ++ [key]) := by
  refine ⟨hinv, fun k => ?_, z, hclosed⟩
  rw [List.mem_append, List.mem_singleton, h.mem_iff]
  constructor
  · intro hmem
    rcases hmem with ⟨hk, hres⟩ | rfl
    · obtain ⟨q, hq⟩ := hres.stores
      exact ⟨hk, ((hstores k hk q).mpr (Or.inl hq)).resident⟩
    · exact ⟨hkey, ((hstores k hkey payload).mpr (Or.inr ⟨rfl, rfl⟩)).resident⟩
  · intro ⟨hk, hres⟩
    obtain ⟨q, hq⟩ := hres.stores
    exact ((hstores k hk q).mp hq).imp (fun hst => ⟨hk, hst.resident⟩) And.left

variable (hlinear : c.probingfn = .linear) (hN : c.directorySize ≤ 2 ^ 63)
include hlinear hN

/-- The bucket a probe loop stands at tells how far it has come. -/
theorem dist_of_reaches {key : Key} {s : ℕ} (hreach : c.Reaches key s) {b : Fin c.directorySize}
    (hbucket : c.bucketAt key s = b) : Circle.dist (c.home key) b = s := by
  simp only [Config.Reaches, Config.bucketAt, hlinear] at hreach hbucket
  rw [← hbucket]
  exact ProbingFn.dist_probe hN _ ((ProbingFn.reaches_linear_iff hN _).mp hreach)

theorem bucketAt_dist (key : Key) (b : Fin c.directorySize) :
    c.bucketAt key (Circle.dist (c.home key) b) = b := by
  rw [Config.bucketAt, hlinear]
  exact ProbingFn.probe_dist hN _ b

/-- On a circle a key that went past a bucket found it full. -/
theorem Inv.full_of_dist_lt (hinv : Inv t) {b b' : Fin c.directorySize} {i : Fin c.bucketSize}
    (hocc : Occupied t b i)
    (hpast : Circle.dist (c.home (t b i).key) b' < Circle.dist (c.home (t b i).key) b) : Full t b' := by
  obtain ⟨s, hreach, hbucket, hfull⟩ := hinv.reach b i hocc
  have hdist := dist_of_reaches hlinear hN hreach hbucket
  have hb' := hfull _ (hpast.trans_eq hdist)
  rwa [bucketAt_dist hlinear hN] at hb'

theorem Inv.closed_of_empty (hinv : Inv t) {z : Fin c.directorySize} {i : Fin c.bucketSize}
    (hempty : ¬ Occupied t z i) : Closed t z :=
  fun _ _ hocc hpast => hempty (hinv.full_of_dist_lt hlinear hN hocc hpast i)

/-- The key placed does not go past a bucket with an empty slot either. -/
theorem Placed.closed {key : Key} {s : ℕ} {i : Fin c.bucketSize} (h : Placed t key s i) (hinv : Inv t)
    (hkey : key ≠ c.sentinel) (payload : Payload) {z : Fin c.directorySize} {i₀ : Fin c.bucketSize}
    (hempty : ¬ Occupied t z i₀) : Closed (t.set (c.bucketAt key s) i { key := key, payload := payload }) z := by
  intro b i' hocc
  rcases (h.occupied_iff hkey payload b i').mp hocc with hold | ⟨rfl, rfl⟩
  · rw [h.set_of_occupied payload hold]
    exact hinv.closed_of_empty hlinear hN hempty b i' hold
  · rw [Grid.set_self]
    intro hpast
    have hdist := dist_of_reaches hlinear hN h.reaches rfl
    have hfull := h.full _ (hpast.trans_eq hdist)
    rw [bucketAt_dist hlinear hN] at hfull
    exact hempty (hfull i₀)

variable [DecidableEq Key]

/-- The step lemma: an insert into a table with room. -/
theorem Loaded.insert {keys : List Key} (h : Loaded t keys)
    (hlen : keys.length < c.directorySize * c.bucketSize) {key : Key} (hkey : key ≠ c.sentinel)
    (hnew : key ∉ keys) (payload : Payload) : Loaded (insert c t key payload).2 (keys ++ [key]) := by
  obtain ⟨z, i₀, hempty⟩ := h.exists_empty hlen
  rcases insert_cases h.inv hkey payload with ⟨hres, -⟩ | ⟨hres, s, i, hplaced, hins⟩ | ⟨-, hexh, -⟩
  · exact absurd ((h.mem_iff key).mpr ⟨hkey, hres⟩) hnew
  · rw [hins]
    exact h.concat hkey payload (hplaced.inv h.inv hkey hres payload)
      (fun _ hk q => hplaced.stores_iff hkey payload hk q) (hplaced.closed hlinear hN h.inv hkey payload hempty)
  · exact absurd (hexh.full hlinear hN z i₀) hempty

/-- The run lemma: a table filled with no more keys than it has slots. -/
theorem loaded_run (hpos : 1 ≤ c.directorySize) (memory : Table c Payload) (payload : Key → Payload)
    (keys : List Key) (hnodup : keys.Nodup) (hkeys : ∀ key ∈ keys, key ≠ c.sentinel)
    (hlen : keys.length ≤ c.directorySize * c.bucketSize) :
    Loaded ((store c).run (clear c memory) (inserts payload keys)).2 keys := by
  induction keys using List.reverseRecOn with
  | nil => exact loaded_clear hpos memory
  | append_singleton keys key ih =>
    rw [List.length_append, List.length_singleton] at hlen
    have hloaded := ih hnodup.of_append_left (fun k hk => hkeys k (List.mem_append_left _ hk)) (by omega)
    have hnew : key ∉ keys := fun hmem => List.disjoint_of_nodup_append hnodup hmem (List.mem_singleton_self key)
    rw [inserts_concat, Store.run_concat]
    exact hloaded.insert hlinear hN hlen (hkeys key (by simp)) hnew (payload key)

end

end Probing

namespace Robinhood

section
variable {Key Hash Payload : Type} {c : Config Key Hash} {t : Table c Payload}

instance [DecidableEq Key] (b : Fin c.directorySize) (i : Fin c.bucketSize) : Decidable (Occupied t b i) :=
  inferInstanceAs (Decidable ((t b i).key ≠ c.sentinel))

theorem construct_eq [DecidableEq Key] {memory t₀ : Table c Payload} (h : construct c memory = .value t₀) :
    c.directorySize ≤ 2 ^ 63 ∧ t₀ = clear c memory := by
  unfold construct vectorMaxSize at h
  split_ifs at h with hle
  · cases h
    exact ⟨by omega, rfl⟩

/-- An empty slot takes the key in hand as it would in a `Probing` table. -/
theorem Carries.placed {key : Key} {s : ℕ} {i : Fin c.bucketSize} (h : Carries t key s i)
    (hempty : ¬ Occupied t (c.bucketAt key s) i) : Probing.Placed (forget t) key s i where
  reaches := h.reaches
  full j hj i' := (h.full j hj i').1
  before i' hi' := (h.before i' hi').1
  empty := hempty

theorem forget_put (t : Table c Payload) (key : Key) (s : ℕ) (i : Fin c.bucketSize) (payload : Payload) :
    forget (put t key s i payload) = (forget t).set (c.bucketAt key s) i { key := key, payload := payload } := by
  funext b i'
  by_cases hslot : b = c.bucketAt key s ∧ i' = i
  · obtain ⟨rfl, rfl⟩ := hslot
    rw [Grid.set_self, forget, put_self]
  · rw [Grid.set_of_ne hslot, forget, put_of_ne hslot, forget]

/-- The bucket `z` has an empty slot, and the key `k` is in hand or in a slot the hand has left behind on its
way to `z`. -/
structure Heading (k : Key) (z : Fin c.directorySize) (s : Hand c Payload) : Prop where
  empty : ∃ i, ¬ Occupied s.table z i
  behind : s.key = k ∨ ∃ b i, (s.table b i).key = k ∧
    (Circle.dist s.slotIndex z < Circle.dist b z ∨ b = s.slotIndex ∧ (i : ℕ) < s.i)

/-- The slots with another key than the one displaced stay as they are. -/
theorem Hand.placed_of_key_ne {s : Hand c Payload} {i i' : Fin c.bucketSize} {b : Fin c.directorySize}
    (hne : (s.table b i').key ≠ (s.slot i).key) : s.placed i b i' = s.table b i' := by
  apply Grid.set_of_ne
  rintro ⟨rfl, rfl⟩
  exact hne rfl

theorem Heading.displace {k : Key} {z : Fin c.directorySize} {s : Hand c Payload} (h : Heading k z s)
    {i : Fin c.bucketSize} (hi : s.i = i) (hocc : (s.slot i).key ≠ c.sentinel) (horig : k ≠ (s.slot i).key) :
    Heading k z
      { table := s.placed i
        key := (s.slot i).key
        payload := (s.slot i).payload
        origSlotIndex := c.home (s.slot i).key
        slotIndex := s.slotIndex
        probingStep := (s.slot i).psl
        i := s.i + 1 } := by
  constructor
  · obtain ⟨i₀, hempty⟩ := h.empty
    have hne : (s.table z i₀).key ≠ (s.slot i).key := by
      rw [not_not.mp hempty]
      exact Ne.symm hocc
    refine ⟨i₀, ?_⟩
    show ¬ (s.placed i z i₀).key ≠ c.sentinel
    rw [Hand.placed_of_key_ne hne]
    exact hempty
  · right
    rcases h.behind with hkey | ⟨b, i', hkey, hbehind⟩
    · refine ⟨s.slotIndex, i, ?_, Or.inr ⟨rfl, hi ▸ Nat.lt_succ_self _⟩⟩
      show (s.placed i s.slotIndex i).key = k
      rw [Hand.placed, Grid.set_self, hkey]
    · refine ⟨b, i', ?_, hbehind.imp_right fun hb => ⟨hb.1, Nat.lt_succ_of_lt hb.2⟩⟩
      show (s.placed i b i').key = k
      rw [Hand.placed_of_key_ne (by rwa [hkey]), hkey]

/-- A hand that has passed a whole bucket is not at `z`. -/
theorem Heading.slotIndex_ne {k : Key} {z : Fin c.directorySize} {s : Hand c Payload} (h : Heading k z s)
    (hs : s.Ok) (hi : c.bucketSize ≤ s.i) : s.slotIndex ≠ z := by
  rintro rfl
  obtain ⟨i, hempty⟩ := h.empty
  have hbefore := (hs.carries.before i (lt_of_lt_of_le i.isLt hi)).1
  rw [← hs.slotIndex_eq] at hbefore
  exact hempty hbefore

variable (hlinear : c.probingfn = .linear) (hN : c.directorySize ≤ 2 ^ 63)
include hlinear hN

/-- The next bucket is closer to `z`. -/
theorem Heading.dist_next {k : Key} {z : Fin c.directorySize} {s : Hand c Payload} (h : Heading k z s)
    (hs : s.Ok) (hi : c.bucketSize ≤ s.i)
    (hne : c.probingfn.probe s.origSlotIndex ((s.probingStep + 1) % 2 ^ 64) ≠ s.origSlotIndex) :
    Circle.dist (c.probingfn.probe s.origSlotIndex ((s.probingStep + 1) % 2 ^ 64)) z <
      Circle.dist s.slotIndex z := by
  have hslot := h.slotIndex_ne hs hi
  obtain ⟨hcarries, hmod⟩ := hs.next hi hne
  have hreach := hcarries.reaches
  rw [hmod, hs.origSlotIndex_eq]
  rw [hs.slotIndex_eq] at hslot ⊢
  simp only [Config.Reaches, Config.bucketAt, hlinear] at hreach hslot ⊢
  rw [ProbingFn.probe_succ hN _ (Nat.lt_of_succ_lt ((ProbingFn.reaches_linear_iff hN _).mp hreach))]
  exact Circle.dist_succ_lt hslot

/-- Every pass keeps `Heading`, and an insert that heads for a bucket with an empty slot ends in a slot. -/
theorem Heading.pass {k : Key} (hk : k ≠ c.sentinel) {z : Fin c.directorySize} {s : Hand c Payload}
    (h : Heading k z s) (hs : s.Ok) {r} (hstep : BodyStep k s r) :
    r.Holds (Heading k z) (fun r => r.1 = .value true ∧ Probing.Closed (forget r.2) z) := by
  obtain ⟨i₀, hempty⟩ := h.empty
  cases hstep with
  | place i hi hslot =>
    rw [Hand.slot, hs.slotIndex_eq] at hslot
    have hcarries := hs.carries_at hi
    rw [Pass.holds_leave, hs.placed_eq]
    show _ ∧ Probing.Closed (forget (put s.table s.key s.probingStep i s.payload)) z
    rw [forget_put]
    exact ⟨rfl, (hcarries.placed (not_not_intro hslot)).closed hlinear hN hs.inv.forget hcarries.key_ne s.payload
      hempty⟩
  | found i hi hsame => exact absurd ⟨_, i, hsame⟩ hs.carries.absent
  | skip i hi hocc hother hpoor =>
    refine ⟨h.empty, h.behind.imp_right fun hb => ?_⟩
    obtain ⟨b, i', hkey, hbehind⟩ := hb
    exact ⟨b, i', hkey, hbehind.imp_right fun hb => ⟨hb.1, Nat.lt_succ_of_lt hb.2⟩⟩
  | displace i hi hocc hrich horig => exact h.displace hi hocc horig
  | loop i hi hrich horig =>
    rcases h.behind with hkey | ⟨b, i', hkey, hbehind⟩
    · exact absurd ⟨_, i, horig.symm.trans hkey.symm⟩ hs.carries.absent
    · have hocc : Occupied s.table b i' := by rw [Occupied, hkey]; exact hk
      obtain ⟨hb, hi'⟩ := hs.inv.unique b i' s.slotIndex i hocc (horig.symm.trans hkey.symm)
      rw [hb, hi, hi'] at hbehind
      simp at hbehind
  | next hi hne =>
    have hcloser := h.dist_next hlinear hN hs hi hne
    refine ⟨h.empty, h.behind.imp_right fun hb => ?_⟩
    obtain ⟨b, i', hkey, hbehind⟩ := hb
    refine ⟨b, i', hkey, Or.inl ?_⟩
    rcases hbehind with hlt | ⟨rfl, -⟩
    · exact hcloser.trans hlt
    · exact hcloser
  | cycle hi hback =>
    have hexh : Probing.Exhausted (forget s.table) s.key := by
      refine ⟨s.probingStep, hs.carries.reaches, fun j hj i' => ?_, ?_⟩
      · rcases Nat.lt_or_eq_of_le hj with hj | rfl
        · exact (hs.carries.full j hj i').1
        · exact (hs.carries.before i' (lt_of_lt_of_le i'.isLt hi)).1
      · rwa [hs.origSlotIndex_eq] at hback
    exact absurd (hexh.full hlinear hN z i₀) hempty

variable [DecidableEq Key]

/-- An insert into a table with an empty slot. -/
theorem insert_room (hinv : Inv t) {z : Fin c.directorySize} {i : Fin c.bucketSize} (hempty : ¬ Occupied t z i)
    {k : Key} (hk : k ≠ c.sentinel) (habsent : ¬ Resident t k) (p : Payload) :
    (insert c t k p).1 = .value true ∧ Probing.Closed (forget (insert c t k p).2) z :=
  insert_rule hinv hk habsent p (Heading k z)
    (fun r => r.1 = .value true ∧ Probing.Closed (forget r.2) z) ⟨⟨i, hempty⟩, Or.inl rfl⟩
    fun _ _ hs h hstep => h.pass hlinear hN hk hs hstep

omit hlinear hN in
/-- An insert into a table without one. -/
theorem insert_full (hinv : Inv t) (hfull : ∀ b i, Occupied t b i) {k : Key} (hk : k ≠ c.sentinel)
    (habsent : ¬ Resident t k) (p : Payload) : ∃ what, (insert c t k p).1 = .thrown what := by
  refine insert_rule hinv hk habsent p (fun s => ∀ b i, Occupied s.table b i)
    (fun r => ∃ what, r.1 = .thrown what) hfull fun s r hs hall hstep => ?_
  cases hstep with
  | place i hi hempty => exact absurd hempty (hall _ i)
  | found i hi hsame => exact absurd ⟨_, i, hsame⟩ hs.carries.absent
  | skip i hi hocc hother hpoor => exact hall
  | displace i hi hocc hrich horig =>
    intro b i'
    show Occupied (s.placed i) b i'
    rw [hs.placed_eq, (hs.carries_at hi).occupied_put_iff]
    exact Or.inl (hall b i')
  | loop i hi hrich horig => exact ⟨_, rfl⟩
  | next hi hne => exact hall
  | cycle hi hback => exact ⟨_, rfl⟩

/-- The step lemma. -/
theorem loaded_insert (hinv : Inv t) {keys : List Key} (h : Probing.Loaded (forget t) keys)
    (hlen : keys.length < c.directorySize * c.bucketSize) {key : Key} (hkey : key ≠ c.sentinel)
    (hnew : key ∉ keys) (payload : Payload) :
    Inv (insert c t key payload).2 ∧ Probing.Loaded (forget (insert c t key payload).2) (keys ++ [key]) := by
  obtain ⟨z, i, hempty⟩ := h.exists_empty hlen
  have habsent : ¬ Resident t key := fun hres => hnew ((h.mem_iff key).mpr ⟨hkey, hres⟩)
  obtain ⟨htrue, hclosed⟩ := insert_room hlinear hN hinv hempty hkey habsent payload
  have hsettled := insert_absent hinv hkey habsent payload
  generalize insert c t key payload = r at htrue hclosed hsettled ⊢
  cases hsettled with
  | thrown what t' v pv _ _ _ _ => exact absurd htrue (by simp)
  | stored t' hinv' hstores =>
    refine ⟨hinv', h.concat hkey payload hinv'.forget (fun k hk q => ?_) hclosed⟩
    rw [stores_forget_iff, stores_forget_iff]
    exact hstores k hk q

/-- The run lemma. -/
theorem loaded_run (hpos : 1 ≤ c.directorySize) (memory : Table c Payload) (payload : Key → Payload)
    (keys : List Key) (hnodup : keys.Nodup) (hkeys : ∀ key ∈ keys, key ≠ c.sentinel)
    (hlen : keys.length ≤ c.directorySize * c.bucketSize) :
    Inv ((store c).run (clear c memory) (inserts payload keys)).2 ∧
      Probing.Loaded (forget ((store c).run (clear c memory) (inserts payload keys)).2) keys := by
  induction keys using List.reverseRecOn with
  | nil => exact ⟨inv_clear memory, Probing.loaded_clear hpos (forget memory)⟩
  | append_singleton keys key ih =>
    rw [List.length_append, List.length_singleton] at hlen
    obtain ⟨hinv, hloaded⟩ :=
      ih hnodup.of_append_left (fun k hk => hkeys k (List.mem_append_left _ hk)) (by omega)
    have hnew : key ∉ keys := fun hmem => List.disjoint_of_nodup_append hnodup hmem (List.mem_singleton_self key)
    rw [inserts_concat, Store.run_concat]
    exact loaded_insert hlinear hN hinv hloaded hlen (hkeys key (by simp)) hnew (payload key)

end

/-- **With linear probing an insert fails for want of room only**, in every reachable table. -/
theorem robinhood_linear_room {Key Hash Payload : Type} [DecidableEq Key] (c : Config Key Hash)
    (hlinear : c.probingfn = .linear) (hN : c.directorySize ≤ 2 ^ 63) (memory : Table c Payload)
    (ops : List (Op Key Payload)) (key : Key) (hkey : key ≠ c.sentinel) (payload : Payload) :
    let t := ((store c).run (clear c memory) ops).2
    ¬ Resident t key →
    ((∃ b i, ¬ Occupied t b i) → (insert c t key payload).1 = .value true) ∧
    ((∀ b i, Occupied t b i) → ∃ what, (insert c t key payload).1 = .thrown what) := by
  intro t habsent
  have hinv : Inv t := inv_reached memory ops
  constructor
  · intro ⟨b, i, hempty⟩
    exact (insert_room hlinear hN hinv hempty hkey habsent payload).1
  · exact fun hfull => insert_full hinv hfull hkey habsent payload

/-- Key `2` displaces key `1` into the last bucket, and then there is no room for key `3`. -/
theorem robinhood_linear_room_displacing :
    (insert (displacingHomes .linear) ((store (displacingHomes .linear)).run
      (clear (displacingHomes .linear) (displacingMemory .linear)) [.insert 0 5, .insert 1 6]).2 2 7).1 = .value true ∧
    ∃ what, (insert (displacingHomes .linear) ((store (displacingHomes .linear)).run
      (clear (displacingHomes .linear) (displacingMemory .linear))
      [.insert 0 5, .insert 1 6, .insert 2 7]).2 3 8).1 = .thrown what :=
  ⟨(robinhood_linear_room (displacingHomes .linear) rfl (by decide) (displacingMemory .linear)
      [.insert 0 5, .insert 1 6] 2 (by decide) 7 (by decide)).1 (by decide),
    (robinhood_linear_room (displacingHomes .linear) rfl (by decide) (displacingMemory .linear)
      [.insert 0 5, .insert 1 6, .insert 2 7] 3 (by decide) 8 (by decide)).2 (by decide)⟩

end Robinhood

end HashingArchive.Hashtable
