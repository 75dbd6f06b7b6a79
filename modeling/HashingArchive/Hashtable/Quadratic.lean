import HashingArchive.Library.Squares
import HashingArchive.Hashtable.Loaded

/-!
# Quadratic probing and the buckets it never tries

An insert with quadratic probing gives up as soon as the probe sequence is back at the home bucket. The buckets
it has tried by then are those at the squares before the first square that is zero modulo the directory size, and
these are all buckets of the probe orbit for some directory sizes only (`quadratic_orbit_iff`).
-/

namespace HashingArchive.Hashtable

open HashingArchive.Library HashingArchive.Squares

/-! ### The probe sequence -/

namespace ProbingFn

section
variable {N : ℕ} (hN : N < 2 ^ 32) (h : Fin N)
include hN

theorem probe_quadratic_of_le {j : ℕ} (hj : j ≤ N) : (quadratic.probe h j : ℕ) = (h + j * j) % N := by
  have hh := h.isLt
  have hsq : j * j ≤ (2 ^ 32 - 1) * (2 ^ 32 - 1) := Nat.mul_le_mul (by omega) (by omega)
  simp only [probe, apply, QuadraticProbingFunc]
  rw [Nat.mod_eq_of_lt (a := h.val + j * j) (by omega)]

theorem probe_quadratic_eq_self_iff {j : ℕ} (hj : j ≤ N) : quadratic.probe h j = h ↔ N ∣ j * j := by
  rw [Fin.ext_iff, probe_quadratic_of_le hN h hj]
  constructor
  · intro heq
    have hmod : h.val + j * j ≡ h.val + 0 [MOD N] := by
      rw [Nat.ModEq, heq, Nat.add_zero, Nat.mod_eq_of_lt h.isLt]
    exact Nat.modEq_zero_iff_dvd.mp (hmod.add_left_cancel' h.val)
  · intro ⟨x, hx⟩
    rw [hx, Nat.add_mul_mod_self_left, Nat.mod_eq_of_lt h.isLt]

theorem lt_of_reaches_quadratic {s : ℕ} (hs : quadratic.Reaches h s) : s < N := by
  by_contra hge
  exact hs.2 N h.pos (not_lt.mp hge) ((probe_quadratic_eq_self_iff hN h le_rfl).mpr (dvd_mul_right N N))

/-- The probe loop is back home at the first square that is zero. -/
theorem firstReturn_of_back {s : ℕ} (hs : quadratic.Reaches h s) (hback : quadratic.probe h (s + 1) = h) :
    FirstReturn N (s + 1) := by
  have hlt := lt_of_reaches_quadratic hN h hs
  refine ⟨Nat.succ_pos s, (probe_quadratic_eq_self_iff hN h hlt).mp hback, fun j hj hj' hdvd => ?_⟩
  exact hs.2 j hj (Nat.lt_succ_iff.mp hj') ((probe_quadratic_eq_self_iff hN h (by omega)).mpr hdvd)

theorem lt_of_reaches_of_firstReturn {s r : ℕ} (hs : quadratic.Reaches h s) (hr : FirstReturn N r) : s < r := by
  by_contra hge
  have hlt := lt_of_reaches_quadratic hN h hs
  exact hs.2 r hr.pos (not_lt.mp hge) ((probe_quadratic_eq_self_iff hN h (by omega)).mpr hr.dvd)

end

end ProbingFn

namespace Probing

instance {Key Hash Payload : Type} [DecidableEq Key] {c : Config Key Hash} (t : Table c Payload) (key : Key) :
    Decidable (Resident t key) :=
  inferInstanceAs (Decidable (∃ b i, (t b i).key = key))

/-- Every table a run reaches is sound; operations on `Sentinel` change nothing. -/
theorem inv_reached {Key Hash Payload : Type} [DecidableEq Key] {c : Config Key Hash} (memory : Table c Payload)
    (ops : List (Op Key Payload)) : Inv ((store c).run (clear c memory) ops).2 := by
  refine Store.run_induction (fun _ => True) (fun _ t => Inv t) (inv_clear memory) ?_ ops fun _ _ => trivial
  intro _ t op _ hinv
  cases op with
  | lookup k => exact hinv
  | clear => exact inv_clear t
  | insert k p =>
    simp only [Store.step, store]
    by_cases hk : k = c.sentinel
    · rw [insert, if_pos hk]
      exact hinv
    · rcases insert_cases hinv hk p with ⟨-, hins⟩ | ⟨hres, s, i, hplaced, hins⟩ | ⟨-, -, hins⟩ <;> rw [hins]
      · exact hinv
      · exact hplaced.inv hinv hk hres p
      · exact hinv

/-! ### The orbit of a key -/

/-- All buckets of the probe orbit of `key` are full. -/
def OrbitFull {Key Hash Payload : Type} {c : Config Key Hash} (t : Table c Payload) (key : Key) : Prop :=
  ∀ (k : ℕ) (b : Fin c.directorySize), (b : ℕ) = (c.home key + k * k) % c.directorySize → Full t b

/-- With `N` buckets of `B` slots an insert of an absent key into a reachable table throws only if the probe
orbit of the key is full. -/
def ThrowsOnFullOrbit (N B : ℕ) : Prop :=
  ∀ (Key Hash Payload : Type) (_ : DecidableEq Key) (c : Config Key Hash), c.directorySize = N → c.bucketSize = B →
    c.probingfn = .quadratic → ∀ (memory : Table c Payload) (ops : List (Op Key Payload)) (key : Key)
      (payload : Payload), key ≠ c.sentinel →
    let t := ((store c).run (clear c memory) ops).2
    ¬ Resident t key → (∃ what, (insert c t key payload).1 = .thrown what) → OrbitFull t key

section
variable {Key Hash Payload : Type} {c : Config Key Hash} {t : Table c Payload} {key : Key}
  (hquadratic : c.probingfn = .quadratic) (hN : c.directorySize < 2 ^ 32)
include hquadratic hN

/-- The buckets an insert has tried when it gives up. -/
theorem Exhausted.quadratic (h : Exhausted t key) : ∃ s, FirstReturn c.directorySize s ∧
    ∀ j < s, ∀ b : Fin c.directorySize, (b : ℕ) = (c.home key + j * j) % c.directorySize → Full t b := by
  obtain ⟨s, hreach, hfull, hback⟩ := h
  simp only [Config.Reaches, Config.bucketAt, hquadratic] at hreach hfull hback
  have hlt := ProbingFn.lt_of_reaches_quadratic hN _ hreach
  rw [Nat.mod_eq_of_lt (by omega)] at hback
  refine ⟨s + 1, ProbingFn.firstReturn_of_back hN _ hreach hback, fun j hj b hb => ?_⟩
  have hbucket : ProbingFn.quadratic.probe (c.home key) j = b :=
    Fin.ext ((ProbingFn.probe_quadratic_of_le hN _ (by omega)).trans hb.symm)
  rw [← hbucket]
  exact hfull j (by omega)

/-- With a directory size for which all squares are met the orbit is full. -/
theorem Exhausted.orbitFull (h : Exhausted t key)
    (hsize : ¬ 64 ∣ c.directorySize ∧ ∀ p, p.Prime → p ≠ 2 → ¬ p * p ∣ c.directorySize) : OrbitFull t key := by
  obtain ⟨s, hs, hfull⟩ := h.quadratic hquadratic hN
  intro k b hb
  obtain ⟨j, hj, heq⟩ := (forall_exists_iff (c.home key).pos hs).mpr hsize k
  apply hfull j hj b
  rw [hb, Nat.add_mod, ← heq, ← Nat.add_mod]

end

/-! ### A table with a free bucket on the orbit -/

/-- For every slot of the table a key at home in its bucket. -/
structure Fillers {Key Hash : Type} (c : Config Key Hash) where
  key : Fin c.directorySize → Fin c.bucketSize → Key
  key_inj : ∀ b i i', key b i = key b i' → i = i'
  key_ne : ∀ b i, key b i ≠ c.sentinel
  home_key : ∀ b i, c.home (key b i) = b

section
variable {Key Hash : Type} {c : Config Key Hash} {f : Fillers c} {t : Table c Unit}
  {l : List (Fin c.directorySize × Fin c.bucketSize)}

/-- The table holds the fillers of the slots in `l`, every key in its home bucket. -/
structure Filling (f : Fillers c) (t : Table c Unit) (l : List (Fin c.directorySize × Fin c.bucketSize)) : Prop where
  inv : Inv t
  atHome : ∀ b i, Occupied t b i → ∃ i', (b, i') ∈ l ∧ (t b i).key = f.key b i'
  resident : ∀ x ∈ l, Resident t (f.key x.1 x.2)

/-- A filler in the table is in its home bucket, and in the list. -/
theorem Filling.of_slot (h : Filling f t l) {b b' : Fin c.directorySize} {i i' : Fin c.bucketSize}
    (hkey : (t b' i').key = f.key b i) : b' = b ∧ (b, i) ∈ l := by
  have hocc : Occupied t b' i' := by rw [Occupied, hkey]; exact f.key_ne b i
  obtain ⟨i'', hmem, hkey'⟩ := h.atHome b' i' hocc
  rw [hkey] at hkey'
  have hb : b = b' := by rw [← f.home_key b i, hkey', f.home_key]
  subst hb
  rw [f.key_inj b i i'' hkey']
  exact ⟨rfl, hmem⟩

/-- A bucket whose fillers are all in the table is full. -/
theorem Filling.full (h : Filling f t l) {b : Fin c.directorySize} (hb : ∀ i, (b, i) ∈ l) : Full t b := by
  have hslot : ∀ i, ∃ i', (t b i').key = f.key b i := by
    intro i
    obtain ⟨b', i', hkey⟩ := h.resident (b, i) (hb i)
    obtain ⟨rfl, -⟩ := h.of_slot hkey
    exact ⟨i', hkey⟩
  choose g hg using hslot
  have hinj : Function.Injective g := by
    intro i₁ i₂ heq
    exact f.key_inj b i₁ i₂ (by rw [← hg, ← hg, heq])
  intro i
  obtain ⟨i', rfl⟩ := (Finite.injective_iff_surjective.mp hinj) i
  rw [Occupied, hg]
  exact f.key_ne b i'

/-- In a full bucket all its fillers are in the table. -/
theorem Filling.mem_of_full (h : Filling f t l) {b : Fin c.directorySize} (hb : Full t b) (i : Fin c.bucketSize) :
    (b, i) ∈ l := by
  choose g hmem hg using fun i => h.atHome b i (hb i)
  have hinj : Function.Injective g := by
    intro i₁ i₂ heq
    exact (h.inv.unique b i₂ b i₁ (hb i₂) (by rw [hg, hg, heq])).2
  obtain ⟨i', rfl⟩ := (Finite.injective_iff_surjective.mp hinj) i
  exact hmem i'

variable [DecidableEq Key]

/-- The step lemma: a filler is placed in its home bucket, which has room for it. -/
theorem Filling.insert (h : Filling f t l) (b : Fin c.directorySize) (i : Fin c.bucketSize) :
    Filling f (insert c t (f.key b i) ()).2 (l ++ [(b, i)]) := by
  have hkey := f.key_ne b i
  have hzero : c.bucketAt (f.key b i) 0 = b :=
    (c.probingfn.probe_zero c.directorySize_lt.le _).trans (f.home_key b i)
  rcases insert_cases h.inv hkey () with ⟨hres, hins⟩ | ⟨hres, s, i', hplaced, hins⟩ | ⟨hres, hexh, -⟩
  · rw [hins]
    refine ⟨h.inv, fun b' i' hocc => ?_, fun x hx => ?_⟩
    · obtain ⟨i'', hmem', hkey'⟩ := h.atHome b' i' hocc
      exact ⟨i'', List.mem_append_left _ hmem', hkey'⟩
    · rcases List.mem_append.mp hx with hx | hx
      · exact h.resident x hx
      · rw [List.mem_singleton.mp hx]
        exact hres
  · have hmem : (b, i) ∉ l := fun hmem => hres (h.resident _ hmem)
    -- the home bucket is not full, so the key goes no further
    have hs : s = 0 := by
      by_contra hs
      have hfull := hplaced.full 0 (Nat.pos_of_ne_zero hs)
      rw [hzero] at hfull
      exact hmem (h.mem_of_full hfull i)
    subst hs
    rw [hins]
    dsimp only
    refine ⟨hplaced.inv h.inv hkey hres (), fun b' i₁ hocc => ?_, fun x hx => ?_⟩
    · rcases (hplaced.occupied_iff hkey () b' i₁).mp hocc with hold | ⟨rfl, rfl⟩
      · obtain ⟨i'', hmem', hkey'⟩ := h.atHome b' i₁ hold
        refine ⟨i'', List.mem_append_left _ hmem', ?_⟩
        rw [hplaced.set_of_occupied () hold, hkey']
      · rw [hzero]
        exact ⟨i, by simp, by rw [Grid.set_self]⟩
    · rcases List.mem_append.mp hx with hx | hx
      · obtain ⟨q, hq⟩ := (h.resident x hx).stores
        exact ((hplaced.stores_iff hkey () (f.key_ne _ _) q).mpr (Or.inl hq)).resident
      · rw [List.mem_singleton.mp hx]
        exact ⟨c.bucketAt (f.key b i) 0, i', by rw [Grid.set_self]⟩
  · obtain ⟨s, -, hfull, -⟩ := hexh
    have hfull := hfull 0 (Nat.zero_le s)
    rw [hzero] at hfull
    exact absurd (h.resident _ (h.mem_of_full hfull i)) hres

/-- The inserts of the fillers of the slots in `l`. -/
def fills (f : Fillers c) (l : List (Fin c.directorySize × Fin c.bucketSize)) : List (Op Key Unit) :=
  l.map fun x => .insert (f.key x.1 x.2) ()

/-- The run lemma. -/
theorem filling_run (f : Fillers c) (memory : Table c Unit) (l : List (Fin c.directorySize × Fin c.bucketSize)) :
    Filling f ((store c).run (clear c memory) (fills f l)).2 l := by
  induction l using List.reverseRecOn with
  | nil =>
    exact ⟨inv_clear memory, fun b i hocc => absurd hocc (not_occupied_clear memory b i),
      fun x hx => absurd hx List.not_mem_nil⟩
  | append_singleton l x ih =>
    have hconcat : fills f (l ++ [x]) = fills f l ++ [.insert (f.key x.1 x.2) ()] := by simp [fills]
    rw [hconcat, Store.run_concat]
    exact ih.insert x.1 x.2

/-- The slots of the buckets an insert from bucket `b` tries in its first `s` steps. -/
def triedSlots (c : Config Key Hash) (b : Fin c.directorySize) (s : ℕ) :
    List (Fin c.directorySize × Fin c.bucketSize) :=
  (List.range s).flatMap fun j => (List.finRange c.bucketSize).map fun i => (c.probingfn.probe b j, i)

omit [DecidableEq Key] in
theorem mem_triedSlots {b : Fin c.directorySize} {s : ℕ} {x : Fin c.directorySize × Fin c.bucketSize} :
    x ∈ triedSlots c b s ↔ ∃ j < s, c.probingfn.probe b j = x.1 := by
  simp only [triedSlots, List.mem_flatMap, List.mem_range, List.mem_map, List.mem_finRange, true_and]
  refine exists_congr fun j => and_congr_right fun _ => ?_
  constructor
  · rintro ⟨i, rfl⟩
    rfl
  · exact fun h => ⟨x.2, Prod.ext h rfl⟩

/-- An insert of a new key that finds all buckets full that its probe sequence reaches. -/
theorem Filling.throws (key : Key) {s : ℕ} (h : Filling f t (triedSlots c (c.home key) s)) (hkey : key ≠ c.sentinel)
    (hnew : ∀ b i, f.key b i ≠ key) (hs : ∀ j, c.Reaches key j → j < s) :
    ¬ Resident t key ∧ ∃ what, (Probing.insert c t key ()).1 = .thrown what := by
  rcases insert_cases h.inv hkey () with ⟨⟨b, i, hbi⟩, -⟩ | ⟨hres, s', i, hplaced, -⟩ | ⟨hres, -, hins⟩
  · have hocc : Occupied t b i := by rw [Occupied, hbi]; exact hkey
    obtain ⟨i', -, hkey'⟩ := h.atHome b i hocc
    exact absurd (hkey'.symm.trans hbi) (hnew b i')
  · have hfull : Full t (c.bucketAt key s') :=
      h.full fun i' => mem_triedSlots.mpr ⟨s', hs s' hplaced.reaches, rfl⟩
    exact absurd (hfull i) hplaced.empty
  · exact ⟨hres, _, by rw [hins]⟩

end

/-- A filler for every slot of a directory, one key more and a sentinel. -/
inductive OrbitKey (N B : ℕ) where
  | filler (b : Fin N) (i : Fin B)
  | extra
  | sentinel
  deriving DecidableEq

/-- The directory the keys are hashed into, the key `extra` to its first bucket. -/
def orbitConfig (N B : ℕ) (hpos : 0 < N) (hN : N < 2 ^ 64) : Config (OrbitKey N B) (OrbitKey N B) where
  directorySize := N
  directorySize_lt := hN
  bucketSize := B
  hashfn := id
  reductionfn
    | .filler b _ => b
    | _ => ⟨0, hpos⟩
  probingfn := .quadratic
  sentinel := .sentinel

def orbitFillers (N B : ℕ) (hpos : 0 < N) (hN : N < 2 ^ 64) : Fillers (orbitConfig N B hpos hN) where
  key := .filler
  key_inj _ _ _ h := (OrbitKey.filler.inj h).2
  key_ne _ _ := nofun
  home_key _ _ := rfl

/-- With a directory size for which a square is not met, an insert gives up although there is room on the
orbit. -/
theorem not_throwsOnFullOrbit {N B s k : ℕ} (hpos : 0 < N) (hN : N < 2 ^ 32) (hB : 0 < B) (hs : FirstReturn N s)
    (hk : ∀ j < s, j * j % N ≠ k * k % N) : ¬ ThrowsOnFullOrbit N B := by
  intro hthrows
  have hlt : N < 2 ^ 64 := hN.trans (by norm_num)
  let c := orbitConfig N B hpos hlt
  let zero : Fin N := ⟨0, hpos⟩
  have hfilling := filling_run (orbitFillers N B hpos hlt) (fun _ _ => { key := .sentinel, payload := () })
    (triedSlots c zero s)
  have hextra : OrbitKey.extra ≠ c.sentinel := show OrbitKey.extra ≠ OrbitKey.sentinel from nofun
  obtain ⟨habsent, hthrown⟩ := hfilling.throws OrbitKey.extra hextra
    (fun b i => show OrbitKey.filler b i ≠ OrbitKey.extra from nofun)
    fun j hj => ProbingFn.lt_of_reaches_of_firstReturn hN zero hj hs
  have horbit := hthrows _ _ _ _ c rfl rfl rfl _ _ OrbitKey.extra () hextra habsent hthrown
  have hbucket : k * k % N = (zero + k * k) % N := by rw [show (zero : ℕ) = 0 from rfl, Nat.zero_add]
  have hfull := horbit k ⟨k * k % N, Nat.mod_lt _ hpos⟩ hbucket
  obtain ⟨j, hj, hprobe⟩ := mem_triedSlots.mp (hfilling.mem_of_full hfull ⟨0, hB⟩)
  have hjN : j ≤ N := hj.le.trans (hs.le_of_dvd hpos (dvd_mul_right N N))
  have hval : (zero + j * j) % N = k * k % N :=
    (ProbingFn.probe_quadratic_of_le hN zero hjN).symm.trans (congrArg Fin.val hprobe)
  rw [show (zero : ℕ) = 0 from rfl, Nat.zero_add] at hval
  exact hk j hj hval

/-- **When quadratic probing tries the whole orbit of a key before it gives up**: exactly for the directory sizes
that neither `64` nor the square of an odd prime divides. -/
theorem quadratic_orbit_iff (N B : ℕ) (hpos : 1 ≤ N) (hN : N < 2 ^ 32) (hB : 1 ≤ B) :
    ThrowsOnFullOrbit N B ↔ ¬ 64 ∣ N ∧ ∀ p, p.Prime → p ≠ 2 → ¬ p * p ∣ N := by
  constructor
  · intro hthrows
    obtain ⟨s, hs⟩ := exists_firstReturn hpos
    rw [← forall_exists_iff hpos hs]
    intro k
    by_contra hnone
    push Not at hnone
    exact not_throwsOnFullOrbit hpos hN hB hs hnone hthrows
  · intro hsize Key Hash Payload _ c hc _ hquadratic memory ops key payload hkey t habsent ⟨what, hthrown⟩
    subst hc
    rcases insert_cases (inv_reached memory ops) hkey payload with ⟨hres, -⟩ | ⟨-, s, i, -, hins⟩ | ⟨-, hexh, -⟩
    · exact absurd hres habsent
    · rw [hins] at hthrown
      exact absurd hthrown (by simp)
    · exact hexh.orbitFull hquadratic hN hsize

/-- Nine buckets of one slot and the sentinel `4`, with the keys `0`, `1`, `2`, `3` at home in the buckets `0`,
`1`, `4`, `0`. -/
def nineBuckets : Config (Fin 5) (Fin 5) where
  directorySize := 9
  directorySize_lt := by norm_num
  bucketSize := 1
  hashfn := id
  reductionfn h := if h = 1 then 1 else if h = 2 then 4 else 0
  probingfn := .quadratic
  sentinel := 4

/-- Key `3` is refused with three buckets full, and bucket `7`, four steps from its home, is empty. -/
theorem quadratic_orbit_nine_buckets :
    let t := ((store nineBuckets).run (clear nineBuckets fun _ _ => { key := 0, payload := 9 })
      [.insert 0 5, .insert 1 6, .insert 2 7]).2
    ¬ Resident t 3 ∧ (insert nineBuckets t 3 8).1 = .thrown (cycleMessage nineBuckets) ∧
      (7 : ℕ) = (nineBuckets.home 3 + 4 * 4) % 9 ∧ (t (7 : Fin 9) (0 : Fin 1)).key = nineBuckets.sentinel := by
  decide

/-- Seven buckets are enough for every key to try its orbit. -/
theorem quadratic_orbit_seven : ThrowsOnFullOrbit 7 1 := by
  refine (quadratic_orbit_iff 7 1 (by norm_num) (by norm_num) le_rfl).mpr ⟨by norm_num, fun p hp hp2 hdvd => ?_⟩
  have hle := Nat.le_of_dvd (by norm_num) hdvd
  have hp3 : p < 3 := by nlinarith
  exact hp2 (le_antisymm (by omega) hp.two_le)

end Probing

end HashingArchive.Hashtable
