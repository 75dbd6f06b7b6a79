import HashingArchive.Hashtable.Cuckoo
import HashingArchive.Library.Words

/-!
# The victims of the kicking functors

Between two full buckets a kicking functor kicks out the slot that it takes from one number (`kick_of_full`).
`BalancedKicking` takes the bucket from the lowest bit of the number and the slot from its remainder by the bucket
size. With an odd bucket size the two are independent, and the slots share the numbers evenly. With an even one the
lowest bit is also that of the slot: the even slots of the first bucket and the odd slots of the second are never
kicked out (`exists_balancedVictim_iff`). `BiasedKicking` compares the number with a threshold to take the bucket, and
reaches every slot if the threshold leaves either bucket enough numbers (`biasedKicking_reaches`).
-/

namespace HashingArchive.Hashtable.Cuckoo

open HashingArchive.Library

variable {Key Hash1 Hash2 Payload : Type} (c : Config Key Hash1 Hash2)

/-- The parameters with a generator that draws `rng`. -/
abbrev Config.drawing (rng : BitVec 32) : Config Key Hash1 Hash2 := { c with rand_ := fun _ => rng }

/-- The slot of two full buckets that a kicking functor takes from the number drawn. -/
def victim (fromFirst : BitVec 32 → Bool) (b1 b2 : Fin c.directorySize) (rng : BitVec 32) :
    Fin c.directorySize × Fin c.bucketSize :=
  (if fromFirst rng then b1 else b2, ⟨rng.toNat % c.bucketSize, Nat.mod_lt _ c.bucketSize_pos⟩)

def balancedVictim (b1 b2 : Fin c.directorySize) (rng : BitVec 32) : Fin c.directorySize × Fin c.bucketSize :=
  victim c (fun rng => rng &&& 1 ≠ 0) b1 b2 rng

def biasedVictim (threshold_ : BitVec 32) (b1 b2 : Fin c.directorySize) (rng : BitVec 32) :
    Fin c.directorySize × Fin c.bucketSize :=
  victim c (fun rng => threshold_ < rng) b1 b2 rng

variable {c}

theorem victim_fst (fromFirst : BitVec 32 → Bool) (b1 b2 : Fin c.directorySize) (rng : BitVec 32) :
    (victim c fromFirst b1 b2 rng).1 = b1 ∨ (victim c fromFirst b1 b2 rng).1 = b2 := by
  unfold victim
  split_ifs
  · exact Or.inl rfl
  · exact Or.inr rfl

namespace Table

/-- The table with a generator that draws `rng`. -/
def drawing (t : Table c Payload) (rng : BitVec 32) : Table (c.drawing rng) Payload where
  buckets := t.buckets
  draws := t.draws

/-- The content of the slot is out, and the entry in hand in its place. -/
def evict (t : Table c Payload) (key : Key) (payload : Payload) (slot : Fin c.directorySize × Fin c.bucketSize) :
    Option (Key × Payload) × Table c Payload :=
  (some ((t.buckets slot.1 slot.2).key, (t.buckets slot.1 slot.2).payload),
    { buckets := take t.buckets key slot.1 slot.2 payload, draws := t.draws + 1 })

end Table

/-! ### Full buckets -/

section
variable [DecidableEq Key] {t : Table c Payload} {b1 b2 : Fin c.directorySize}

/-- In a full bucket the count is the bucket size. -/
theorem count_eq_of_full {g : Buckets c Payload} {b : Fin c.directorySize} (hfull : ∀ i, Occupied g b i) :
    count c g b = c.bucketSize := by
  rw [count, Finset.sum_congr rfl fun i _ => if_neg (hfull i)]
  simp

/-- With both buckets full a kicking functor kicks out the slot that the number drawn picks. -/
theorem kick_of_full (prefers : ℕ → ℕ → Bool) (fromFirst : BitVec 32 → Bool) (h1 : ∀ i, Occupied t.buckets b1 i)
    (h2 : ∀ i, Occupied t.buckets b2 i) (key : Key) (payload : Payload) :
    kick c prefers fromFirst t b1 b2 key payload =
      t.evict key payload (victim c fromFirst b1 b2 (c.rand_ t.draws)) := by
  unfold kick
  dsimp only
  rw [dif_neg fun h => absurd h.2 (by rw [count_eq_of_full h1]; exact lt_irrefl _),
    dif_neg (by rw [count_eq_of_full h2]; exact lt_irrefl _)]
  rfl

theorem kickingfn_of_full (h1 : ∀ i, Occupied t.buckets b1 i) (h2 : ∀ i, Occupied t.buckets b2 i) (key : Key)
    (payload : Payload) :
    ∃ b, ∃ i : Fin c.bucketSize, (b = b1 ∨ b = b2) ∧ (i : ℕ) = (c.rand_ t.draws).toNat % c.bucketSize ∧
      kickingfn c t b1 b2 key payload = t.evict key payload (b, i) := by
  have hkick : ∀ prefers fromFirst, ∃ b, ∃ i : Fin c.bucketSize, (b = b1 ∨ b = b2) ∧
      (i : ℕ) = (c.rand_ t.draws).toNat % c.bucketSize ∧
      kick c prefers fromFirst t b1 b2 key payload = t.evict key payload (b, i) :=
    fun prefers fromFirst =>
      ⟨_, _, victim_fst fromFirst b1 b2 _, rfl, kick_of_full prefers fromFirst h1 h2 key payload⟩
  unfold kickingfn
  cases c.kickingfn with
  | BalancedKicking => exact hkick _ _
  | BiasedKicking threshold_ => exact hkick _ _

theorem BalancedKicking_of_full (h1 : ∀ i, Occupied t.buckets b1 i) (h2 : ∀ i, Occupied t.buckets b2 i) (key : Key)
    (payload : Payload) (rng : BitVec 32) :
    BalancedKicking (c.drawing rng) (t.drawing rng) b1 b2 key payload =
      (t.drawing rng).evict key payload (balancedVictim c b1 b2 rng) :=
  kick_of_full (c := c.drawing rng) (t := t.drawing rng) _ _ h1 h2 key payload

theorem BiasedKicking_of_full (threshold_ : BitVec 32) (h1 : ∀ i, Occupied t.buckets b1 i)
    (h2 : ∀ i, Occupied t.buckets b2 i) (key : Key) (payload : Payload) (rng : BitVec 32) :
    BiasedKicking (c.drawing rng) threshold_ (t.drawing rng) b1 b2 key payload =
      (t.drawing rng).evict key payload (biasedVictim c threshold_ b1 b2 rng) :=
  kick_of_full (c := c.drawing rng) (t := t.drawing rng) _ _ h1 h2 key payload

end

/-! ### `BalancedKicking` -/

section
variable {b1 b2 b : Fin c.directorySize} (hne : b1 ≠ b2) (hb : b = b1 ∨ b = b2)
include hne hb

/-- Slot `i` of a bucket is the victim of the numbers with the parity of the bucket and the remainder `i`. -/
theorem balancedVictim_eq_iff (i : Fin c.bucketSize) (rng : BitVec 32) :
    balancedVictim c b1 b2 rng = (b, i) ↔
      rng.toNat ≡ (if b = b1 then 1 else 0) [MOD 2] ∧ rng.toNat ≡ i [MOD c.bucketSize] := by
  have hslot : (⟨rng.toNat % c.bucketSize, Nat.mod_lt _ c.bucketSize_pos⟩ : Fin c.bucketSize) = i ↔
      rng.toNat ≡ i [MOD c.bucketSize] := by
    rw [Fin.ext_iff, Nat.ModEq, Nat.mod_eq_of_lt i.isLt]
  have hbucket : (if decide (rng &&& 1 ≠ 0) then b1 else b2) = b ↔
      rng.toNat ≡ (if b = b1 then 1 else 0) [MOD 2] := by
    have hbit := Words.and_one_ne_zero_iff rng
    rw [if_congr (decide_eq_true_iff.trans hbit) rfl rfl]
    rcases hb with rfl | rfl <;> by_cases hodd : rng.toNat % 2 = 1
    · simp [Nat.ModEq, hodd]
    · simp [Nat.ModEq, hodd, hne.symm]
    · simp [Nat.ModEq, hodd, hne, hne.symm]
    · simp [Nat.ModEq, hne.symm, Nat.mod_two_ne_one.mp hodd]
  rw [balancedVictim, victim, Prod.mk.injEq, hbucket, hslot]

/-- With an odd bucket size these are the numbers with one remainder by twice that size. -/
theorem exists_balancedVictim_eq_iff (hodd : Odd c.bucketSize) (i : Fin c.bucketSize) :
    ∃ k, ∀ rng, balancedVictim c b1 b2 rng = (b, i) ↔ rng.toNat ≡ k [MOD 2 * c.bucketSize] := by
  have hcoprime : Nat.Coprime 2 c.bucketSize := Nat.coprime_two_left.mpr hodd
  obtain ⟨k, hparity, hslot⟩ := Nat.chineseRemainder hcoprime (if b = b1 then 1 else 0) i
  refine ⟨k, fun rng => ?_⟩
  rw [balancedVictim_eq_iff hne hb, ← Nat.modEq_and_modEq_iff_modEq_mul hcoprime]
  constructor
  · intro ⟨h2, hsize⟩
    exact ⟨h2.trans hparity.symm, hsize.trans hslot.symm⟩
  · intro ⟨h2, hsize⟩
    exact ⟨h2.trans hparity, hsize.trans hslot⟩

/-- With an even one the numbers with the remainder `i` all have the parity of `i`. -/
theorem balancedVictim_eq_iff_of_even (heven : Even c.bucketSize) (i : Fin c.bucketSize) (rng : BitVec 32) :
    balancedVictim c b1 b2 rng = (b, i) ↔
      (i : ℕ) ≡ (if b = b1 then 1 else 0) [MOD 2] ∧ rng.toNat ≡ i [MOD c.bucketSize] := by
  rw [balancedVictim_eq_iff hne hb]
  apply and_congr_left
  intro hslot
  have hparity : rng.toNat ≡ i [MOD 2] := hslot.of_dvd heven.two_dvd
  exact ⟨hparity.symm.trans, hparity.trans⟩

/-- Which slots are within reach. -/
theorem exists_balancedVictim_iff (hle : c.bucketSize ≤ 2 ^ 31) (i : Fin c.bucketSize) :
    (∃ rng, balancedVictim c b1 b2 rng = (b, i)) ↔
      Odd c.bucketSize ∨ (i : ℕ) ≡ (if b = b1 then 1 else 0) [MOD 2] := by
  have hpos := c.bucketSize_pos
  rcases Nat.even_or_odd c.bucketSize with heven | hodd
  · obtain ⟨rng, hrng⟩ := Words.exists_modEq (w := 32) hpos (by omega) i
    simp only [balancedVictim_eq_iff_of_even hne hb heven, Nat.not_odd_iff_even.mpr heven, false_or]
    exact ⟨fun ⟨_, hparity, _⟩ => hparity, fun hparity => ⟨rng, hparity, hrng⟩⟩
  · obtain ⟨k, hvictim⟩ := exists_balancedVictim_eq_iff hne hb hodd i
    obtain ⟨rng, hrng⟩ := Words.exists_modEq (w := 32) (m := 2 * c.bucketSize) (by omega) (by omega) k
    exact iff_of_true ⟨rng, (hvictim rng).mpr hrng⟩ (Or.inl hodd)

/-- With an odd bucket size every slot has its share of the numbers. -/
theorem card_balancedVictim (hodd : Odd c.bucketSize) (i : Fin c.bucketSize) :
    (Finset.univ.filter fun rng => balancedVictim c b1 b2 rng = (b, i)).card = 2 ^ 32 / (2 * c.bucketSize) ∨
      (Finset.univ.filter fun rng => balancedVictim c b1 b2 rng = (b, i)).card = 2 ^ 32 ⌈/⌉ (2 * c.bucketSize) := by
  obtain ⟨k, hvictim⟩ := exists_balancedVictim_eq_iff hne hb hodd i
  simp only [hvictim]
  exact Words.card_modEq (Nat.mul_pos Nat.two_pos c.bucketSize_pos) k

/-- With an even one the slots within reach have twice that share. -/
theorem card_balancedVictim_of_even (heven : Even c.bucketSize) {i : Fin c.bucketSize}
    (hparity : (i : ℕ) ≡ (if b = b1 then 1 else 0) [MOD 2]) :
    (Finset.univ.filter fun rng => balancedVictim c b1 b2 rng = (b, i)).card = 2 ^ 32 / c.bucketSize ∨
      (Finset.univ.filter fun rng => balancedVictim c b1 b2 rng = (b, i)).card = 2 ^ 32 ⌈/⌉ c.bucketSize := by
  simp only [balancedVictim_eq_iff_of_even hne hb heven, hparity, true_and]
  exact Words.card_modEq c.bucketSize_pos i

end

/-- Each of the slots of the two buckets is the victim of its share of the `2 ^ 32` numbers, rounded down or up, and
of at least one. -/
structure KicksEvenly (c : Config Key Hash1 Hash2) (b1 b2 : Fin c.directorySize) : Prop where
  share : ∀ b, b = b1 ∨ b = b2 → ∀ i,
    (Finset.univ.filter fun rng => balancedVictim c b1 b2 rng = (b, i)).card = 2 ^ 32 / (2 * c.bucketSize) ∨
      (Finset.univ.filter fun rng => balancedVictim c b1 b2 rng = (b, i)).card = 2 ^ 32 ⌈/⌉ (2 * c.bucketSize)
  reached : ∀ b, b = b1 ∨ b = b2 → ∀ i, ∃ rng, balancedVictim c b1 b2 rng = (b, i)

/-- **`BalancedKicking` kicks evenly exactly with an odd bucket size.** With both buckets full it kicks out the slot
`balancedVictim`, for every number drawn. -/
theorem balancedKicking_evenly_iff [DecidableEq Key] {t : Table c Payload} {b1 b2 : Fin c.directorySize}
    (hle : c.bucketSize ≤ 2 ^ 31) (hne : b1 ≠ b2) (h1 : ∀ i, Occupied t.buckets b1 i)
    (h2 : ∀ i, Occupied t.buckets b2 i) (key : Key) (payload : Payload) :
    (∀ rng, BalancedKicking (c.drawing rng) (t.drawing rng) b1 b2 key payload =
      (t.drawing rng).evict key payload (balancedVictim c b1 b2 rng)) ∧
    (KicksEvenly c b1 b2 ↔ Odd c.bucketSize) := by
  refine ⟨BalancedKicking_of_full h1 h2 key payload, fun heven => ?_, fun hodd => ⟨fun b hb i => ?_, fun b hb i => ?_⟩⟩
  · -- the first slot of the first bucket has the parity of the other one
    have hfirst := heven.reached b1 (Or.inl rfl) ⟨0, c.bucketSize_pos⟩
    rw [exists_balancedVictim_iff hne (Or.inl rfl) hle, if_pos rfl] at hfirst
    exact hfirst.resolve_right (show ¬ 0 ≡ 1 [MOD 2] by decide)
  · exact card_balancedVictim hne hb hodd i
  · exact (exists_balancedVictim_iff hne hb hle i).mpr (Or.inl hodd)

/-- Two buckets, with the candidate buckets of every key in order. -/
def twoBuckets (bucketSize : ℕ) (bucketSize_pos : 0 < bucketSize) : Config ℕ (Fin 2) (Fin 2) where
  directorySize := 2
  bucketSize := bucketSize
  bucketSize_pos := bucketSize_pos
  hashfn1 _ := 0
  hashfn2 _ _ := 1
  reductionfn1 := id
  reductionfn2 := id
  kickingfn := .BalancedKicking
  rand_ _ := 0
  sentinel := 2 ^ 64 - 1

/-- The two buckets, full of the keys from `0` on. -/
def twoBucketsTable (bucketSize : ℕ) (bucketSize_pos : 0 < bucketSize) :
    Table (twoBuckets bucketSize bucketSize_pos) ℕ where
  buckets b i := { key := 2 * i + b, payload := 5 }
  draws := 0

theorem occupied_twoBucketsTable {bucketSize : ℕ} (bucketSize_pos : 0 < bucketSize) (hle : bucketSize ≤ 2 ^ 31)
    (b : Fin 2) (i : Fin bucketSize) : Occupied (twoBucketsTable bucketSize bucketSize_pos).buckets b i := by
  show 2 * (i : ℕ) + b ≠ 2 ^ 64 - 1
  omega

/-- Of sixteen entries the one with key `0` is never kicked out. -/
theorem balancedKicking_uneven :
    let c := twoBuckets 8 (by decide)
    let t := twoBucketsTable 8 (by decide)
    (∀ b i, Occupied t.buckets b i) ∧ ¬ KicksEvenly c (c.i1 16) (c.i2 16) ∧
      ∀ rng payload, (BalancedKicking (c.drawing rng) (t.drawing rng) (c.i1 16) (c.i2 16) 16 6).1 ≠
        some (0, payload) := by
  intro c t
  have hfull : ∀ b i, Occupied t.buckets b i := occupied_twoBucketsTable _ (by decide)
  have hne : c.i1 16 ≠ c.i2 16 := by decide
  have hnever : ¬ ∃ rng, balancedVictim c (c.i1 16) (c.i2 16) rng = (c.i1 16, ⟨0, c.bucketSize_pos⟩) := by
    rw [exists_balancedVictim_iff hne (Or.inl rfl) (by decide)]
    decide
  refine ⟨hfull, fun h => hnever (h.reached _ (Or.inl rfl) _), fun rng payload heq => ?_⟩
  rw [BalancedKicking_of_full (hfull _) (hfull _), Table.evict, Option.some.injEq, Prod.mk.injEq] at heq
  have hkey : 2 * ((balancedVictim c (c.i1 16) (c.i2 16) rng).2 : ℕ) +
      (balancedVictim c (c.i1 16) (c.i2 16) rng).1 = 0 := heq.1
  refine hnever ⟨rng, Prod.ext (Fin.ext ?_) (Fin.ext ?_)⟩
  · exact (Nat.add_eq_zero_iff.mp hkey).2
  · show ((balancedVictim c (c.i1 16) (c.i2 16) rng).2 : ℕ) = 0
    omega

theorem balancedKicking_even_three :
    let c := twoBuckets 3 (by decide)
    let t := twoBucketsTable 3 (by decide)
    (∀ rng, BalancedKicking (c.drawing rng) (t.drawing rng) (c.i1 6) (c.i2 6) 6 6 =
      (t.drawing rng).evict 6 6 (balancedVictim c (c.i1 6) (c.i2 6) rng)) ∧
    KicksEvenly c (c.i1 6) (c.i2 6) := by
  intro c t
  have hfull : ∀ b i, Occupied t.buckets b i := occupied_twoBucketsTable _ (by decide)
  have heven := balancedKicking_evenly_iff (c := c) (t := t) (by decide) (show c.i1 6 ≠ c.i2 6 by decide) (hfull _)
    (hfull _) 6 6
  exact ⟨heven.1, heven.2.mpr (by decide)⟩

/-! ### `BiasedKicking` -/

/-- With at least a bucket size of numbers on either side of the threshold every slot is reached. -/
theorem exists_biasedVictim {threshold_ : BitVec 32} (hfirst : threshold_.toNat + c.bucketSize < 2 ^ 32)
    (hsecond : c.bucketSize ≤ threshold_.toNat + 1) {b1 b2 b : Fin c.directorySize} (hb : b = b1 ∨ b = b2)
    (i : Fin c.bucketSize) : ∃ rng, biasedVictim c threshold_ b1 b2 rng = (b, i) := by
  have hvictim : ∀ k < 2 ^ 32, k % c.bucketSize = i →
      biasedVictim c threshold_ b1 b2 (BitVec.ofNat 32 k) = (if threshold_.toNat < k then b1 else b2, i) := by
    intro k hk hki
    have hval : (BitVec.ofNat 32 k).toNat = k := by rw [BitVec.toNat_ofNat, Nat.mod_eq_of_lt hk]
    simp only [biasedVictim, victim, BitVec.lt_def, hval, hki, decide_eq_true_eq]
  rcases hb with rfl | rfl
  · -- the last number up to `threshold_ + bucketSize` with the remainder `i`
    let k := c.bucketSize * ((threshold_.toNat + c.bucketSize - i) / c.bucketSize) + i
    have hsplit := Nat.div_add_mod (threshold_.toNat + c.bucketSize - i) c.bucketSize
    have hmod := Nat.mod_lt (threshold_.toNat + c.bucketSize - i) c.bucketSize_pos
    have hi := i.isLt
    have hk : threshold_.toNat < k ∧ k ≤ threshold_.toNat + c.bucketSize := by omega
    have hki : k % c.bucketSize = i := by rw [Nat.mul_add_mod, Nat.mod_eq_of_lt hi]
    exact ⟨BitVec.ofNat 32 k, by rw [hvictim k (by omega) hki, if_pos hk.1]⟩
  · have hi := i.isLt
    exact ⟨BitVec.ofNat 32 i, by rw [hvictim i (by omega) (Nat.mod_eq_of_lt hi), if_neg (by omega)]⟩

/-- **`BiasedKicking` kicks out every entry**, for some number drawn. -/
theorem biasedKicking_reaches [DecidableEq Key] {t : Table c Payload} {threshold_ : BitVec 32}
    {b1 b2 b : Fin c.directorySize} (hfirst : threshold_.toNat + c.bucketSize < 2 ^ 32)
    (hsecond : c.bucketSize ≤ threshold_.toNat + 1) (h1 : ∀ i, Occupied t.buckets b1 i)
    (h2 : ∀ i, Occupied t.buckets b2 i) (key : Key) (payload : Payload) (hb : b = b1 ∨ b = b2)
    (i : Fin c.bucketSize) :
    ∃ rng, BiasedKicking (c.drawing rng) threshold_ (t.drawing rng) b1 b2 key payload =
      (t.drawing rng).evict key payload (b, i) := by
  obtain ⟨rng, hvictim⟩ := exists_biasedVictim hfirst hsecond hb i
  refine ⟨rng, ?_⟩
  rw [BiasedKicking_of_full threshold_ h1 h2, hvictim]

end HashingArchive.Hashtable.Cuckoo
