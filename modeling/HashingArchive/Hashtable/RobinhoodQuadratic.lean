import HashingArchive.Hashtable.RobinhoodRuns
import HashingArchive.Hashtable.Termination

/-!
# `RobinhoodProbing` with quadratic probing misses room

A key that is displaced goes on along its own probe sequence, and with quadratic probing that sequence leads
through other buckets than the one of the key that came for its slot. With two or three buckets every key tries
its orbit before it gives up (`throws_on_full_orbit`). With a prime number of buckets from five on two homes are
enough for an insert to give up although there is room on its orbit: the keys at home in bucket `1` fill every
bucket they ever try, those at home in bucket `0` fill that bucket, and the next one of these displaces a key that
has nowhere to go (`insert_walled`).
-/

namespace HashingArchive.Hashtable

open HashingArchive.Library HashingArchive.Loop HashingArchive.Squares

/-! ### The probe sequence -/

namespace ProbingFn

/-- The loop is back home after `N` steps, or after `2 ^ 32`. -/
theorem lt_of_reaches {N : ℕ} (hN : N ≤ 2 ^ 64) {h : Fin N} {s : ℕ} (hs : quadratic.Reaches h s) :
    s < N ∧ s < 2 ^ 32 := by
  obtain ⟨j, hpos, hle, hback⟩ := exists_back_quadratic h hN
  have hlt : s < j := by
    by_contra hge
    exact hs.2 j hpos (not_lt.mp hge) hback
  omega

section
variable {N : ℕ} {h : Fin N} (hh : (h : ℕ) ≤ 1)
include hh

theorem probe_quadratic_of_lt {j : ℕ} (hj : j < 2 ^ 32) : (quadratic.probe h j : ℕ) = (h + j * j) % N := by
  have hsq : j * j ≤ (2 ^ 32 - 1) * (2 ^ 32 - 1) := Nat.mul_le_mul (by omega) (by omega)
  simp only [probe, apply, QuadraticProbingFunc]
  rw [Nat.mod_eq_of_lt (a := h.val + j * j) (by omega)]

/-- A loop that meets a bucket again has met all its buckets before. -/
theorem exists_probe_of_probe_eq (hN : N.Prime) (hlt : N ≤ 2 ^ 64) {s j : ℕ} (hs : quadratic.Reaches h s)
    (hj : j < s) (heq : quadratic.probe h j = quadratic.probe h s) {r : ℕ} (hr : quadratic.Reaches h r) :
    ∃ r' < s, quadratic.probe h r' = quadratic.probe h r := by
  obtain ⟨hsN, hs32⟩ := lt_of_reaches hlt hs
  obtain ⟨hrN, hr32⟩ := lt_of_reaches hlt hr
  rcases Nat.lt_or_ge r s with hrs | hrs
  · exact ⟨r, hrs, rfl⟩
  · have hval := congrArg Fin.val heq
    rw [probe_quadratic_of_lt hh (by omega), probe_quadratic_of_lt hh hs32] at hval
    have hsum := add_eq_of_sq_mod_eq hN hj hsN (Nat.ModEq.add_left_cancel' h.val hval)
    refine ⟨N - r, by omega, Fin.ext ?_⟩
    rw [probe_quadratic_of_lt hh (by omega), probe_quadratic_of_lt hh hr32, Nat.add_mod,
      sq_sub_mod_eq ⟨2, by ring⟩ (dvd_mul_right N N) hrN.le, ← Nat.add_mod]

end

/-- With two or three buckets the orbit is the home bucket and the next one. -/
theorem eq_of_orbit {N : ℕ} (hN : N.Prime) (h3 : N ≤ 3) {h b : Fin N} {j : ℕ} (hb : (b : ℕ) = (h + j * j) % N) :
    b = h ∨ b = quadratic.probe h 1 := by
  have hsq : j * j % N = 0 ∨ j * j % N = 1 := by
    have htwo := hN.two_le
    obtain rfl | rfl : N = 2 ∨ N = 3 := by omega
    · omega
    · have hj : j % 3 = 0 ∨ j % 3 = 1 ∨ j % 3 = 2 := by omega
      rw [Nat.mul_mod]
      rcases hj with hj | hj | hj <;> simp [hj]
  rw [← Nat.add_mod_mod] at hb
  rcases hsq with hzero | hone
  · rw [hzero, Nat.add_zero, Nat.mod_eq_of_lt h.isLt] at hb
    exact Or.inl (Fin.ext hb)
  · rw [hone] at hb
    have hprobe := probe_quadratic_of_le (by omega) h (j := 1) h.pos
    exact Or.inr (Fin.ext (hb.trans hprobe.symm))

end ProbingFn

namespace Robinhood

section
variable {Key Hash Payload : Type} {c : Config Key Hash}

/-! ### What the documentation promises -/

/-- All buckets of the probe orbit of `key` are full. -/
def OrbitFull (t : Table c Payload) (key : Key) : Prop :=
  ∀ (j : ℕ) (b : Fin c.directorySize), (b : ℕ) = (c.home key + j * j) % c.directorySize → ∀ i, Occupied t b i

/-- With `N` buckets of `B` slots an insert of an absent key into a reachable table throws only if the probe
orbit of the key is full. -/
def ThrowsOnFullOrbit (N B : ℕ) : Prop :=
  ∀ (Key Hash Payload : Type) (_ : DecidableEq Key) (c : Config Key Hash), c.directorySize = N → c.bucketSize = B →
    c.probingfn = .quadratic → ∀ (memory : Table c Payload) (ops : List (Op Key Payload)) (key : Key)
      (payload : Payload), key ≠ c.sentinel →
    let t := ((store c).run (clear c memory) ops).2
    ¬ Resident t key → (∃ what, (insert c t key payload).1 = .thrown what) → OrbitFull t key

/-! ### Room in the first two buckets -/

/-- There is room in the rest of the bucket, and the key to insert is not there. -/
structure Roomy (k : Key) (s : Hand c Payload) : Prop where
  room : ∃ i : Fin c.bucketSize, s.i ≤ i ∧ ¬ Occupied s.table s.slotIndex i
  ahead : ∀ i : Fin c.bucketSize, s.i ≤ i → (s.slot i).key ≠ k

/-- The step lemma: some key is placed in this bucket. -/
theorem Roomy.pass {k : Key} {s : Hand c Payload} (h : Roomy k s) {r} (hstep : BodyStep k s r) :
    r.Holds (Roomy k) (fun r => ∃ b, r.1 = .value b) := by
  obtain ⟨i₀, hle, hempty₀⟩ := h.room
  -- the room is not in a slot that is occupied
  have hlater : ∀ i : Fin c.bucketSize, s.i = i → (s.slot i).key ≠ c.sentinel → i < i₀ := by
    intro i hi hocc
    refine lt_of_le_of_ne (Fin.le_def.mpr (by omega)) ?_
    rintro rfl
    exact hempty₀ hocc
  cases hstep with
  | place i hi hempty => exact ⟨true, rfl⟩
  | found i hi hsame => exact ⟨false, rfl⟩
  | skip i hi hocc hother hpoor =>
    have hlt : i < i₀ := hlater i hi hocc
    rw [Fin.lt_def] at hlt
    refine ⟨⟨i₀, by dsimp only; omega, hempty₀⟩, fun i' hi' => h.ahead i' ?_⟩
    dsimp only at hi'
    omega
  | displace i hi hocc hrich horig =>
    have hlt : i < i₀ := hlater i hi hocc
    rw [Fin.lt_def] at hlt
    have hkeep : ∀ i' : Fin c.bucketSize, s.i + 1 ≤ i' → s.placed i s.slotIndex i' = s.table s.slotIndex i' := by
      intro i' hi'
      apply Grid.set_of_ne
      rintro ⟨-, rfl⟩
      omega
    refine ⟨⟨i₀, by dsimp only; omega, ?_⟩, fun i' hi' => ?_⟩
    · change ¬ Occupied (s.placed i) s.slotIndex i₀
      rw [Occupied, hkeep i₀ (by omega)]
      exact hempty₀
    · change (s.placed i s.slotIndex i').key ≠ k
      rw [hkeep i' hi']
      exact h.ahead i' (Nat.le_of_succ_le hi')
  | loop i hi hrich horig => exact absurd horig.symm (h.ahead i hi.le)
  | next hi hne =>
    have := i₀.isLt
    omega
  | cycle hi hback =>
    have := i₀.isLt
    omega

variable [DecidableEq Key]

/-- A key is stored in its home bucket if that has room. -/
theorem insert_at_home {t : Table c Payload} (hinv : Inv t) {k : Key} (hk : k ≠ c.sentinel)
    (habsent : ¬ Resident t k) (p : Payload) (hroom : ∃ i, ¬ Occupied t (c.home k) i) :
    ∃ i, ¬ Occupied t (c.home k) i ∧
      insert c t k p = (.value true, t.set (c.home k) i { key := k, psl := 0, payload := p }) := by
  obtain ⟨i₀, hi₀⟩ := hroom
  refine insert_rule hinv hk habsent p
    (fun s => ∃ n : ℕ, s = { Hand.start t k p with i := n } ∧ n ≤ i₀)
    (fun r => ∃ i, ¬ Occupied t (c.home k) i ∧
      r = (.value true, t.set (c.home k) i { key := k, psl := 0, payload := p }))
    ⟨0, rfl, Nat.zero_le _⟩ ?_
  rintro _ r - ⟨n, rfl, hn⟩ hstep
  have hlt := i₀.isLt
  cases hstep with
  | place i hi hempty => exact ⟨i, not_not_intro hempty, rfl⟩
  | found i hi hsame => exact absurd ⟨_, i, hsame⟩ habsent
  | skip i hi hocc hother hpoor =>
    refine ⟨n + 1, rfl, Nat.succ_le_of_lt (lt_of_le_of_ne hn ?_)⟩
    intro heq
    obtain rfl : i = i₀ := Fin.ext (hi.symm.trans heq)
    exact hi₀ hocc
  | displace i hi hocc hrich horig => exact absurd hrich (Nat.not_lt_zero _)
  | loop i hi hrich horig => exact absurd hrich (Nat.not_lt_zero _)
  | next hi hne => exact absurd (show c.bucketSize ≤ n from hi) (by omega)
  | cycle hi hback => exact absurd (show c.bucketSize ≤ n from hi) (by omega)

/-- An insert does not throw if there is room one step from home. -/
theorem insert_next_to_home {t : Table c Payload} (hinv : Inv t) {k : Key} (hk : k ≠ c.sentinel)
    (habsent : ¬ Resident t k) (p : Payload) (hne : c.bucketAt k 1 ≠ c.home k)
    (hroom : ∃ i, ¬ Occupied t (c.bucketAt k 1) i) : ∃ b, (insert c t k p).1 = .value b := by
  refine insert_rule hinv hk habsent p
    (fun s => (∃ n : ℕ, s = { Hand.start t k p with i := n }) ∨ Roomy k s)
    (fun r => ∃ b, r.1 = .value b) (Or.inl ⟨0, rfl⟩) ?_
  rintro s r - (⟨n, rfl⟩ | hroomy) hstep
  · cases hstep with
    | place i hi hempty => exact ⟨true, rfl⟩
    | found i hi hsame => exact ⟨false, rfl⟩
    | skip i hi hocc hother hpoor => exact Or.inl ⟨n + 1, rfl⟩
    | displace i hi hocc hrich horig => exact absurd hrich (Nat.not_lt_zero _)
    | loop i hi hrich horig => exact absurd hrich (Nat.not_lt_zero _)
    | next hi hback =>
      obtain ⟨i₀, hi₀⟩ := hroom
      exact Or.inr ⟨⟨i₀, Nat.zero_le _, hi₀⟩, fun i _ heq => habsent ⟨_, i, heq⟩⟩
    | cycle hi hback => exact absurd hback hne
  · have hpass := hroomy.pass hstep
    cases r with
    | again s' => exact Or.inr hpass
    | leave r => exact hpass

/-- With two or three buckets an insert throws on a full orbit only. -/
theorem throws_on_full_orbit (hprime : c.directorySize.Prime) (h3 : c.directorySize ≤ 3)
    (hquadratic : c.probingfn = .quadratic) {t : Table c Payload} (hinv : Inv t) {k : Key} (hk : k ≠ c.sentinel)
    (habsent : ¬ Resident t k) (p : Payload) {what : String} (hthrown : (insert c t k p).1 = .thrown what) :
    OrbitFull t k := by
  intro j b hb i
  by_contra hempty
  rcases ProbingFn.eq_of_orbit hprime h3 hb with rfl | rfl
  · obtain ⟨i', -, hins⟩ := insert_at_home hinv hk habsent p ⟨i, hempty⟩
    rw [hins] at hthrown
    exact absurd hthrown (by simp)
  · have hne : c.bucketAt k 1 ≠ c.home k := by
      intro hback
      rw [Config.bucketAt, hquadratic,
        ProbingFn.probe_quadratic_eq_self_iff (by omega) _ (by omega)] at hback
      exact hprime.one_lt.ne' (Nat.dvd_one.mp hback)
    obtain ⟨b', hvalue⟩ := insert_next_to_home hinv hk habsent p hne ⟨i, by rwa [Config.bucketAt, hquadratic]⟩
    rw [hvalue] at hthrown
    exact absurd hthrown (by simp)

end

/-! ### Keys that fill every bucket they try -/

section
variable {Key Hash Payload : Type} {c : Config Key Hash}

/-- A key at home in `h` can get to bucket `b`. -/
def OnWay (c : Config Key Hash) (h b : Fin c.directorySize) : Prop :=
  ∃ s, c.probingfn.Reaches h s ∧ c.probingfn.probe h s = b

/-- The keys of the table are all at home in `h`. -/
def AllFrom (t : Table c Payload) (h : Fin c.directorySize) : Prop :=
  ∀ b i, Occupied t b i → c.home (t b i).key = h

/-- Every bucket on the way of the keys at home in `h` is full of such keys. -/
def Crowded (t : Table c Payload) (h : Fin c.directorySize) : Prop :=
  ∀ b, OnWay c h b → ∀ i, Occupied t b i ∧ c.home (t b i).key = h

variable {t : Table c Payload} {h : Fin c.directorySize}

theorem AllFrom.onWay (hall : AllFrom t h) (hinv : Inv t) {b : Fin c.directorySize} {i : Fin c.bucketSize}
    (hocc : Occupied t b i) : OnWay c h b := by
  rw [← hall b i hocc]
  exact ⟨_, hinv.reaches b i hocc, hinv.bucket b i hocc⟩

theorem Hand.Ok.onWay {s : Hand c Payload} (hs : s.Ok) (hhome : c.home s.key = h) : OnWay c h s.slotIndex := by
  rw [← hhome]
  exact ⟨_, hs.carries.reaches, hs.slotIndex_eq.symm⟩

theorem AllFrom.placed {s : Hand c Payload} (hall : AllFrom s.table h) (hhome : c.home s.key = h)
    (i : Fin c.bucketSize) : AllFrom (s.placed i) h := by
  intro b i' hocc
  by_cases hslot : b = s.slotIndex ∧ i' = i
  · obtain ⟨rfl, rfl⟩ := hslot
    rw [Hand.placed, Grid.set_self]
    exact hhome
  · rw [Occupied, Hand.placed, Grid.set_of_ne hslot] at hocc
    rw [Hand.placed, Grid.set_of_ne hslot]
    exact hall b i' hocc

/-- The buckets a hand has passed are full. -/
theorem Hand.Ok.passed {s : Hand c Payload} (hs : s.Ok) {r : ℕ}
    (hr : r < s.probingStep ∨ r = s.probingStep ∧ c.bucketSize ≤ s.i) (i : Fin c.bucketSize) :
    Occupied s.table (c.bucketAt s.key r) i := by
  rcases hr with hlt | ⟨rfl, hle⟩
  · exact (hs.carries.full r hlt i).1
  · exact (hs.carries.before i (i.isLt.trans_le hle)).1

/-- A hand that has passed all buckets on its way. -/
theorem Hand.Ok.crowded {s : Hand c Payload} (hs : s.Ok) (hhome : c.home s.key = h) (hall : AllFrom s.table h)
    (hpassed : ∀ r, c.probingfn.Reaches h r → ∃ r', (r' < s.probingStep ∨ r' = s.probingStep ∧ c.bucketSize ≤ s.i) ∧
      c.probingfn.probe h r' = c.probingfn.probe h r) : Crowded s.table h := by
  rintro b ⟨r, hreach, rfl⟩ i
  obtain ⟨r', hr', heq⟩ := hpassed r hreach
  have hocc := hs.passed hr' i
  rw [Config.bucketAt, hhome, heq] at hocc
  exact ⟨hocc, hall _ i hocc⟩

variable [DecidableEq Key]

def freeSlots (t : Table c Payload) : ℕ := t.sum fun slot => if slot.key = c.sentinel then 1 else 0

theorem freeSlots_set (t : Table c Payload) (b : Fin c.directorySize) (i : Fin c.bucketSize) (slot : Slot Key Payload)
    (hslot : slot.key ≠ c.sentinel) :
    freeSlots (t.set b i slot) + (if (t b i).key = c.sentinel then 1 else 0) = freeSlots t := by
  have hsum := Grid.sum_set t b i slot fun slot => if slot.key = c.sentinel then 1 else 0
  rwa [if_neg hslot, Nat.add_zero] at hsum

/-- The loop invariant of an insert among keys of one home. -/
structure Crowding (t : Table c Payload) (h : Fin c.directorySize) (s : Hand c Payload) : Prop where
  home_eq : c.home s.key = h
  all : AllFrom s.table h
  freeSlots_eq : freeSlots s.table = freeSlots t

/-- The step lemma: a key of the home takes a free slot, or there is none on the way. -/
theorem Crowding.pass (hquadratic : c.probingfn = .quadratic) (hprime : c.directorySize.Prime) (hh : (h : ℕ) ≤ 1)
    {k : Key} (hkey : k ≠ c.sentinel) {s : Hand c Payload} (hs : s.Ok) (hcrowding : Crowding t h s) {r}
    (hstep : BodyStep k s r) :
    r.Holds (Crowding t h) fun r => AllFrom r.2 h ∧ (Crowded r.2 h ∨ freeSlots r.2 < freeSlots t) := by
  obtain ⟨hhome, hall, hfree⟩ := hcrowding
  have hN := c.directorySize_lt.le
  cases hstep with
  | place i hi hempty =>
    have hset := freeSlots_set s.table s.slotIndex i ⟨s.key, s.probingStep, s.payload⟩ hs.carries.key_ne
    rw [if_pos hempty] at hset
    exact ⟨hall.placed hhome i, Or.inr (by rw [← hfree, ← hset]; exact Nat.lt_succ_self _)⟩
  | found i hi hsame => exact absurd ⟨_, i, hsame⟩ hs.carries.absent
  | skip i hi hocc hother hpoor => exact ⟨hhome, hall, hfree⟩
  | next hi hne => exact ⟨hhome, hall, hfree⟩
  | displace i hi hocc hrich horig =>
    have hset := freeSlots_set s.table s.slotIndex i ⟨s.key, s.probingStep, s.payload⟩ hs.carries.key_ne
    rw [if_neg hocc, Nat.add_zero] at hset
    exact ⟨hall _ i hocc, hall.placed hhome i, hset.trans hfree⟩
  | loop i hi hrich horig =>
    -- the bucket is met for the second time, so that all of them have been passed
    have hocc : Occupied s.table s.slotIndex i := by rw [Occupied, ← horig]; exact hkey
    have hbucket := hs.inv.bucket _ i hocc
    rw [Config.bucketAt, hall _ i hocc, hs.slotIndex_eq, Config.bucketAt, hhome, hquadratic] at hbucket
    have hreach := hs.carries.reaches
    rw [Config.Reaches, hhome, hquadratic] at hreach
    refine ⟨hall, Or.inl (hs.crowded hhome hall fun r hr => ?_)⟩
    rw [hquadratic] at hr ⊢
    rw [Hand.slot, hs.slotIndex_eq, Config.bucketAt, hhome, hquadratic] at hrich
    obtain ⟨r', hlt, heq⟩ := ProbingFn.exists_probe_of_probe_eq hh hprime hN hreach hrich hbucket hr
    exact ⟨r', Or.inl hlt, heq⟩
  | cycle hi hback =>
    refine ⟨hall, Or.inl (hs.crowded hhome hall fun r hr => ⟨r, ?_, rfl⟩)⟩
    have hreach := hs.carries.reaches
    rw [Config.Reaches, hhome, hquadratic] at hreach
    have hlt := (ProbingFn.lt_of_reaches hN hreach).2
    rw [hs.origSlotIndex_eq, hhome, Nat.mod_eq_of_lt (by omega)] at hback
    rcases Nat.lt_or_ge s.probingStep r with hbeyond | hle
    · exact absurd hback (hr.2 _ (by omega) hbeyond)
    · exact (lt_or_eq_of_le hle).imp_right fun heq => ⟨heq, hi⟩

theorem insert_crowds (hquadratic : c.probingfn = .quadratic) (hprime : c.directorySize.Prime) (hh : (h : ℕ) ≤ 1)
    (hinv : Inv t) (hall : AllFrom t h) {k : Key} (hk : k ≠ c.sentinel) (hhome : c.home k = h)
    (habsent : ¬ Resident t k) (p : Payload) :
    AllFrom (insert c t k p).2 h ∧
      (Crowded (insert c t k p).2 h ∨ freeSlots (insert c t k p).2 < freeSlots t) :=
  insert_rule hinv hk habsent p (Crowding t h)
    (fun r => AllFrom r.2 h ∧ (Crowded r.2 h ∨ freeSlots r.2 < freeSlots t)) ⟨hhome, hall, rfl⟩
    fun _ _ hs hcrowding hstep => hcrowding.pass hquadratic hprime hh hk hs hstep

end

/-! ### A key with nowhere to go -/

section
variable {Key Hash Payload : Type} {c : Config Key Hash} {t : Table c Payload} {h z : Fin c.directorySize}

/-- The keys at home in `h` fill all buckets on their way, and elsewhere there are keys in the bucket `z` only. -/
structure Walled (t : Table c Payload) (h z : Fin c.directorySize) : Prop where
  inv : Inv t
  crowded : Crowded t h
  only : ∀ b i, Occupied t b i → OnWay c h b ∨ b = z

/-- A slot of bucket `h` has a key that is at home there. -/
theorem Walled.psl_eq_zero (hwalled : Walled t h z) (hway : OnWay c h h) (i : Fin c.bucketSize) :
    (t h i).psl = 0 := by
  obtain ⟨hocc, hhome⟩ := hwalled.crowded h hway i
  have hreach := hwalled.inv.reaches h i hocc
  have hbucket := hwalled.inv.bucket h i hocc
  rw [Config.Reaches, hhome] at hreach
  rw [Config.bucketAt, hhome] at hbucket
  by_contra hpos
  exact hreach.2 _ (Nat.pos_of_ne_zero hpos) le_rfl hbucket

/-- Where an insert of a key at home in `z` is when `z` is full and the next bucket is `h`: in `z`, at the
beginning of `h`, or with a key of `h` in hand. -/
inductive Stuck (t : Table c Payload) (h : Fin c.directorySize) (k : Key) (p : Payload) : Hand c Payload → Prop where
  | home (n : ℕ) : Stuck t h k p { Hand.start t k p with i := n }
  | next : Stuck t h k p { Hand.start t k p with slotIndex := h, probingStep := 1 }
  | displaced (s : Hand c Payload) (hhome : c.home s.key = h)
      (hslots : ∀ b, OnWay c h b → ∀ i, (s.table b i).key = k ∨ Occupied s.table b i ∧ c.home (s.table b i).key = h) :
      Stuck t h k p s

/-- The key in hand displaces a key of `h` on its way. -/
theorem Stuck.placed {s : Hand c Payload} (hs : s.Ok) {k : Key} {p : Payload} {i : Fin c.bucketSize}
    (hin : s.key = k ∨ c.home s.key = h)
    (hslots : ∀ b, OnWay c h b → ∀ i, (s.table b i).key = k ∨ Occupied s.table b i ∧ c.home (s.table b i).key = h)
    (hhome : c.home (s.slot i).key = h) :
    Stuck t h k p
      { table := s.placed i
        key := (s.slot i).key
        payload := (s.slot i).payload
        origSlotIndex := c.home (s.slot i).key
        slotIndex := s.slotIndex
        probingStep := (s.slot i).psl
        i := s.i + 1 } := by
  refine .displaced _ hhome fun b hb i' => ?_
  change (s.placed i b i').key = k ∨ Occupied (s.placed i) b i' ∧ c.home (s.placed i b i').key = h
  by_cases hslot : b = s.slotIndex ∧ i' = i
  · obtain ⟨rfl, rfl⟩ := hslot
    rw [Occupied, Hand.placed, Grid.set_self]
    exact hin.imp_right fun hhome => ⟨hs.carries.key_ne, hhome⟩
  · rw [Occupied, Hand.placed, Grid.set_of_ne hslot]
    exact hslots b hb i'

section
variable {k : Key} {p : Payload} {r : Pass (Hand c Payload) (Outcome Bool × Table c Payload)}

/-- In the full bucket `z`. -/
theorem Stuck.pass_home (hfull : ∀ i, Occupied t z i) (hhome : c.home k = z) (hnext : c.probingfn.probe z 1 = h)
    (habsent : ¬ Resident t k) {n : ℕ} (hstep : BodyStep k { Hand.start t k p with i := n } r) :
    r.Holds (Stuck t h k p) fun r => ∃ what, r.1 = .thrown what := by
  subst hhome hnext
  cases hstep with
  | place i hi hempty => exact absurd hempty (hfull i)
  | found i hi hsame => exact absurd ⟨_, i, hsame⟩ habsent
  | skip i hi hocc hother hpoor => exact .home (n + 1)
  | displace i hi hocc hrich horig => exact absurd hrich (Nat.not_lt_zero _)
  | loop i hi hrich horig => exact absurd hrich (Nat.not_lt_zero _)
  | next hi hne => exact .next
  | cycle hi hback => exact ⟨_, rfl⟩

/-- At the beginning of bucket `h`, whose first key is displaced. -/
theorem Stuck.pass_next (hB : 1 ≤ c.bucketSize) (hwalled : Walled t h z) (habsent : ¬ Resident t k)
    (hs : { Hand.start t k p with slotIndex := h, probingStep := 1 : Hand c Payload }.Ok)
    (hstep : BodyStep k { Hand.start t k p with slotIndex := h, probingStep := 1 } r) :
    r.Holds (Stuck t h k p) fun r => ∃ what, r.1 = .thrown what := by
  have hway : OnWay c h h := ⟨0, .zero _ _, c.probingfn.probe_zero c.directorySize_lt.le h⟩
  have hslot := hwalled.crowded h hway
  cases hstep with
  | place i hi hempty => exact absurd hempty (hslot i).1
  | found i hi hsame => exact absurd ⟨_, i, hsame⟩ habsent
  | skip i hi hocc hother hpoor => exact absurd (hwalled.psl_eq_zero hway i) (Nat.ne_of_gt hpoor)
  | displace i hi hocc hrich horig =>
    exact Stuck.placed hs (Or.inl rfl) (fun b hb i => Or.inr (hwalled.crowded b hb i)) (hslot i).2
  | loop i hi hrich horig => exact ⟨_, rfl⟩
  | next hi hne => exact absurd hi (Nat.not_le_of_lt hB)
  | cycle hi hback => exact ⟨_, rfl⟩

/-- With a key of `h` in hand, which stays so until the insert comes to the slot it has put `k` into or has passed
all buckets. -/
theorem Stuck.pass_displaced (hk : k ≠ c.sentinel) {s : Hand c Payload} (hs : s.Ok) (hhome : c.home s.key = h)
    (hslots : ∀ b, OnWay c h b → ∀ i, (s.table b i).key = k ∨ Occupied s.table b i ∧ c.home (s.table b i).key = h)
    (hstep : BodyStep k s r) : r.Holds (Stuck t h k p) fun r => ∃ what, r.1 = .thrown what := by
  have hslot := hslots _ (hs.onWay hhome)
  cases hstep with
  | place i hi hempty =>
    rcases hslot i with hkey | ⟨hocc, -⟩
    · exact absurd (hkey.symm.trans hempty) hk
    · exact absurd hempty hocc
  | found i hi hsame => exact absurd ⟨_, i, hsame⟩ hs.carries.absent
  | skip i hi hocc hother hpoor => exact .displaced _ hhome hslots
  | displace i hi hocc hrich horig =>
    rcases hslot i with hkey | ⟨-, hhome'⟩
    · exact absurd hkey.symm horig
    · exact Stuck.placed hs (Or.inr hhome) hslots hhome'
  | loop i hi hrich horig => exact ⟨_, rfl⟩
  | next hi hne => exact .displaced _ hhome hslots
  | cycle hi hback => exact ⟨_, rfl⟩

end

variable [DecidableEq Key]

/-- **An insert that gives up**, wherever else there is room. -/
theorem insert_walled (hB : 1 ≤ c.bucketSize) (hwalled : Walled t h z) (hfull : ∀ i, Occupied t z i)
    (hnext : c.probingfn.probe z 1 = h) {k : Key} (hk : k ≠ c.sentinel) (hhome : c.home k = z)
    (habsent : ¬ Resident t k) (p : Payload) : ∃ what, (Robinhood.insert c t k p).1 = .thrown what := by
  refine insert_rule hwalled.inv hk habsent p (Stuck t h k p) (fun r => ∃ what, r.1 = .thrown what) (.home 0) ?_
  intro s r hs hstuck hstep
  cases hstuck with
  | home n => exact Stuck.pass_home hfull hhome hnext habsent hstep
  | next => exact Stuck.pass_next hB hwalled habsent hs hstep
  | displaced s hhome' hslots => exact Stuck.pass_displaced hk hs hhome' hslots hstep

/-- The step lemma of the run that leads there: a key at home in `z` is stored there while `z` has room. -/
theorem Walled.insert (hwalled : Walled t h z) {k : Key} (hk : k ≠ c.sentinel) (hhome : c.home k = z)
    (habsent : ¬ Resident t k) (p : Payload) (hroom : ∃ i, ¬ Occupied t z i) :
    Walled (insert c t k p).2 h z ∧ freeSlots (insert c t k p).2 < freeSlots t := by
  subst hhome
  have hinv' := inv_step hwalled.inv (.insert k p) hk
  simp only [Store.step, store] at hinv'
  obtain ⟨i, hempty, hins⟩ := insert_at_home hwalled.inv hk habsent p hroom
  rw [hins] at hinv' ⊢
  dsimp only at hinv' ⊢
  have hne : ∀ b, OnWay c h b → b ≠ c.home k := by
    rintro b hb rfl
    exact hempty (hwalled.crowded _ hb i).1
  refine ⟨⟨hinv', fun b hb i' => ?_, fun b i' hocc => ?_⟩, ?_⟩
  · have hkeep : t.set (c.home k) i { key := k, psl := 0, payload := p } b i' = t b i' :=
      Grid.set_of_ne fun hslot => hne b hb hslot.1
    rw [Occupied, hkeep]
    exact hwalled.crowded b hb i'
  · by_cases hb : b = c.home k
    · exact Or.inr hb
    · rw [Occupied, Grid.set_of_ne fun hslot => hb hslot.1] at hocc
      exact hwalled.only b i' hocc
  · have hset := freeSlots_set t (c.home k) i ⟨k, 0, p⟩ hk
    rw [if_pos (not_not.mp hempty)] at hset
    omega

end

/-! ### Two homes are enough -/

/-- Any number of keys at home in one bucket. -/
structure Crowd {Key Hash : Type} (c : Config Key Hash) (h : Fin c.directorySize) where
  key : ℕ → Key
  key_inj : Function.Injective key
  key_ne : ∀ n, key n ≠ c.sentinel
  home_key : ∀ n, c.home (key n) = h

section
variable {Key Hash Payload : Type} {c : Config Key Hash} {h z : Fin c.directorySize}

/-- A table has no room for all of them. -/
theorem Crowd.exists_absent (f : Crowd c h) (t : Table c Payload) : ∃ n, ¬ Resident t (f.key n) := by
  by_contra hall
  push Not at hall
  choose b i hslot using hall
  refine not_injective_infinite_finite (fun n => (b n, i n)) fun n m heq => f.key_inj ?_
  obtain ⟨hb, hi⟩ := Prod.mk.inj heq
  rw [← hslot n, ← hslot m, hb, hi]

variable [DecidableEq Key]

theorem step_insert (t : Table c Payload) (k : Key) (p : Payload) :
    ((store c).step t (.insert k p)).2 = (insert c t k p).2 := rfl

variable (hquadratic : c.probingfn = .quadratic) (hprime : c.directorySize.Prime) (hh : (h : ℕ) ≤ 1) (f : Crowd c h)
  (memory : Table c Payload) (p : Payload)
include hquadratic hprime hh f p

/-- A run that crowds the way of the keys at home in `h`. -/
theorem exists_crowded : ∃ ops, let t := ((store c).run (clear c memory) ops).2
    (Inv t ∧ AllFrom t h) ∧ Crowded t h := by
  refine Store.exists_run_of_measure (m := store c) (P := fun t => Inv t ∧ AllFrom t h) (Q := fun t => Crowded t h)
    freeSlots ?_ [] ⟨inv_clear memory, fun b i hocc => absurd hocc (not_occupied_clear memory b i)⟩
  rintro t ⟨hinv, hall⟩ -
  obtain ⟨n, habsent⟩ := f.exists_absent t
  have hinv' := inv_step hinv (.insert (f.key n) p) (f.key_ne n)
  have hins := insert_crowds hquadratic hprime hh hinv hall (f.key_ne n) (f.home_key n) habsent p
  rw [← step_insert] at hins
  exact ⟨_, ⟨hinv', hins.1⟩, hins.2⟩

/-- From there a run that fills bucket `z` as well. -/
theorem exists_walled (g : Crowd c z) : ∃ ops, let t := ((store c).run (clear c memory) ops).2
    Walled t h z ∧ ∀ i, Occupied t z i := by
  obtain ⟨ops, ⟨hinv, hall⟩, hcrowded⟩ := exists_crowded hquadratic hprime hh f memory p
  refine Store.exists_run_of_measure (m := store c) (P := fun t => Walled t h z) (Q := fun t => ∀ i, Occupied t z i)
    freeSlots ?_ ops ⟨hinv, hcrowded, fun b i hocc => Or.inl (hall.onWay hinv hocc)⟩
  intro t hwalled hroom
  push Not at hroom
  obtain ⟨n, habsent⟩ := g.exists_absent t
  have hins := hwalled.insert (g.key_ne n) (g.home_key n) habsent p hroom
  rw [← step_insert] at hins
  exact ⟨_, hins.1, Or.inr hins.2⟩

/-- A reachable table that has a bucket with room on the orbit of `z`, and a key at home in `z` that it refuses. -/
theorem exists_refused (hB : 1 ≤ c.bucketSize) (g : Crowd c z) (h5 : 5 ≤ c.directorySize) (hone : (h : ℕ) = 1)
    (hzero : (z : ℕ) = 0) : ∃ ops n, let t := ((store c).run (clear c memory) ops).2
      ¬ Resident t (g.key n) ∧ (∃ what, (insert c t (g.key n) p).1 = .thrown what) ∧ ¬ OrbitFull t (g.key n) := by
  obtain ⟨ops, hwalled, hfull⟩ := exists_walled hquadratic hprime hh f memory p g
  obtain ⟨n, habsent⟩ := g.exists_absent ((store c).run (clear c memory) ops).2
  have hnext : c.probingfn.probe z 1 = h := by
    rw [hquadratic]
    apply Fin.ext
    rw [ProbingFn.probe_quadratic_of_lt (by omega) (by norm_num), hzero, hone]
    exact Nat.mod_eq_of_lt (by omega)
  refine ⟨ops, n, habsent, insert_walled hB hwalled hfull hnext (g.key_ne n) (g.home_key n) habsent p, ?_⟩
  intro horbit
  -- a bucket on the orbit of `z` that is neither `z` nor on the way of the keys at home in `h`
  obtain ⟨k, hne, hnot⟩ := exists_sq_ne_add_one hprime h5
  have hocc := horbit k ⟨k * k % c.directorySize, Nat.mod_lt _ z.pos⟩
    (by rw [g.home_key, hzero, Nat.zero_add]) ⟨0, hB⟩
  rcases hwalled.only _ _ hocc with ⟨s, hreach, hprobe⟩ | hself
  · rw [hquadratic] at hreach hprobe
    have hval := congrArg Fin.val hprobe
    rw [ProbingFn.probe_quadratic_of_lt hh (ProbingFn.lt_of_reaches c.directorySize_lt.le hreach).2, hone] at hval
    exact hnot s hval
  · exact hne ((congrArg Fin.val hself).trans hzero)

end

/-- Any number of keys for each of the buckets `1` and `0`, and a sentinel. -/
inductive CrowdKey where
  | second (n : ℕ)
  | first (n : ℕ)
  | sentinel
  deriving DecidableEq

/-- The directory they are hashed into. -/
def crowdConfig (N B : ℕ) (hone : 1 < N) (hN : N < 2 ^ 64) : Config CrowdKey CrowdKey where
  directorySize := N
  directorySize_lt := hN
  bucketSize := B
  hashfn := id
  reductionfn
    | .second _ => ⟨1, hone⟩
    | _ => ⟨0, by omega⟩
  probingfn := .quadratic
  sentinel := .sentinel

def secondCrowd (N B : ℕ) (hone : 1 < N) (hN : N < 2 ^ 64) : Crowd (crowdConfig N B hone hN) ⟨1, hone⟩ where
  key := .second
  key_inj _ _ := CrowdKey.second.inj
  key_ne _ := nofun
  home_key _ := rfl

def firstCrowd (N B : ℕ) (hone : 1 < N) (hN : N < 2 ^ 64) :
    Crowd (crowdConfig N B hone hN) ⟨0, Nat.zero_lt_of_lt hone⟩ where
  key := .first
  key_inj _ _ := CrowdKey.first.inj
  key_ne _ := nofun
  home_key _ := rfl

/-- With five or more buckets an insert gives up although there is room on the orbit. -/
theorem not_throwsOnFullOrbit {N B : ℕ} (hN : N.Prime) (hlt : N < 2 ^ 64) (hB : 1 ≤ B) (h5 : 5 ≤ N) :
    ¬ ThrowsOnFullOrbit N B := by
  intro hthrows
  let g := firstCrowd N B hN.one_lt hlt
  obtain ⟨ops, n, habsent, hthrown, hroom⟩ := exists_refused rfl hN le_rfl (secondCrowd N B hN.one_lt hlt)
    (fun _ _ => { key := CrowdKey.sentinel, psl := 0, payload := () }) () hB g h5 rfl rfl
  exact hroom (hthrows _ _ _ _ _ rfl rfl rfl _ ops _ () (g.key_ne n) habsent hthrown)

/-- **When quadratic robin hood probing finds the room on the orbit of a key**, for a prime number of buckets:
with two or three buckets only. -/
theorem robinhood_quadratic_orbit_iff (N B : ℕ) (hN : N.Prime) (hlt : N < 2 ^ 64) (hB : 1 ≤ B) :
    ThrowsOnFullOrbit N B ↔ N ≤ 3 := by
  constructor
  · intro hthrows
    by_contra hge
    have h4 : N ≠ 4 := by
      rintro rfl
      exact absurd hN (by norm_num)
    exact not_throwsOnFullOrbit hN hlt hB (by omega) hthrows
  · intro h3 Key Hash Payload _ c hc _ hquadratic memory ops key payload hkey t habsent ⟨what, hthrown⟩
    subst hc
    exact throws_on_full_orbit hN h3 hquadratic (inv_reached memory ops) hkey habsent payload hthrown

/-- Three buckets of one slot are among these. -/
theorem robinhood_quadratic_orbit_three : ThrowsOnFullOrbit 3 1 :=
  (robinhood_quadratic_orbit_iff 3 1 (by norm_num) (by norm_num) le_rfl).mpr le_rfl

/-- Five buckets of one slot and the sentinel `4`, with the key `0` at home in bucket `0` and the keys `1`, `2`,
`3` in bucket `1`. -/
def fiveBuckets : Config (Fin 5) (Fin 5) where
  directorySize := 5
  directorySize_lt := by norm_num
  bucketSize := 1
  hashfn := id
  reductionfn h := if h = 0 then 0 else 1
  probingfn := .quadratic
  sentinel := 4

/-- Key `0` is refused with three buckets full, and bucket `4`, two steps from its home, is empty. -/
theorem robinhood_quadratic_orbit_five :
    let t := ((store fiveBuckets).run (clear fiveBuckets fun _ _ => { key := 0, psl := 3, payload := 9 })
      [.insert 1 5, .insert 2 6, .insert 3 7]).2
    ¬ Resident t 0 ∧ (insert fiveBuckets t 0 8).1 = .thrown (cycleMessage fiveBuckets) ∧
      (4 : ℕ) = (fiveBuckets.home 0 + 2 * 2) % 5 ∧ (t (4 : Fin 5) (0 : Fin 1)).key = fiveBuckets.sentinel := by
  decide

end Robinhood

end HashingArchive.Hashtable
