import Mathlib

/-!
# Which squares come before the first one that is zero

The squares `0 * 0`, `1 * 1`, ... modulo `N` come back to zero for the first time at some `s`. Every square modulo
`N` has been met by then if and only if neither `64` nor the square of an odd prime divides `N`
(`forall_exists_iff`): with `N = d² m` and `m` squarefree, `s` is `d m`, and squares repeat with period `N / 2` at
best and are symmetric.
-/

namespace HashingArchive.Squares

/-- `s` is the first positive number whose square `N` divides. -/
structure FirstReturn (N s : ℕ) : Prop where
  pos : 0 < s
  dvd : N ∣ s * s
  first : ∀ j, 0 < j → j < s → ¬ N ∣ j * j

theorem FirstReturn.le_of_dvd {N s r : ℕ} (h : FirstReturn N s) (hr : 0 < r) (hdvd : N ∣ r * r) : s ≤ r := by
  by_contra hlt
  exact h.first r hr (not_le.mp hlt) hdvd

theorem exists_firstReturn {N : ℕ} (hN : 0 < N) : ∃ s, FirstReturn N s := by
  have hex : ∃ s, 0 < s ∧ N ∣ s * s := ⟨N, hN, dvd_mul_right N N⟩
  obtain ⟨hpos, hdvd⟩ := Nat.find_spec hex
  exact ⟨Nat.find hex, hpos, hdvd, fun j hj hlt h => Nat.find_min hex hlt ⟨hj, h⟩⟩

/-- The root of `d² m` with `m` squarefree is `d m`. -/
theorem mul_dvd_of_dvd_sq {d m j : ℕ} (hd : 0 < d) (hm : Squarefree m) (h : d * d * m ∣ j * j) : d * m ∣ j := by
  have hdj : d ∣ j := by
    have hsq : d ^ 2 ∣ j ^ 2 := by
      rw [sq, sq]
      exact (dvd_mul_right _ _).trans h
    exact (Nat.pow_dvd_pow_iff two_ne_zero).mp hsq
  obtain ⟨t, rfl⟩ := hdj
  have hmt : m ∣ t ^ 2 := by
    refine Nat.dvd_of_mul_dvd_mul_left (Nat.mul_pos hd hd) (h.trans (dvd_of_eq ?_))
    ring
  exact Nat.mul_dvd_mul_left d ((hm.dvd_pow_iff_dvd two_ne_zero).mp hmt)

theorem dvd_mul_self (d m : ℕ) : d * d * m ∣ d * m * (d * m) := ⟨m, by ring⟩

theorem FirstReturn.eq_mul {d m s : ℕ} (hd : 0 < d) (hm : Squarefree m) (h : FirstReturn (d * d * m) s) :
    s = d * m := by
  apply le_antisymm
  · exact h.le_of_dvd (Nat.mul_pos hd (Nat.pos_of_ne_zero hm.ne_zero)) (dvd_mul_self d m)
  · exact Nat.le_of_dvd h.pos (mul_dvd_of_dvd_sq hd hm h.dvd)

/-! ### Every square is met -/

/-- The square of `k` modulo `N` if `N` divides `2 a` and `a²`: it depends on `k` modulo `a` only. -/
theorem sq_mod_eq_of_period {N a : ℕ} (h₂ : N ∣ 2 * a) (hsq : N ∣ a * a) (k : ℕ) :
    k % a * (k % a) % N = k * k % N := by
  obtain ⟨x, hx⟩ := h₂
  obtain ⟨y, hy⟩ := hsq
  have hk : k * k = N * (y * (k / a * (k / a)) + x * (k / a * (k % a))) + k % a * (k % a) := by
    calc k * k = (a * (k / a) + k % a) * (a * (k / a) + k % a) := by rw [Nat.div_add_mod]
      _ = a * a * (k / a * (k / a)) + 2 * a * (k / a * (k % a)) + k % a * (k % a) := by ring
      _ = _ := by rw [hx, hy]; ring
  rw [hk, Nat.mul_add_mod]

/-- The square of `a - r` modulo `N` under the same conditions. -/
theorem sq_sub_mod_eq {N a r : ℕ} (h₂ : N ∣ 2 * a) (hsq : N ∣ a * a) (hr : r ≤ a) :
    (a - r) * (a - r) % N = r * r % N := by
  obtain ⟨b, rfl⟩ := Nat.exists_eq_add_of_le hr
  rw [Nat.add_sub_cancel_left]
  have hmod : b * b + 2 * (r + b) * r ≡ r * r + (r + b) * (r + b) [MOD N] := by
    rw [show b * b + 2 * (r + b) * r = r * r + (r + b) * (r + b) by ring]
  have hleft : b * b + 2 * (r + b) * r ≡ b * b [MOD N] :=
    (Nat.modEq_zero_iff_dvd.mpr (h₂.mul_right r)).add_left (b * b)
  have hright : r * r + (r + b) * (r + b) ≡ r * r [MOD N] :=
    (Nat.modEq_zero_iff_dvd.mpr hsq).add_left (r * r)
  exact hleft.symm.trans (hmod.trans hright)

/-- With `d` one of `1`, `2` and `4` all squares modulo `d² m` come before `d m`. -/
theorem exists_of_root {d m : ℕ} (hd : d = 1 ∨ d = 2 ∨ d = 4) (hm : 0 < m) (k : ℕ) :
    ∃ j < d * m, j * j % (d * d * m) = k * k % (d * d * m) := by
  rcases hd with rfl | rfl | rfl
  · refine ⟨k % (1 * m), Nat.mod_lt _ (by omega), sq_mod_eq_of_period ⟨2, by ring⟩ ⟨m, by ring⟩ k⟩
  · exact ⟨k % (2 * m), Nat.mod_lt _ (by omega), sq_mod_eq_of_period ⟨1, by ring⟩ ⟨m, by ring⟩ k⟩
  · -- squares have the period `8 m` and are symmetric in it, with `4 m` in the middle as good as `0`
    have hperiod := sq_mod_eq_of_period (N := 4 * 4 * m) (a := 8 * m) ⟨1, by ring⟩ ⟨4 * m, by ring⟩ k
    have hlt : k % (8 * m) < 8 * m := Nat.mod_lt _ (by omega)
    rw [← hperiod]
    rcases lt_trichotomy (k % (8 * m)) (4 * m) with hless | heq | hmore
    · exact ⟨_, hless, rfl⟩
    · refine ⟨0, by omega, ?_⟩
      have hzero : 4 * m * (4 * m) % (4 * 4 * m) = 0 := Nat.mod_eq_zero_of_dvd ⟨m, by ring⟩
      rw [heq, hzero, Nat.zero_mul, Nat.zero_mod]
    · exact ⟨8 * m - k % (8 * m), by omega, sq_sub_mod_eq ⟨1, by ring⟩ ⟨4 * m, by ring⟩ hlt.le⟩

/-- A number whose square is divisible by neither `64` nor the square of an odd prime is `1`, `2` or `4`. -/
theorem eq_of_not_dvd_sq {d : ℕ} (hd : 0 < d) (h64 : ¬ 64 ∣ d * d)
    (hodd : ∀ p, p.Prime → p ≠ 2 → ¬ p * p ∣ d * d) : d = 1 ∨ d = 2 ∨ d = 4 := by
  have hpow := Nat.eq_prime_pow_of_unique_prime_dvd (p := 2) hd.ne' fun {p} hp hpd => by
    by_contra hne
    exact hodd p hp hne (Nat.mul_dvd_mul hpd hpd)
  generalize d.primeFactorsList.length = a at hpow
  subst hpow
  have ha : a < 3 := by
    by_contra hge
    have h8 : 2 ^ 3 ∣ 2 ^ a := pow_dvd_pow 2 (by omega)
    exact h64 (Nat.mul_dvd_mul h8 h8)
  interval_cases a <;> simp

/-! ### Some square is not met -/

/-- With `P` a prime power whose root is `q`, and `M` prime to it with the root `r`: if the square of `q + 1` is
none of those before `q` modulo `P`, then that of `(q + 1) r` is none of those before `q r` modulo `P M`. -/
theorem not_met {P M q r : ℕ} (hM : M ∣ r * r) (hroot : ∀ j, M ∣ j * j → r ∣ j) (hcop : P.Coprime r)
    (hq : ∀ i < q, ¬ P ∣ (q + 1) * (q + 1) - i * i) (j : ℕ) (hj : j < q * r) :
    j * j % (P * M) ≠ (q + 1) * r * ((q + 1) * r) % (P * M) := by
  intro hmod
  have hmodEq : j * j ≡ (q + 1) * r * ((q + 1) * r) [MOD P * M] := hmod
  have hMj : M ∣ j * j := by
    have hk : M ∣ (q + 1) * r * ((q + 1) * r) := hM.trans ⟨(q + 1) * (q + 1), by ring⟩
    exact (hmodEq.of_mul_left P).dvd_iff dvd_rfl |>.mpr hk
  obtain ⟨i, rfl⟩ := hroot j hMj
  have hi : i < q := by
    rw [Nat.mul_comm q r] at hj
    exact Nat.lt_of_mul_lt_mul_left hj
  have hle : i * i ≤ (q + 1) * (q + 1) := Nat.mul_le_mul (by omega) (by omega)
  have hP : r * r * (i * i) ≡ r * r * ((q + 1) * (q + 1)) [MOD P] := by
    have h := hmodEq.of_mul_right M
    rwa [show r * i * (r * i) = r * r * (i * i) by ring,
      show (q + 1) * r * ((q + 1) * r) = r * r * ((q + 1) * (q + 1)) by ring] at h
  have hcancel := hP.cancel_left_of_coprime (hcop.mul_right hcop)
  exact hq i hi ((Nat.modEq_iff_dvd' hle).mp hcancel)

/-- A prime power that divides the difference of two squares divides one of its factors if the prime does not
divide both. -/
theorem dvd_or_dvd_of_dvd_mul {p e x y : ℕ} (hp : p.Prime) (hxy : ¬ (p ∣ x ∧ p ∣ y)) (h : p ^ e ∣ x * y) :
    p ^ e ∣ x ∨ p ^ e ∣ y := by
  by_cases hx : p ∣ x
  · have hy : ¬ p ∣ y := fun hy => hxy ⟨hx, hy⟩
    exact Or.inl ((Nat.Coprime.pow_left e ((hp.coprime_iff_not_dvd).mpr hy)).dvd_of_dvd_mul_right h)
  · exact Or.inr ((Nat.Coprime.pow_left e ((hp.coprime_iff_not_dvd).mpr hx)).dvd_of_dvd_mul_left h)

theorem not_dvd_of_odd {p e : ℕ} (hp : p.Prime) (hp2 : p ≠ 2) (he : 2 ≤ e) (i : ℕ) (hi : i < p ^ ((e + 1) / 2)) :
    ¬ p ^ e ∣ (p ^ ((e + 1) / 2) + 1) * (p ^ ((e + 1) / 2) + 1) - i * i := by
  have hpq : p ∣ p ^ ((e + 1) / 2) := dvd_pow_self p (by omega)
  have hbig : 2 * p ^ ((e + 1) / 2) < p ^ e := by
    have hsplit : p ^ e = p ^ (e / 2) * p ^ ((e + 1) / 2) := by
      rw [← pow_add]
      congr 1
      omega
    have hp3 : 2 < p := lt_of_le_of_ne hp.two_le (Ne.symm hp2)
    rw [hsplit]
    exact Nat.mul_lt_mul_of_pos_right (hp3.trans_le (Nat.le_self_pow (by omega) p)) (Nat.pow_pos hp.pos)
  generalize p ^ ((e + 1) / 2) = q at hi hpq hbig ⊢
  intro hdvd
  rw [Nat.mul_self_sub_mul_self_eq] at hdvd
  -- `p` does not divide both factors, since it does not divide their sum
  have hnot : ¬ (p ∣ q + 1 + i ∧ p ∣ q + 1 - i) := by
    intro ⟨hx, hy⟩
    have hsum : p ∣ 2 * (q + 1) := by
      have h := dvd_add hx hy
      rwa [show q + 1 + i + (q + 1 - i) = 2 * (q + 1) by omega] at h
    rcases (Nat.Prime.dvd_mul hp).mp hsum with h2 | h1
    · exact hp2 ((Nat.prime_dvd_prime_iff_eq hp Nat.prime_two).mp h2)
    · exact hp.one_lt.ne' (Nat.dvd_one.mp ((Nat.dvd_add_right hpq).mp h1))
  rcases dvd_or_dvd_of_dvd_mul hp hnot hdvd with h | h
  · have hle := Nat.le_of_dvd (by omega) h
    omega
  · have hle := Nat.le_of_dvd (by omega) h
    omega

theorem not_dvd_of_two {e : ℕ} (he : 6 ≤ e) (i : ℕ) (hi : i < 2 ^ ((e + 1) / 2)) :
    ¬ 2 ^ e ∣ (2 ^ ((e + 1) / 2) + 1) * (2 ^ ((e + 1) / 2) + 1) - i * i := by
  have heven : 2 ∣ 2 ^ ((e + 1) / 2) := dvd_pow_self 2 (by omega)
  have hbig : 2 ^ ((e + 1) / 2) < 2 ^ (e - 2) := Nat.pow_lt_pow_right (by norm_num) (by omega)
  have hsplit : 2 ^ e = 4 * 2 ^ (e - 2) := by
    rw [show (4 : ℕ) = 2 ^ 2 by norm_num, ← pow_add]
    congr 1
    omega
  generalize 2 ^ ((e + 1) / 2) = q at hi heven hbig ⊢
  rw [hsplit]
  intro hdvd
  rw [Nat.mul_self_sub_mul_self_eq] at hdvd
  have hsum : q + 1 + i + (q + 1 - i) = 2 * (q + 1) := by omega
  -- both factors are even, and one of their halves is odd
  have htwo : 2 ∣ (q + 1 + i) * (q + 1 - i) := (Dvd.intro _ (by ring : 2 * (2 * 2 ^ (e - 2)) = _)).trans hdvd
  obtain ⟨a, ha⟩ : 2 ∣ q + 1 + i := by
    rcases (Nat.Prime.dvd_mul Nat.prime_two).mp htwo with h | h <;> omega
  obtain ⟨b, hb⟩ : 2 ∣ q + 1 - i := by omega
  rw [ha, hb, show 2 * a * (2 * b) = 4 * (a * b) by ring] at hdvd
  have hnot : ¬ (2 ∣ a ∧ 2 ∣ b) := by omega
  rcases dvd_or_dvd_of_dvd_mul Nat.prime_two hnot (Nat.dvd_of_mul_dvd_mul_left (by norm_num) hdvd) with h | h
  · have hle := Nat.le_of_dvd (by omega) h
    omega
  · have hle := Nat.le_of_dvd (by omega) h
    omega

/-- A prime power `p ^ f` that divides `N`, for which the lemma above holds from `f` on. -/
theorem exists_not_met {N s p f : ℕ} (hN : 0 < N) (hs : FirstReturn N s) (hp : p.Prime) (hf : p ^ f ∣ N)
    (hq : ∀ e, f ≤ e → ∀ i < p ^ ((e + 1) / 2),
      ¬ p ^ e ∣ (p ^ ((e + 1) / 2) + 1) * (p ^ ((e + 1) / 2) + 1) - i * i) :
    ∃ k, ∀ j < s, j * j % N ≠ k * k % N := by
  obtain ⟨e, M, hpM, rfl⟩ := Nat.exists_eq_pow_mul_and_not_dvd hN.ne' p hp.ne_one
  have hMpos : 0 < M := Nat.pos_of_ne_zero fun h => hpM (h ▸ dvd_zero p)
  obtain ⟨m, d, hm, hd, hM, hsq⟩ := Nat.sq_mul_squarefree_of_pos hMpos
  rw [sq] at hM
  subst hM
  have hcop : p.Coprime (d * d * m) := (hp.coprime_iff_not_dvd).mpr hpM
  have hfe : f ≤ e := by
    have hdvd := (Nat.Coprime.pow_left f hcop).dvd_of_dvd_mul_right hf
    exact (Nat.pow_dvd_pow_iff_le_right hp.one_lt).mp hdvd
  have hle : s ≤ p ^ ((e + 1) / 2) * (d * m) := by
    apply hs.le_of_dvd (Nat.mul_pos (Nat.pow_pos hp.pos) (Nat.mul_pos hd hm))
    have hpow : p ^ e ∣ p ^ ((e + 1) / 2) * p ^ ((e + 1) / 2) := by
      rw [← pow_add]
      exact pow_dvd_pow p (by omega)
    refine (Nat.mul_dvd_mul hpow (dvd_mul_self d m)).trans (dvd_of_eq ?_)
    ring
  have hcopr : (p ^ e).Coprime (d * m) :=
    Nat.Coprime.pow_left e (hcop.coprime_dvd_right ⟨d, by ring⟩)
  exact ⟨_, fun j hj => not_met (dvd_mul_self d m) (fun j => mul_dvd_of_dvd_sq hd hsq) hcopr (hq e hfe) j
    (hj.trans_le hle)⟩

/-- **Every square is met before the first return, or not**, by the square divisors of `N`. -/
theorem forall_exists_iff {N s : ℕ} (hN : 0 < N) (hs : FirstReturn N s) :
    (∀ k, ∃ j < s, j * j % N = k * k % N) ↔ ¬ 64 ∣ N ∧ ∀ p, p.Prime → p ≠ 2 → ¬ p * p ∣ N := by
  constructor
  · intro hall
    have hcontra : ∀ {p f}, p.Prime → (∀ e, f ≤ e → ∀ i < p ^ ((e + 1) / 2),
        ¬ p ^ e ∣ (p ^ ((e + 1) / 2) + 1) * (p ^ ((e + 1) / 2) + 1) - i * i) → ¬ p ^ f ∣ N := by
      intro p f hp hq hf
      obtain ⟨k, hk⟩ := exists_not_met hN hs hp hf hq
      obtain ⟨j, hj, heq⟩ := hall k
      exact hk j hj heq
    refine ⟨hcontra (f := 6) Nat.prime_two fun e he => not_dvd_of_two he, fun p hp hp2 => ?_⟩
    rw [← sq]
    exact hcontra hp fun e he => not_dvd_of_odd hp hp2 he
  · intro ⟨h64, hodd⟩ k
    obtain ⟨m, d, hm, hd, rfl, hsq⟩ := Nat.sq_mul_squarefree_of_pos hN
    rw [sq] at hs h64 hodd ⊢
    have hroot := eq_of_not_dvd_sq hd (fun h => h64 (h.mul_right m)) fun p hp hp2 h => hodd p hp hp2 (h.mul_right m)
    rw [hs.eq_mul hd hsq]
    exact exists_of_root hroot hm k

/-! ### Squares and their neighbours -/

/-- Two steps to the same square modulo a prime are opposite. -/
theorem add_eq_of_sq_mod_eq {N j s : ℕ} (hN : N.Prime) (hj : j < s) (hs : s < N) (heq : j * j % N = s * s % N) :
    s + j = N := by
  have hle : j * j ≤ s * s := Nat.mul_le_mul hj.le hj.le
  have hdvd := (Nat.modEq_iff_dvd' hle).mp heq
  rw [Nat.mul_self_sub_mul_self_eq] at hdvd
  rcases hN.dvd_mul.mp hdvd with hsum | hdiff
  · exact Nat.eq_of_dvd_of_lt_two_mul (by omega) hsum (by omega)
  · exact absurd (Nat.le_of_dvd (by omega) hdiff) (by omega)

/-- If the number below every square is a square again, then all numbers are squares. -/
theorem isSquare_of_sub_one {N : ℕ} [Fact N.Prime] (h5 : 5 ≤ N)
    (hsub : ∀ x : ZMod N, x ≠ 0 → IsSquare x → IsSquare (x - 1)) (n : ℕ) (hn : n < N) : IsSquare (n : ZMod N) := by
  have hne : ∀ m : ℕ, 0 < m → m < N → (m : ZMod N) ≠ 0 := fun m hpos hlt hzero =>
    absurd (Nat.le_of_dvd hpos ((ZMod.natCast_eq_zero_iff m N).mp hzero)) (not_le.mpr hlt)
  -- `2` lies two below the square `4`
  have htwo : IsSquare (2 : ZMod N) := by
    have hfour : IsSquare ((4 : ℕ) : ZMod N) := ⟨2, by norm_num⟩
    have hthree := hsub _ (hne 4 (by norm_num) (by omega)) hfour
    rw [show ((4 : ℕ) : ZMod N) - 1 = (3 : ℕ) by push_cast; ring] at hthree
    have htwo := hsub _ (hne 3 (by norm_num) (by omega)) hthree
    rwa [show ((3 : ℕ) : ZMod N) - 1 = 2 by push_cast; ring] at htwo
  have hodd : N % 2 = 1 := (Fact.out : N.Prime).eq_two_or_odd.resolve_left (by omega)
  induction n using Nat.strong_induction_on with
  | _ n ih =>
    obtain ⟨m, rfl | rfl⟩ := Nat.even_or_odd' n
    · rcases m.eq_zero_or_pos with rfl | hpos
      · exact ⟨0, by simp⟩
      · have hdouble := htwo.mul (ih m (by omega) (by omega))
        rwa [show (2 : ZMod N) * (m : ℕ) = (2 * m : ℕ) by push_cast; ring] at hdouble
    · rcases m.eq_zero_or_pos with rfl | hpos
      · exact ⟨1, by simp⟩
      · have hnext := htwo.mul (ih (m + 1) (by omega) (by omega))
        rw [show (2 : ZMod N) * (m + 1 : ℕ) = (2 * m + 2 : ℕ) by push_cast; ring] at hnext
        have hbelow := hsub _ (hne (2 * m + 2) (by omega) (by omega)) hnext
        rwa [show ((2 * m + 2 : ℕ) : ZMod N) - 1 = (2 * m + 1 : ℕ) by push_cast; ring] at hbelow

/-- From `5` on some square other than zero is not one above a square. -/
theorem exists_sq_ne_add_one {N : ℕ} (hN : N.Prime) (h5 : 5 ≤ N) :
    ∃ k, k * k % N ≠ 0 ∧ ∀ j, (1 + j * j) % N ≠ k * k % N := by
  have : Fact N.Prime := ⟨hN⟩
  by_contra hnone
  push Not at hnone
  have hsub : ∀ x : ZMod N, x ≠ 0 → IsSquare x → IsSquare (x - 1) := by
    rintro x hx ⟨y, rfl⟩
    have hval : ((y.val * y.val : ℕ) : ZMod N) = y * y := by rw [Nat.cast_mul, ZMod.natCast_zmod_val]
    obtain ⟨j, hj⟩ := hnone y.val fun hzero => hx <| by
      rw [← hval, ZMod.natCast_eq_zero_iff]
      exact Nat.dvd_of_mod_eq_zero hzero
    have hcast := (ZMod.natCast_eq_natCast_iff' _ _ N).mpr hj
    rw [hval] at hcast
    exact ⟨j, by rw [← hcast]; push_cast; ring⟩
  obtain ⟨a, ha⟩ := FiniteField.exists_nonsquare (F := ZMod N) (by rw [ZMod.ringChar_zmod_n]; omega)
  have hsquare := isSquare_of_sub_one h5 hsub a.val a.val_lt
  rw [ZMod.natCast_zmod_val] at hsquare
  exact ha hsquare

end HashingArchive.Squares
