import Mathlib

/-!
# Mixing words without loss

Hash functions mix a word in steps that can be undone: they multiply by an odd constant (`mul_bijective`), xor the
high bits onto the low ones (`xorShift_bijective`), rotate (`rotateLeft_bijective`), add or xor a constant. The
remainder of the file is about cutting words: `card_shiftRight_eq` counts the words with given top bits and
`card_modEq` those with a given remainder, and `clearLow_step` puts a word together again from its bytes.
-/

namespace HashingArchive.Library.Words

variable {w : ℕ}

/-- An injective function on words reaches every word. -/
theorem bijective_of_injective {f : BitVec w → BitVec w} (hf : Function.Injective f) : Function.Bijective f :=
  Finite.injective_iff_bijective.mp hf

/-! ### Steps that can be undone -/

/-- A word that is its own right shift has no bits. -/
theorem eq_zero_of_eq_shiftRight {k : ℕ} (hk : 0 < k) {z : BitVec w} (hz : z = z >>> k) : z = 0#w := by
  have hle : z.toNat ≤ z.toNat / 2 := by
    calc z.toNat = z.toNat / 2 ^ k := by rw [← Nat.shiftRight_eq_div_pow, ← BitVec.toNat_ushiftRight, ← hz]
      _ ≤ z.toNat / 2 := Nat.div_le_div_left (Nat.le_self_pow hk.ne' 2) (by norm_num)
  apply BitVec.eq_of_toNat_eq
  rw [BitVec.toNat_ofNat, Nat.zero_mod]
  omega

/-- Xoring the high bits onto the low ones keeps words apart: two words that agree afterwards differ by a word that is
its own shift. -/
theorem xorShift_injective {k : ℕ} (hk : 0 < k) : Function.Injective fun x : BitVec w => x ^^^ x >>> k := by
  intro x y heq
  have hdiff : (x ^^^ y) ^^^ (x ^^^ y) >>> k = 0#w := by
    have hzero : (x ^^^ x >>> k) ^^^ (y ^^^ y >>> k) = 0#w := BitVec.xor_eq_zero_iff.mpr heq
    rw [BitVec.ushiftRight_xor_distrib]
    rw [← hzero]
    ac_rfl
  exact BitVec.xor_eq_zero_iff.mp (eq_zero_of_eq_shiftRight hk (BitVec.xor_eq_zero_iff.mp hdiff))

theorem xorShift_bijective {k : ℕ} (hk : 0 < k) : Function.Bijective fun x : BitVec w => x ^^^ x >>> k :=
  bijective_of_injective (xorShift_injective hk)

/-- An odd word has an inverse. -/
theorem exists_mul_eq_one {c : BitVec w} (hodd : Odd c.toNat) : ∃ c', c * c' = 1#w := by
  have hcop : c.toNat.Coprime (2 ^ w) := (Nat.coprime_two_right.mpr hodd).pow_right w
  rcases Nat.eq_zero_or_pos w with rfl | hw
  · exact ⟨0#0, Subsingleton.elim _ _⟩
  · obtain ⟨inverse, -, hinverse⟩ := Nat.exists_mul_mod_eq_one_of_coprime hcop (Nat.one_lt_two_pow hw.ne')
    refine ⟨BitVec.ofNat w inverse, BitVec.eq_of_toNat_eq ?_⟩
    rw [BitVec.toNat_mul, BitVec.toNat_ofNat, Nat.mul_mod_mod, hinverse, BitVec.toNat_ofNat,
      Nat.mod_eq_of_lt (Nat.one_lt_two_pow hw.ne')]

/-- With the inverse of the factor at hand, a product is solved for the other factor. -/
theorem mul_eq_iff {c i : BitVec w} (hi : c * i = 1#w) {x y : BitVec w} : x * c = y ↔ x = y * i := by
  constructor
  · rintro rfl
    rw [BitVec.mul_assoc, hi, BitVec.mul_one]
  · rintro rfl
    rw [BitVec.mul_assoc, BitVec.mul_comm i, hi, BitVec.mul_one]

theorem mul_injective {c : BitVec w} (hodd : Odd c.toNat) : Function.Injective fun x : BitVec w => x * c := by
  obtain ⟨i, hi⟩ := exists_mul_eq_one hodd
  intro x y heq
  rw [(mul_eq_iff hi).mp heq, BitVec.mul_assoc, hi, BitVec.mul_one]

theorem mul_bijective {c : BitVec w} (hodd : Odd c.toNat) : Function.Bijective fun x : BitVec w => x * c :=
  bijective_of_injective (mul_injective hodd)

/-- A rotation to the left, written with shifts. -/
theorem shiftLeft_or_shiftRight {r : ℕ} (hr : r < w) (x : BitVec w) :
    x <<< r ||| x >>> (w - r) = x.rotateLeft r := by
  rw [BitVec.rotateLeft_def, Nat.mod_eq_of_lt hr]

/-- A rotation to the right is a rotation to the left by the other bits. -/
theorem shiftRight_or_shiftLeft {r : ℕ} (hpos : 0 < r) (hr : r < w) (x : BitVec w) :
    x >>> r ||| x <<< (w - r) = x.rotateLeft (w - r) := by
  rw [← shiftLeft_or_shiftRight (by omega), Nat.sub_sub_self hr.le, BitVec.or_comm]

theorem rotateRight_rotateLeft {r : ℕ} (hr : r < w) (x : BitVec w) : (x.rotateLeft r).rotateRight r = x := by
  ext i hi
  simp only [BitVec.getElem_rotateRight, BitVec.getElem_rotateLeft, Nat.mod_eq_of_lt hr]
  grind

theorem rotateLeft_rotateRight {r : ℕ} (hr : r < w) (x : BitVec w) : (x.rotateRight r).rotateLeft r = x := by
  ext i hi
  simp only [BitVec.getElem_rotateRight, BitVec.getElem_rotateLeft, Nat.mod_eq_of_lt hr]
  grind

theorem rotateLeft_eq_iff {r : ℕ} (hr : r < w) {x y : BitVec w} : x.rotateLeft r = y ↔ x = y.rotateRight r := by
  constructor
  · rintro rfl
    exact (rotateRight_rotateLeft hr x).symm
  · rintro rfl
    exact rotateLeft_rotateRight hr y

theorem rotateLeft_bijective {r : ℕ} (hr : r < w) : Function.Bijective fun x : BitVec w => x.rotateLeft r :=
  Function.bijective_iff_has_inverse.mpr
    ⟨fun x => x.rotateRight r, rotateRight_rotateLeft hr, rotateLeft_rotateRight hr⟩

theorem xor_eq_iff {c x y : BitVec w} : c ^^^ x = y ↔ x = c ^^^ y := by
  constructor
  · rintro rfl
    rw [← BitVec.xor_assoc, BitVec.xor_self, BitVec.zero_xor]
  · rintro rfl
    rw [← BitVec.xor_assoc, BitVec.xor_self, BitVec.zero_xor]

theorem xor_bijective (c : BitVec w) : Function.Bijective fun x : BitVec w => c ^^^ x :=
  bijective_of_injective fun _ _ heq => (BitVec.xor_right_inj c).mp heq

/-! ### Top bits -/

/-- The words with a property are as many as the numbers below `2 ^ w` with it. -/
theorem card_filter_toNat (p : ℕ → Prop) [DecidablePred p] :
    (Finset.univ.filter fun hash : BitVec w => p hash.toNat).card = ((Finset.range (2 ^ w)).filter p).card := by
  apply Finset.card_bij fun hash _ => hash.toNat
  · intro hash h
    rw [Finset.mem_filter] at h ⊢
    exact ⟨Finset.mem_range.mpr hash.isLt, h.2⟩
  · intro hash _ hash' _ heq
    exact BitVec.eq_of_toNat_eq heq
  · intro x hx
    rw [Finset.mem_filter, Finset.mem_range] at hx
    have hval : (BitVec.ofNat w x).toNat = x := by rw [BitVec.toNat_ofNat, Nat.mod_eq_of_lt hx.1]
    exact ⟨BitVec.ofNat w x, Finset.mem_filter.mpr ⟨Finset.mem_univ _, by rw [hval]; exact hx.2⟩, hval⟩

/-- The words that a shift by `k` takes to `r` are the choices of the `k` bits it drops. -/
theorem card_shiftRight_eq {k r : ℕ} (hr : (r + 1) * 2 ^ k ≤ 2 ^ w) :
    (Finset.univ.filter fun x : BitVec w => (x >>> k).toNat = r).card = 2 ^ k := by
  have hpow : 0 < 2 ^ k := Nat.two_pow_pos k
  have hfibre : (Finset.range (2 ^ w)).filter (fun x => x / 2 ^ k = r) = Finset.Ico (r * 2 ^ k) ((r + 1) * 2 ^ k) := by
    ext x
    rw [Finset.mem_filter, Finset.mem_range, Finset.mem_Ico, Nat.div_eq_iff hpow]
    have hnext : (r + 1) * 2 ^ k = r * 2 ^ k + 2 ^ k := Nat.succ_mul r (2 ^ k)
    omega
  simp only [BitVec.toNat_ushiftRight, Nat.shiftRight_eq_div_pow]
  rw [card_filter_toNat fun x => x / 2 ^ k = r, hfibre, Nat.card_Ico, Nat.succ_mul, Nat.add_sub_cancel_left]

/-! ### Remainders -/

/-- The lowest bit is the remainder by two. -/
theorem and_one_ne_zero_iff (x : BitVec w) : x &&& 1 ≠ 0 ↔ x.toNat % 2 = 1 := by
  rw [← Nat.mod_two_ne_zero]
  apply not_congr
  have hbit : (x &&& 1#w).toNat = x.toNat % 2 := by
    rcases Nat.eq_zero_or_pos w with rfl | hw
    · rw [Subsingleton.elim x 0#0]
      rfl
    · rw [BitVec.toNat_and, BitVec.toNat_ofNat, Nat.mod_eq_of_lt (Nat.one_lt_two_pow hw.ne'), Nat.and_one_is_mod]
  exact BitVec.toNat_inj.symm.trans (by rw [← hbit]; simp)

/-- A remainder by `m` is that of a share of the words, rounded down or up. -/
theorem card_modEq {m : ℕ} (hm : 0 < m) (v : ℕ) :
    (Finset.univ.filter fun x : BitVec w => x.toNat ≡ v [MOD m]).card = 2 ^ w / m ∨
      (Finset.univ.filter fun x : BitVec w => x.toNat ≡ v [MOD m]).card = 2 ^ w ⌈/⌉ m := by
  rw [card_filter_toNat (· ≡ v [MOD m]), ← Nat.count_eq_card_filter_range, Nat.count_modEq_card _ hm]
  split_ifs with hlt
  · right
    have hrest : 2 ^ w + m - 1 = (2 ^ w % m - 1) + m * (2 ^ w / m + 1) := by
      rw [Nat.mul_succ]
      have hsplit := Nat.div_add_mod (2 ^ w) m
      omega
    have hsmall : 2 ^ w % m - 1 < m := (Nat.sub_le _ _).trans_lt (Nat.mod_lt _ hm)
    rw [Nat.ceilDiv_eq_add_pred_div, hrest, Nat.add_mul_div_left _ _ hm, Nat.div_eq_of_lt hsmall, Nat.zero_add]
  · exact Or.inl (Nat.add_zero _)

theorem exists_modEq {m : ℕ} (hm : 0 < m) (hle : m ≤ 2 ^ w) (v : ℕ) : ∃ x : BitVec w, x.toNat ≡ v [MOD m] := by
  refine ⟨BitVec.ofNat w (v % m), ?_⟩
  rw [BitVec.toNat_ofNat, Nat.mod_eq_of_lt ((Nat.mod_lt v hm).trans_le hle)]
  exact Nat.mod_modEq v m

/-! ### Bytes -/

/-- The word with its `k` lowest bits cleared. -/
def clearLow (k : ℕ) (x : BitVec w) : BitVec w := (x >>> k) <<< k

@[simp] theorem clearLow_zero (x : BitVec w) : clearLow 0 x = x := by simp [clearLow]

@[simp] theorem clearLow_width (x : BitVec w) : clearLow w x = 0#w := by simp [clearLow]

/-- Xoring in the byte at bit `k` fills the lowest cleared byte. -/
theorem clearLow_step (k : ℕ) (x : BitVec w) :
    clearLow (k + 8) x ^^^ ((x >>> k).setWidth 8).setWidth w <<< k = clearLow k x := by
  ext i hi
  simp [clearLow]
  grind

/-- A word is its bytes. -/
theorem eq_of_bytes_eq {n : ℕ} {x y : BitVec (8 * n)}
    (h : ∀ i < n, (x >>> (8 * i)).setWidth 8 = (y >>> (8 * i)).setWidth 8) : x = y := by
  have hclear : ∀ k ≤ n, clearLow (8 * (n - k)) x = clearLow (8 * (n - k)) y := by
    intro k
    induction k with
    | zero =>
      intro _
      rw [Nat.sub_zero, clearLow_width, clearLow_width]
    | succ k ih =>
      intro hk
      have hnext : 8 * (n - k) = 8 * (n - (k + 1)) + 8 := by omega
      have hstep := ih (by omega)
      rw [hnext] at hstep
      rw [← clearLow_step, ← clearLow_step (8 * (n - (k + 1))) y, hstep, h (n - (k + 1)) (by omega)]
  have hall := hclear n le_rfl
  rwa [Nat.sub_self, Nat.mul_zero, clearLow_zero, clearLow_zero] at hall

/-! ### Xoring a list of words together -/

/-- The order of the words does not matter. -/
theorem foldl_xor_perm {l l' : List ℕ} (hperm : l.Perm l') (f : ℕ → BitVec w) (s : BitVec w) :
    l.foldl (fun out i => out ^^^ f i) s = l'.foldl (fun out i => out ^^^ f i) s := by
  have hcomm : RightCommutative fun (out : BitVec w) i => out ^^^ f i :=
    ⟨fun out i j => by rw [BitVec.xor_assoc, BitVec.xor_comm (f i), BitVec.xor_assoc]⟩
  exact hperm.foldl_eq s

/-- Words xored onto different starting values stay different. -/
theorem foldl_xor_inj (l : List ℕ) (f : ℕ → BitVec w) {s s' : BitVec w} :
    l.foldl (fun out i => out ^^^ f i) s = l.foldl (fun out i => out ^^^ f i) s' ↔ s = s' := by
  induction l generalizing s s' with
  | nil => rfl
  | cons i l ih => rw [List.foldl_cons, List.foldl_cons, ih, BitVec.xor_left_inj]

/-- Two lists of words that differ in one place at most differ in their sums if they do there. -/
theorem foldl_xor_eq_iff {l : List ℕ} (hnodup : l.Nodup) {j : ℕ} (hj : j ∈ l) {f g : ℕ → BitVec w}
    (hfg : ∀ i ∈ l, i ≠ j → f i = g i) (s : BitVec w) :
    l.foldl (fun out i => out ^^^ f i) s = l.foldl (fun out i => out ^^^ g i) s ↔ f j = g j := by
  induction l generalizing s with
  | nil => exact absurd hj List.not_mem_nil
  | cons i l ih =>
    obtain ⟨hi, hl⟩ := List.nodup_cons.mp hnodup
    rw [List.foldl_cons, List.foldl_cons]
    rcases List.mem_cons.mp hj with rfl | hjl
    · have htail : ∀ s, l.foldl (fun out i => out ^^^ f i) s = l.foldl (fun out i => out ^^^ g i) s := fun s =>
        List.foldl_ext _ _ _ fun out i hil => by
          rw [hfg i (List.mem_cons_of_mem _ hil) (ne_of_mem_of_not_mem hil hi)]
      rw [htail, foldl_xor_inj, BitVec.xor_right_inj]
    · rw [hfg i List.mem_cons_self (ne_of_mem_of_not_mem hjl hi).symm]
      exact ih hl hjl (fun i hil => hfg i (List.mem_cons_of_mem _ hil)) _

end HashingArchive.Library.Words
