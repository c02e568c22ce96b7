import Lob.Bitmap
import Mathlib.Data.Nat.Bitwise

/-!
# Correctness of `Bitmap`

`test_set` and `test_clear` are pointwise; `findNextSet_spec` and `findPrevSet_spec` say that the
two scans return the least set index from `start` on and the greatest one up to `start`, or
`kNotFound` if there is none.  The loops are proved by induction over the words still to come,
with `bits` standing for what is left of the word being looked at.
-/

namespace Lob.Bitmap

/-! ### Words and bits -/

theorem test_eq (b : Bitmap) (j : ℕ) : b.test j = (b.words (j / 64)).getLsbD (j % 64) := by
  rw [test, Nat.shiftRight_eq_div_pow, show (63 : ℕ) = 2 ^ 6 - 1 from rfl,
    Nat.and_two_pow_sub_one_eq_mod, BitVec.getLsbD_ushiftRight, Nat.add_zero]

theorem and_63 (i : ℕ) : i &&& 63 = i % 64 := Nat.and_two_pow_sub_one_eq_mod i 6

theorem shiftRight_6 (i : ℕ) : i >>> 6 = i / 64 := Nat.shiftRight_eq_div_pow i 6

theorem getLsbD_one_shiftLeft (p q : ℕ) (hq : q < 64) :
    (1#64 <<< p).getLsbD q = decide (q = p) := by
  rw [BitVec.getLsbD_shiftLeft, BitVec.getLsbD_one]
  simp only [hq, decide_true, Bool.true_and]
  by_cases hqp : q < p
  · simp [hqp, hqp.ne]
  · by_cases heq : q = p
    · simp [heq]
    · simp [hqp, heq, show q - p ≠ 0 by omega]

@[simp] theorem test_new (n j : ℕ) : (new n).test j = false := by
  simp [test_eq, new]

theorem test_set (b : Bitmap) (i j : ℕ) : (b.set i).test j = (b.test j || decide (j = i)) := by
  rw [test_eq, test_eq]
  simp only [set, shiftRight_6, and_63]
  by_cases hw : j / 64 = i / 64
  · rw [hw, Function.update_self, BitVec.getLsbD_or,
      getLsbD_one_shiftLeft _ _ (Nat.mod_lt _ (by omega))]
    congr 1
    rw [decide_eq_decide]
    omega
  · -- the other words are as before
    rw [Function.update_of_ne hw, show decide (j = i) = false by simp; rintro rfl; exact hw rfl,
      Bool.or_false]

theorem test_clear (b : Bitmap) (i j : ℕ) :
    (b.clear i).test j = (b.test j && decide (j ≠ i)) := by
  rw [test_eq, test_eq]
  simp only [clear, shiftRight_6, and_63]
  have hlt : j % 64 < 64 := Nat.mod_lt _ (by omega)
  by_cases hw : j / 64 = i / 64
  · rw [hw, Function.update_self, BitVec.getLsbD_and, BitVec.getLsbD_not,
      getLsbD_one_shiftLeft _ _ hlt]
    simp only [hlt, decide_true, Bool.true_and]
    congr 1
    rw [← decide_not, decide_eq_decide]
    omega
  · rw [Function.update_of_ne hw, show decide (j ≠ i) = true by simp; rintro rfl; exact hw rfl,
      Bool.and_true]

theorem test_set_iff {b : Bitmap} {i j : ℕ} :
    (b.set i).test j = true ↔ b.test j = true ∨ j = i := by
  rw [test_set, Bool.or_eq_true, decide_eq_true_eq]

theorem test_clear_iff {b : Bitmap} {i j : ℕ} :
    (b.clear i).test j = true ↔ b.test j = true ∧ j ≠ i := by
  rw [test_clear, Bool.and_eq_true, decide_eq_true_eq]

/-- A bitmap is determined by its bits. -/
theorem ext_test {b b' : Bitmap} (hwords : b'.numWords = b.numWords)
    (h : ∀ j, b'.test j = b.test j) : b' = b := by
  have hbits : b'.words = b.words := by
    funext w
    refine BitVec.eq_of_getLsbD_eq fun q hq => ?_
    have hj := h (64 * w + q)
    rw [test_eq, test_eq] at hj
    rwa [show (64 * w + q) / 64 = w by omega, show (64 * w + q) % 64 = q by omega] at hj
  cases b
  cases b'
  rw [Bitmap.mk.injEq]
  exact ⟨hwords, hbits⟩

/-- Clearing a bit that was set just before. -/
theorem clear_set {b : Bitmap} {i : ℕ} (hi : b.test i = false) : (b.set i).clear i = b := by
  apply ext_test
  · rfl
  · intro j
    rw [test_clear, test_set]
    by_cases hj : j = i
    · rw [hj, hi]
      simp
    · simp [hj]

/-- The bitmap was built for `n` bits and none at or past `n` is set. -/
structure Within (b : Bitmap) (n : ℕ) : Prop where
  numWords_eq : b.numWords = (n + 63) / 64
  lt : ∀ j, b.test j = true → j < n

theorem new_within {n : ℕ} (h : n + 63 < 2 ^ 64) : (new n).Within n where
  numWords_eq := by
    unfold new
    dsimp only
    rw [Nat.mod_eq_of_lt h]
  lt := by simp

theorem Within.set {b : Bitmap} {n : ℕ} (h : b.Within n) {i : ℕ} (hi : i < n) :
    (b.set i).Within n := by
  refine ⟨h.numWords_eq, fun j hj => ?_⟩
  rw [test_set, Bool.or_eq_true, decide_eq_true_eq] at hj
  rcases hj with hj | rfl
  · exact h.lt j hj
  · exact hi

theorem Within.clear {b : Bitmap} {n : ℕ} (h : b.Within n) (i : ℕ) : (b.clear i).Within n := by
  refine ⟨h.numWords_eq, fun j hj => ?_⟩
  rw [test_clear, Bool.and_eq_true] at hj
  exact h.lt j hj.1

theorem Within.div_lt {b : Bitmap} {n : ℕ} (h : b.Within n) {j : ℕ} (hj : b.test j = true) :
    j / 64 < b.numWords := by
  have := h.lt j hj
  rw [h.numWords_eq]
  omega

/-! ### The upward scan -/

/-- What the upward loop has still to look at: the positions of `bits` in word `w`, and the words
after it. -/
def Above (b : Bitmap) (w : ℕ) (bits : BitVec 64) (j : ℕ) : Prop :=
  (j / 64 = w ∧ bits.getLsbD (j % 64) = true) ∨ (w < j / 64 ∧ b.test j = true)

theorem scanUp_spec {b : Bitmap} {n : ℕ} (hb : b.Within n) :
    ∀ (fuel w : ℕ) (bits : BitVec 64), w < b.numWords → b.numWords ≤ w + fuel →
      (b.scanUp fuel w bits = kNotFound ∧ ∀ j, ¬b.Above w bits j) ∨
        IsLeast {j | b.Above w bits j} (b.scanUp fuel w bits) := by
  intro fuel
  -- on the number of words that may still be looked at
  induction fuel with
  | zero => intro w bits hw hfuel; omega
  | succ fuel ih =>
    intro w bits hw hfuel
    rw [scanUp]
    by_cases hbits : bits = 0
    · rw [if_pos hbits]
      -- nothing left in this word
      have hskip : ∀ j, b.Above w bits j ↔ w < j / 64 ∧ b.test j = true := by
        intro j
        simp [Above, hbits]
      by_cases hend : w + 1 ≥ b.numWords
      · rw [if_pos hend]
        refine Or.inl ⟨rfl, fun j hj => ?_⟩
        have hj' := (hskip j).mp hj
        have := hb.div_lt hj'.2
        omega
      · rw [if_neg hend]
        have hnext : ∀ j, b.Above w bits j ↔ b.Above (w + 1) (b.words (w + 1)) j := by
          intro j
          rw [hskip, Above]
          constructor
          · rintro ⟨hlt, hj⟩
            rcases Nat.lt_or_ge (w + 1) (j / 64) with h | h
            · exact Or.inr ⟨h, hj⟩
            · have heq : j / 64 = w + 1 := by omega
              rw [test_eq, heq] at hj
              exact Or.inl ⟨heq, hj⟩
          · rintro (⟨heq, hj⟩ | ⟨hlt, hj⟩)
            · exact ⟨by omega, by rw [test_eq, heq]; exact hj⟩
            · exact ⟨by omega, hj⟩
        simp only [hnext]
        exact ih (w + 1) (b.words (w + 1)) (by omega) (by omega)
    · rw [if_neg hbits]
      -- the lowest set bit of this word is below everything in the later ones
      right
      have hctz := BitVec.ctz_lt_iff_ne_zero.mpr hbits
      have hlt : bits.ctz.toNat < 64 := by simpa [BitVec.lt_def] using hctz
      have hpos : (w <<< 6) + bits.ctz.toNat = w * 64 + bits.ctz.toNat := by
        rw [Nat.shiftLeft_eq]
      rw [hpos]
      constructor
      · refine Or.inl ⟨by omega, ?_⟩
        rw [show (w * 64 + bits.ctz.toNat) % 64 = bits.ctz.toNat by omega]
        exact BitVec.getLsbD_true_ctz_of_ne_zero hbits
      · rintro j (⟨heq, hj⟩ | ⟨hlt', -⟩)
        · by_contra hcon
          have hj' : j % 64 < bits.ctz.toNat := by omega
          rw [BitVec.getLsbD_false_of_lt_ctz hj'] at hj
          exact absurd hj (by simp)
        · omega

theorem findNextSet_spec {b : Bitmap} {n : ℕ} (hb : b.Within n) (start : ℕ) :
    (b.findNextSet start = kNotFound ∧ ∀ j ≥ start, b.test j = false) ∨
      IsLeast {j | start ≤ j ∧ b.test j = true} (b.findNextSet start) := by
  rw [findNextSet]
  simp only [shiftRight_6, and_63]
  by_cases hw : start / 64 ≥ b.numWords
  · rw [if_pos hw]
    refine Or.inl ⟨rfl, fun j hj => ?_⟩
    by_contra hset
    have := hb.div_lt (Bool.not_eq_false _ ▸ hset)
    omega
  · rw [if_neg hw]
    -- of the first word only the bits from `start` on are looked at
    have habove : ∀ j, b.Above (start / 64)
        (b.words (start / 64) &&& (BitVec.allOnes 64 <<< (start % 64))) j ↔
          start ≤ j ∧ b.test j = true := by
      intro j
      have hlt : j % 64 < 64 := Nat.mod_lt _ (by omega)
      rw [Above, BitVec.getLsbD_and, BitVec.getLsbD_shiftLeft, Bool.and_eq_true]
      simp only [hlt, BitVec.getLsbD_allOnes, decide_true, Bool.true_and, Bool.and_eq_true,
        Bool.not_eq_true', decide_eq_false_iff_not, decide_eq_true_eq]
      constructor
      · rintro (⟨heq, hj, hge, -⟩ | ⟨hlt', hj⟩)
        · exact ⟨by omega, by rw [test_eq, heq]; exact hj⟩
        · exact ⟨by omega, hj⟩
      · rintro ⟨hle, hj⟩
        rcases Nat.lt_or_ge (start / 64) (j / 64) with h | h
        · exact Or.inr ⟨h, hj⟩
        · have heq : j / 64 = start / 64 := by omega
          rw [test_eq, heq] at hj
          exact Or.inl ⟨heq, hj, by omega, by omega⟩
    have := scanUp_spec hb b.numWords (start / 64)
      (b.words (start / 64) &&& (BitVec.allOnes 64 <<< (start % 64))) (by omega) (by omega)
    simp only [habove] at this
    simpa using this

/-! ### The downward scan -/

/-- What the downward loop has still to look at. -/
def Below (b : Bitmap) (w : ℕ) (bits : BitVec 64) (j : ℕ) : Prop :=
  (j / 64 = w ∧ bits.getLsbD (j % 64) = true) ∨ (j / 64 < w ∧ b.test j = true)

/-- The last word looked at: the greatest set bit of `bits`. -/
theorem isGreatest_clz {b : Bitmap} {w : ℕ} {bits : BitVec 64} (hbits : bits ≠ 0) :
    IsGreatest {j | b.Below w bits j} ((w <<< 6) + 63 - bits.clz.toNat) := by
  have hlt : bits.clz.toNat < 64 := by
    simpa [BitVec.lt_def] using BitVec.clz_lt_iff_ne_zero.mpr hbits
  have hpos : (w <<< 6) + 63 - bits.clz.toNat = w * 64 + (63 - bits.clz.toNat) := by
    rw [Nat.shiftLeft_eq]
    omega
  rw [hpos]
  constructor
  · refine Or.inl ⟨by omega, ?_⟩
    rw [show (w * 64 + (63 - bits.clz.toNat)) % 64 = 63 - bits.clz.toNat by omega]
    exact BitVec.getLsbD_true_clz_of_ne_zero (by omega) hbits
  · rintro j (⟨heq, hj⟩ | ⟨hlt', -⟩)
    · have hval := BitVec.toNat_lt_two_pow_sub_clz (x := bits)
      by_contra hcon
      have hge : 64 - bits.clz.toNat ≤ j % 64 := by omega
      have hfalse : bits.getLsbD (j % 64) = false :=
        Nat.testBit_eq_false_of_lt
          (Nat.lt_of_lt_of_le hval (Nat.pow_le_pow_right (by omega) hge))
      rw [hfalse] at hj
      exact absurd hj (by simp)
    · omega

theorem scanDown_spec (b : Bitmap) : ∀ (w : ℕ) (bits : BitVec 64),
    (b.scanDown w bits = kNotFound ∧ ∀ j, ¬b.Below w bits j) ∨
      IsGreatest {j | b.Below w bits j} (b.scanDown w bits) := by
  intro w
  -- on the word that is looked at
  induction w with
  | zero =>
    intro bits
    rw [scanDown]
    by_cases hbits : bits = 0
    · rw [if_pos hbits]
      exact Or.inl ⟨rfl, fun j => by simp [Below, hbits]⟩
    · rw [if_neg hbits]
      exact Or.inr (isGreatest_clz hbits)
  | succ w ih =>
    intro bits
    rw [scanDown]
    by_cases hbits : bits = 0
    · rw [if_pos hbits]
      have hnext : ∀ j, b.Below (w + 1) bits j ↔ b.Below w (b.words w) j := by
        intro j
        simp only [Below, hbits]
        constructor
        · rintro (⟨-, hj⟩ | ⟨hlt, hj⟩)
          · exact absurd hj (by simp)
          · rcases Nat.lt_or_ge (j / 64) w with h | h
            · exact Or.inr ⟨h, hj⟩
            · have heq : j / 64 = w := by omega
              rw [test_eq, heq] at hj
              exact Or.inl ⟨heq, hj⟩
        · rintro (⟨heq, hj⟩ | ⟨hlt, hj⟩)
          · exact Or.inr ⟨by omega, by rw [test_eq, heq]; exact hj⟩
          · exact Or.inr ⟨by omega, hj⟩
      simp only [hnext]
      exact ih (b.words w)
    · rw [if_neg hbits]
      exact Or.inr (isGreatest_clz hbits)

/-- The mask of the bits at or below position `p`. -/
theorem getLsbD_lowMask (p q : ℕ) (hp : p < 64) (hq : q < 64) :
    (if p = 63 then BitVec.allOnes 64 else (1#64 <<< (p + 1)) - 1#64).getLsbD q =
      decide (q ≤ p) := by
  by_cases h : p = 63
  · rw [if_pos h, BitVec.getLsbD_allOnes, decide_eq_decide]
    omega
  · rw [if_neg h]
    have hval : ((1#64 <<< (p + 1)) - 1#64).toNat = 2 ^ (p + 1) - 1 := by
      have hlt : 2 ^ (p + 1) < 2 ^ 64 := Nat.pow_lt_pow_right (by omega) (by omega)
      have hpos : 0 < 2 ^ (p + 1) := Nat.two_pow_pos _
      rw [BitVec.toNat_sub, BitVec.toNat_shiftLeft, BitVec.toNat_ofNat,
        Nat.one_mod_two_pow_eq_one.mpr (by omega), Nat.one_shiftLeft, Nat.mod_eq_of_lt hlt]
      omega
    rw [← BitVec.testBit_toNat, hval, Nat.testBit_two_pow_sub_one, decide_eq_decide]
    omega

theorem findPrevSet_spec {b : Bitmap} {n : ℕ} (hb : b.Within n) (start : ℕ) :
    (b.findPrevSet start = kNotFound ∧ ∀ j ≤ start, b.test j = false) ∨
      IsGreatest {j | j ≤ start ∧ b.test j = true} (b.findPrevSet start) := by
  rw [findPrevSet]
  simp only [shiftRight_6, and_63]
  by_cases hw : start / 64 ≥ b.numWords
  · rw [if_pos hw]
    by_cases h0 : b.numWords = 0
    · rw [if_pos h0]
      refine Or.inl ⟨rfl, fun j _ => ?_⟩
      by_contra hset
      have := hb.div_lt (Bool.not_eq_false _ ▸ hset)
      omega
    · rw [if_neg h0]
      -- the scan starts at the last word, as no bit is set past it
      have hbelow : ∀ j, b.Below (b.numWords - 1) (b.words (b.numWords - 1)) j ↔
          j ≤ start ∧ b.test j = true := by
        intro j
        rw [Below]
        constructor
        · rintro (⟨heq, hj⟩ | ⟨hlt, hj⟩)
          · exact ⟨by omega, by rw [test_eq, heq]; exact hj⟩
          · exact ⟨by omega, hj⟩
        · rintro ⟨-, hj⟩
          have := hb.div_lt hj
          rcases Nat.lt_or_ge (j / 64) (b.numWords - 1) with h | h
          · exact Or.inr ⟨h, hj⟩
          · have heq : j / 64 = b.numWords - 1 := by omega
            rw [test_eq, heq] at hj
            exact Or.inl ⟨heq, hj⟩
      have := b.scanDown_spec (b.numWords - 1) (b.words (b.numWords - 1))
      simp only [hbelow] at this
      simpa using this
  · rw [if_neg hw]
    -- of the first word only the bits up to `start` are looked at
    have hbelow : ∀ j, b.Below (start / 64)
        (b.words (start / 64) &&&
          (if start % 64 = 63 then BitVec.allOnes 64 else (1#64 <<< (start % 64 + 1)) - 1#64)) j ↔
          j ≤ start ∧ b.test j = true := by
      intro j
      rw [Below, BitVec.getLsbD_and,
        getLsbD_lowMask _ _ (Nat.mod_lt _ (by omega)) (Nat.mod_lt _ (by omega)),
        Bool.and_eq_true, decide_eq_true_eq]
      constructor
      · rintro (⟨heq, hj, hle⟩ | ⟨hlt, hj⟩)
        · exact ⟨by omega, by rw [test_eq, heq]; exact hj⟩
        · exact ⟨by omega, hj⟩
      · rintro ⟨hle, hj⟩
        rcases Nat.lt_or_ge (j / 64) (start / 64) with h | h
        · exact Or.inr ⟨h, hj⟩
        · have heq : j / 64 = start / 64 := by omega
          rw [test_eq, heq] at hj
          exact Or.inl ⟨heq, hj, by omega⟩
    have := b.scanDown_spec (start / 64) (b.words (start / 64) &&&
      (if start % 64 = 63 then BitVec.allOnes 64 else (1#64 <<< (start % 64 + 1)) - 1#64))
    simp only [hbelow] at this
    simpa using this

end Lob.Bitmap
