import StackMachine.Decimal.Reader
import StackMachine.Proofs.Decimal.Rounding

/-! The double nearest to a decimal.

A decimal with a power of ten is a product or a quotient of whole numbers, and either one is computed with enough bits
to be rounded. So a decimal that rounds to a double is read as that double. -/

namespace StackMachine.Decimal

open Float.Model Float.Model.UnpackedFloat

variable {c d M : ℕ} {e E : ℤ} {q : ℚ}

/-! ### Quotients -/

theorem places_accuracyOfFraction (a : ℕ) (hd : 0 < d) :
    Places (accuracyOfFraction (a % d) d) (a / d) ((a : ℚ) / d) := by
  have hd' : (0 : ℚ) < d := by exact_mod_cast hd
  have hsplit : (a : ℚ) / d = (a / d : ℕ) + (a % d : ℕ) / d := by
    have h : (a : ℚ) = d * (a / d : ℕ) + (a % d : ℕ) := by exact_mod_cast (Nat.div_add_mod a d).symm
    rw [div_eq_iff hd'.ne', add_mul, div_mul_cancel₀ _ hd'.ne', mul_comm, ← h]
  have hlt : (a % d : ℕ) / (d : ℚ) < 1 := by
    rw [div_lt_one hd']
    exact_mod_cast Nat.mod_lt a hd
  rw [hsplit]
  unfold accuracyOfFraction
  split
  · rename_i hzero
    simp [Places, hzero]
  · rename_i hne
    have hpos : 0 < (a % d : ℕ) / (d : ℚ) := div_pos (by exact_mod_cast Nat.pos_of_ne_zero hne) hd'
    rcases lt_trichotomy (2 * (a % d)) d with h | h | h
    · rw [Nat.compare_eq_lt.mpr h]
      have h : (2 : ℚ) * (a % d : ℕ) < d := by exact_mod_cast h
      refine ⟨by linarith, ?_⟩
      have : (a % d : ℕ) / (d : ℚ) < 1 / 2 := by
        rw [div_lt_div_iff₀ hd' (by norm_num)]
        linarith
      linarith
    · rw [Nat.compare_eq_eq.mpr h]
      have h : (2 : ℚ) * (a % d : ℕ) = d := by exact_mod_cast h
      have : (a % d : ℕ) / (d : ℚ) = 1 / 2 := by
        rw [div_eq_div_iff hd'.ne' (by norm_num)]
        linarith
      exact congrArg _ this
    · rw [Nat.compare_eq_gt.mpr h]
      have h : (d : ℚ) < 2 * (a % d : ℕ) := by exact_mod_cast h
      refine ⟨?_, by linarith⟩
      have : 1 / 2 < (a % d : ℕ) / (d : ℚ) := by
        rw [div_lt_div_iff₀ (by norm_num) hd']
        linarith
      linarith

/-- The quotient is taken with at least 53 bits, or down to the last bit that a double can have. -/
theorem enough_bits (hc : 0 < c) (hd : 0 < d) (t : ℤ) (ht : t = min 0 (max ((c.log2 : ℤ) - d.log2 - 53) (-1074))) :
    t ≤ -1074 ∨ 2 ^ 52 ≤ c <<< (-t).toNat / d := by
  rcases le_or_gt t (-1074) with h | h
  · exact Or.inl h
  right
  rw [Nat.le_div_iff_mul_le hd, Nat.shiftLeft_eq]
  have hbits : 52 + (d.log2 + 1) ≤ c.log2 + (-t).toNat := by omega
  calc 2 ^ 52 * d ≤ 2 ^ 52 * 2 ^ (d.log2 + 1) := Nat.mul_le_mul_left _ Nat.lt_log2_self.le
    _ = 2 ^ (52 + (d.log2 + 1)) := (pow_add 2 52 _).symm
    _ ≤ 2 ^ (c.log2 + (-t).toNat) := Nat.pow_le_pow_right (by norm_num) hbits
    _ = 2 ^ c.log2 * 2 ^ (-t).toNat := pow_add 2 _ _
    _ ≤ c * 2 ^ (-t).toNat := Nat.mul_le_mul_right _ (Nat.log2_self_le hc.ne')

theorem div_eq (hr : RoundsTo ((c : ℚ) / d) M E) (hM : Canonical M E) (hc : 0 < c) (hd : 0 < d) :
    div .binary64 (.finite .positive c 0 hc) (.finite .positive d 0 hd) = .finite .positive M E hM.pos := by
  obtain ⟨t, ht⟩ : ∃ t : ℤ, t = min 0 (max ((c.log2 : ℤ) - d.log2 - 53) (-1074)) := ⟨_, rfl⟩
  have hcore : divCore .binary64 c 0 d 0 =
      (c <<< (-t).toNat / d, t, accuracyOfFraction (c <<< (-t).toNat % d) d) := by
    have htarget : min ((0 : ℤ) - 0) (Format.binary64.targetExponent (totalExponent c 0 - totalExponent d 0)) = t := by
      rw [targetExponent_eq, totalExponent, totalExponent, ht]
      congr 2
      ring
    unfold divCore
    dsimp only
    rw [htarget, sub_self, zero_sub]
  have hq : (c : ℚ) / d = (c <<< (-t).toNat : ℕ) / d * 2 ^ t := by
    have hneg : t = -((-t).toNat : ℤ) := by omega
    conv_rhs => rw [hneg, Int.neg_neg, Int.toNat_natCast, zpow_neg, zpow_natCast, Nat.shiftLeft_eq]
    push_cast
    field_simp
  show roundWithAccuracy _ _ (divCore .binary64 c 0 d 0).1 (divCore .binary64 c 0 d 0).2.1
    (divCore .binary64 c 0 d 0).2.2 = _
  rw [hcore]
  exact roundWithAccuracy_eq hr hM (places_accuracyOfFraction _ hd) hq (enough_bits hc hd t ht) _

/-! ### Products -/

theorem mul_eq (hr : RoundsTo ((c : ℚ) * d) M E) (hM : Canonical M E) (hc : 0 < c <<< 53) (hd : 0 < d) :
    mul .binary64 (.finite .positive (c <<< 53) (-53) hc) (.finite .positive d 0 hd) = .finite .positive M E hM.pos := by
  show roundWithAccuracy _ _ (c <<< 53 * d) (-53 + 0) .exact = _
  have hq : (c : ℚ) * d = (c <<< 53 * d : ℕ) * 2 ^ (-53 + 0 : ℤ) := by
    rw [Nat.shiftLeft_eq]
    push_cast
    norm_num
    ring
  have hbits : 2 ^ 52 ≤ c <<< 53 * d := by
    rw [Nat.shiftLeft_eq] at hc ⊢
    have hc : 1 ≤ c := by omega
    nlinarith
  have hp : Places .exact (c <<< 53 * d) (c <<< 53 * d : ℕ) := rfl
  exact roundWithAccuracy_eq hr hM hp hq (Or.inr hbits) _

/-! ### Powers of ten -/

theorem RoundsTo.lt_top (h : RoundsTo q M E) (hc : Canonical M E) : q < 2 ^ (1024 : ℤ) := by
  have hM : (M : ℚ) + 1 ≤ 2 ^ 53 := by exact_mod_cast hc.lt
  calc q ≤ ((M : ℚ) + 1 / 2) * 2 ^ E := h.high
    _ < 2 ^ 53 * 2 ^ E := by nlinarith [two_zpow_pos E]
    _ = 2 ^ (E + (53 : ℕ)) := (two_zpow_add E 53).symm
    _ ≤ 2 ^ (1024 : ℤ) := zpow_le_zpow_right₀ (by norm_num) (by have := hc.most; omega)

theorem RoundsTo.bottom_le (h : RoundsTo q M E) (hc : Canonical M E) : 2 ^ (-1075 : ℤ) ≤ q := by
  have hM : (1 : ℚ) ≤ M := by exact_mod_cast hc.pos
  have hE : (2 : ℚ) ^ (-1075 + (1 : ℕ) : ℤ) ≤ 2 ^ E := zpow_le_zpow_right₀ (by norm_num) (by have := hc.least; omega)
  rw [two_zpow_add] at hE
  nlinarith [h.half, two_zpow_pos E]

theorem exponent_le (h : (c : ℚ) * 10 ^ e < 2 ^ (1024 : ℤ)) (hc : 0 < c) : e ≤ 2 ^ 11 := by
  by_contra hlt
  obtain ⟨n, rfl⟩ : ∃ n : ℕ, e = n := ⟨e.toNat, by omega⟩
  have hc : (1 : ℚ) ≤ c := by exact_mod_cast hc
  have hge : (2 : ℚ) ^ (1024 : ℤ) ≤ c * 10 ^ (n : ℤ) :=
    calc (2 : ℚ) ^ (1024 : ℤ) ≤ 2 ^ (n : ℤ) := zpow_le_zpow_right₀ (by norm_num) (by omega)
      _ = 2 ^ n := zpow_natCast 2 n
      _ ≤ 10 ^ n := pow_le_pow_left₀ (by norm_num) (by norm_num) n
      _ ≤ c * 10 ^ n := le_mul_of_one_le_left (by positivity) hc
      _ = c * 10 ^ (n : ℤ) := by rw [zpow_natCast]
  exact absurd h (not_lt.mpr hge)

theorem le_exponent (h : 2 ^ (-1075 : ℤ) ≤ (c : ℚ) * 10 ^ e) : -((2 ^ 11 : ℤ) + c.log2) ≤ e := by
  by_contra hlt
  obtain ⟨n, hn⟩ : ∃ n : ℕ, e = -(n : ℤ) := ⟨(-e).toNat, by omega⟩
  have hc : (c : ℚ) < 2 ^ (c.log2 + 1) := by exact_mod_cast Nat.lt_log2_self
  have hten : (10 : ℚ) ^ e ≤ 2 ^ e := by
    rw [hn, zpow_neg, zpow_neg, zpow_natCast, zpow_natCast]
    exact inv_anti₀ (by positivity) (pow_le_pow_left₀ (by norm_num) (by norm_num) n)
  have htwo : (2 : ℚ) ^ ((c.log2 + 1 : ℕ) : ℤ) * 2 ^ e < 2 ^ (-1075 : ℤ) := by
    rw [← zpow_add₀ (by norm_num), two_zpow_lt_iff]
    push_cast
    omega
  rw [zpow_natCast] at htwo
  nlinarith [two_zpow_pos e, show (0 : ℚ) < 10 ^ e by positivity]

/-- A decimal that rounds to a double is computed as that double. -/
theorem ofScientific_eq (hr : RoundsTo ((c : ℚ) * 10 ^ e) M E) (hM : Canonical M E) :
    UnpackedFloat.ofScientific .binary64 c e = .finite .positive M E hM.pos := by
  have hc : c ≠ 0 := by
    rintro rfl
    simpa using hr.pos hM
  have hle := exponent_le (hr.lt_top hM) (Nat.pos_of_ne_zero hc)
  have hge := le_exponent (hr.bottom_le hM)
  unfold UnpackedFloat.ofScientific
  rw [dif_neg hc, if_neg (not_lt.mpr hle), if_neg (not_lt.mpr hge)]
  by_cases he : 0 ≤ e
  · rw [if_pos he]
    refine mul_eq ?_ hM _ _
    obtain ⟨n, rfl⟩ := Int.eq_ofNat_of_zero_le he
    simpa using hr
  · rw [if_neg he]
    refine div_eq ?_ hM _ _
    obtain ⟨n, hn⟩ : ∃ n : ℕ, e = -(n : ℤ) := ⟨(-e).toNat, by omega⟩
    simpa [hn, div_eq_mul_inv] using hr

theorem nearest_eq (hr : RoundsTo ((c : ℚ) * 10 ^ e) M E) (hM : Canonical M E) :
    nearest c e = Float.ofModel (.pack (.finite .positive M E hM.pos)) := by
  rw [nearest, Float.Model.ofScientific, ofScientific_eq hr hM]

end StackMachine.Decimal
