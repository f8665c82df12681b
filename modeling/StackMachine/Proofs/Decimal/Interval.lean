import Mathlib.Data.Nat.Cast.Order.Field
import Mathlib.Tactic.LinearCombination
import StackMachine.Decimal.Shortest
import StackMachine.Proofs.Decimal.Rounding

/-! The shortest digits round to their double.

The search for digits works on whole numbers, after scaling the interval around the double by a power of ten and a power
of two. Every decimal that it can end with lies in the interval. -/

namespace StackMachine.Decimal

/-- The number that a decimal stands for. -/
def Scaled.value (d : Scaled) : ℚ :=
  d.coefficient * 10 ^ d.exponent

variable {M c power : ℕ} {E : ℤ} {d : Scaled}

theorem Scaled.value_stripZeros (fuel : ℕ) (d : Scaled) : (d.stripZeros fuel).value = d.value := by
  induction fuel generalizing d with
  | zero => rfl
  | succ fuel ih =>
    rw [stripZeros]
    split
    · rename_i hzero
      have hten : (d.coefficient : ℚ) = 10 * (d.coefficient / 10 : ℕ) := by
        exact_mod_cast (Nat.mul_div_cancel' (Nat.dvd_of_mod_eq_zero hzero)).symm
      rw [ih, value, value, hten, zpow_add_one₀ (by norm_num)]
      ring
    · rfl

namespace Neighbourhood

/-- What numbers are multiplied by when the interval around a double is scaled. -/
def factor (E : ℤ) : ℚ :=
  2 ^ (2 - E).toNat * 10 ^ scale

theorem factor_pos (E : ℤ) : 0 < factor E := by
  unfold factor
  positivity

theorem cast_quarters (a : ℕ) (E : ℤ) :
    ((a * (2 ^ (E - 2).toNat * 10 ^ scale) : ℕ) : ℚ) = a / 4 * 2 ^ E * factor E := by
  have hexp : E + (2 - E).toNat = ((E - 2).toNat + 2 : ℕ) := by omega
  have hsplit : (2 : ℚ) ^ (2 - E).toNat * 2 ^ E = 2 ^ (E - 2).toNat * 2 ^ 2 := by
    rw [← two_zpow_add, hexp, zpow_natCast, pow_add]
  push_cast
  rw [factor]
  linear_combination (-(a * 10 ^ scale / 4 : ℚ)) * hsplit

theorem cast_point (c power : ℕ) (E : ℤ) :
    ((c * (10 ^ power * 2 ^ (2 - E).toNat) : ℕ) : ℚ) = c * 10 ^ ((power : ℤ) - (scale : ℕ)) * factor E := by
  rw [zpow_sub₀ (by norm_num), zpow_natCast, zpow_natCast, factor]
  push_cast
  field_simp

theorem ofParts_low (hM : 0 < M) :
    ((ofParts M E).low : ℚ) = ((M : ℚ) - quartersBelow M E / 4) * 2 ^ E * factor E := by
  have hq : quartersBelow M E ≤ 4 * M := by
    unfold quartersBelow
    split <;> omega
  show (((4 * M - quartersBelow M E) * (Nat.pow 2 (E - 2).toNat * Nat.pow 10 scale) : ℕ) : ℚ) = _
  rw [Nat.pow_eq, Nat.pow_eq, cast_quarters, Nat.cast_sub hq]
  push_cast
  ring

theorem ofParts_value : ((ofParts M E).value : ℚ) = (M : ℚ) * 2 ^ E * factor E := by
  show ((4 * M * (Nat.pow 2 (E - 2).toNat * Nat.pow 10 scale) : ℕ) : ℚ) = _
  rw [Nat.pow_eq, Nat.pow_eq, cast_quarters]
  push_cast
  ring

theorem ofParts_high : ((ofParts M E).high : ℚ) = ((M : ℚ) + 1 / 2) * 2 ^ E * factor E := by
  show (((4 * M + 2) * (Nat.pow 2 (E - 2).toNat * Nat.pow 10 scale) : ℕ) : ℚ) = _
  rw [Nat.pow_eq, Nat.pow_eq, cast_quarters]
  push_cast
  ring

/-- A scaled point in the scaled interval is a decimal that rounds to the double. -/
theorem roundsTo_of_contains (hM : 0 < M)
    (h : (ofParts M E).contains (c * (10 ^ power * (ofParts M E).denominator)) = true) :
    RoundsTo (c * 10 ^ ((power : ℤ) - (scale : ℕ))) M E := by
  have hpoint := cast_point c power E
  have hf := factor_pos E
  have hclosed : (ofParts M E).closed = (M % 2 == 0) := rfl
  have hle : ∀ {a b : ℕ} {x y : ℚ}, (a : ℚ) = x * factor E → (b : ℚ) = y * factor E → a ≤ b → x ≤ y := by
    intro a b x y ha hb hab
    have hab : (a : ℚ) ≤ b := by exact_mod_cast hab
    rw [ha, hb] at hab
    exact le_of_mul_le_mul_right hab hf
  have hlt : ∀ {a b : ℕ} {x y : ℚ}, (a : ℚ) = x * factor E → (b : ℚ) = y * factor E → a < b → x < y := by
    intro a b x y ha hb hab
    have hab : (a : ℚ) < b := by exact_mod_cast hab
    rw [ha, hb] at hab
    exact lt_of_mul_lt_mul_right hab hf.le
  unfold contains at h
  rw [hclosed] at h
  split at h
  · rename_i heven
    rw [Bool.and_eq_true, decide_eq_true_iff, decide_eq_true_iff] at h
    have heven : M % 2 = 0 := by simpa using heven
    exact ⟨hle (ofParts_low hM) hpoint h.1, hle hpoint ofParts_high h.2, fun hodd => by omega⟩
  · rw [Bool.and_eq_true, decide_eq_true_iff, decide_eq_true_iff] at h
    have hlow := hlt (ofParts_low hM) hpoint h.1
    have hhigh := hlt hpoint ofParts_high h.2
    exact ⟨hlow.le, hhigh.le, fun _ => ⟨hlow, hhigh⟩⟩

theorem roundsTo_of_gridPoint? (hM : 0 < M) (h : (ofParts M E).gridPoint? power = some d) : RoundsTo d.value M E := by
  unfold gridPoint? at h
  obtain ⟨c, hc, rfl⟩ := Option.map_eq_some_iff.mp h
  refine roundsTo_of_contains hM ?_
  split at hc <;> rename_i hbelow habove
  · cases hc
    split
    · exact hbelow
    · exact habove
  · cases hc
    exact hbelow
  · cases hc
    exact habove
  · cases hc

end Neighbourhood

/-! ### The last resort -/

/-- `10 ^ 340` is fine enough for the least of the gaps. -/
theorem two_pow_le_ten_pow : (2 : ℚ) ^ 1076 ≤ 10 ^ Neighbourhood.scale :=
  calc (2 : ℚ) ^ 1076 ≤ 2 ^ (16 * 68) := pow_le_pow_right₀ (by norm_num) (by norm_num)
    _ = (2 ^ 16) ^ 68 := pow_mul 2 16 68
    _ ≤ (10 ^ 5) ^ 68 := pow_le_pow_left₀ (by norm_num) (by norm_num) 68
    _ = 10 ^ Neighbourhood.scale := (pow_mul 10 5 68).symm

theorem ten_zpow_le (hc : Canonical M E) : (10 : ℚ) ^ (-(Neighbourhood.scale : ℕ) : ℤ) ≤ 1 / 4 * 2 ^ E := by
  have hE : (2 : ℚ) ^ (-1076 + (2 : ℕ) : ℤ) ≤ 2 ^ E := zpow_le_zpow_right₀ (by norm_num) (by have := hc.least; omega)
  rw [two_zpow_add, zpow_neg] at hE
  have hinv := inv_anti₀ (by positivity) two_pow_le_ten_pow
  rw [zpow_neg, zpow_natCast]
  norm_cast at hE hinv ⊢
  linarith

theorem quartersBelow_pos (M : ℕ) (E : ℤ) : (1 : ℚ) ≤ quartersBelow M E := by
  unfold quartersBelow
  split <;> norm_num

theorem whole_bounds (M : ℕ) (E : ℤ) :
    (((Neighbourhood.ofParts M E).value / (Neighbourhood.ofParts M E).denominator : ℕ) : ℚ)
        ≤ M * 2 ^ E * 10 ^ Neighbourhood.scale ∧
      M * 2 ^ E * 10 ^ Neighbourhood.scale
        < (((Neighbourhood.ofParts M E).value / (Neighbourhood.ofParts M E).denominator : ℕ) : ℚ) + 1 := by
  have hpos : 0 < (Neighbourhood.ofParts M E).denominator := Nat.two_pow_pos _
  have hcast : ((Neighbourhood.ofParts M E).denominator : ℚ) = 2 ^ (2 - E).toNat := Nat.cast_pow 2 _
  have hquotient : ((Neighbourhood.ofParts M E).value : ℚ) / (Neighbourhood.ofParts M E).denominator =
      M * 2 ^ E * 10 ^ Neighbourhood.scale := by
    rw [Neighbourhood.ofParts_value, hcast, Neighbourhood.factor]
    field_simp
  rw [← hquotient]
  refine ⟨Nat.cast_div_le, ?_⟩
  rw [div_lt_iff₀ (by exact_mod_cast hpos), mul_comm]
  exact_mod_cast Nat.lt_mul_div_succ (Neighbourhood.ofParts M E).value hpos

/-- Cutting a double off at the last place of the scale stays within the interval. -/
theorem roundsTo_whole (hc : Canonical M E) :
    RoundsTo (Scaled.value ⟨(Neighbourhood.ofParts M E).value / (Neighbourhood.ofParts M E).denominator,
      -Neighbourhood.scale⟩) M E := by
  obtain ⟨hle, hlt⟩ := whole_bounds M E
  have hplace := ten_zpow_le hc
  have hquarters := quartersBelow_pos M E
  have hu := two_zpow_pos E
  have hten : (10 : ℚ) ^ Neighbourhood.scale * 10 ^ (-(Neighbourhood.scale : ℕ) : ℤ) = 1 := by
    rw [zpow_neg, zpow_natCast, mul_inv_cancel₀ (by positivity)]
  have hpos : (0 : ℚ) < 10 ^ (-(Neighbourhood.scale : ℕ) : ℤ) := by positivity
  rw [Scaled.value]
  dsimp only
  generalize (Neighbourhood.ofParts M E).value / (Neighbourhood.ofParts M E).denominator = w at hle hlt ⊢
  generalize (10 : ℚ) ^ (-(Neighbourhood.scale : ℕ) : ℤ) = place at hplace hten hpos ⊢
  have hhigh : (w : ℚ) * place ≤ M * 2 ^ E := by
    have := mul_le_mul_of_nonneg_right hle hpos.le
    rwa [mul_assoc, hten, mul_one] at this
  have hlow : (M : ℚ) * 2 ^ E - place < w * place := by
    have := mul_lt_mul_of_pos_right hlt hpos
    rw [mul_assoc, hten, mul_one, add_mul, one_mul] at this
    linarith
  have hlow : ((M : ℚ) - quartersBelow M E / 4) * 2 ^ E < w * place := by nlinarith
  have hhigh : (w : ℚ) * place < (M + 1 / 2) * 2 ^ E := by nlinarith
  exact ⟨hlow.le, hhigh.le, fun _ => ⟨hlow, hhigh⟩⟩

theorem roundsTo_shortest (hc : Canonical M E) : RoundsTo (shortest M E).value M E := by
  unfold shortest
  rw [Scaled.value_stripZeros]
  cases hfound : (List.range' 1 17).findSome? fun digits => (Neighbourhood.ofParts M E).gridPoint?
      (decimalLength ((Neighbourhood.ofParts M E).value / (Neighbourhood.ofParts M E).denominator) - digits) with
  | none => exact roundsTo_whole hc
  | some d =>
    obtain ⟨digits, -, hd⟩ := List.exists_of_findSome?_eq_some hfound
    exact Neighbourhood.roundsTo_of_gridPoint? hc.pos hd

end StackMachine.Decimal
