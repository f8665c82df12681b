import Mathlib.Algebra.Order.Field.Power
import Mathlib.Algebra.Order.Field.Rat
import Mathlib.Tactic.FieldSimp
import Mathlib.Tactic.Linarith
import Mathlib.Tactic.NormNum
import Mathlib.Tactic.Positivity
import Mathlib.Tactic.Ring
import StackMachine.Decimal.Binary64

/-! Rounding to a double.

Arithmetic on doubles keeps a mantissa with two bits that tell where the exact result lies above it
(`Accuracy.Places`), and rounds from these. A number between the halfway points around a double (`RoundsTo`) is rounded
to that double. -/

namespace StackMachine.Decimal

open Float.Model Float.Model.UnpackedFloat

/-- Where `x` lies in the unit interval that starts at `m`. -/
def Places (accuracy : Accuracy) (m : ℕ) (x : ℚ) : Prop :=
  match accuracy with
  | .exact => x = m
  | .inexact .lt => (m : ℚ) < x ∧ x < m + 1 / 2
  | .inexact .eq => x = m + 1 / 2
  | .inexact .gt => (m : ℚ) + 1 / 2 < x ∧ x < m + 1

variable {accuracy : Accuracy} {em : ExtendedMantissa} {m n M : ℕ} {e E : ℤ} {x q : ℚ}

theorem Places.floor (h : Places accuracy m x) : (m : ℚ) ≤ x ∧ x < m + 1 := by
  rcases accuracy with _ | (_ | _ | _)
  all_goals
    simp only [Places] at h
    constructor <;> linarith

/-- A number within half a unit of `M` is rounded to it, and so is one halfway when `M` is even. -/
theorem Places.round (h : Places accuracy m x) (hlow : (M : ℚ) - 1 / 2 ≤ x) (hhigh : x ≤ M + 1 / 2)
    (hodd : M % 2 = 1 → (M : ℚ) - 1 / 2 < x ∧ x < M + 1 / 2) : accuracy.roundToNearestEven m = M := by
  obtain ⟨hfloor, hceil⟩ := h.floor
  have hle : (m : ℚ) < M + 1 := by linarith
  have hge : (M : ℚ) < m + 2 := by linarith
  norm_cast at hle hge
  obtain rfl | rfl : m = M ∨ M = m + 1 := by omega
  · rcases accuracy with _ | (_ | _ | _) <;> simp only [Places] at h <;> simp only [Accuracy.roundToNearestEven]
    · -- Halfway above `m`, which is therefore even.
      rcases Nat.mod_two_eq_zero_or_one m with hm | hm
      · omega
      · linarith [(hodd hm).2]
    · linarith
  · push_cast at hlow hodd
    rcases accuracy with _ | (_ | _ | _) <;> simp only [Places] at h <;> simp only [Accuracy.roundToNearestEven]
    · linarith
    · linarith
    · rcases Nat.mod_two_eq_zero_or_one m with hm | hm
      · linarith [(hodd (by omega)).1]
      · omega

theorem Places.shiftRightOne (h : Places em.accuracy em.mantissa x) :
    Places em.shiftRightOne.accuracy em.shiftRightOne.mantissa (x / 2) := by
  obtain ⟨m, round, sticky⟩ := em
  have hm : (m : ℚ) = 2 * (m / 2 : ℕ) + (m % 2 : ℕ) := by
    exact_mod_cast (Nat.div_add_mod m 2).symm
  rcases Nat.mod_two_eq_zero_or_one m with hbit | hbit <;> rw [hbit] at hm <;> cases round <;> cases sticky
  all_goals
    simp only [Places, ExtendedMantissa.accuracy] at h
    simp [Places, ExtendedMantissa.accuracy, ExtendedMantissa.shiftRightOne, hbit]
    first
      | linarith
      | exact ⟨by linarith, by linarith⟩

theorem Places.shiftRight (h : Places em.accuracy em.mantissa x) (n : ℕ) :
    Places (em >>> n).accuracy (em >>> n).mantissa (x / 2 ^ n) := by
  induction n with
  | zero =>
    rw [pow_zero, div_one]
    exact h
  | succ n ih =>
    have hstep := ih.shiftRightOne
    rw [div_div, ← pow_succ] at hstep
    exact hstep

theorem accuracy_ofMantissaAndAccuracy (m : ℕ) (accuracy : Accuracy) :
    (ExtendedMantissa.ofMantissaAndAccuracy m accuracy).accuracy = accuracy ∧
      (ExtendedMantissa.ofMantissaAndAccuracy m accuracy).mantissa = m := by
  rcases accuracy with _ | (_ | _ | _) <;> exact ⟨rfl, rfl⟩

/-! ### The numbers that round to a double -/

/-- The one way in which a positive double is written with a mantissa and an exponent. -/
structure Canonical (M : ℕ) (E : ℤ) : Prop where
  pos : 0 < M
  lt : M < 2 ^ 53
  least : -1074 ≤ E
  most : E ≤ 971
  normal : 2 ^ 52 ≤ M ∨ E = -1074

/-- The gap below a double in quarters of the gap above it, up to the halfway point: the double below a power of two is
nearer. -/
def quartersBelow (M : ℕ) (E : ℤ) : ℕ :=
  if M = 2 ^ 52 ∧ leastExponent < E then 1 else 2

/-- `q` lies between the halfway points around `M · 2 ^ E`, and on one of them only if `M` is even. -/
structure RoundsTo (q : ℚ) (M : ℕ) (E : ℤ) : Prop where
  low : ((M : ℚ) - quartersBelow M E / 4) * 2 ^ E ≤ q
  high : q ≤ ((M : ℚ) + 1 / 2) * 2 ^ E
  odd : M % 2 = 1 → ((M : ℚ) - quartersBelow M E / 4) * 2 ^ E < q ∧ q < ((M : ℚ) + 1 / 2) * 2 ^ E

theorem two_zpow_pos (e : ℤ) : (0 : ℚ) < 2 ^ e :=
  zpow_pos (by norm_num) e

theorem two_zpow_lt_iff {a b : ℤ} : (2 : ℚ) ^ a < 2 ^ b ↔ a < b :=
  zpow_lt_zpow_iff_right₀ (by norm_num)

theorem two_zpow_add (e : ℤ) (n : ℕ) : (2 : ℚ) ^ (e + n) = 2 ^ n * 2 ^ e := by
  rw [zpow_add₀ (by norm_num), zpow_natCast, mul_comm]

theorem quartersBelow_le (M : ℕ) (E : ℤ) : (quartersBelow M E : ℚ) ≤ 2 := by
  unfold quartersBelow
  split <;> norm_num

theorem RoundsTo.half (h : RoundsTo q M E) : ((M : ℚ) - 1 / 2) * 2 ^ E ≤ q := by
  have hg := quartersBelow_le M E
  nlinarith [h.low, two_zpow_pos E]

/-- In units of the double's last bit: the number is at most half a unit away, and less for an odd mantissa. -/
theorem RoundsTo.near (h : RoundsTo q M E) :
    (M : ℚ) - 1 / 2 ≤ q / 2 ^ E ∧ q / 2 ^ E ≤ M + 1 / 2 ∧
      (M % 2 = 1 → (M : ℚ) - 1 / 2 < q / 2 ^ E ∧ q / 2 ^ E < M + 1 / 2) := by
  have hu := two_zpow_pos E
  refine ⟨by rw [le_div_iff₀ hu]; exact h.half, by rw [div_le_iff₀ hu]; exact h.high, fun hM => ?_⟩
  obtain ⟨hlow, hhigh⟩ := h.odd hM
  refine ⟨?_, by rw [div_lt_iff₀ hu]; exact hhigh⟩
  rw [lt_div_iff₀ hu]
  nlinarith [quartersBelow_le M E]

theorem RoundsTo.pos (h : RoundsTo q M E) (hc : Canonical M E) : 0 < q := by
  have hM : (1 : ℚ) ≤ M := by exact_mod_cast hc.pos
  nlinarith [h.half, two_zpow_pos E]

/-- The exponent that a number is first brought to is its double's, or one less when it lies below a power of two to
which it is rounded up. -/
theorem RoundsTo.exponent {t : ℤ} (h : RoundsTo q M E) (hc : Canonical M E) (hlow : (2 : ℚ) ^ (t - 1) ≤ q)
    (hhigh : q < 2 ^ t) :
    max (t - 53) (-1074) = E ∨
      (max (t - 53) (-1074) = E - 1 ∧ M = 2 ^ 52 ∧ q < 2 ^ 52 * 2 ^ E) := by
  have hu := two_zpow_pos E
  have hM : (M : ℚ) + 1 ≤ 2 ^ 53 := by exact_mod_cast hc.lt
  have htop : t - 1 < E + (53 : ℕ) := by
    rw [← two_zpow_lt_iff, two_zpow_add]
    nlinarith [h.high]
  have hleast := hc.least
  by_cases hE : E = -1074
  · left
    omega
  have hM : 2 ^ 52 ≤ M := hc.normal.resolve_right hE
  by_cases hq : (2 : ℚ) ^ 52 * 2 ^ E ≤ q
  · left
    have hbottom : E + (52 : ℕ) < t := by
      rw [← two_zpow_lt_iff, two_zpow_add]
      linarith
    omega
  · right
    rw [not_le] at hq
    have hMeq : M = 2 ^ 52 := by
      by_contra hne
      have hM' : (2 : ℚ) ^ 52 + 1 ≤ M := by exact_mod_cast lt_of_le_of_ne hM (Ne.symm hne)
      nlinarith [h.half]
    have hbottom : E + (51 : ℕ) < t := by
      rw [← two_zpow_lt_iff, two_zpow_add]
      have hM' : (2 : ℚ) ^ 52 ≤ M := by exact_mod_cast hM
      nlinarith [h.half]
    have htop : t - 1 < E + (52 : ℕ) := by
      rw [← two_zpow_lt_iff, two_zpow_add]
      linarith
    exact ⟨by omega, hMeq, hq⟩

/-! ### Rounding from a mantissa and its accuracy -/

theorem log2_of_canonical (hc : Canonical M E) : max ((M.log2 : ℤ) + 1 + E - 53) (-1074) = E := by
  have hlt : M.log2 < 53 := (Nat.log2_lt hc.pos.ne').mpr hc.lt
  have hleast := hc.least
  rcases hc.normal with hM | hE
  · have hge : 52 ≤ M.log2 := (Nat.le_log2 hc.pos.ne').mpr hM
    omega
  · omega

theorem targetExponent_eq (t : ℤ) : Format.binary64.targetExponent t = max (t - 53) (-1074) := rfl

theorem Places.shiftToExponent {T : ℤ} (h : Places accuracy m x) (hq : q = x * 2 ^ e) (he : e ≤ T) :
    ∃ em, shiftToExponent m e accuracy T = (em, T) ∧ Places em.accuracy em.mantissa (q / 2 ^ T) := by
  have hT : T = e + ((T - e).toNat : ℤ) := by omega
  refine ⟨_, Prod.ext rfl hT.symm, ?_⟩
  obtain ⟨ha, hm⟩ := accuracy_ofMantissaAndAccuracy m accuracy
  have hshift : x / 2 ^ (T - e).toNat = q / 2 ^ T := by
    have hu := (two_zpow_pos e).ne'
    conv_rhs => rw [hT, two_zpow_add, hq]
    field_simp
  rw [← hshift]
  refine Places.shiftRight ?_ _
  rwa [ha, hm]

/-- The two shifts of rounding, each by its result. -/
theorem roundWithAccuracy_of_shifts {spec : Format} {T : ℤ} (sign : Sign) (pos : 0 < M)
    (first : shiftToTargetExponent spec m e accuracy = (em, T))
    (second : shiftToTargetExponent spec em.roundedMantissa T .exact = (⟨M, false, false⟩, E)) :
    roundWithAccuracy spec sign m e accuracy = .finite sign M E pos := by
  unfold roundWithAccuracy
  rw [first]
  dsimp only
  rw [second]
  exact dif_neg pos.ne'

/-- A mantissa that is in place already is not shifted again. -/
theorem shiftToTargetExponent_canonical (hc : Canonical M E) :
    shiftToTargetExponent .binary64 M E .exact = (⟨M, false, false⟩, E) := by
  have hT : Format.binary64.targetExponent (totalExponent M E) = E := log2_of_canonical hc
  rw [shiftToTargetExponent, hT, UnpackedFloat.shiftToExponent, sub_self]
  simp [ExtendedMantissa.ofMantissaAndAccuracy]
  rfl

/-- A mantissa that rounding has brought up to `2 ^ 53` is shifted once more. -/
theorem shiftToTargetExponent_carry (hE : -1074 < E) :
    shiftToTargetExponent .binary64 (2 ^ 53) (E - 1) .exact = (⟨2 ^ 52, false, false⟩, E) := by
  have hlog : (2 ^ 53).log2 = 53 := Nat.log2_two_pow
  have hT : Format.binary64.targetExponent (totalExponent (2 ^ 53) (E - 1)) = E := by
    rw [targetExponent_eq, totalExponent, hlog]
    omega
  rw [shiftToTargetExponent, hT, UnpackedFloat.shiftToExponent, sub_sub_cancel]
  simp only [Int.toNat_one, ExtendedMantissa.ofMantissaAndAccuracy, Nat.cast_one, sub_add_cancel]
  rfl

/-- What the first shift leads to: the exponent of the double, or the one below a power of two. -/
theorem RoundsTo.exponent_of_places (h : RoundsTo q M E) (hc : Canonical M E) (hp : Places accuracy m x)
    (hq : q = x * 2 ^ e) (he : e ≤ -1074 ∨ 2 ^ 52 ≤ m) :
    max ((m.log2 : ℤ) + 1 + e - 53) (-1074) = E ∨
      (max ((m.log2 : ℤ) + 1 + e - 53) (-1074) = E - 1 ∧ M = 2 ^ 52 ∧ q < 2 ^ 52 * 2 ^ E) := by
  obtain ⟨hfloor, hceil⟩ := hp.floor
  have hu := two_zpow_pos e
  rcases Nat.eq_zero_or_pos m with rfl | hm
  · -- Less than the least double: only the least one can be meant.
    have he : e ≤ -1074 := he.resolve_right (by norm_num)
    have hsmall : q < 2 ^ e := by
      rw [hq]
      push_cast at hceil
      nlinarith
    have hE : E = -1074 := by
      by_contra hne
      have hM : (2 : ℚ) ^ 52 ≤ M := by exact_mod_cast hc.normal.resolve_right hne
      have hlt : (2 : ℚ) ^ e < 2 ^ E := two_zpow_lt_iff.mpr (by have := hc.least; omega)
      nlinarith [h.half]
    left
    rw [hE, Nat.log2_zero]
    omega
  · refine h.exponent hc ?_ ?_
    · have hlow : ((2 : ℚ) ^ m.log2) ≤ m := by exact_mod_cast Nat.log2_self_le hm.ne'
      rw [add_sub_right_comm, add_sub_cancel_right, add_comm, two_zpow_add, hq]
      nlinarith
    · have hhigh : (m : ℚ) + 1 ≤ 2 ^ (m.log2 + 1) := by exact_mod_cast Nat.lt_log2_self
      have hcast : (m.log2 : ℤ) + 1 + e = e + ((m.log2 + 1 : ℕ) : ℤ) := by
        push_cast
        ring
      rw [hcast, two_zpow_add, hq]
      nlinarith

/-- Rounding gives the double that a number rounds to. The mantissa must have enough bits, unless the exponent is at
the bottom of the range. -/
theorem roundWithAccuracy_eq (hr : RoundsTo q M E) (hc : Canonical M E) (hp : Places accuracy m x) (hq : q = x * 2 ^ e)
    (he : e ≤ -1074 ∨ 2 ^ 52 ≤ m) (sign : Sign) :
    roundWithAccuracy .binary64 sign m e accuracy = .finite sign M E hc.pos := by
  have heT : e ≤ max ((m.log2 : ℤ) + 1 + e - 53) (-1074) := by
    rcases he with he | hm
    · omega
    · have hlog : 52 ≤ m.log2 := (Nat.le_log2 (by omega)).mpr hm
      omega
  obtain ⟨em, hshift, hplaces⟩ := hp.shiftToExponent hq heT
  have hfirst : shiftToTargetExponent .binary64 m e accuracy =
      (em, max ((m.log2 : ℤ) + 1 + e - 53) (-1074)) := hshift
  rcases hr.exponent_of_places hc hp hq he with hT | ⟨hT, rfl, hbelow⟩
  · rw [hT] at hplaces hfirst
    obtain ⟨hlow, hhigh, hodd⟩ := hr.near
    have hround : em.roundedMantissa = M := hplaces.round hlow hhigh hodd
    refine roundWithAccuracy_of_shifts sign hc.pos hfirst ?_
    rw [hround]
    exact shiftToTargetExponent_canonical hc
  · -- The number is above the last double below `2 ^ (E + 52)` by at least half a unit of that double.
    rw [hT] at hplaces hfirst
    have hE : -1074 < E := by
      have := hc.least
      omega
    have hquarter : ((2 : ℚ) ^ 52 - 1 / 4) * 2 ^ E ≤ q := by
      have hlow := hr.low
      rw [quartersBelow, if_pos ⟨rfl, hE⟩] at hlow
      push_cast at hlow
      exact hlow
    have hu := two_zpow_pos E
    have hunit : q / 2 ^ (E - 1) = 2 * (q / 2 ^ E) := by
      rw [zpow_sub_one₀ (by norm_num)]
      field_simp
    have hround : em.roundedMantissa = 2 ^ 53 := by
      rw [hunit] at hplaces
      refine hplaces.round ?_ ?_ fun h => by cases h
      · push_cast
        rw [mul_div_assoc', le_div_iff₀ hu]
        linarith
      · push_cast
        rw [mul_div_assoc', div_le_iff₀ hu]
        linarith
    refine roundWithAccuracy_of_shifts sign hc.pos hfirst ?_
    rw [hround]
    exact shiftToTargetExponent_carry hE

end StackMachine.Decimal
