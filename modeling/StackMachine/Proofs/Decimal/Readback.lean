import StackMachine.Decimal.Layout
import StackMachine.Evaluation
import StackMachine.Proofs.Decimal.Interval
import StackMachine.Proofs.Decimal.Nearest
import StackMachine.Proofs.Decimal.Packing
import StackMachine.Proofs.Literals

/-! Doubles read back.

Either layout of a decimal is read as a number of the same value, if not always with the same coefficient and power of
ten. The value rounds to the double that the decimal was made for, so the literal of a double is read as that double. -/

namespace StackMachine.Decimal

open Text

/-! ### Digits, point and exponent -/

section Reading

variable {whole fraction rest tail : List Char} {n : ℕ}

theorem isDigit_of_all {digits : List Char} (h : ∀ c ∈ digits, c.isDigit = true) : ∀ c ∈ digits, isDigit c = true :=
  fun c hc => (isDigit_eq c).trans (h c hc)

/-- Digits with a point among them, and what is behind them. -/
theorem magnitude?_point (hwhole : ∀ c ∈ whole, c.isDigit = true) (hne : whole ≠ [])
    (hfraction : ∀ c ∈ fraction, c.isDigit = true) (hrest : ∀ c, rest.head? = some c → isDigit c = false) :
    magnitude? (whole ++ '.' :: (fraction ++ rest)) = (powerOfTen? rest).map fun power =>
      nearest (Nat.ofDigitChars 10 (whole ++ fraction) 0) (power - fraction.length) := by
  have hpoint : ∀ c, ('.' :: (fraction ++ rest)).head? = some c → isDigit c = false := by
    rintro c ⟨⟩
    rfl
  obtain ⟨hw, hw'⟩ := span_append (isDigit_of_all hwhole) hpoint
  obtain ⟨hf, hf'⟩ := span_append (isDigit_of_all hfraction) hrest
  have hempty : whole.isEmpty = false := by simpa using hne
  have hvalue : digitsValue (whole ++ fraction) = Nat.ofDigitChars 10 (whole ++ fraction) 0 :=
    digitsValue_eq fun c hc => (List.mem_append.mp hc).elim (hwhole c) (hfraction c)
  unfold magnitude?
  rw [hw, hw']
  simp only [hf, hf', hempty, hvalue]
  rfl

/-- Digits without a point, and an exponent. -/
theorem magnitude?_exponent (hwhole : ∀ c ∈ whole, c.isDigit = true) (hne : whole ≠ []) :
    magnitude? (whole ++ 'e' :: tail) = (powerOfTen? ('e' :: tail)).map fun power =>
      nearest (Nat.ofDigitChars 10 whole 0) (power - 0) := by
  have hmark : ∀ c, ('e' :: tail).head? = some c → isDigit c = false := by
    rintro c ⟨⟩
    rfl
  obtain ⟨hw, hw'⟩ := span_append (isDigit_of_all hwhole) hmark
  have hempty : whole.isEmpty = false := by simpa using hne
  unfold magnitude?
  rw [hw, hw']
  show (if (whole.isEmpty && true) = true then none else (powerOfTen? ('e' :: tail)).map fun power =>
    nearest (digitsValue (whole ++ [])) (power - 0)) = _
  rw [hempty, List.append_nil, digitsValue_eq hwhole]
  rfl

theorem le_ofDigitChars (digits : List Char) (n : ℕ) : n ≤ Nat.ofDigitChars 10 digits n := by
  rw [Nat.ofDigitChars_eq_ofDigitChars_zero]
  have : 1 ≤ 10 ^ digits.length := Nat.one_le_pow _ _ (by norm_num)
  nlinarith

/-- All digits of an exponent count as long as it stays below the bound. -/
theorem foldl_exponent {digits : List Char} (h : ∀ c ∈ digits, c.isDigit = true)
    (hlt : Nat.ofDigitChars 10 digits n < 65536) :
    digits.foldl (fun n c => if n < 65536 then 10 * n + (digit? c).getD 0 else n) n = Nat.ofDigitChars 10 digits n := by
  induction digits generalizing n with
  | nil => rfl
  | cons c rest ih =>
    have hn : n < 65536 := lt_of_le_of_lt (le_ofDigitChars (c :: rest) n) hlt
    rw [Nat.ofDigitChars_cons] at hlt
    rw [List.foldl_cons, if_pos hn, Nat.ofDigitChars_cons, getD_digit? (h c List.mem_cons_self)]
    exact ih (fun c hc => h c (List.mem_cons_of_mem _ hc)) hlt

theorem exponentValue_repr (h : n < 65536) : exponentValue n.repr.toList = n := by
  have hvalue : Nat.ofDigitChars 10 n.repr.toList 0 = n := by
    rw [Nat.toList_repr, Nat.ofDigitChars_ten_toDigits]
  rw [exponentValue, foldl_exponent (fun _ => isDigit_of_mem_repr) (by rwa [hvalue]), hvalue]

theorem all_isDigit_repr (n : ℕ) : n.repr.toList.isEmpty = false ∧ n.repr.toList.all isDigit = true := by
  refine ⟨by simp, ?_⟩
  rw [List.all_eq_true]
  exact isDigit_of_all fun _ => isDigit_of_mem_repr

theorem powerOfTen?_repr {z : ℤ} (h : z.natAbs < 65536) : powerOfTen? ('e' :: z.repr.toList) = some z := by
  rw [Int.repr_eq_if]
  split
  · rename_i hz
    obtain ⟨hempty, hall⟩ := all_isDigit_repr z.toNat
    have hvalue := exponentValue_repr (n := z.toNat) (by omega)
    have hhead : z.toNat.repr.toList.head? ≠ some '-' := by
      intro h
      obtain ⟨rest, h⟩ := List.head?_eq_some_iff.mp h
      exact repr_ne_cons _ rfl rest h
    rw [powerOfTen?, if_pos (Or.inl rfl)]
    · dsimp only
      rw [hempty, hall, hvalue, if_neg (by decide), if_neg hhead, Int.toNat_of_nonneg hz]
    · exact repr_ne_cons _ rfl
    · exact repr_ne_cons _ rfl
  · rename_i hz
    obtain ⟨hempty, hall⟩ := all_isDigit_repr (-z).toNat
    have hvalue := exponentValue_repr (n := (-z).toNat) (by omega)
    have hcons : ("-" ++ (-z).toNat.repr).toList = '-' :: (-z).toNat.repr.toList := by simp
    rw [hcons, powerOfTen?, if_pos (Or.inl rfl)]
    dsimp only
    rw [hempty, hall, hvalue, if_neg (by decide), List.head?_cons, if_pos rfl, Int.toNat_of_nonneg (by omega),
      Int.neg_neg]

end Reading

/-! ### Layouts -/

section Layouts

variable {d : Scaled}

theorem toList_zeros (n : ℕ) : (zeros n).toList = List.replicate n '0' := by
  rw [zeros, String.pushn_eq_repeat_push]
  induction n with
  | zero => rfl
  | succ n ih => rw [Nat.repeat, String.toList_push, ih, List.replicate_succ']

theorem isDigit_of_mem_replicate {n : ℕ} {c : Char} (h : c ∈ List.replicate n '0') : c.isDigit = true := by
  rw [List.eq_of_mem_replicate h]
  rfl

/-- What is written for a whole number: its digits, zeros up to the point, and a zero behind it. -/
theorem magnitude?_whole (d : Scaled) (h : (-d.exponent).toNat = 0) :
    magnitude? d.positional.toList = some (nearest (d.coefficient * 10 ^ d.exponent.toNat * 10) (-1)) := by
  have htext : d.positional.toList =
      (d.coefficient.repr.toList ++ List.replicate d.exponent.toNat '0') ++ '.' :: (['0'] ++ []) := by
    rw [Scaled.positional]
    dsimp only
    rw [if_pos h, String.toList_append, String.toList_append, toList_zeros]
    rfl
  have hdigits : ∀ c ∈ d.coefficient.repr.toList ++ List.replicate d.exponent.toNat '0', c.isDigit = true :=
    fun c hc => (List.mem_append.mp hc).elim isDigit_of_mem_repr isDigit_of_mem_replicate
  rw [htext, magnitude?_point hdigits (by simp) (by simp) (by rintro c ⟨⟩), powerOfTen?, Option.map_some]
  rw [Nat.ofDigitChars_append, Nat.ofDigitChars_append, Nat.toList_repr, Nat.ofDigitChars_ten_toDigits,
    Nat.ofDigitChars_replicate_zero, mul_comm (10 ^ _), mul_comm _ 10]
  rfl

/-- What is written for other numbers: as many digits behind the point as the power of ten asks for. -/
theorem magnitude?_fraction (d : Scaled) (h : (-d.exponent).toNat ≠ 0) :
    magnitude? d.positional.toList = some (nearest d.coefficient d.exponent) := by
  obtain ⟨k, hk⟩ : ∃ k, (-d.exponent).toNat = k := ⟨_, rfl⟩
  obtain ⟨padded, hpadded⟩ : ∃ padded,
      List.replicate (k + 1 - d.coefficient.repr.length) '0' ++ d.coefficient.repr.toList = padded := ⟨_, rfl⟩
  have hlength : k < padded.length := by
    rw [← hpadded, List.length_append, List.length_replicate, String.length_toList]
    omega
  have hdigits : ∀ c ∈ padded, c.isDigit = true := by
    rw [← hpadded]
    exact fun c hc => (List.mem_append.mp hc).elim isDigit_of_mem_replicate isDigit_of_mem_repr
  have hvalue : Nat.ofDigitChars 10 padded 0 = d.coefficient := by
    rw [← hpadded, Nat.ofDigitChars_append, Nat.ofDigitChars_replicate_zero, mul_zero, Nat.toList_repr,
      Nat.ofDigitChars_ten_toDigits]
  have htext : d.positional.toList =
      padded.take (padded.length - k) ++ '.' :: (padded.drop (padded.length - k) ++ []) := by
    have hzeros : (zeros (k + 1 - d.coefficient.repr.length) ++ d.coefficient.repr).toList = padded := by
      rw [String.toList_append, toList_zeros, hpadded]
    rw [Scaled.positional]
    dsimp only
    rw [hk, if_neg (by omega), Nat.toString_eq_repr, hzeros]
    simp
  have hne : padded.take (padded.length - k) ≠ [] := by
    intro hnil
    have hlen := congrArg List.length hnil
    rw [List.length_take, List.length_nil] at hlen
    omega
  have hbehind : (padded.drop (padded.length - k)).length = k := by
    rw [List.length_drop]
    omega
  rw [htext, magnitude?_point (fun c hc => hdigits c (List.mem_of_mem_take hc)) hne
    (fun c hc => hdigits c (List.mem_of_mem_drop hc)) (by rintro c ⟨⟩), powerOfTen?, Option.map_some,
    List.take_append_drop, hvalue, hbehind]
  have hexponent : 0 - (k : ℤ) = d.exponent := by omega
  rw [hexponent]

theorem magnitude?_positional (d : Scaled) :
    ∃ c e, magnitude? d.positional.toList = some (nearest c e) ∧ (c : ℚ) * 10 ^ e = d.value := by
  by_cases h : (-d.exponent).toNat = 0
  · refine ⟨_, _, magnitude?_whole d h, ?_⟩
    have hexp : d.exponent = (d.exponent.toNat : ℤ) := by omega
    rw [Scaled.value, hexp, Int.toNat_natCast, zpow_natCast, zpow_neg_one]
    push_cast
    field_simp
  · exact ⟨_, _, magnitude?_fraction d h, rfl⟩

/-- One digit, the others behind a point, and the power of ten of the first digit. -/
theorem magnitude?_scientific (h : d.magnitude.natAbs < 65536) :
    magnitude? d.scientific.toList = some (nearest d.coefficient d.exponent) := by
  have hvalue : Nat.ofDigitChars 10 d.coefficient.repr.toList 0 = d.coefficient := by
    rw [Nat.toList_repr, Nat.ofDigitChars_ten_toDigits]
  have hdigits : ∀ c ∈ d.coefficient.repr.toList, c.isDigit = true := fun _ => isDigit_of_mem_repr
  have hmagnitude : d.magnitude = d.exponent + (d.coefficient.repr.toList.length - 1 : ℕ) := by
    rw [String.length_toList]
    rfl
  have hmark : ∀ c, ('e' :: d.magnitude.repr.toList).head? = some c → isDigit c = false := by
    rintro c ⟨⟩
    rfl
  cases hd : d.coefficient.repr.toList with
  | nil => simp at hd
  | cons first others =>
    rw [hd] at hvalue hdigits hmagnitude
    have htext : (toString d.coefficient).toList = first :: others := hd
    rw [Scaled.scientific, String.toList_append, String.toList_append, String.toList_ofList, List.append_assoc, htext]
    cases others with
    | nil =>
      show magnitude? ([first] ++ 'e' :: d.magnitude.repr.toList) = _
      rw [magnitude?_exponent hdigits (by simp), powerOfTen?_repr h, Option.map_some, hvalue, hmagnitude]
      simp
    | cons second rest =>
      show magnitude? ([first] ++ '.' :: ((second :: rest) ++ 'e' :: d.magnitude.repr.toList)) = _
      have hfirst : ∀ c ∈ [first], c.isDigit = true := fun c hc => hdigits c (by simp_all)
      have hrest : ∀ c ∈ second :: rest, c.isDigit = true := fun c hc => hdigits c (List.mem_cons_of_mem _ hc)
      rw [magnitude?_point hfirst (by simp) hrest hmark, powerOfTen?_repr h, Option.map_some, List.singleton_append, hvalue,
        hmagnitude]
      simp

/-- The first digit of a number weighs the power of ten that is called its magnitude. -/
theorem ten_zpow_magnitude (h : 0 < d.coefficient) :
    (10 : ℚ) ^ d.magnitude ≤ d.value ∧ d.value < 10 ^ (d.magnitude + 1) := by
  obtain ⟨n, hn⟩ : ∃ n, d.coefficient.repr.length = n + 1 :=
    ⟨d.coefficient.repr.length - 1, by have := Nat.length_repr_pos (n := d.coefficient); omega⟩
  have hmagnitude : d.magnitude = d.exponent + (n : ℕ) := by
    show d.exponent + ((d.coefficient.repr.length - 1 : ℕ) : ℤ) = _
    rw [hn, Nat.add_sub_cancel]
  have hlow : 10 ^ n ≤ d.coefficient := by
    rcases Nat.eq_zero_or_pos n with rfl | hn'
    · exact h
    · by_contra hlt
      have := (Nat.length_repr_le_iff hn').mpr (not_le.mp hlt)
      omega
  have hhigh : d.coefficient < 10 ^ (n + 1) := (Nat.length_repr_le_iff (by omega)).mp hn.le
  have hlow : (10 : ℚ) ^ n ≤ d.coefficient := by exact_mod_cast hlow
  have hhigh : (d.coefficient : ℚ) < 10 ^ (n + 1) := by exact_mod_cast hhigh
  have hten : (0 : ℚ) < 10 ^ d.exponent := by positivity
  rw [hmagnitude, Scaled.value, add_assoc, zpow_add₀ (by norm_num), zpow_add₀ (by norm_num), ← Nat.cast_succ,
    zpow_natCast, zpow_natCast, mul_comm (10 ^ d.exponent), mul_comm (10 ^ d.exponent)]
  exact ⟨mul_le_mul_of_nonneg_right hlow hten.le, mul_lt_mul_of_pos_right hhigh hten⟩

end Layouts

/-! ### Reading literals -/

variable {x : Float} {M : ℕ} {E : ℤ} {d : Scaled} {text : List Char}

theorem natAbs_magnitude_lt (hr : RoundsTo d.value M E) (hc : Canonical M E) : d.magnitude.natAbs < 65536 := by
  have hpos : 0 < d.coefficient := by
    rcases Nat.eq_zero_or_pos d.coefficient with hzero | hpos
    · have := hr.pos hc
      rw [Scaled.value, hzero] at this
      simp at this
    · exact hpos
  obtain ⟨hlow, hhigh⟩ := ten_zpow_magnitude hpos
  have hle : d.magnitude ≤ 2 ^ 11 := by
    refine exponent_le (c := 1) ?_ (by norm_num)
    rw [Nat.cast_one, one_mul]
    exact hlow.trans_lt (hr.lt_top hc)
  have hge : -((2 ^ 11 : ℤ) + (1 : ℕ).log2) ≤ d.magnitude + 1 := by
    refine le_exponent ?_
    rw [Nat.cast_one, one_mul]
    exact (hr.bottom_le hc).trans hhigh.le
  rw [show (1 : ℕ).log2 = 0 by decide] at hge
  omega

theorem magnitude?_literal (hr : RoundsTo d.value M E) (hc : Canonical M E) :
    magnitude? d.literal.toList = some (pack (.finite .positive M E hc.pos)) := by
  by_cases hplain : -4 ≤ d.magnitude ∧ d.magnitude < 16
  · obtain ⟨c, e, hread, hvalue⟩ := magnitude?_positional d
    rw [Scaled.literal, if_pos hplain, hread, nearest_eq (hvalue ▸ hr) hc, pack]
  · rw [Scaled.literal, if_neg hplain, magnitude?_scientific (natAbs_magnitude_lt hr hc), nearest_eq hr hc, pack]

/-- A sign is no part of a magnitude. -/
theorem read?_of_magnitude? (h : magnitude? text = some x) : read? text = some x ∧ read? ('-' :: text) = some (-x) := by
  constructor
  · unfold read?
    split
    · cases h
    · cases h
    · rw [h]
      rfl
  · rw [read?, h]
    rfl

/-- The literal of a double is read as that double. -/
theorem read?_literal (x : Float) : read? (literal x).toList = some x := by
  unfold literal render
  cases hx : Binary64.ofFloat x with
  | nan =>
    rw [ofFloat_nan hx]
    decide
  | infinite negative =>
    rw [ofFloat_infinite hx]
    cases negative <;> decide
  | finite negative M E =>
    rcases Nat.eq_zero_or_pos M with rfl | hM
    · rw [ofFloat_zero hx]
      show read? (signText negative ++ "0.0").toList = _
      cases negative <;> decide
    · obtain ⟨hc, rfl⟩ := ofFloat_finite hx hM
      obtain ⟨hread, hminus⟩ := read?_of_magnitude? (magnitude?_literal (roundsTo_shortest hc) hc)
      dsimp only
      rw [if_neg hM.ne']
      cases negative with
      | false => exact hread
      | true =>
        rw [neg_pack_finite hc] at hminus
        rw [String.toList_append]
        exact hminus

end StackMachine.Decimal

namespace StackMachine.Value

theorem ofLiteral?_float (x : Float) : ofLiteral? .float (Decimal.literal x) = some (.float x) := by
  rw [ofLiteral?, Decimal.read?_literal, Option.map_some]

/-- The literal of a value stands for it. -/
theorem ofLiteral?_literal (v : Value) : ofLiteral? v.kind v.literal = some v := by
  cases v with
  | int n => exact ofLiteral?_int n
  | float x => exact ofLiteral?_float x
  | string s => exact ofLiteral?_string s
  | bool b => exact ofLiteral?_bool b

/-- The literal that a declaration stores is the one of the value that a variable of the type starts with. -/
theorem default?_of_literal {ty : Ty} {kind : Kind} {literal : String} (hk : Kind.ofTy? ty = some kind)
    (hl : ty.defaultLiteral? = some literal) : ∃ v, default? ty = some v ∧ v.kind = kind ∧ v.literal = literal := by
  cases ty <;> cases hk <;> cases hl <;> exact ⟨_, rfl, rfl, by decide⟩

end StackMachine.Value
