import StackMachine.Proofs.Decimal.Rounding

/-! Doubles and their parts.

The parts that a double is taken apart into determine it, and a positive one is in canonical form. -/

namespace StackMachine.Decimal

open Float.Model Float.Model.UnpackedFloat

variable {x : Float} {M : ℕ} {E : ℤ}

def signOf (negative : Bool) : Sign :=
  if negative then .negative else .positive

/-- The double with the given parts. -/
def pack (u : UnpackedFloat) : Float :=
  Float.ofModel (.pack u)

theorem toNat_packComponents (s : Sign) (e : BitVec 11) (m : BitVec 52) :
    (packComponents .binary64 s e m).toNat = s.toBitVec.toNat * 2 ^ 63 + e.toNat * 2 ^ 52 + m.toNat := by
  have he := e.isLt
  have hm := m.isLt
  show ((s.toBitVec ++ e) ++ m).toNat = _
  rw [BitVec.toNat_append, BitVec.toNat_append, ← Nat.shiftLeft_add_eq_or_of_lt hm, ← Nat.shiftLeft_add_eq_or_of_lt he,
    Nat.shiftLeft_eq, Nat.shiftLeft_eq]
  ring

/-- The three fields of a double: its sign, the biased exponent and the fraction. -/
theorem fields (x : Float) : ∃ (negative : Bool) (biased fraction : ℕ), biased < 2 ^ 11 ∧ fraction < 2 ^ 52 ∧
    x.toBits.toBitVec =
      packComponents .binary64 (signOf negative) (BitVec.ofNat 11 biased) (BitVec.ofNat 52 fraction) ∧
    Binary64.ofFloat x =
      if biased = 2 ^ 11 - 1 then
        if fraction = 0 then .infinite negative else .nan
      else if biased = 0 then .finite negative fraction leastExponent
      else .finite negative (2 ^ 52 + fraction) (leastExponent + (biased - 1 : ℕ)) := by
  refine ⟨decide (2 ^ 63 ≤ x.toBits.toNat), x.toBits.toNat / 2 ^ 52 % 2 ^ 11, x.toBits.toNat % 2 ^ 52,
    Nat.mod_lt _ (by norm_num), Nat.mod_lt _ (by norm_num), ?_, rfl⟩
  refine BitVec.eq_of_toNat_eq ?_
  rw [toNat_packComponents, BitVec.toNat_ofNat, BitVec.toNat_ofNat, UInt64.toNat_toBitVec]
  have hlt := x.toBits.toNat_lt
  generalize x.toBits.toNat = bits at hlt ⊢
  have hsign : (signOf (decide (2 ^ 63 ≤ bits))).toBitVec.toNat = bits / 2 ^ 63 := by
    by_cases h : 2 ^ 63 ≤ bits
    · rw [decide_eq_true h]
      show 1 = _
      omega
    · rw [decide_eq_false h]
      show 0 = _
      omega
  rw [hsign]
  omega

theorem eq_pack_of_toBitVec {u : UnpackedFloat} (h : x.toBits.toBitVec = UnpackedFloat.pack .binary64 u) : x = pack u := by
  obtain ⟨⟨bits, valid⟩⟩ := x
  have h : bits.toBitVec = UnpackedFloat.pack .binary64 u := h
  have hbits : bits = UInt64.ofBitVec (UnpackedFloat.pack .binary64 u) := by
    rw [← h]
  subst hbits
  rfl

/-! ### Packing -/

/-- A canonical double is stored with its implicit bit told by the exponent field. -/
theorem pack_finite (hc : Canonical M E) (s : Sign) :
    UnpackedFloat.pack .binary64 (.finite s M E hc.pos) =
      packComponents .binary64 s (BitVec.ofNat 11 (if 2 ^ 52 ≤ M then (E + 1075).toNat else 0)) (BitVec.ofNat 52 M) := by
  have hmost := hc.most
  have hfits : ¬ 2 ^ 11 ≤ (E + 1023 + 52).toNat + 1 := by omega
  have hlog : M.log2 + 1 = 53 ↔ 2 ^ 52 ≤ M := by
    have hlt : M.log2 < 53 := (Nat.log2_lt hc.pos.ne').mpr hc.lt
    rw [← Nat.le_log2 hc.pos.ne']
    omega
  show (if 2 ^ 11 ≤ (E + 1023 + 52).toNat + 1 then _ else if M.log2 + 1 = 53 then _ else _) = _
  rw [if_neg hfits]
  by_cases hM : 2 ^ 52 ≤ M
  · rw [if_pos (hlog.mpr hM), if_pos hM, add_assoc]
    rfl
  · rw [if_neg (mt hlog.mp hM), if_neg hM]

variable {negative : Bool}

theorem ofFloat_finite (h : Binary64.ofFloat x = .finite negative M E) (hM : 0 < M) :
    ∃ hc : Canonical M E, x = pack (.finite (signOf negative) M E hc.pos) := by
  obtain ⟨negative, biased, fraction, hbiased, hfraction, hbits, hparts⟩ := fields x
  rw [hparts, leastExponent] at h
  split at h
  · split at h <;> cases h
  · rename_i hbiased'
    split at h
    · rename_i hzero
      cases h
      have hc : Canonical M (-1074) := ⟨hM, by omega, by omega, by omega, Or.inr rfl⟩
      refine ⟨hc, eq_pack_of_toBitVec ?_⟩
      rw [pack_finite hc, if_neg (by omega), hbits, hzero]
    · rename_i hnonzero
      cases h
      have hc : Canonical (2 ^ 52 + fraction) (-1074 + (biased - 1 : ℕ)) :=
        ⟨by omega, by omega, by omega, by omega, Or.inl (by omega)⟩
      have hexp : (-1074 + ((biased - 1 : ℕ) : ℤ) + 1075).toNat = biased := by omega
      have himplicit : BitVec.ofNat 52 (2 ^ 52 + fraction) = BitVec.ofNat 52 fraction := by
        refine BitVec.eq_of_toNat_eq ?_
        rw [BitVec.toNat_ofNat, BitVec.toNat_ofNat]
        omega
      refine ⟨hc, eq_pack_of_toBitVec ?_⟩
      rw [pack_finite hc, if_pos (by omega), hbits, hexp, himplicit]

theorem ofFloat_zero (h : Binary64.ofFloat x = .finite negative 0 E) : x = pack (.zero (signOf negative)) := by
  obtain ⟨negative, biased, fraction, hbiased, hfraction, hbits, hparts⟩ := fields x
  rw [hparts] at h
  split at h
  · split at h <;> cases h
  · split at h
    · rename_i hzero
      cases h
      refine eq_pack_of_toBitVec ?_
      rw [hbits, hzero]
      rfl
    · injection h
      omega

theorem ofFloat_infinite (h : Binary64.ofFloat x = .infinite negative) : x = pack (.infinity (signOf negative)) := by
  obtain ⟨negative, biased, fraction, hbiased, hfraction, hbits, hparts⟩ := fields x
  rw [hparts] at h
  split at h
  · rename_i hbiased'
    split at h
    · rename_i hzero
      cases h
      refine eq_pack_of_toBitVec ?_
      rw [hbits, hzero, hbiased']
      rfl
    · cases h
  · split at h <;> cases h

/-- There is one NaN. -/
theorem ofFloat_nan (h : Binary64.ofFloat x = .nan) : x = pack .notANumber := by
  obtain ⟨negative, biased, fraction, hbiased, hfraction, hbits, hparts⟩ := fields x
  rw [hparts] at h
  split at h
  · rename_i hbiased'
    split at h
    · cases h
    · rename_i hnonzero
      refine eq_pack_of_toBitVec (x.toModel.valid.eq_packedNaN ?_ ?_)
      · show @unpackExponent .binary64 x.toBits.toBitVec = _
        rw [hbits, unpackExponent_packComponents, hbiased']
        rfl
      · show @unpackMantissa .binary64 x.toBits.toBitVec ≠ _
        rw [hbits, unpackMantissa_packComponents]
        intro heq
        have heq := congrArg BitVec.toNat heq
        rw [BitVec.toNat_ofNat, Nat.mod_eq_of_lt hfraction] at heq
        exact hnonzero heq
  · split at h <;> cases h

/-! ### Negation -/

theorem unpackSign_packComponents (s : Sign) (e : BitVec 11) (m : BitVec 52) :
    unpackSign (packComponents .binary64 s e m) = s.toBitVec := by
  have hs := s.toBitVec.isLt
  have he := e.isLt
  have hm := m.isLt
  refine BitVec.eq_of_toNat_eq ?_
  show (BitVec.extractLsb 63 63 (packComponents .binary64 s e m)).toNat = _
  rw [BitVec.extractLsb_toNat, toNat_packComponents, Nat.shiftRight_eq_div_pow]
  norm_num
  omega

theorem ofBitVec_toBitVec (s : Sign) : Sign.ofBitVec s.toBitVec = s := by
  cases s <;> rfl

theorem finite_congr {s s' : Sign} {M' : ℕ} {E' : ℤ} {hM : 0 < M} {hM' : 0 < M'} (hs : s = s') (hmantissa : M = M')
    (hexponent : E = E') : UnpackedFloat.finite s M E hM = .finite s' M' E' hM' := by
  subst hs hmantissa hexponent
  rfl

section

variable {s : Sign} {e : BitVec 11} {m : BitVec 52}

/-- An exponent field that is neither all ones nor zero stands for an implicit bit as well. -/
theorem unpack_normal (he : e ≠ -1#11) (he' : e ≠ 0#11) (hmantissa : (1#1 ++ m).toNat = M)
    (hexponent : (e.toNat : ℤ) - 1075 = E) (hM : 0 < M) :
    UnpackedFloat.unpack .binary64 (packComponents .binary64 s e m) = .finite s M E hM := by
  unfold UnpackedFloat.unpack
  dsimp only
  rw [if_neg (by rwa [unpackExponent_packComponents]), if_neg (by rwa [unpackExponent_packComponents])]
  refine finite_congr ?_ ?_ ?_
  · rw [unpackSign_packComponents, ofBitVec_toBitVec]
  · rw [unpackMantissa_packComponents, hmantissa]
  · rw [unpackExponent_packComponents, ← hexponent]
    rfl

/-- With the exponent field zero there is no implicit bit. -/
theorem unpack_subnormal (hm : m ≠ 0#52) (hM : 0 < m.toNat) :
    UnpackedFloat.unpack .binary64 (packComponents .binary64 s 0#11 m) = .finite s m.toNat (-1074) hM := by
  unfold UnpackedFloat.unpack
  dsimp only
  rw [if_neg (by rw [unpackExponent_packComponents]; decide), if_pos (unpackExponent_packComponents ..),
    dif_neg (by rwa [unpackMantissa_packComponents])]
  refine finite_congr ?_ ?_ ?_
  · rw [unpackSign_packComponents, ofBitVec_toBitVec]
  · rw [unpackMantissa_packComponents]
  · rw [unpackExponent_packComponents]
    rfl

end

theorem unpack_pack_finite (hc : Canonical M E) (s : Sign) :
    UnpackedFloat.unpack .binary64 (UnpackedFloat.pack .binary64 (.finite s M E hc.pos)) = .finite s M E hc.pos := by
  have hleast := hc.least
  have hmost := hc.most
  have hlt := hc.lt
  rw [pack_finite hc]
  by_cases hM : 2 ^ 52 ≤ M
  · rw [if_pos hM]
    have htoNat : (BitVec.ofNat 11 (E + 1075).toNat).toNat = (E + 1075).toNat := by
      rw [BitVec.toNat_ofNat, Nat.mod_eq_of_lt (by omega)]
    refine unpack_normal ?_ ?_ ?_ ?_ hc.pos
    · intro heq
      have heq : (E + 1075).toNat = 2047 := htoNat.symm.trans (congrArg BitVec.toNat heq)
      omega
    · intro heq
      have heq : (E + 1075).toNat = 0 := htoNat.symm.trans (congrArg BitVec.toNat heq)
      omega
    · rw [BitVec.toNat_append, ← Nat.shiftLeft_add_eq_or_of_lt (BitVec.ofNat 52 M).isLt, BitVec.toNat_ofNat,
        BitVec.toNat_ofNat, Nat.shiftLeft_eq]
      omega
    · rw [htoNat]
      omega
  · rw [if_neg hM]
    obtain rfl : E = -1074 := hc.normal.resolve_left hM
    have hmantissa : (BitVec.ofNat 52 M).toNat = M := by
      rw [BitVec.toNat_ofNat, Nat.mod_eq_of_lt (by omega)]
    have hne : BitVec.ofNat 52 M ≠ 0#52 := by
      intro heq
      exact hc.pos.ne' (hmantissa.symm.trans (congrArg BitVec.toNat heq))
    rw [unpack_subnormal hne (hmantissa.symm ▸ hc.pos)]
    exact finite_congr rfl hmantissa rfl

theorem neg_pack_finite (hc : Canonical M E) :
    -pack (.finite .positive M E hc.pos) = pack (.finite .negative M E hc.pos) := by
  show Float.ofModel (.pack (UnpackedFloat.unpack .binary64 (UnpackedFloat.pack .binary64 _)).neg) = _
  rw [unpack_pack_finite hc]
  rfl

end StackMachine.Decimal
