import ArrayTrace.Precision
import Mathlib

/-!
# Widening is exact

A finite binary32 number is one of binary64, whose longer mantissa ends with zeros. Rounding
it back drops exactly these, so that narrowing undoes widening.
-/

namespace ArrayTrace

open Float.Model Float.Model.UnpackedFloat

/-! ## Packing -/

theorem toNat_one_append {w : Nat} (v : BitVec w) : (1#1 ++ v).toNat = 2 ^ w + v.toNat := by
  have hor : 2 ^ w + v.toNat = 2 ^ w ||| v.toNat := by
    simpa using Nat.two_pow_add_eq_or_of_lt v.isLt 1
  rw [BitVec.toNat_append, hor]
  exact congrArg (· ||| v.toNat) (Nat.one_shiftLeft w)

section
variable {spec : Format} {s : Sign} {e : BitVec spec.exponentBits}
  {m : BitVec spec.mantissaBitsWithoutImplicit}

/-- A number with a mantissa of full length and an exponent in range is packed without loss. -/
theorem pack_normal {M : Nat} {E : Int} {hM : 0 < M}
    (hm : 2 ^ spec.mantissaBitsWithoutImplicit ≤ M)
    (hm' : M < 2 ^ (spec.mantissaBitsWithoutImplicit + 1))
    (hE : (E + spec.exponentBias + spec.mantissaBitsWithoutImplicit).toNat + 1 <
      2 ^ spec.exponentBits) :
    UnpackedFloat.pack spec (.finite s M E hM) =
      packComponents spec s
        (BitVec.ofNat _ (E + spec.exponentBias + spec.mantissaBitsWithoutImplicit).toNat)
        (BitVec.ofNat _ M) := by
  have hlog := (Nat.log2_eq_iff (Nat.pos_iff_ne_zero.1 hM)).2 ⟨hm, hm'⟩
  rw [UnpackedFloat.pack]
  rw [if_neg (by omega), if_pos (by rw [hlog, Format.mantissaBits]; omega)]

theorem unpack_normal (he : e ≠ -1#_) (he' : e ≠ 0#_) :
    UnpackedFloat.unpack spec (packComponents spec s e m) =
      .finite s (2 ^ spec.mantissaBitsWithoutImplicit + m.toNat)
        (e.toNat - (spec.exponentBias + spec.mantissaBitsWithoutImplicit))
        (Nat.add_pos_left (Nat.two_pow_pos _) _) := by
  rw [UnpackedFloat.unpack]
  simp only [unpackExponent_packComponents, unpackMantissa_packComponents,
    unpackSign_packComponents, Sign.ofBitVec_toBitVec]
  rw [if_neg he, if_neg he']
  simp only [toNat_one_append]

theorem unpack_subnormal (hm : m ≠ 0#_) :
    ∃ hpos, UnpackedFloat.unpack spec (packComponents spec s 0#_ m) =
      .finite s m.toNat (1 - (spec.exponentBias + spec.mantissaBitsWithoutImplicit)) hpos := by
  have hones : (0#_ : BitVec spec.exponentBits) ≠ -1#_ := by
    intro h
    have hlast := congrArg (·.toNat) h
    have hone := Nat.one_lt_two_pow (Nat.pos_iff_ne_zero.1 spec.he)
    simp only [BitVec.neg_one_eq_allOnes, BitVec.toNat_allOnes, BitVec.toNat_zero] at hlast
    omega
  refine ⟨BitVec.toNat_pos_of_ne_zero hm, ?_⟩
  rw [UnpackedFloat.unpack]
  simp only [unpackExponent_packComponents, unpackMantissa_packComponents,
    unpackSign_packComponents, Sign.ofBitVec_toBitVec]
  rw [if_neg hones, if_pos trivial, dif_neg hm]
  congr 1
  simp
  omega

theorem exists_packComponents (b : BitVec spec.numBits) :
    ∃ s e m, b = packComponents spec s e m :=
  ⟨_, _, _, (packComponents_unpackSign_unpackExponent_unpackMantissa b).symm⟩

end

/-! ## Rounding -/

section
variable {spec : Format} {s : Sign} {m k : Nat} {e : Int}

theorem log2_shiftLeft (hm : 0 < m) (k : Nat) : (m <<< k).log2 = m.log2 + k := by
  have hne : m ≠ 0 := Nat.pos_iff_ne_zero.1 hm
  refine (Nat.log2_eq_iff (Nat.shiftLeft_eq_zero_iff.not.2 hne)).2 ⟨?_, ?_⟩
  · rw [Nat.shiftLeft_eq, Nat.pow_add]
    exact Nat.mul_le_mul_right _ (Nat.log2_self_le hne)
  · rw [Nat.shiftLeft_eq, Nat.add_right_comm, Nat.pow_add]
    exact Nat.mul_lt_mul_of_pos_right Nat.lt_log2_self (Nat.two_pow_pos _)

/-- Moving zeros from the exponent to the mantissa keeps the leading digit. -/
theorem totalExponent_shiftLeft (hm : 0 < m) (k : Nat) :
    totalExponent (m <<< k) (e - k) = totalExponent m e := by
  rw [totalExponent, totalExponent, log2_shiftLeft hm]
  omega

/-- Zeros at the end of a mantissa are dropped without a trace. -/
theorem shiftRight_shiftLeft (m k : Nat) :
    (ExtendedMantissa.mk (m <<< k) false false) >>> k = ⟨m, false, false⟩ := by
  show k.repeat ExtendedMantissa.shiftRightOne ⟨m <<< k, false, false⟩ = ⟨m, false, false⟩
  induction k generalizing m with
  | zero => rfl
  | succ k ih =>
    rw [Nat.repeat, Nat.add_comm, Nat.shiftLeft_add, ih, ExtendedMantissa.shiftRightOne]
    simp [Nat.shiftLeft_eq]

/-- Rounding to the format drops `k` zeros. -/
theorem roundWithAccuracy_exact (hm : 0 < m)
    (htarget : spec.targetExponent (totalExponent m e) = e) :
    roundWithAccuracy spec s (m <<< k) (e - k) .exact = .finite s m e hm := by
  have hshift : shiftToTargetExponent spec (m <<< k) (e - k) .exact = (⟨m, false, false⟩, e) := by
    rw [shiftToTargetExponent, totalExponent_shiftLeft hm, htarget, shiftToExponent]
    have hk : (e - (e - k)).toNat = k := by omega
    simp only [hk, ExtendedMantissa.ofMantissaAndAccuracy, shiftRight_shiftLeft]
    simp
  have hstay : shiftToTargetExponent spec m e .exact = (⟨m, false, false⟩, e) := by
    rw [shiftToTargetExponent, htarget, shiftToExponent]
    simp [ExtendedMantissa.ofMantissaAndAccuracy, HShiftRight.hShiftRight, Nat.repeat]
  rw [roundWithAccuracy, hshift]
  simp only [ExtendedMantissa.roundedMantissa, ExtendedMantissa.accuracy,
    Accuracy.roundToNearestEven, hstay]
  rw [dif_neg (Nat.pos_iff_ne_zero.1 hm)]

/-- A number that the format has, with zeros at the end of its mantissa, is not changed. -/
theorem round_shiftLeft (hm : 0 < m)
    (htarget : spec.targetExponent (totalExponent m e) = e) :
    UnpackedFloat.round spec s (m <<< k) (e - k) = .finite s m e hm := by
  rw [UnpackedFloat.round, totalExponent_shiftLeft hm, htarget, decreaseExponent]
  have hk : (e - k - e).toNat = 0 := by omega
  simpa [hk] using roundWithAccuracy_exact (k := k) hm htarget

/-- A number that is short for the format gets zeros at the end of its mantissa. -/
theorem round_of_short (hm : 0 < m)
    (htarget : spec.targetExponent (totalExponent m e) = e - k) :
    ∃ hpos, UnpackedFloat.round spec s m e = .finite s (m <<< k) (e - k) hpos := by
  have hpos : 0 < m <<< k := by
    rw [Nat.shiftLeft_eq]
    exact Nat.mul_pos hm (Nat.two_pow_pos _)
  refine ⟨hpos, ?_⟩
  rw [UnpackedFloat.round, htarget, decreaseExponent]
  have hk : (e - (e - k)).toNat = k := by omega
  simp only [hk]
  have htarget' : spec.targetExponent (totalExponent (m <<< k) (e - k)) = e - k := by
    rw [totalExponent_shiftLeft hm, htarget]
  simpa using roundWithAccuracy_exact (s := s) (k := 0) hpos htarget'

end

/-! ## Widening and narrowing -/

section
variable {s : Sign} {m : Nat} {e : Int}

/-- Mantissa and exponent of a finite binary32 number as it is unpacked: a subnormal number
has the least exponent, a normal one a mantissa of full length. -/
inductive Canonical : Nat → Int → Prop
  | subnormal {m : Nat} (hm : m < 2 ^ 23) : Canonical m (-149)
  | normal {m : Nat} {e : Int} (hm : 2 ^ 23 ≤ m) (hm' : m < 2 ^ 24) (he : -149 ≤ e)
      (he' : e ≤ 104) : Canonical m e

theorem Canonical.log2_lt (h : Canonical m e) (hm : 0 < m) : m.log2 < 24 := by
  refine (Nat.log2_lt (Nat.pos_iff_ne_zero.1 hm)).2 ?_
  cases h with
  | subnormal h => omega
  | normal _ h => exact h

theorem Canonical.exponent_bounds (h : Canonical m e) : -149 ≤ e ∧ e ≤ 104 := by
  cases h with
  | subnormal => omega
  | normal _ _ he he' => exact ⟨he, he'⟩

theorem Canonical.targetExponent_eq (h : Canonical m e) (hm : 0 < m) :
    Format.binary32.targetExponent (totalExponent m e) = e := by
  have hmin : Format.binary32.minExponent = -149 := rfl
  have hlength : Format.binary32.mantissaBits = 24 := rfl
  rw [Format.targetExponent, totalExponent, hmin, hlength]
  cases h with
  | subnormal h =>
    have hlog : m.log2 < 23 := (Nat.log2_lt (Nat.pos_iff_ne_zero.1 hm)).2 h
    omega
  | normal h h' he he' =>
    have hlog : m.log2 = 23 := (Nat.log2_eq_iff (Nat.pos_iff_ne_zero.1 hm)).2 ⟨h, h'⟩
    omega

/-- Rounded to binary64, a finite binary32 number has a mantissa of full length. -/
theorem Canonical.round_binary64 (h : Canonical m e) (hm : 0 < m) :
    ∃ k, m.log2 + k = 52 ∧ ∃ hk,
      UnpackedFloat.round .binary64 s m e = .finite s (m <<< k) (e - k) hk := by
  have hlog := h.log2_lt hm
  have hmin : Format.binary64.minExponent = -1074 := rfl
  have hlength : Format.binary64.mantissaBits = 53 := rfl
  obtain ⟨hlow, -⟩ := h.exponent_bounds
  refine ⟨52 - m.log2, by omega, round_of_short hm ?_⟩
  rw [Format.targetExponent, totalExponent, hmin, hlength]
  omega

/-- Binary64 numbers with a mantissa of full length are unpacked as they are packed. -/
theorem unpack_pack_binary64 {hm : 0 < m} (hlog : m.log2 = 52) (he : -1074 ≤ e) (he' : e ≤ 971) :
    UnpackedFloat.unpack .binary64 (UnpackedFloat.pack .binary64 (.finite s m e hm)) =
      .finite s m e hm := by
  have hlow : 2 ^ 52 ≤ m := hlog ▸ Nat.log2_self_le (Nat.pos_iff_ne_zero.1 hm)
  have hhigh : m < 2 ^ 53 := (Nat.log2_lt (Nat.pos_iff_ne_zero.1 hm)).1 (by omega)
  have hbias : Format.binary64.exponentBias = 1023 := rfl
  obtain ⟨biased, hbiased, hpos, hlt⟩ : ∃ n : Nat, (n : Int) = e + 1075 ∧ 0 < n ∧ n < 2047 :=
    ⟨(e + 1075).toNat, by omega, by omega, by omega⟩
  have hlength : Format.binary64.mantissaBitsWithoutImplicit = 52 := rfl
  have hexponent : (e + Format.binary64.exponentBias +
      Format.binary64.mantissaBitsWithoutImplicit).toNat = biased := by
    rw [hbias, hlength]
    omega
  have hrange : biased + 1 < 2 ^ 11 := by omega
  have hbits : (BitVec.ofNat 11 biased).toNat = biased := by
    rw [BitVec.toNat_ofNat]
    omega
  have hmantissa : 2 ^ 52 + (BitVec.ofNat 52 m).toNat = m := by
    rw [BitVec.toNat_ofNat]
    omega
  rw [pack_normal hlow hhigh (by rw [hexponent]; exact hrange), hexponent, unpack_normal]
  · simp only [hbits, hmantissa, hbias]
    congr 1
    omega
  · intro h
    have := congrArg BitVec.toNat h
    simp only [hbits] at this
    have hones : (-1#11 : BitVec 11).toNat = 2047 := rfl
    omega
  · intro h
    have := congrArg BitVec.toNat h
    simp only [hbits] at this
    have hzero : (0#11 : BitVec 11).toNat = 0 := rfl
    omega

/-- Rounding a finite binary32 number to binary64 and back, packed in between. -/
theorem Canonical.rounded_rounded (h : Canonical m e) (hm : 0 < m) :
    rounded .binary32 (UnpackedFloat.unpack .binary64
      (UnpackedFloat.pack .binary64 (rounded .binary64 (.finite s m e hm)))) =
        .finite s m e hm := by
  obtain ⟨k, hk, hpos, hround⟩ := h.round_binary64 (s := s) hm
  obtain ⟨hlow, hhigh⟩ := h.exponent_bounds
  have hlog : (m <<< k).log2 = 52 := by rw [log2_shiftLeft hm, hk]
  rw [rounded, hround, unpack_pack_binary64 hlog (by omega) (by omega)]
  exact round_shiftLeft hm (h.targetExponent_eq hm)

end

/-- What finite binary32 words are unpacked to. -/
theorem zero_or_canonical {b : BitVec Format.binary32.numBits}
    (h : (UnpackedFloat.unpack .binary32 b).isFinite = true) :
    (∃ s, UnpackedFloat.unpack .binary32 b = .zero s) ∨
      ∃ s m e hm, UnpackedFloat.unpack .binary32 b = .finite s m e hm ∧ Canonical m e := by
  obtain ⟨s, e, m, rfl⟩ := exists_packComponents b
  by_cases hones : e = -1#_
  · subst hones
    rw [UnpackedFloat.unpack] at h
    simp only [unpackExponent_packComponents] at h
    rw [if_pos trivial] at h
    split at h <;> cases h
  · by_cases hzero : e = 0#_
    · subst hzero
      by_cases hm : m = 0#_
      · subst hm
        exact .inl ⟨s, by cases s <;> rfl⟩
      · obtain ⟨hpos, hunpack⟩ := unpack_subnormal (s := s) hm
        exact .inr ⟨_, _, _, _, hunpack, .subnormal m.isLt⟩
    · have hbias : (Format.binary32.exponentBias : Int) = 127 := rfl
      have hlength : (Format.binary32.mantissaBitsWithoutImplicit : Int) = 23 := rfl
      have hlow : 0 < e.toNat := BitVec.toNat_pos_of_ne_zero hzero
      have hhigh : e.toNat < 255 := by
        have hne : e.toNat ≠ 255 := fun he => hones (BitVec.eq_of_toNat_eq he)
        have hlt : e.toNat < 256 := e.isLt
        omega
      have hlt : m.toNat < 2 ^ 23 := m.isLt
      have hfull : 2 ^ 23 + m.toNat < 2 ^ 24 := by omega
      refine .inr ⟨_, _, _, _, unpack_normal (s := s) (m := m) hones hzero,
        .normal (Nat.le_add_right _ _) hfull ?_ ?_⟩
      · rw [hbias, hlength]
        omega
      · rw [hbias, hlength]
        omega

/-- Narrowing undoes widening. -/
theorem narrow_widen {x : Float32} (hx : x.isFinite = true) : narrow (widen x) = x := by
  obtain ⟨⟨bits, valid⟩⟩ := x
  have hrounded : rounded .binary32 (UnpackedFloat.unpack .binary64
      (UnpackedFloat.pack .binary64 (rounded .binary64
        (UnpackedFloat.unpack .binary32 bits.toBitVec)))) =
      UnpackedFloat.unpack .binary32 bits.toBitVec := by
    rcases zero_or_canonical (b := bits.toBitVec) hx with
      ⟨s, hzero⟩ | ⟨s, m, e, hm, hfinite, hcanonical⟩
    · rw [hzero]
      cases s <;> rfl
    · rw [hfinite]
      exact hcanonical.rounded_rounded hm
  show Float32.ofModel ⟨UInt32.ofBitVec (UnpackedFloat.pack .binary32 (rounded .binary32
    (UnpackedFloat.unpack .binary64 (UnpackedFloat.pack .binary64 (rounded .binary64
      (UnpackedFloat.unpack .binary32 bits.toBitVec)))))), _⟩ = _
  simp only [hrounded, pack_unpack_of_valid valid]

end ArrayTrace
