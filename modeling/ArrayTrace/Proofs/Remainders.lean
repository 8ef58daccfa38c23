import ArrayTrace.Element
import Mathlib.Data.Int.ModEq

/-!
# Floored remainders

The remainder of a quotient that is rounded down has the sign of the divisor. It is computed from
the remainder of the truncated quotient, which has the sign of the dividend: where the two signs
differ, the divisor is added. The sum lies between 0 and the divisor, so it is never too large
for a word, and the truncated remainder fits even where the truncated quotient does not.

## Main definitions

* `IsFloorRemainder` — the remainder of a quotient that is rounded down.
-/

namespace ArrayTrace

/-- Congruent to the dividend, and between 0 and the divisor, which is not reached. -/
structure IsFloorRemainder (a b r : Int) : Prop where
  modEq : r ≡ a [ZMOD b]
  of_pos : 0 < b → 0 ≤ r ∧ r < b
  of_neg : b < 0 → b < r ∧ r ≤ 0

namespace IsFloorRemainder
variable {a b r : Int}

/-- A number has one floored remainder by a divisor. -/
theorem eq_fmod (h : IsFloorRemainder a b r) (hb : b ≠ 0) : r = a.fmod b := by
  obtain ⟨q, hq⟩ := h.modEq.dvd
  have hsum : r + b * q = a := by omega
  rcases Int.lt_or_gt_of_ne hb with hneg | hpos
  · exact ((Int.fdiv_fmod_unique' hneg).2 ⟨hsum, h.of_neg hneg⟩).2.symm
  · exact ((Int.fdiv_fmod_unique hpos).2 ⟨hsum, h.of_pos hpos⟩).2.symm

/-- What is left over with the sign of the divisor is the floored remainder. -/
theorem of_sign_eq (hmod : r ≡ a [ZMOD b]) (hlt : r.natAbs < b.natAbs)
    (hsign : r = 0 ∨ (r < 0 ↔ b < 0)) : IsFloorRemainder a b r :=
  ⟨hmod, by omega, by omega⟩

/-- What is left over with the other sign becomes the floored remainder when the divisor is
added. -/
theorem of_sign_ne (hmod : r ≡ a [ZMOD b]) (hlt : r.natAbs < b.natAbs)
    (hsign : ¬ (r < 0 ↔ b < 0)) (hr : r ≠ 0) : IsFloorRemainder a b (r + b) :=
  ⟨Int.add_modEq_right.trans hmod, by omega, by omega⟩

end IsFloorRemainder

/-! ## Remainders of words -/

@[simp] theorem toInt_eq_zero {a : Int64} : a.toInt = 0 ↔ a = 0 := Int64.toInt_inj (y := 0)

@[simp] theorem toInt_lt_zero {a : Int64} : a.toInt < 0 ↔ a < 0 :=
  (Int64.lt_iff_toInt_lt (y := 0)).symm

section
variable {a b : Int64}

theorem toInt_mod_modEq (a b : Int64) : (a % b).toInt ≡ a.toInt [ZMOD b.toInt] := by
  have hsum := Int.tmod_add_mul_tdiv a.toInt b.toInt
  rw [Int64.toInt_mod, Int.modEq_iff_dvd]
  exact ⟨a.toInt.tdiv b.toInt, by omega⟩

theorem natAbs_toInt_mod_lt (a : Int64) (hb : b ≠ 0) :
    (a % b).toInt.natAbs < b.toInt.natAbs := by
  rw [Int64.toInt_mod, Int.natAbs_tmod]
  exact Nat.mod_lt _ (Int.natAbs_pos.2 (mt toInt_eq_zero.1 hb))

theorem sign_ne_iff : decide (a < 0) ≠ decide (b < 0) ↔ ¬ (a.toInt < 0 ↔ b.toInt < 0) := by
  rw [Ne, decide_eq_decide, toInt_lt_zero, toInt_lt_zero]

/-- Numbers of different signs have a sum between them. -/
theorem toInt_add_mem (hsign : decide (a < 0) ≠ decide (b < 0)) :
    Int64.minValue.toInt ≤ a.toInt + b.toInt ∧ a.toInt + b.toInt ≤ Int64.maxValue.toInt := by
  have ha := And.intro a.minValue_le_toInt a.toInt_le
  have hb := And.intro b.minValue_le_toInt b.toInt_le
  rw [sign_ne_iff] at hsign
  omega

theorem toInt_add_of_sign_ne (hsign : decide (a < 0) ≠ decide (b < 0)) :
    (a + b).toInt = a.toInt + b.toInt := by
  have hmem := toInt_add_mem hsign
  rw [Int64.toInt_minValue, Int64.toInt_maxValue] at hmem
  rw [Int64.toInt_add]
  exact Int.bmod_eq_of_le (by omega) (by omega)

theorem floorMod_of_sign_ne (hb : b ≠ 0) (h0 : a % b ≠ 0)
    (hsign : decide (a % b < 0) ≠ decide (b < 0)) : floorMod a b = a % b + b := by
  rw [floorMod, if_neg hb]
  exact if_pos ⟨h0, hsign⟩

theorem isFloorRemainder_floorMod (a : Int64) (hb : b ≠ 0) :
    IsFloorRemainder a.toInt b.toInt (floorMod a b).toInt := by
  have hmod := toInt_mod_modEq a b
  have hlt := natAbs_toInt_mod_lt a hb
  by_cases hadjust : a % b ≠ 0 ∧ decide (a % b < 0) ≠ decide (b < 0)
  · obtain ⟨h0, hsign⟩ := hadjust
    rw [floorMod_of_sign_ne hb h0 hsign, toInt_add_of_sign_ne hsign]
    exact .of_sign_ne hmod hlt (sign_ne_iff.1 hsign) (mt toInt_eq_zero.1 h0)
  · have hstay : floorMod a b = a % b := by
      rw [floorMod, if_neg hb]
      exact if_neg hadjust
    rw [hstay]
    refine .of_sign_eq hmod hlt ?_
    by_cases h0 : a % b = 0
    · exact .inl (toInt_eq_zero.2 h0)
    · exact .inr (by_contra fun h => hadjust ⟨h0, sign_ne_iff.2 h⟩)

theorem toInt_floorMod (a : Int64) (hb : b ≠ 0) :
    (floorMod a b).toInt = a.toInt.fmod b.toInt :=
  (isFloorRemainder_floorMod a hb).eq_fmod (mt toInt_eq_zero.1 hb)

/-- The remainder by 0 is 0, and by any other divisor it is the one floored remainder. Where it is
the sum of the truncated remainder and the divisor, the sum is exact, since it is a 64-bit
integer. -/
theorem floorMod_exact (a b : Int64) :
    (b = 0 → floorMod a b = 0) ∧
    (b ≠ 0 → ∀ r : Int, IsFloorRemainder a.toInt b.toInt r ↔ r = (floorMod a b).toInt) ∧
    (b ≠ 0 → a % b ≠ 0 → decide (a % b < 0) ≠ decide (b < 0) →
      (floorMod a b).toInt = (a % b).toInt + b.toInt ∧
        Int64.minValue.toInt ≤ (a % b).toInt + b.toInt ∧
        (a % b).toInt + b.toInt ≤ Int64.maxValue.toInt) := by
  refine ⟨fun hb => ?_, fun hb r => ⟨fun h => ?_, ?_⟩, fun hb h0 hsign => ?_⟩
  · rw [floorMod, if_pos hb]
  · rw [toInt_floorMod a hb]
    exact h.eq_fmod (mt toInt_eq_zero.1 hb)
  · rintro rfl
    exact isFloorRemainder_floorMod a hb
  · rw [floorMod_of_sign_ne hb h0 hsign, toInt_add_of_sign_ne hsign]
    exact ⟨rfl, toInt_add_mem hsign⟩

/-- The least integer has no quotient by -1, but a remainder, which is 0. The remainder of 1 by
the least integer is the sum of the two, next to the end of the range. -/
theorem floorMod_exact_least :
    floorMod Int64.minValue 0 = 0 ∧
    (floorMod Int64.minValue (-1)).toInt = 0 ∧
    (floorMod 1 Int64.minValue).toInt = -9223372036854775807 ∧
    (floorMod 1 Int64.minValue).toInt = (1 % Int64.minValue).toInt + Int64.minValue.toInt := by
  obtain ⟨hzero, -, -⟩ := floorMod_exact Int64.minValue 0
  obtain ⟨-, hone, -⟩ := floorMod_exact Int64.minValue (-1)
  obtain ⟨-, hleast, hsum⟩ := floorMod_exact 1 Int64.minValue
  refine ⟨hzero rfl, ?_, ?_, (hsum (by decide) (by decide) (by decide)).1⟩
  · exact ((hone (by decide) 0).1 ⟨by decide, by decide, by decide⟩).symm
  · exact ((hleast (by decide) _).1 ⟨by decide, by decide, by decide⟩).symm

end
end ArrayTrace
