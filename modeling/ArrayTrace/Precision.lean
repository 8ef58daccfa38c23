/-!
# Precision

Conversion between binary32 and binary64 numbers, and to integers. Widening keeps the
value; narrowing rounds to the nearest number, ties to even, and beyond the largest one
to infinity. Signs of zeros and infinities stay; there is one NaN.
-/

namespace ArrayTrace

open Float.Model (Format UnpackedFloat)

/-- A number rounded to a format. -/
def rounded (format : Format) : UnpackedFloat → UnpackedFloat
  | .finite sign mantissa exponent _ => .round format sign mantissa exponent
  | x => x

/-- The binary64 number with the value of a binary32 number. -/
def widen (x : Float32) : Float := .ofModel (.pack (rounded .binary64 x.toModel.unpack))

/-- The binary32 number nearest to a binary64 number. -/
def narrow (x : Float) : Float32 := .ofModel (.pack (rounded .binary32 x.toModel.unpack))

/-- The integral part of a number. Infinities and NaN have none. -/
def integralPart? : UnpackedFloat → Option Int
  | .zero _ => some 0
  | .finite sign mantissa exponent _ =>
    let magnitude : Nat :=
      match exponent with
      | .ofNat e => mantissa <<< e
      | .negSucc e => mantissa >>> (e + 1)
    match sign with
    | .negative => some (-magnitude)
    | .positive => some magnitude
  | _ => none

/-- The 64-bit integer nearest to the integral part of a number; NaN gives 0. -/
def saturated (x : Float) : Int64 :=
  match x.toModel.unpack with
  | .infinity .negative => Int64.minValue
  | .infinity .positive => Int64.maxValue
  | x => .ofIntClamp ((integralPart? x).getD 0)

end ArrayTrace
