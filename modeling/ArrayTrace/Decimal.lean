import ArrayTrace.Element

/-!
# Decimal texts of floats

A finite float stands for every real number that rounds to it. Its decimal text
is the point of that interval on the coarsest decimal grid that has one, hence
the text with the fewest digits that reads back. The search is exact integer
arithmetic. A layout says how the digits are written down.
-/

namespace ArrayTrace

/-- A power of two. -/
def pow2 (n : Nat) : Nat := Nat.pow 2 n

/-- A power of ten. -/
def pow10 (n : Nat) : Nat := Nat.pow 10 n

/-- The magnitude `mantissa * 2 ^ exponent` of a finite float. -/
structure Dyadic where
  mantissa : Nat
  exponent : Int
  /-- The next float below is half as far away as the next one above. -/
  tightBelow : Bool

/-- What the bits of a float say. -/
inductive FloatValue
  | nan
  | infinite (negative : Bool)
  | finite (negative : Bool) (magnitude : Dyadic)

/-- Read the bits of a binary float with the given numbers of fraction and exponent
bits. -/
def FloatValue.ofBits (fractionBits exponentBits bits : Nat) : FloatValue :=
  let fraction := bits % pow2 fractionBits
  let e := bits / pow2 fractionBits % pow2 exponentBits
  let negative := bits / pow2 (fractionBits + exponentBits) % 2 = 1
  let least : Int := 2 - Int.ofNat (pow2 (exponentBits - 1)) - fractionBits
  if e = pow2 exponentBits - 1 then
    if fraction = 0 then .infinite negative else .nan
  else if e = 0 then .finite negative ⟨fraction, least, false⟩
  else .finite negative ⟨pow2 fractionBits + fraction, least + e - 1, fraction = 0 && 1 < e⟩

/-- The value of a binary64 number. -/
def FloatValue.ofFloat (x : Float) : FloatValue := ofBits 52 11 x.toBits.toNat

/-- The value of a binary32 number. -/
def FloatValue.ofFloat32 (x : Float32) : FloatValue := ofBits 23 8 x.toBits.toNat

/-- The number `digits * 10 ^ exponent`. -/
structure Decimal where
  digits : Nat
  exponent : Int
deriving DecidableEq

namespace Dyadic

/-- Multiples of `10 ^ k` and of a quarter of the float's last binary place, brought
to one scale: `c * 10 ^ k` is to `x` quarters as `c * (scale k).1` to `x * (scale k).2`. -/
def scale (x : Dyadic) (k : Int) : Nat × Nat :=
  let q := x.exponent - 2
  (pow10 k.toNat * pow2 (-q).toNat, pow2 q.toNat * pow10 (-k).toNat)

/-- Whether `c * 10 ^ k` rounds to the float. The ends of the interval do so when the
mantissa is even. -/
def readsBack (x : Dyadic) (k : Int) (c : Nat) : Bool :=
  let (p, q) := x.scale k
  let low := if x.tightBelow then 4 * x.mantissa - 1 else 4 * x.mantissa - 2
  let high := 4 * x.mantissa + 2
  if x.mantissa % 2 = 0 then low * q ≤ c * p && c * p ≤ high * q
  else low * q < c * p && c * p < high * q

/-- The point of the grid `10 ^ k` that rounds to the float and is nearest to it, the
upper one of two that are equally near. -/
def onGrid? (x : Dyadic) (k : Int) : Option Nat :=
  let (p, q) := x.scale k
  let below := 4 * x.mantissa * q / p
  let above := below + 1
  match x.readsBack k below, x.readsBack k above with
  | true, true =>
    if 8 * x.mantissa * q < (below + above) * p then some below else some above
  | true, false => some below
  | false, true => some above
  | false, false => none

/-- Search the grids from `10 ^ k` on downwards. -/
def search (x : Dyadic) : Nat → Int → Decimal
  | 0, k => ⟨(4 * x.mantissa * (x.scale k).2) / (x.scale k).1, k⟩
  | fuel + 1, k =>
    match x.onGrid? k with
    | some c => ⟨c, k⟩
    | none => x.search fuel (k - 1)

/-- The decimal with the fewest digits that rounds to the float. The search begins
at a power of ten above the float and ends where the float itself is on the grid. -/
def shortest (x : Dyadic) : Decimal :=
  if x.mantissa = 0 then ⟨0, 0⟩
  else
    let whole := x.mantissa * pow2 x.exponent.toNat / pow2 (-x.exponent).toNat
    let start := whole.repr.length
    x.search (start + (-x.exponent).toNat + 1) start

end Dyadic

/-- How the digits of a float are written. -/
structure FloatLayout where
  /-- An exponent is written when the first digit stands below this power of ten … -/
  exponentBelow : Option Int
  /-- … or at this one or above. -/
  exponentFrom : Option Int
  /-- Text after an integral number written without exponent. -/
  integral : String
  nan : String
  infinity : String
  /-- Text after every finite number. -/
  suffix : String

namespace FloatLayout

/-- Digits with a decimal point and no exponent. -/
def positional (layout : FloatLayout) (d : Decimal) : String :=
  let ds := d.digits.repr
  let shift := (-d.exponent).toNat
  if 0 ≤ d.exponent then ds ++ "".pushn '0' d.exponent.toNat ++ layout.integral
  else if shift < ds.length then
    String.ofList (ds.toList.take (ds.length - shift)) ++ "." ++
      String.ofList (ds.toList.drop (ds.length - shift))
  else "0." ++ "".pushn '0' (shift - ds.length) ++ ds

/-- One digit before the point, then the exponent. -/
def scientific (d : Decimal) : String :=
  let ds := d.digits.repr.toList
  let fraction := if ds.length ≤ 1 then "" else "." ++ String.ofList (ds.drop 1)
  let exponent : Int := d.exponent + ds.length - 1
  String.ofList (ds.take 1) ++ fraction ++ "e" ++ exponent.repr

/-- Digits in the form the layout asks for. -/
def decimal (layout : FloatLayout) (d : Decimal) : String :=
  let leading : Int := d.exponent + d.digits.repr.length - 1
  let small := layout.exponentBelow.any fun e => leading < e
  let large := layout.exponentFrom.any fun e => e ≤ leading
  if small || large then scientific d else layout.positional d

/-- Text of a float. -/
def render (layout : FloatLayout) : FloatValue → String
  | .nan => layout.nan
  | .infinite negative => (if negative then "-" else "") ++ layout.infinity
  | .finite negative x =>
    (if negative then "-" else "") ++ layout.decimal x.shortest ++ layout.suffix

/-- Floats shown to a reader: all digits positional, integral values without a point. -/
def shown : FloatLayout := ⟨none, none, "", "NaN", "inf", ""⟩

end FloatLayout

/-- Text of an element shown to a reader. -/
def DType.text : (d : DType) → d.Elem → String
  | .f64, x => FloatLayout.shown.render (.ofFloat x)
  | .f32, x => FloatLayout.shown.render (.ofFloat32 x)
  | .i64, x => x.toInt.repr
  | .bool, x => if x then "true" else "false"

end ArrayTrace
