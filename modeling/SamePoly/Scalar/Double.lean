/-
  Double precision numbers as scalars.

  Arithmetic is that of the hardware.  The decimal text of a number has to be exact and
  is computed on its bits.

  * `Double.text`: the fewest digits that read back, never with a power of ten.
  * `Double.detailedText`: as `text` between 1e-4 and 1e16 but with a point in every
    number, and with a power of ten outside.
  * `Double.ofText?`: reading a number.
  * `Double.distance`: the distance of a point from the origin, by a root and one
    correction.
-/
import SamePoly.Scalar
import SamePoly.Decimal.Layout
import SamePoly.Decimal.Numeral

namespace SamePoly

namespace Double

/-! ## Bits -/

/-- A number taken apart. -/
inductive Parts where
  /-- No number at all. -/
  | undefined
  /-- An unbounded number. -/
  | infinite (negative : Bool)
  /-- Zero, with its sign. -/
  | zero (negative : Bool)
  /-- `± m · 2 ^ q`; `narrow` when the lower neighbour is nearer than the upper. -/
  | finite (negative : Bool) (m : Nat) (q : Int) (narrow : Bool)

/-- Sign, exponent and mantissa from the bits. -/
def parts (x : Float) : Parts :=
  let bits := x.toBits.toNat
  let negative := bits / 0x8000000000000000 == 1
  let exponent := bits / 0x10000000000000 % 0x800
  let fraction := bits % 0x10000000000000
  if exponent == 0x7ff then
    if fraction == 0 then .infinite negative else .undefined
  else if exponent == 0 then
    if fraction == 0 then .zero negative else .finite negative fraction (-1074) false
  else
    .finite negative (0x10000000000000 + fraction) (Int.ofNat exponent - 1075)
      (fraction == 0 && Nat.blt 1 exponent)

/-- Puts the sign of a number in front of its text. -/
def signed (negative : Bool) (text : List Char) : List Char :=
  if negative then '-' :: text else text

/-! ## Text -/

/-- The text of a number by a way of writing its shortest digits. -/
def textBy (zero : List Char) (layout : Decimal → List Char) (x : Float) : List Char :=
  match parts x with
  | .undefined => "NaN".toList
  | .infinite negative => signed negative "inf".toList
  | .zero negative => signed negative zero
  | .finite negative m q narrow => signed negative (layout (.shortest m q narrow))

/-- The fewest digits that read back as the same number, all in place. -/
def text : Float → List Char := textBy ['0'] Decimal.positional

/-- The fewest digits that read back, with at least one after the point; below 1e-4
    and from 1e16 on with a power of ten instead. -/
def detailedText : Float → List Char :=
  textBy "0.0".toList fun d =>
    let position := d.pointPosition
    if position < -3 || 16 < position then d.scientific else d.positionalWithPoint

/-! ## Reading -/

/-- `digits · 10 ^ exponent`, rounded to nearest.  Powers of ten far outside the
    range of the numbers are not computed. -/
def ofDecimal (digits : Nat) (exponent : Int) : Float :=
  if digits == 0 then Float.ofBits 0
  else
    match exponent with
    | .ofNat e => Float.ofScientific digits false (min e 400)
    | .negSucc e => Float.ofScientific digits true (min (e + 1) (digits.log2 + 400))

/-- The number that a text stands for. -/
def ofText? (text : List Char) : Option Float :=
  (Decimal.Numeral.read? text).map fun (negative, numeral) =>
    let size : Float :=
      match numeral with
      | .infinite => Float.ofBits 0x7ff0000000000000
      | .undefined => Float.ofBits 0x7ff8000000000000
      | .finite digits exponent => ofDecimal digits exponent
    if negative then size.neg else size

/-! ## Distance from the origin -/

/-- `2 ^ exponent`, for an exponent from -1022 to 1023. -/
def powerOfTwo (exponent : Int) : Float :=
  Float.ofBits (UInt64.ofNat ((exponent + 1023).toNat * 0x10000000000000))

/-- The root of `a * a + b * b`, where `b` is at most `a` and neither square leaves the
    range of the numbers.  The rounded root `h` is corrected by `(h * h - a * a - b * b) / 2h`,
    one step of Newton's method; the difference is taken through the leg that is nearer to
    `h`, so that its products stay small. -/
def correctedRoot (a b : Float) : Float :=
  let h := (a * a + b * b).sqrt
  let excess :=
    if h ≤ 2 * b then
      let d := h - b
      a * (2 * d - a) + (d - 2 * (a - b)) * d
    else
      let d := h - a
      2 * d * (a - 2 * b) + ((4 * d - b) * b + d * d)
  h - excess / (2 * h)

/-- The distance of the point `(re, im)` from the origin, less than one unit of the last
    place off.  A leg that is 2 ^ 54 times as long as the other decides alone; very long
    and very short legs are scaled by a power of two first. -/
def distance (re im : Float) : Float :=
  if re.isInf || im.isInf then Float.ofBits 0x7ff0000000000000
  else
    let short := if re.abs < im.abs then re.abs else im.abs
    let long := if re.abs < im.abs then im.abs else re.abs
    if short * powerOfTwo 54 ≤ long then long + short
    else
      let scale :=
        if powerOfTwo 511 < long then powerOfTwo (-600)
        else if short < powerOfTwo (-459) then powerOfTwo 600
        else 1
      correctedRoot (long * scale) (short * scale) / scale

/-! ## Complex powers -/

/-- The exponential of `a + b i`.  An unbounded or undefined part decides alone
    where the angle says nothing. -/
def exponential (a b : Float) : Float × Float :=
  let zero := Float.ofBits 0
  if a.isInf && Float.lt a zero && !b.isFinite then (zero, zero)
  else if a.isInf && !Float.lt a zero && (b.beq zero || !b.isFinite) then
    (a, if b.isInf then Float.ofBits 0x7ff8000000000000 else b)
  else if a.isNaN && b.beq zero then (a, b)
  else (a.exp.mul b.cos, a.exp.mul b.sin)

/-- A complex number to a complex exponent: the exponential of the exponent times
    the logarithm. -/
def transcendentalPower (re im exponentRe exponentIm : Float) : Float × Float :=
  let zero := Float.ofBits 0
  if exponentRe.beq zero && exponentIm.beq zero then (Float.ofNat 1, zero)
  else
    let size := (distance re im).log
    let angle := Float.atan2 im re
    exponential ((exponentRe.mul size).sub (exponentIm.mul angle))
      ((exponentRe.mul angle).add (exponentIm.mul size))

end Double

instance : Scalar Float where
  zero := Float.ofBits 0
  one := Float.ofNat 1
  add := Float.add
  sub := Float.sub
  mul := Float.mul
  div := Float.div
  neg := Float.neg
  same := Float.beq
  less x y := Float.lt x y
  atMost x y := Float.le x y
  isFinite := Float.isFinite
  ofDecimal digits places := Double.ofDecimal digits (-Int.ofNat places)
  abs := Float.abs
  round := Float.round
  toInt x := x.toInt64.toInt
  pow := Float.pow
  nearer re im bound := Float.lt (Double.distance re im) bound
  within re im bound := Float.le (Double.distance re im) bound
  transcendentalPower := Double.transcendentalPower
  text := Double.text
  detailedText := Double.detailedText

end SamePoly
