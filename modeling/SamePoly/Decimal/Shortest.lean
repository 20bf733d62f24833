/-
  Decimal digits of a binary number.

  A finite binary number is `m · 2 ^ q`.  Its decimal digits are chosen in exact integer
  arithmetic.

  * `shortest`: the fewest digits that are read back as the same number, and of
    those the nearest; of two equally near ones the larger.
-/

namespace SamePoly

/-- The number `digits · 10 ^ exponent`. -/
structure Decimal where
  digits : Nat
  exponent : Int

namespace Decimal

/-- `m · 2 ^ q` in units of `10 ^ e`, as a numerator and a denominator. -/
def inUnits (m : Nat) (q e : Int) : Nat × Nat :=
  (m * Nat.pow 2 q.toNat * Nat.pow 10 (-e).toNat, Nat.pow 2 (-q).toNat * Nat.pow 10 e.toNat)

/-- An exponent `e` for which `10 ^ (e + 1)` lies above `m · 2 ^ q` and above every
    number that is rounded to it. -/
def topExponent (m : Nat) (q : Int) : Int := (m.log2 + q + 2) * 30103 / 100000 + 1

/-- The multiple of `10 ^ e` nearest to `m · 2 ^ q` among those that are rounded to
    it.  Numbers between the midpoints to both neighbours are rounded to it, the
    midpoints themselves if `m` is even; `narrow` says that the lower neighbour is
    only half as far away as the upper one. -/
def gridPoint? (m : Nat) (q : Int) (narrow : Bool) (e : Int) : Option Nat :=
  let (value, unit) := inUnits (4 * m) (q - 2) e
  let (low, _) := inUnits (4 * m - if narrow then 1 else 2) (q - 2) e
  let (high, _) := inUnits (4 * m + 2) (q - 2) e
  let rounded (c : Nat) : Bool :=
    if m % 2 == 0 then Nat.ble low (c * unit) && Nat.ble (c * unit) high
    else Nat.blt low (c * unit) && Nat.blt (c * unit) high
  let below := value / unit
  let above := below + 1
  match rounded below, rounded above with
  | true, true =>
    if Nat.blt (value - below * unit) (above * unit - value) then some below else some above
  | true, false => some below
  | false, true => some above
  | false, false => none

/-- The first of the grids `10 ^ e`, `10 ^ (e - 1)`, … that has a point rounded to
    `m · 2 ^ q`. -/
def coarsest (m : Nat) (q : Int) (narrow : Bool) : Nat → Int → Decimal
  | 0, e => ⟨0, e⟩
  | grids + 1, e =>
    match gridPoint? m q narrow e with
    | some digits => ⟨digits, e⟩
    | none => coarsest m q narrow grids (e - 1)

/-- The fewest digits that read back as `m · 2 ^ q`.  Seventeen digits tell any two
    double precision numbers apart, so the last of these grids is never passed. -/
def shortest (m : Nat) (q : Int) (narrow : Bool) : Decimal :=
  coarsest m q narrow 24 (topExponent m q)

end Decimal

end SamePoly
