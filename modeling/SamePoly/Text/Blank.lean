/-
  White space and trimming.

  * `isBlank`: the Unicode property White_Space.
  * `trim`: a text without the white space at its ends.
-/

namespace SamePoly

/-- The characters with the property White_Space. -/
def isBlank (c : Char) : Bool :=
  let n := c.toNat
  (Nat.ble 0x9 n && Nat.ble n 0xd) || n == 0x20 || n == 0x85 || n == 0xa0 || n == 0x1680 ||
    (Nat.ble 0x2000 n && Nat.ble n 0x200a) || n == 0x2028 || n == 0x2029 || n == 0x202f ||
    n == 0x205f || n == 0x3000

/-- A text without the white space at its ends. -/
def trim (text : List Char) : List Char :=
  ((text.dropWhile isBlank).reverse.dropWhile isBlank).reverse

/-- Nothing but white space. -/
def isBlankText (text : List Char) : Bool := text.all isBlank

end SamePoly
