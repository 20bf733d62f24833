/-
  Shapes of monomials.

  A shape is a product of powers of variables.  It is kept as a list in the order of the
  variables, each with its exponent, so that equal shapes are equal lists.  Exponents are
  at most `maxExponent`; a product of powers that would pass it stays there.

  * `Shape`: the product of powers.
  * `Shape.exponent`: the exponent of a variable, zero if it does not occur.
  * `Shape.raise`: one more power of a variable.
  * `Shape.mul`: the product of two shapes.
-/

namespace SamePoly

/-- The largest exponent of a variable. -/
def maxExponent : Nat := 4294967295

namespace Shape

/-- A list of powers in the order of their variables. -/
def Sorted (powers : List (Char × Nat)) : Prop :=
  powers.Pairwise fun p q => p.1.toNat < q.1.toNat

/-- A list of powers with exponents that are not zero. -/
def Positive (powers : List (Char × Nat)) : Prop := ∀ p ∈ powers, 0 < p.2

/-- Multiplies a list of powers by one more power. -/
def insertPower (c : Char) (n : Nat) : List (Char × Nat) → List (Char × Nat)
  | [] => [(c, min n maxExponent)]
  | (d, m) :: rest =>
    if c == d then (d, min (m + n) maxExponent) :: rest
    else if Nat.blt c.toNat d.toNat then (c, min n maxExponent) :: (d, m) :: rest
    else (d, m) :: insertPower c n rest

/-- The variables of a product are those of its factors. -/
theorem mem_insertPower {c : Char} {n : Nat} {powers : List (Char × Nat)} {p : Char × Nat}
    (h : p ∈ insertPower c n powers) : p.1 = c ∨ p ∈ powers := by
  induction powers with
  | nil =>
    simp only [insertPower, List.mem_singleton] at h
    exact Or.inl (by rw [h])
  | cons q rest ih =>
    simp only [insertPower] at h
    split at h
    · rename_i same
      rcases List.mem_cons.1 h with rfl | h
      · exact Or.inl (beq_iff_eq.1 same).symm
      · exact Or.inr (List.mem_cons_of_mem _ h)
    · split at h
      · rcases List.mem_cons.1 h with rfl | h
        · exact Or.inl rfl
        · exact Or.inr h
      · rcases List.mem_cons.1 h with rfl | h
        · exact Or.inr List.mem_cons_self
        · exact (ih h).imp id (List.mem_cons_of_mem _)

/-- One more power keeps the order of the variables. -/
theorem Sorted.insertPower {powers : List (Char × Nat)} (h : Sorted powers) (c : Char)
    (n : Nat) : Sorted (Shape.insertPower c n powers) := by
  induction powers with
  | nil => simp [Shape.insertPower, Sorted]
  | cons q rest ih =>
    obtain ⟨d, m⟩ := q
    have head : ∀ p ∈ rest, d.toNat < p.1.toNat := (List.pairwise_cons.1 h).1
    have tail := (List.pairwise_cons.1 h).2
    simp only [Shape.insertPower]
    split
    · exact List.pairwise_cons.2 ⟨head, tail⟩
    · rename_i differ
      split
      · rename_i less
        have less : c.toNat < d.toNat := by simpa using less
        refine List.pairwise_cons.2 ⟨fun p hp => ?_, h⟩
        rcases List.mem_cons.1 hp with rfl | hp
        · exact less
        · exact Nat.lt_trans less (head p hp)
      · rename_i notLess
        have notLess : ¬ c.toNat < d.toNat := by simpa using notLess
        have notSame : c.toNat ≠ d.toNat := fun same =>
          differ (beq_iff_eq.2 (Char.toNat_inj.1 same))
        refine List.pairwise_cons.2 ⟨fun p hp => ?_, ih tail⟩
        show d.toNat < p.1.toNat
        rcases mem_insertPower hp with same | hp
        · rw [same]
          omega
        · exact head p hp

/-- One more power keeps the exponents positive. -/
theorem Positive.insertPower {powers : List (Char × Nat)} (h : Positive powers) (c : Char)
    {n : Nat} (hn : 0 < n) : Positive (Shape.insertPower c n powers) := by
  have limit : 0 < maxExponent := by decide
  induction powers with
  | nil =>
    intro p hp
    simp only [Shape.insertPower, List.mem_singleton] at hp
    subst hp
    exact Nat.lt_min.2 ⟨hn, limit⟩
  | cons q rest ih =>
    intro p hp
    simp only [Shape.insertPower] at hp
    split at hp
    · rcases List.mem_cons.1 hp with rfl | hp
      · exact Nat.lt_min.2 ⟨by omega, limit⟩
      · exact h p (List.mem_cons_of_mem _ hp)
    · split at hp
      · rcases List.mem_cons.1 hp with rfl | hp
        · exact Nat.lt_min.2 ⟨hn, limit⟩
        · exact h p hp
      · rcases List.mem_cons.1 hp with rfl | hp
        · exact h _ List.mem_cons_self
        · exact ih (fun p hp => h p (List.mem_cons_of_mem _ hp)) p hp

end Shape

/-- A product of powers of variables. -/
structure Shape where
  /-- The variables with their exponents. -/
  powers : List (Char × Nat)
  sorted : Shape.Sorted powers
  positive : Shape.Positive powers
deriving DecidableEq

namespace Shape

/-- The shape of a constant. -/
def one : Shape := ⟨[], List.Pairwise.nil, fun _ h => nomatch h⟩

/-- A shape is the list of its powers. -/
theorem ext {s t : Shape} (h : s.powers = t.powers) : s = t := by
  cases s
  cases t
  cases h
  rfl

/-- The exponent of a variable; zero if it does not occur. -/
def exponent (s : Shape) (c : Char) : Nat := (s.powers.lookup c).getD 0

/-- A shape times a power of a variable. -/
def raise (s : Shape) (c : Char) (n : Nat) : Shape :=
  if h : n = 0 then s
  else
    ⟨insertPower c n s.powers, s.sorted.insertPower c n,
      s.positive.insertPower c (Nat.pos_of_ne_zero h)⟩

/-- The product of two shapes. -/
def mul (s t : Shape) : Shape := t.powers.foldl (fun product (c, n) => product.raise c n) s

/-- A shape without a variable. -/
def erase (s : Shape) (c : Char) : Shape :=
  ⟨s.powers.filter (·.1 != c), s.sorted.filter _, fun p h => s.positive p (List.mem_filter.1 h).1⟩

/-- The shape with the given exponents; of several for one variable the last counts. -/
def ofList (powers : List (Char × Nat)) : Shape :=
  powers.foldl (fun s (c, n) => (s.erase c).raise c n) one

/-- The spelling of one power. -/
def powerText (p : Char × Nat) : List Char :=
  if p.2 == 1 then [p.1] else p.1 :: '^' :: Nat.toDigits 10 p.2

/-- The spelling of a shape: the powers side by side. -/
def text (s : Shape) : List Char := s.powers.flatMap powerText

end Shape

end SamePoly
