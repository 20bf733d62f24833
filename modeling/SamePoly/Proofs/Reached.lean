/-
  Which factors are looked at.

  Factors are evaluated from left to right, and the first one that comes to nothing ends the
  product.  Where a tower breaks off behind a `^`, its factor comes to nothing, so the factors
  that are looked at are stretches and groups of the product.

  * `error_of_mapM`, `error_of_foldlM`: a failed pass fails at one place, behind successes only.
  * `reads_of_evaluateFactor`: an evaluated factor has readable exponents.
  * `Segmented.of_earlier`: **a factor behind successes only is a stretch or a group**.
-/
import SamePoly.Proofs.Calls
import SamePoly.Proofs.Readable
import SamePoly.Proofs.Segments

namespace SamePoly

variable {R : Type} [Scalar R]

/-! ## Passes that fail -/

theorem error_of_mapM {α β ε : Type} {f : α → Except ε β} {xs : List α} {e : ε}
    (h : xs.mapM f = .error e) :
    ∃ before x after, xs = before ++ x :: after ∧ (∀ y ∈ before, ∃ b, f y = .ok b) ∧
      f x = .error e := by
  induction xs with
  | nil => cases h
  | cons x xs ih =>
    rw [List.mapM_cons] at h
    cases hx : f x with
    | error e' =>
      rw [hx] at h
      cases h
      exact ⟨[], x, xs, rfl, nofun, hx⟩
    | ok b =>
      rw [hx] at h
      cases hxs : xs.mapM f with
      | error e' =>
        rw [hxs] at h
        cases h
        obtain ⟨before, y, after, rfl, earlier, hy⟩ := ih hxs
        exact ⟨x :: before, y, after, rfl, List.forall_mem_cons.2 ⟨⟨b, hx⟩, earlier⟩, hy⟩
      | ok bs =>
        rw [hxs] at h
        cases h

theorem error_of_foldlM {α β ε : Type} {f : β → α → Except ε β} {xs : List α} {b : β} {e : ε}
    (h : xs.foldlM f b = .error e) :
    ∃ before x after found, xs = before ++ x :: after ∧
      (∀ y ∈ before, ∃ b b', f b y = .ok b') ∧ f found x = .error e := by
  induction xs generalizing b with
  | nil => cases h
  | cons x xs ih =>
    rw [List.foldlM_cons] at h
    cases hx : f b x with
    | error e' =>
      rw [hx] at h
      cases h
      exact ⟨[], x, xs, b, rfl, nofun, hx⟩
    | ok b' =>
      rw [hx] at h
      obtain ⟨before, y, after, found, rfl, earlier, hy⟩ := ih h
      exact ⟨x :: before, y, after, found, rfl, List.forall_mem_cons.2 ⟨⟨b, b', hx⟩, earlier⟩, hy⟩

theorem ok_of_foldlM {α β ε : Type} {f : β → α → Except ε β} {xs : List α} {b b' : β}
    (h : xs.foldlM f b = .ok b') : ∀ x ∈ xs, ∃ found more, f found x = .ok more := by
  induction xs generalizing b with
  | nil => exact List.forall_mem_nil _
  | cons x xs ih =>
    rw [List.foldlM_cons] at h
    cases hx : f b x with
    | error e =>
      rw [hx] at h
      cases h
    | ok more =>
      rw [hx] at h
      exact List.forall_mem_cons.2 ⟨⟨b, more, hx⟩, ih h⟩

/-! ## Factors that are evaluated -/

theorem pieces_prepareFactor (factor : List Char) (e : Exponent) :
    (prepareFactor factor e).2.pieces = e.pieces := by
  rw [prepareFactor.eq_def]
  split <;> rfl

/-- An evaluated factor has a readable exponent. -/
theorem reads_of_evaluateFactor {x : List Char × Exponent} {f : Factor R}
    (h : evaluateFactor x.1 x.2 = .ok f) : ∀ p ∈ x.2.pieces, Reads p := by
  rw [evaluateFactor] at h
  dsimp only at h
  split at h
  · cases h
  · split at h
    · cases h
    · rename_i value hvalue
      rw [← pieces_prepareFactor x.1 x.2]
      exact Exponent.reads_of_evaluate _ hvalue

theorem reads_of_factorTerm {text : List Char} {depth : ℕ} {x : List Char × Exponent}
    {u : Term (Number R)} (h : factorTerm R text depth x = .ok u) : ∀ p ∈ x.2.pieces, Reads p := by
  rw [factorTerm] at h
  split at h
  · cases h
  · rename_i hx
    exact reads_of_evaluateFactor hx
  · rename_i hx
    exact reads_of_evaluateFactor hx

theorem reads_of_multiplyFactor {text : List Char} {x : List Char × Exponent}
    {found more : Number R × Shape} (h : multiplyFactor R text found x = .ok more) :
    ∀ p ∈ x.2.pieces, Reads p := by
  cases hx : (evaluateFactor x.1 x.2 : Except FactorFault (Factor R)) with
  | error fault =>
    rw [multiplyFactor, hx] at h
    cases h
  | ok f => exact reads_of_evaluateFactor hx

/-! ## Factors of segments -/

section Segments

variable {factors : Factors} {text last : List Char} {segments : List Segment}
variable {x : List Char × Exponent}

theorem Factors.mem_push {factor : List Char} {e : Exponent} (h : x ∈ factors.push factor e) :
    x.1 = factor ∨ ∃ y ∈ factors, y.1 = x.1 := by
  have known : ∀ y ∈ factors, (y.1 = factor ∨ ∃ z ∈ factors, z.1 = y.1) ∧
      ∀ p ∈ y.2.pieces, True := fun y hy => ⟨.inr ⟨y, hy, rfl⟩, fun _ _ => trivial⟩
  exact (Factors.forall_push (P := fun t => t = factor ∨ ∃ z ∈ factors, z.1 = t)
    (E := fun _ => True) known (fun _ => ⟨.inl rfl, fun _ _ => trivial⟩) x h).1

/-- The factors of segments are their stretches and their groups. -/
theorem Segment.mem_foldl_push (h : x ∈ segments.foldl Segment.push factors) :
    (∃ s ∈ segments, x.1 = s.lead ∨ x.1 = s.inside) ∨ ∃ y ∈ factors, y.1 = x.1 := by
  induction segments generalizing factors with
  | nil => exact .inr ⟨x, h, rfl⟩
  | cons s segments ih =>
    rcases ih h with ⟨s', hs', spec⟩ | ⟨y, hy, same⟩
    · exact .inl ⟨s', List.mem_cons_of_mem _ hs', spec⟩
    · rw [← same]
      rcases Factors.mem_push hy with group | ⟨z, hz, same⟩
      · exact .inl ⟨s, List.mem_cons_self, .inr group⟩
      · rcases Factors.mem_push hz with stretch | ⟨w, hw, same'⟩
        · exact .inl ⟨s, List.mem_cons_self, .inl (same ▸ stretch)⟩
        · exact .inr ⟨w, hw, same'.trans same⟩

theorem Segment.extends_foldl_push (segments : List Segment) (factors : Factors) :
    factors.Extends (segments.foldl Segment.push factors) := by
  induction segments generalizing factors with
  | nil => exact .refl factors
  | cons s segments ih =>
    exact ((Factors.extends_push _ _ _).trans (Factors.extends_push _ _ _)).trans (ih _)

/-- The group of every segment is a factor, with its exponent. -/
theorem Segment.exists_mem_foldl_push {s : Segment} (hs : s ∈ segments) (filled : s.inside ≠ [])
    (factors : Factors) :
    ∃ y ∈ segments.foldl Segment.push factors, y.1 = s.inside ∧
      ∀ p ∈ s.exponent.pieces, p ∈ y.2.pieces := by
  induction segments generalizing factors with
  | nil => cases hs
  | cons s' segments ih =>
    rcases List.mem_cons.1 hs with rfl | hs
    · obtain ⟨y, hy, same, kept⟩ := Factors.exists_mem_push (factors.push s.lead .one) filled
        s.exponent
      obtain ⟨z, hz, same', kept'⟩ := (Segment.extends_foldl_push segments _).exists_mem hy
      exact ⟨z, hz, same'.trans same, fun p hp => kept' p (kept p hp)⟩
    · exact ih hs _

/-- The texts of the exponent of a group contain the tower behind it. -/
theorem Segment.mem_pieces_exponent {s : Segment} {e : List Char} (h : e ∈ s.tower) :
    e ∈ s.exponent.pieces := by
  have tower : s.tower = some e := h
  rw [Segment.exponent, tower]
  split <;> exact List.mem_singleton_self e

/-- **A factor behind successes only is a stretch or a group of the product.** -/
theorem Segmented.of_earlier {before after : Factors} (h : Segmented [] text segments last)
    (filled : ∀ s ∈ segments, s.inside ≠ []) (cut : splitComposition text = before ++ x :: after)
    (earlier : ∀ y ∈ before, ∀ p ∈ y.2.pieces, Reads p) :
    (∃ s ∈ segments, x.1 = s.lead ∨ x.1 = s.inside) ∨
      x.1 = last ∧ ∀ c ∈ last, c ≠ '(' ∧ c ≠ ')' ∧ c ≠ '^' := by
  have collected (hx : ∃ y ∈ segments.foldl Segment.push [], y.1 = x.1) :
      ∃ s ∈ segments, x.1 = s.lead ∨ x.1 = s.inside := by
    obtain ⟨y, hy, same⟩ := hx
    rcases Segment.mem_foldl_push hy with spec | ⟨z, hz, -⟩
    · exact same ▸ spec
    · cases hz
  rcases h.added with ⟨-, clean, added⟩ | ⟨⟨s, hs, e, he, broken⟩, added⟩
  · have hx : x ∈ splitComposition text := by
      rw [cut]
      exact List.mem_append_right _ List.mem_cons_self
    rw [splitComposition, added] at hx
    rcases Factors.mem_push hx with hlast | hx
    · exact .inr ⟨hlast, clean⟩
    · exact .inl (collected hx)
  · -- The factor of the broken tower never succeeds, so nothing behind the segments is reached.
    have extended : (segments.foldl Segment.push []).Extends (splitComposition text) := by
      rw [splitComposition, added]
      exact Factors.extends_splitCompositionFrom _ _ _ _ _
    obtain ⟨y, hy, -, kept⟩ := Segment.exists_mem_foldl_push hs (filled s hs) []
    refine .inl (collected (extended.mem_of_earlier cut ⟨y, hy, fun z _ _ keeps reads => ?_⟩ earlier))
    exact getLast?_ne_of_read? (reads e (keeps e (kept e (Segment.mem_pieces_exponent he)))) broken

end Segments

end SamePoly
