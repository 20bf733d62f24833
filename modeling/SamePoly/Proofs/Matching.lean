/-
  Pairs of brackets by place.

  In balanced text every bracket has a partner, and a search from either of the two finds the other.
  What stands between them is balanced, so two pairs never overlap in part.

  * `SymbolAt`: a symbol that stands at a place.
  * `PairAt`: an opening bracket and the one that closes it.
  * `Balanced.groupBefore?_append`: a balanced group is found whole from its end.
  * `PairAt.matching_opening`, `PairAt.matching_closing`: each bracket of a pair matches the other.
  * `PairAt.apart`: two pairs are the same, disjoint or nested.
  * `matchingBracket?_pairs`: **the brackets of balanced text match in pairs**.
-/
import SamePoly.Proofs.Balance

namespace SamePoly

variable {text before inside middle after inside' after' : List Char} {i j k l : ℕ}

/-! ## Groups from their end -/

namespace Balanced

theorem splitAtMatch_reverse (h : Balanced text) (depth : ℕ) (rest : List Char) :
    splitAtMatch '(' ')' depth (text.reverse ++ rest) =
      (splitAtMatch '(' ')' depth rest).map fun x => (text.reverse ++ x.1, x.2) := by
  induction h generalizing depth rest with
  | nil => exact Option.map_id'.symm
  | symbol hopen hclose _ ih =>
    rw [List.reverse_cons, List.append_assoc, List.singleton_append, ih,
      splitAtMatch_symbol hclose hopen, Option.map_map]
    congr 1
    funext x
    simp
  | @group inside tail _ _ ihInside ih =>
    have backwards : ('(' :: (inside ++ ')' :: tail)).reverse =
        tail.reverse ++ ')' :: (inside.reverse ++ ['(']) := by simp
    rw [backwards, List.append_assoc, List.cons_append, List.append_assoc, List.singleton_append,
      ih, splitAtMatch_nested (by decide), ihInside, splitAtMatch_target_succ, Option.map_map,
      Option.map_map, Option.map_map]
    congr 1
    funext x
    simp

/-- A balanced group is found whole from its end. -/
theorem groupBefore?_append (h : Balanced inside) (before : List Char) :
    groupBefore? (before ++ '(' :: inside).reverse = some (inside.reverse, before.reverse) := by
  have backwards : (before ++ '(' :: inside).reverse = inside.reverse ++ '(' :: before.reverse := by
    simp
  rw [backwards, groupBefore?, h.splitAtMatch_reverse, splitAtMatch_target_zero, Option.map_some,
    List.append_nil]

/-- Every closing bracket of balanced text has an opening one. -/
theorem exists_group_before (h : Balanced text) (whole : text = before ++ ')' :: after) :
    ∃ front inside, before = front ++ '(' :: inside ∧ Balanced inside := by
  induction h generalizing before after with
  | nil => cases before <;> cases whole
  | @symbol c tail _ hclose _ ih =>
    cases before with
    | nil =>
      cases whole
      exact absurd rfl hclose
    | cons d before =>
      cases whole
      obtain ⟨front, inside, rfl, balanced⟩ := ih rfl
      exact ⟨c :: front, inside, rfl, balanced⟩
  | @group inside tail balanced _ ihInside ih =>
    cases before with
    | nil => cases whole
    | cons d before =>
      obtain ⟨rfl, same⟩ := List.cons.inj whole
      -- The closing bracket stands behind the group, or is its own, or stands inside it.
      rcases List.append_eq_append_iff.1 same with ⟨gap, rfl, hafter⟩ | ⟨gap, hinside, hafter⟩
      · cases gap with
        | nil => exact ⟨[], inside, by simp, balanced⟩
        | cons c gap =>
          cases hafter
          obtain ⟨front, inside', rfl, balanced'⟩ := ih rfl
          exact ⟨'(' :: (inside ++ ')' :: front), inside', by simp, balanced'⟩
      · cases gap with
        | nil =>
          rw [List.append_nil] at hinside
          exact ⟨[], inside, by rw [hinside]; rfl, balanced⟩
        | cons c gap =>
          cases hafter
          obtain ⟨front, inside', rfl, balanced'⟩ := ihInside hinside
          exact ⟨'(' :: front, inside', rfl, balanced'⟩

end Balanced

/-! ## Pairs -/

/-- The symbol `c` stands at a place. -/
def SymbolAt (text : List Char) (c : Char) (place : ℕ) : Prop :=
  ∃ before after, text = before ++ c :: after ∧ utf8Length before = place

/-- The bracket at the place `i` is closed by the one at the place `j`, and what stands strictly
    between them is balanced. -/
def PairAt (text : List Char) (i j : ℕ) : Prop :=
  ∃ before inside after, text = before ++ '(' :: (inside ++ ')' :: after) ∧ Balanced inside ∧
    utf8Length before = i ∧ utf8Length (before ++ '(' :: inside) = j

/-- A search from an opening bracket goes on behind it. -/
theorem matchingBracket?_opening (before rest : List Char) :
    matchingBracket? (before ++ '(' :: rest) (utf8Length before) =
      (group? rest).map fun x => utf8Length before + 1 + utf8Length x.1 := by
  rw [matchingBracket?, matchingBy, cut_utf8Length]
  rfl

/-- A search from a closing bracket goes on in front of it, backwards. -/
theorem matchingBracket?_closing (before rest : List Char) :
    matchingBracket? (before ++ ')' :: rest) (utf8Length before) =
      (groupBefore? before.reverse).map fun x => utf8Length x.2 := by
  rw [matchingBracket?, matchingBy, cut_utf8Length]
  rfl

theorem utf8Length_reverse (text : List Char) : utf8Length text.reverse = utf8Length text := by
  induction text with
  | nil => rfl
  | cons c text ih => simp [utf8Length, ih, Nat.add_comm]

/-- Every opening bracket of balanced text belongs to a pair. -/
theorem Balanced.exists_pair_opening (h : Balanced text) (opening : SymbolAt text '(' i) :
    ∃ j, PairAt text i j := by
  obtain ⟨before, rest, rfl, place⟩ := opening
  obtain ⟨inside, after, rfl, balanced⟩ := h.exists_group rfl
  exact ⟨_, before, inside, after, rfl, balanced, place, rfl⟩

/-- Every closing bracket of balanced text belongs to a pair. -/
theorem Balanced.exists_pair_closing (h : Balanced text) (closing : SymbolAt text ')' j) :
    ∃ i, PairAt text i j := by
  obtain ⟨before, after, rfl, place⟩ := closing
  obtain ⟨front, inside, rfl, balanced⟩ := h.exists_group_before rfl
  exact ⟨_, front, inside, after, by simp, balanced, rfl, place⟩

/-- A group inside the text behind an opening bracket is behind or inside the group of that
    bracket. -/
theorem Balanced.behind_or_inside (h : Balanced inside) (h' : Balanced inside')
    (same : inside ++ ')' :: after = middle ++ '(' :: (inside' ++ ')' :: after')) :
    (∃ gap, middle = inside ++ ')' :: gap) ∨
      ∃ gap, inside = middle ++ '(' :: (inside' ++ ')' :: gap) := by
  rcases List.append_eq_append_iff.1 same with ⟨gap, hmiddle, hafter⟩ | ⟨gap, rfl, hafter⟩
  · cases gap with
    | nil => cases hafter
    | cons c gap =>
      cases hafter
      exact Or.inl ⟨gap, hmiddle⟩
  · cases gap with
    | nil => cases hafter
    | cons c gap =>
      obtain ⟨rfl, behind⟩ := List.cons.inj hafter
      -- Inside a balanced part the bracket has a group, and it has only one in the whole text.
      obtain ⟨inside'', gap', rfl, balanced⟩ := h.exists_group rfl
      obtain ⟨rfl, -⟩ := h'.group_unique balanced (behind.trans (List.append_assoc _ _ _))
      exact Or.inr ⟨gap', rfl⟩

namespace PairAt

/-- A search from the opening bracket of a pair finds the closing one. -/
theorem matching_opening (h : PairAt text i j) : matchingBracket? text i = some j := by
  obtain ⟨before, inside, after, rfl, balanced, rfl, rfl⟩ := h
  rw [matchingBracket?_opening, balanced.group?_append, Option.map_some, utf8Length_append,
    utf8Length, Nat.add_assoc]
  rfl

/-- A search from the closing bracket of a pair finds the opening one. -/
theorem matching_closing (h : PairAt text i j) : matchingBracket? text j = some i := by
  obtain ⟨before, inside, after, rfl, balanced, rfl, rfl⟩ := h
  have whole : before ++ '(' :: (inside ++ ')' :: after) =
      (before ++ '(' :: inside) ++ ')' :: after := by simp
  rw [whole, matchingBracket?_closing, balanced.groupBefore?_append, Option.map_some,
    utf8Length_reverse]

/-- A pair that starts behind the start of another one lies behind it or inside it. -/
theorem apart_of_lt (h : PairAt text i j) (h' : PairAt text k l) (hlt : i < k) :
    j < k ∨ l < j := by
  obtain ⟨before, inside, after, rfl, balanced, rfl, rfl⟩ := h
  obtain ⟨before', inside', after', same, balanced', rfl, rfl⟩ := h'
  rcases List.append_eq_append_iff.1 same with ⟨gap, rfl, behind⟩ | ⟨gap, rfl, -⟩
  · cases gap with
    | nil => simp at hlt
    | cons c middle =>
      obtain ⟨rfl, inner⟩ := List.cons.inj behind
      rcases balanced.behind_or_inside balanced' inner with ⟨gap, rfl⟩ | ⟨gap, rfl⟩
      · left
        simp [utf8Length, Char.utf8Size_pos]
      · right
        simp [utf8Length, Char.utf8Size_pos]
  · rw [utf8Length_append] at hlt
    omega

/-- Two pairs are the same, disjoint or nested. -/
theorem apart (h : PairAt text i j) (h' : PairAt text k l) :
    i = k ∧ j = l ∨ j < k ∨ l < i ∨ i < k ∧ l < j ∨ k < i ∧ j < l := by
  rcases lt_trichotomy i k with hlt | rfl | hlt
  · have := h.apart_of_lt h' hlt
    tauto
  · have same := h.matching_opening.symm.trans h'.matching_opening
    exact Or.inl ⟨rfl, Option.some.inj same⟩
  · have := h'.apart_of_lt h hlt
    tauto

end PairAt

/-- **The brackets of balanced text match in pairs.**  Each has a partner, whose partner it is, the
    text strictly between the two is balanced, and two pairs are the same, disjoint or nested. -/
theorem matchingBracket?_pairs (h : checkBrackets text = none) :
    (∀ i, SymbolAt text '(' i →
        ∃ j, matchingBracket? text i = some j ∧ matchingBracket? text j = some i ∧
          PairAt text i j) ∧
      (∀ j, SymbolAt text ')' j →
        ∃ i, matchingBracket? text j = some i ∧ matchingBracket? text i = some j ∧
          PairAt text i j) ∧
      ∀ i j k l, SymbolAt text '(' i → matchingBracket? text i = some j →
        SymbolAt text '(' k → matchingBracket? text k = some l →
        i = k ∧ j = l ∨ j < k ∨ l < i ∨ i < k ∧ l < j ∨ k < i ∧ j < l := by
  have balanced := checkBrackets_eq_none_iff.1 h
  have pair {i j : ℕ} (opening : SymbolAt text '(' i) (found : matchingBracket? text i = some j) :
      PairAt text i j := by
    obtain ⟨j', h⟩ := balanced.exists_pair_opening opening
    obtain rfl : j' = j := Option.some.inj (h.matching_opening.symm.trans found)
    exact h
  refine ⟨fun i opening => ?_, fun j closing => ?_, fun i j k l hi hj hk hl => ?_⟩
  · obtain ⟨j, h⟩ := balanced.exists_pair_opening opening
    exact ⟨j, h.matching_opening, h.matching_closing, h⟩
  · obtain ⟨i, h⟩ := balanced.exists_pair_closing closing
    exact ⟨i, h.matching_closing, h.matching_opening, h⟩
  · exact (pair hi hj).apart (pair hk hl)

/-- The brackets of `é(x(y))(2)`, whose first letter takes two bytes. -/
theorem matchingBracket?_pairs_accented : checkBrackets "é(x(y))(2)".toList = none ∧
    SymbolAt "é(x(y))(2)".toList '(' 2 ∧ PairAt "é(x(y))(2)".toList 2 7 ∧
    SymbolAt "é(x(y))(2)".toList ')' 6 ∧ PairAt "é(x(y))(2)".toList 4 6 := by
  have fine : checkBrackets "é(x(y))(2)".toList = none := by decide
  have opening : SymbolAt "é(x(y))(2)".toList '(' 2 := ⟨['é'], _, rfl, rfl⟩
  have closing : SymbolAt "é(x(y))(2)".toList ')' 6 := ⟨"é(x(y".toList, _, rfl, rfl⟩
  obtain ⟨outer, inner, -⟩ := matchingBracket?_pairs fine
  obtain ⟨j, found, -, pair⟩ := outer 2 opening
  obtain ⟨i, found', -, pair'⟩ := inner 6 closing
  obtain rfl : 7 = j := Option.some.inj ((by decide : _ = some 7).symm.trans found)
  obtain rfl : 4 = i := Option.some.inj ((by decide : _ = some 4).symm.trans found')
  exact ⟨fine, opening, pair, closing, pair'⟩

end SamePoly
