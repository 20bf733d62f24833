/-
  Scanning the bytes of a text.

  The scans for operands look at ASCII symbols only, and no byte of any other character is one of
  them.  So they find the same operands in the bytes of a text as in its characters.

  * `byteSymbols`: the bytes of a text in UTF-8, each as the symbol with its number.
  * `KeepsAscii`: what is used of UTF-8; it also holds of UTF-8 read backwards.
  * `operandBefore_byteSymbols`, `operandAfter_byteSymbols`: **the operand that a scan of the bytes
    finds consists of the bytes of the operand**.
-/
import SamePoly.Proofs.OperandEnd

namespace SamePoly

variable {text run rest : List Char} {f : Char → List Char} {p : Char → Bool}

/-- The bytes of a text in UTF-8, each as the symbol with its number. -/
def byteSymbols (text : List Char) : List Char :=
  text.flatMap fun c => (String.utf8EncodeChar c).map UInt8.toChar

/-- A spelling that keeps every character below 128 and spells the others without them. -/
structure KeepsAscii (f : Char → List Char) : Prop where
  ascii : ∀ {c : Char}, c.toNat < 128 → f c = [c]
  beyond : ∀ {c : Char}, 128 ≤ c.toNat → f c ≠ [] ∧ ∀ d ∈ f c, 128 ≤ d.toNat

theorem toNat_toChar (b : UInt8) : b.toChar.toNat = b.toNat := rfl

theorem keepsAscii_utf8 : KeepsAscii fun c => (String.utf8EncodeChar c).map UInt8.toChar := by
  constructor
  · intro c small
    have one : c.val.toNat ≤ 127 := Nat.le_of_lt_succ small
    have same : (UInt8.ofNat c.toNat).toChar = c := by
      apply Char.toNat_inj.1
      rw [toNat_toChar, UInt8.toNat_ofNat']
      omega
    rw [String.utf8EncodeChar]
    simp only [one, if_true, List.map_cons, List.map_nil]
    exact congrArg (· :: []) same
  · intro c large
    have more : ¬c.val.toNat ≤ 127 := Nat.not_le_of_gt large
    rw [String.utf8EncodeChar]
    simp only [more, if_false]
    constructor
    · split_ifs <;> exact List.cons_ne_nil _ _
    · simp only [List.forall_mem_map, toNat_toChar]
      split_ifs <;>
        simp only [List.mem_cons, List.not_mem_nil, or_false, forall_eq_or_imp, forall_eq,
          UInt8.toNat_ofNat'] <;>
        omega

theorem ne_of_beyond {c d : Char} (beyond : 128 ≤ c.toNat) (small : d.toNat < 128) : c ≠ d := by
  rintro rfl
  exact small.not_ge beyond

namespace KeepsAscii

theorem reverse (hf : KeepsAscii f) : KeepsAscii (List.reverse ∘ f) := by
  constructor
  · intro c small
    rw [Function.comp_apply, hf.ascii small, List.reverse_singleton]
  · intro c large
    obtain ⟨nonempty, beyond⟩ := hf.beyond large
    exact ⟨by simpa using nonempty, by simpa using beyond⟩

theorem flatMap_cons (hf : KeepsAscii f) {c : Char} (small : c.toNat < 128) (text : List Char) :
    (c :: text).flatMap f = c :: text.flatMap f := by
  rw [List.flatMap_cons, hf.ascii small, List.singleton_append]

/-- The spelling of any other character starts with no ASCII symbol. -/
theorem exists_flatMap_cons (hf : KeepsAscii f) {c : Char} (large : 128 ≤ c.toNat)
    (text : List Char) : ∃ d rest, (c :: text).flatMap f = d :: rest ∧ 128 ≤ d.toNat := by
  obtain ⟨nonempty, beyond⟩ := hf.beyond large
  obtain ⟨d, rest, same⟩ := List.exists_cons_of_ne_nil nonempty
  refine ⟨d, rest ++ text.flatMap f, by rw [List.flatMap_cons, same]; rfl, ?_⟩
  exact beyond d (by rw [same]; exact List.mem_cons_self)

theorem flatMap_eq_self (hf : KeepsAscii f) (h : ∀ c ∈ run, c.toNat < 128) :
    run.flatMap f = run := by
  induction run with
  | nil => rfl
  | cons c run ih =>
    obtain ⟨small, hrun⟩ := List.forall_mem_cons.1 h
    rw [hf.flatMap_cons small, ih hrun]

/-! ## Runs of symbols -/

/-- A run of ASCII symbols is found in the spelling. -/
theorem takeWhile_flatMap (hf : KeepsAscii f) (hp : ∀ c, p c = true → c.toNat < 128)
    (text : List Char) : (text.flatMap f).takeWhile p = (text.takeWhile p).flatMap f := by
  have no {c : Char} (large : 128 ≤ c.toNat) : ¬p c = true := fun h => (hp c h).not_ge large
  induction text with
  | nil => rfl
  | cons c text ih =>
    rcases Nat.lt_or_ge c.toNat 128 with small | large
    · rw [hf.flatMap_cons small, List.takeWhile_cons, List.takeWhile_cons, ih]
      split
      · rw [hf.flatMap_cons small]
      · rfl
    · obtain ⟨d, rest, same, beyond⟩ := hf.exists_flatMap_cons large text
      rw [same, List.takeWhile_cons, List.takeWhile_cons, if_neg (no large), if_neg (no beyond)]
      rfl

/-- What stands behind a run of ASCII symbols is found in the spelling. -/
theorem dropWhile_flatMap (hf : KeepsAscii f) (hp : ∀ c, p c = true → c.toNat < 128)
    (text : List Char) : (text.flatMap f).dropWhile p = (text.dropWhile p).flatMap f := by
  have parts : (text.takeWhile p).flatMap f ++ (text.flatMap f).dropWhile p =
      (text.takeWhile p).flatMap f ++ (text.dropWhile p).flatMap f := by
    rw [← List.flatMap_append, List.takeWhile_append_dropWhile, ← hf.takeWhile_flatMap hp,
      List.takeWhile_append_dropWhile]
  exact List.append_cancel_left parts

/-! ## The scans -/

theorem startsPower_flatMap (hf : KeepsAscii f) (text : List Char) :
    startsPower (text.flatMap f) = startsPower text := by
  rw [startsPower, startsPower, hf.dropWhile_flatMap (by simp)]
  cases text.dropWhile (· == ' ') with
  | nil => rfl
  | cons c rest =>
    by_cases star : c = '*'
    · subst star
      rw [hf.flatMap_cons (by decide)]
      -- A star is a power operator only together with the next one.
      cases rest with
      | nil => rfl
      | cons c rest =>
        rcases Nat.lt_or_ge c.toNat 128 with small | large
        · rw [hf.flatMap_cons small]
          by_cases star : c = '*' <;> simp [star]
        · obtain ⟨d, more, same, beyond⟩ := hf.exists_flatMap_cons large rest
          rw [same]
          simp [ne_of_beyond large, ne_of_beyond beyond]
    · rcases Nat.lt_or_ge c.toNat 128 with small | large
      · rw [hf.flatMap_cons small]
        by_cases caret : c = '^' <;> simp [star, caret]
      · obtain ⟨d, more, same, beyond⟩ := hf.exists_flatMap_cons large rest
        rw [same]
        simp [ne_of_beyond large, ne_of_beyond beyond]

/-- The end of a group is found where it is in the spelling. -/
theorem reach_flatMap (hf : KeepsAscii f) (balance : ℤ) (text : List Char) :
    reach balance (text.flatMap f) = (reach balance text).flatMap f := by
  induction text generalizing balance with
  | nil => rfl
  | cons c text ih =>
    rcases Nat.lt_or_ge c.toNat 128 with small | large
    · rw [hf.flatMap_cons small]
      by_cases hopen : c = '('
      · subst hopen
        rw [reach_cons (groupBeforePower?_opening _ _), reach_cons (groupBeforePower?_opening _ _),
          ih, hf.flatMap_cons small]
      by_cases hclose : c = ')'
      · subst hclose
        rw [reach_closing, reach_closing, hf.startsPower_flatMap, ih, hf.flatMap_cons small]
        split <;> rfl
      · rw [reach_cons (groupBeforePower?_symbol hopen hclose _ _),
          reach_cons (groupBeforePower?_symbol hopen hclose _ _), ih, hf.flatMap_cons small]
    · have brackets {d : Char} (beyond : 128 ≤ d.toNat) : d ≠ '(' ∧ d ≠ ')' :=
        ⟨ne_of_beyond beyond (by decide), ne_of_beyond beyond (by decide)⟩
      obtain ⟨hopen, hclose⟩ := brackets large
      rw [reach_cons (groupBeforePower?_symbol hopen hclose balance text), List.flatMap_cons,
        List.flatMap_cons, reach_run fun d hd => brackets ((hf.beyond large).2 d hd), ih]

/-- Symbols that are no brackets do not end a group. -/
theorem splitAtMatch_run {target nested : Char} (hrun : ∀ c ∈ run, c ≠ nested ∧ c ≠ target)
    (depth : ℕ) (rest : List Char) :
    splitAtMatch target nested depth (run ++ rest) =
      (splitAtMatch target nested depth rest).map fun x => (run ++ x.1, x.2) := by
  induction run with
  | nil => exact Option.map_id'.symm
  | cons c run ih =>
    obtain ⟨⟨hnested, htarget⟩, hrun⟩ := List.forall_mem_cons.1 hrun
    rw [List.cons_append, splitAtMatch_symbol hnested htarget, ih hrun, Option.map_map]
    rfl

/-- A match is found where it is in the spelling. -/
theorem splitAtMatch_flatMap (hf : KeepsAscii f) {target nested : Char}
    (htarget : target.toNat < 128) (hnested : nested.toNat < 128) (depth : ℕ) (text : List Char) :
    splitAtMatch target nested depth (text.flatMap f) =
      (splitAtMatch target nested depth text).map fun x => (x.1.flatMap f, x.2.flatMap f) := by
  induction text generalizing depth with
  | nil => rfl
  | cons c text ih =>
    rcases Nat.lt_or_ge c.toNat 128 with small | large
    · rw [hf.flatMap_cons small]
      by_cases same : c = target
      · subst same
        cases depth with
        | zero => simp [splitAtMatch]
        | succ depth =>
          simp [splitAtMatch, ih, Function.comp_def, hf.flatMap_cons small]
      · simp [splitAtMatch, ih, Function.comp_def, hf.flatMap_cons small, same]
    · have brackets {d : Char} (beyond : 128 ≤ d.toNat) : d ≠ nested ∧ d ≠ target :=
        ⟨ne_of_beyond beyond hnested, ne_of_beyond beyond htarget⟩
      obtain ⟨hn, ht⟩ := brackets large
      rw [splitAtMatch_symbol hn ht, List.flatMap_cons,
        splitAtMatch_run fun d hd => brackets ((hf.beyond large).2 d hd), ih, Option.map_map,
        Option.map_map]
      simp [Function.comp_def]

end KeepsAscii

/-! ## Operands by their nearest symbol -/

section Nearest

variable {spaces : List Char} {c : Char}

theorem Spaces.reverse (h : Spaces spaces) : spaces.reverse = spaces := by
  rw [List.eq_replicate_of_mem h, List.reverse_replicate]

theorem Spaces.dropWhile_eq_nil (h : Spaces spaces) : spaces.dropWhile (· == ' ') = [] := by
  rw [← List.append_nil spaces, h.dropWhile]
  rfl

theorem operandAfter_spaces (h : Spaces spaces) : operandAfter spaces = spaces := by
  rw [operandAfter.eq_def, h.dropWhile_eq_nil]

theorem operandAfter_symbol (h : Spaces spaces) (space : c ≠ ' ') (hopen : c ≠ '(')
    (rest : List Char) :
    operandAfter (spaces ++ c :: rest) =
      spaces ++ if isVariable c = true then [c] else (c :: rest).takeWhile isNumeric := by
  have ends : Ends (· == ' ') (c :: rest) := .cons (by simpa using space)
  rw [operandAfter.eq_def, h.takeWhile ends, h.dropWhile, dropWhile_of_ends ends]
  dsimp only
  split
  · rename_i nil
    cases nil
  · rename_i opening
    exact absurd (List.cons.inj opening).1 hopen
  · rename_i same
    cases same
    split <;> rfl

theorem operandBefore_spaces (h : Spaces spaces) : operandBefore spaces = spaces := by
  rw [operandBefore.eq_def, h.reverse, h.dropWhile_eq_nil]

theorem operandBefore_closing (h : Spaces spaces) (text : List Char) :
    operandBefore (text ++ ')' :: spaces) =
      (match groupBefore? text.reverse with
        | some (inside, _) => '(' :: inside.reverse
        | none => text) ++ ')' :: spaces := by
  have backwards : (text ++ ')' :: spaces).reverse = spaces ++ ')' :: text.reverse := by
    simp [h.reverse]
  have ends : Ends (· == ' ') (')' :: text.reverse) := .cons rfl
  rw [operandBefore.eq_def, backwards, h.takeWhile ends, h.dropWhile, dropWhile_of_ends ends]
  cases found : groupBefore? text.reverse <;> simp [found]

theorem operandBefore_symbol (h : Spaces spaces) (space : c ≠ ' ') (hclose : c ≠ ')')
    (text : List Char) :
    operandBefore (text ++ c :: spaces) =
      (if isVariable c = true then [c] else ((c :: text.reverse).takeWhile isNumeric).reverse) ++
        spaces := by
  have backwards : (text ++ c :: spaces).reverse = spaces ++ c :: text.reverse := by
    simp [h.reverse]
  have ends : Ends (· == ' ') (c :: text.reverse) := .cons (by simpa using space)
  rw [operandBefore.eq_def, backwards, h.takeWhile ends, h.dropWhile, dropWhile_of_ends ends]
  dsimp only
  split
  · rename_i nil
    cases nil
  · rename_i closing
    exact absurd (List.cons.inj closing).1 hclose
  · rename_i same
    cases same
    split <;> rfl

/-- The nearest symbol that is no space, behind an operator. -/
theorem nearest_behind (after : List Char) :
    Spaces after ∨ ∃ spaces c rest, after = spaces ++ c :: rest ∧ Spaces spaces ∧ c ≠ ' ' := by
  cases nearest : ahead after with
  | none =>
    have all := List.dropWhile_eq_nil_iff.1 (List.head?_eq_none_iff.1 nearest)
    exact .inl fun c hc => by simpa using all c hc
  | some c =>
    obtain ⟨spaces, rest, same, h, space⟩ := exists_spaces nearest
    exact .inr ⟨spaces, c, rest, same, h, space⟩

/-- The nearest symbol that is no space, in front of an operator. -/
theorem nearest_before (before : List Char) :
    Spaces before ∨ ∃ text c spaces, before = text ++ c :: spaces ∧ Spaces spaces ∧ c ≠ ' ' := by
  rcases nearest_behind before.reverse with h | ⟨spaces, c, rest, same, h, space⟩
  · exact .inl (by simpa [Spaces] using h)
  · refine .inr ⟨rest.reverse, c, spaces, ?_, h, space⟩
    rw [← List.reverse_reverse before, same]
    simp [h.reverse]

end Nearest

/-! ## Operands in the bytes -/

theorem lt_of_isNumeric {c : Char} (h : isNumeric c = true) : c.toNat < 128 := by
  simp only [isNumeric, isSeparator, Bool.or_eq_true, beq_iff_eq] at h
  rcases h with ((h | rfl | rfl) | rfl) | rfl
  · have := toNat_of_isDigit h
    omega
  all_goals decide

theorem lt_of_isVariable {c : Char} (h : isVariable c = true) : c.toNat < 128 := by
  rw [isVariable, Bool.and_eq_true] at h
  have := toNat_of_isLower h.1
  omega

namespace KeepsAscii

theorem flatMap_spaces (hf : KeepsAscii f) {spaces : List Char} (h : Spaces spaces) :
    spaces.flatMap f = spaces :=
  hf.flatMap_eq_self fun c hc => by rw [h c hc]; decide

theorem flatMap_numeric (hf : KeepsAscii f) (text : List Char) :
    (text.takeWhile isNumeric).flatMap f = text.takeWhile isNumeric :=
  hf.flatMap_eq_self fun _ hc => lt_of_isNumeric (List.mem_takeWhile_imp hc)

theorem operandAfter_flatMap (hf : KeepsAscii f) (after : List Char) :
    operandAfter (after.flatMap f) = (operandAfter after).flatMap f := by
  rcases nearest_behind after with h | ⟨spaces, c, rest, rfl, h, space⟩
  · rw [hf.flatMap_spaces h, operandAfter_spaces h, hf.flatMap_spaces h]
  rw [List.flatMap_append, hf.flatMap_spaces h]
  rcases Nat.lt_or_ge c.toNat 128 with small | large
  · rw [hf.flatMap_cons small]
    by_cases hopen : c = '('
    · subst hopen
      rw [operandAfter_opening h, operandAfter_opening h, hf.reach_flatMap, List.flatMap_append,
        hf.flatMap_spaces h, hf.flatMap_cons small]
    · rw [operandAfter_symbol h space hopen, operandAfter_symbol h space hopen, List.flatMap_append,
        hf.flatMap_spaces h]
      congr 1
      split
      · exact (hf.flatMap_cons small []).symm
      · rw [← hf.flatMap_cons small, hf.takeWhile_flatMap fun _ => lt_of_isNumeric]
  · -- Neither the character nor the symbol that its spelling starts with belongs to an operand.
    have nothing {c : Char} (large : 128 ≤ c.toNat) (rest : List Char) :
        operandAfter (spaces ++ c :: rest) = spaces := by
      have letter : ¬isVariable c = true := fun h => large.not_gt (lt_of_isVariable h)
      have numeric : ¬isNumeric c = true := fun h => large.not_gt (lt_of_isNumeric h)
      rw [operandAfter_symbol h (ne_of_beyond large (by decide)) (ne_of_beyond large (by decide)),
        if_neg letter, List.takeWhile_cons, if_neg numeric, List.append_nil]
    obtain ⟨d, more, same, beyond⟩ := hf.exists_flatMap_cons large rest
    rw [same, nothing beyond, nothing large, hf.flatMap_spaces h]

theorem operandBefore_flatMap (hf : KeepsAscii f) (before : List Char) :
    operandBefore (before.flatMap f) = (operandBefore before).flatMap f := by
  rcases nearest_before before with h | ⟨text, c, spaces, rfl, h, space⟩
  · rw [hf.flatMap_spaces h, operandBefore_spaces h, hf.flatMap_spaces h]
  rw [List.flatMap_append, List.flatMap_cons, hf.flatMap_spaces h]
  have backwards : (text.flatMap f).reverse = text.reverse.flatMap (List.reverse ∘ f) :=
    List.reverse_flatMap
  rcases Nat.lt_or_ge c.toNat 128 with small | large
  · rw [hf.ascii small, List.singleton_append]
    by_cases hclose : c = ')'
    · subst hclose
      rw [operandBefore_closing h, operandBefore_closing h, backwards, groupBefore?,
        hf.reverse.splitAtMatch_flatMap (by decide) (by decide), ← groupBefore?, List.flatMap_append,
        hf.flatMap_cons small, hf.flatMap_spaces h]
      congr 1
      cases groupBefore? text.reverse with
      | none => rfl
      | some x =>
        have forwards : (x.1.flatMap (List.reverse ∘ f)).reverse = x.1.reverse.flatMap f := by
          simp [List.reverse_flatMap, Function.comp_def]
        exact (congrArg ('(' :: ·) forwards).trans (hf.flatMap_cons (by decide) _).symm
    · rw [operandBefore_symbol h space hclose, operandBefore_symbol h space hclose,
        List.flatMap_append, hf.flatMap_spaces h]
      congr 1
      split
      · exact (hf.flatMap_cons small []).symm
      · rw [backwards, ← hf.reverse.flatMap_cons small,
          hf.reverse.takeWhile_flatMap fun _ => lt_of_isNumeric, hf.reverse.flatMap_numeric]
        refine (hf.flatMap_eq_self fun d hd => ?_).symm
        exact lt_of_isNumeric (List.mem_takeWhile_imp (List.mem_reverse.1 hd))
  · -- Neither the character nor the symbol that its spelling ends with belongs to an operand.
    have nothing {c : Char} (large : 128 ≤ c.toNat) (text : List Char) :
        operandBefore (text ++ c :: spaces) = spaces := by
      have letter : ¬isVariable c = true := fun h => large.not_gt (lt_of_isVariable h)
      have numeric : ¬isNumeric c = true := fun h => large.not_gt (lt_of_isNumeric h)
      rw [operandBefore_symbol h (ne_of_beyond large (by decide)) (ne_of_beyond large (by decide)),
        if_neg letter, List.takeWhile_cons, if_neg numeric]
      rfl
    obtain ⟨nonempty, beyond⟩ := hf.beyond large
    obtain ⟨first, d, same⟩ := (List.eq_nil_or_concat (f c)).resolve_left nonempty
    rw [List.concat_eq_append] at same
    rw [same] at beyond
    have last : 128 ≤ d.toNat := beyond d (by simp)
    rw [same, List.append_assoc, List.singleton_append, ← List.append_assoc, nothing last,
      nothing large, hf.flatMap_spaces h]

end KeepsAscii

/-- **The operand that a scan of the bytes behind an operator finds consists of its bytes.** -/
theorem operandAfter_byteSymbols (after : List Char) :
    operandAfter (byteSymbols after) = byteSymbols (operandAfter after) :=
  keepsAscii_utf8.operandAfter_flatMap after

/-- **The operand that a scan of the bytes in front of an operator finds consists of its bytes.** -/
theorem operandBefore_byteSymbols (before : List Char) :
    operandBefore (byteSymbols before) = byteSymbols (operandBefore before) :=
  keepsAscii_utf8.operandBefore_flatMap before

/-- A text has as many bytes as its characters take up together. -/
theorem length_byteSymbols (text : List Char) : (byteSymbols text).length = utf8Length text := by
  induction text with
  | nil => rfl
  | cons c text ih =>
    rw [byteSymbols, List.flatMap_cons, ← byteSymbols, List.length_append, List.length_map,
      String.length_utf8EncodeChar, ih]
    rfl

theorem byteSymbols_append (left right : List Char) :
    byteSymbols (left ++ right) = byteSymbols left ++ byteSymbols right := List.flatMap_append

end SamePoly
