/-
  Nesting of normalized text.

  The normalization puts further brackets into a text, but nothing with an operator stands in
  them, so the nesting of a text bounds the levels on which its normalized text is compiled.

  * `IsAtom`: a literal or a letter.
  * `Nested`: the brackets of a text are closed, and only so many of them are open at a time.
  * `Layered`: balanced text with so many layers of groups, those of atoms not counted.
  * `Balanced.normalize_layered`: **normalized text has no more layers than its text is nested**.
-/
import SamePoly.Proofs.Normalization

namespace SamePoly

variable {c : Char} {inside rest text : List Char} {n depth : ℕ}

/-! ## Atoms -/

/-- A text of literal symbols and letters. -/
def IsAtom (text : List Char) : Prop := ∀ c ∈ text, isLiteral c = true ∨ c.isLower = true

theorem ne_of_atom (hc : isLiteral c = true ∨ c.isLower = true) : c ≠ '(' ∧ c ≠ ')' ∧ c ≠ '^' := by
  refine ⟨?_, ?_, ?_⟩ <;> (rintro rfl; revert hc; decide)

/-- A group of an atom goes on here. -/
def AtomAhead (text : List Char) : Prop :=
  ∃ inside after, text = inside ++ ')' :: after ∧ IsAtom inside

/-! ## Open brackets -/

/-- The brackets of a text, `depth` of which are open already, are all closed, and where `n` are
    open another one is opened only in front of what `exempt` says. -/
def Nested (exempt : List Char → Prop) (n : ℕ) (depth : ℕ) : List Char → Prop
  | [] => depth = 0
  | c :: rest =>
    if c = '(' then (depth < n ∨ exempt rest) ∧ Nested exempt n (depth + 1) rest
    else if c = ')' then depth ≠ 0 ∧ Nested exempt n (depth - 1) rest
    else Nested exempt n depth rest

namespace Nested

variable {exempt exempt' : List Char → Prop}

theorem opening :
    Nested exempt n depth ('(' :: rest) ↔
      (depth < n ∨ exempt rest) ∧ Nested exempt n (depth + 1) rest := by
  rw [Nested, if_pos rfl]

theorem closing :
    Nested exempt n depth (')' :: rest) ↔ depth ≠ 0 ∧ Nested exempt n (depth - 1) rest := by
  rw [Nested, if_neg (by decide), if_pos rfl]

theorem symbol (hopen : c ≠ '(') (hclose : c ≠ ')') :
    Nested exempt n depth (c :: rest) ↔ Nested exempt n depth rest := by
  rw [Nested, if_neg hopen, if_neg hclose]

theorem caret : Nested exempt n depth ('^' :: rest) ↔ Nested exempt n depth rest :=
  symbol (by simp) (by simp)

theorem times : Nested exempt n depth ('*' :: rest) ↔ Nested exempt n depth rest :=
  symbol (by simp) (by simp)

/-- A step that leaves a symbol where it is. -/
theorem cons (ahead : exempt rest → exempt' text)
    (ih : ∀ {depth}, Nested exempt n depth rest → Nested exempt' n depth text)
    (h : Nested exempt n depth (c :: rest)) : Nested exempt' n depth (c :: text) := by
  by_cases hopen : c = '('
  · rw [hopen, opening] at h ⊢
    exact ⟨h.1.imp_right ahead, ih h.2⟩
  · by_cases hclose : c = ')'
    · rw [hclose, closing] at h ⊢
      exact ⟨h.1, ih h.2⟩
    · rw [symbol hopen hclose] at h ⊢
      exact ih h

theorem of_append (ha : IsAtom inside) :
    Nested exempt n depth (inside ++ rest) ↔ Nested exempt n depth rest := by
  induction inside with
  | nil => rfl
  | cons c inside ih =>
    obtain ⟨hopen, hclose, -⟩ := ne_of_atom (ha c List.mem_cons_self)
    rw [List.cons_append, symbol hopen hclose, ih fun d hd => ha d (List.mem_cons_of_mem _ hd)]

/-- An atom may be put in brackets anywhere. -/
theorem group (ha : IsAtom inside) (hr : Nested AtomAhead n depth rest) :
    Nested AtomAhead n depth ('(' :: (inside ++ ')' :: rest)) := by
  rw [opening]
  refine ⟨.inr ⟨inside, rest, rfl, ha⟩, (of_append ha).2 (closing.2 ⟨Nat.succ_ne_zero _, ?_⟩)⟩
  exact hr

end Nested

/-- Balanced text that is not nested too deeply. -/
theorem Balanced.nested_append (h : Balanced text) (hn : depth + nestingDepth text ≤ n)
    (hr : Nested (fun _ => False) n depth rest) :
    Nested (fun _ => False) n depth (text ++ rest) := by
  induction h generalizing depth rest with
  | nil => exact hr
  | symbol hopen hclose _ ih =>
    rw [List.cons_append, Nested.symbol hopen hclose]
    rw [nestingDepth, deepest_symbol hopen hclose] at hn
    exact ih hn hr
  | @group inside tail hinside _ ihInside ih =>
    rw [hinside.nestingDepth_group] at hn
    rw [List.cons_append, List.append_assoc, List.cons_append, Nested.opening]
    refine ⟨.inl (by omega), ihInside (by omega) (Nested.closing.2 ⟨Nat.succ_ne_zero _, ?_⟩)⟩
    exact ih (by omega) hr

/-! ## The steps of the normalization -/

theorem Nested.respelled (h : Nested (fun _ => False) n depth text) :
    Nested (fun _ => False) n depth (respelled text) := by
  induction text generalizing depth with
  | nil => exact h
  | cons c text ih =>
    by_cases hc : c = ' '
    · rw [hc, Nested.symbol (by simp) (by simp)] at h
      rw [hc, respelled_space]
      exact ih h
    · rw [respelled_cons hc]
      have same : Nested (fun _ => False) n depth (c :: SamePoly.respelled text) :=
        Nested.cons id ih h
      unfold respellChar
      split_ifs with hcomma hcolon
      · rw [beq_iff_eq.1 hcomma, Nested.symbol (by simp) (by simp)] at same
        exact (Nested.symbol (by simp) (by simp)).2 same
      · rw [beq_iff_eq.1 hcolon, Nested.symbol (by simp) (by simp)] at same
        exact (Nested.symbol (by simp) (by simp)).2 same
      · exact same

theorem Nested.respellPowers (h : Nested (fun _ => False) n depth text) :
    Nested (fun _ => False) n depth (respellPowers text) := by
  fun_induction SamePoly.respellPowers text generalizing depth with
  | case1 rest ih =>
    rw [Nested.times, Nested.times] at h
    exact Nested.caret.2 (ih h)
  | case2 c rest _ ih => exact Nested.cons id ih h
  | case3 => exact h

theorem Nested.dropTimesAfter (h : Nested (fun _ => False) n depth text) :
    Nested (fun _ => False) n depth (dropTimesAfter text) := by
  fun_induction SamePoly.dropTimesAfter text generalizing depth with
  | case1 c rest digit ih => exact Nested.cons id ih h
  | case2 c rest digit ih =>
    exact Nested.cons id (fun h => ih (Nested.times.1 h)) h
  | case3 c rest _ ih => exact Nested.cons id ih h
  | case4 => exact h

theorem Nested.dropTimesBefore (h : Nested (fun _ => False) n depth text) :
    Nested (fun _ => False) n depth (dropTimesBefore text) := by
  fun_induction SamePoly.dropTimesBefore text generalizing depth with
  | case1 c rest digit ih => exact Nested.cons id ih h
  | case2 c rest digit ih =>
    rw [Nested.times] at h
    exact Nested.cons id ih h
  | case3 c rest _ ih => exact Nested.cons id ih h
  | case4 => exact h

theorem isAtom_cons_takeWhile (hc : isLiteral c = true) (text : List Char) :
    IsAtom (c :: text.takeWhile isLiteral) := by
  rintro d hd
  rcases List.mem_cons.1 hd with rfl | hd
  · exact .inl hc
  · exact .inl (List.mem_takeWhile_imp hd)

theorem isAtom_singleton (hc : c.isLower = true) : IsAtom [c] := by
  rintro d hd
  rw [List.mem_singleton.1 hd]
  exact .inr hc

theorem Nested.wrapBases (h : Nested (fun _ => False) n depth text) :
    Nested AtomAhead n depth (wrapBases text) := by
  fun_induction SamePoly.wrapBases text generalizing depth with
  | case1 => exact h
  | case2 c rest hc _ _ after hafter =>
    rename_i ih
    rw [← List.takeWhile_append_dropWhile (p := isLiteral) (l := rest), ← List.cons_append,
      Nested.of_append (isAtom_cons_takeWhile hc rest), hafter,
      Nested.caret] at h
    refine Nested.group (isAtom_cons_takeWhile hc rest) ?_
    rw [Nested.caret]
    exact ih h
  | case3 c rest hc _ _ hafter =>
    rename_i ih
    rw [← List.takeWhile_append_dropWhile (p := isLiteral) (l := rest), ← List.cons_append,
      Nested.of_append (isAtom_cons_takeWhile hc rest)] at h
    exact (Nested.of_append (isAtom_cons_takeWhile hc rest)).2 (ih h)
  | case4 c hc after letter ih =>
    obtain ⟨hopen, hclose, -⟩ := ne_of_atom (.inr letter)
    rw [Nested.symbol hopen hclose, Nested.caret] at h
    refine Nested.group (isAtom_singleton letter) ?_
    rw [Nested.caret]
    exact ih h
  | case5 c hc after letter ih => exact Nested.cons False.elim ih h
  | case6 c hc rest hcaret ih => exact Nested.cons False.elim ih h

theorem wrapExponents_cons (hc : c ≠ '^') (text : List Char) :
    wrapExponents (c :: text) = c :: wrapExponents text := by
  rw [wrapExponents.eq_def]
  split
  · rename_i heq
    cases heq
    exact absurd rfl hc
  · rename_i heq
    cases heq
    rfl
  · rename_i heq
    cases heq

theorem AtomAhead.wrapExponents (h : AtomAhead text) : AtomAhead (wrapExponents text) := by
  obtain ⟨inside, after, rfl, ha⟩ := h
  refine ⟨inside, SamePoly.wrapExponents after, ?_, ha⟩
  induction inside with
  | nil => exact wrapExponents_cons (by decide) after
  | cons c inside ih =>
    rw [List.cons_append, wrapExponents_cons (ne_of_atom (ha c List.mem_cons_self)).2.2,
      ih fun d hd => ha d (List.mem_cons_of_mem _ hd), List.cons_append]

theorem Nested.wrapExponents (h : Nested AtomAhead n depth text) :
    Nested AtomAhead n depth (wrapExponents text) := by
  fun_induction SamePoly.wrapExponents text generalizing depth with
  | case1 c rest hc _ ih =>
    rw [Nested.caret, ← List.takeWhile_append_dropWhile (p := isLiteral) (l := rest),
      ← List.cons_append, Nested.of_append (isAtom_cons_takeWhile hc rest)] at h
    exact Nested.caret.2 (Nested.group (isAtom_cons_takeWhile hc rest) (ih h))
  | case2 c rest hc letter ih =>
    obtain ⟨hopen, hclose, -⟩ := ne_of_atom (.inr letter)
    rw [Nested.caret, Nested.symbol hopen hclose] at h
    exact Nested.caret.2 (Nested.group (isAtom_singleton letter) (ih h))
  | case3 c rest hc letter ih =>
    rw [Nested.caret] at h ⊢
    exact ih h
  | case4 c rest _ ih => exact Nested.cons AtomAhead.wrapExponents ih h
  | case5 => exact h

/-! ## Layers -/

/-- Balanced text with at most `n` layers of groups, those of atoms not counted. -/
inductive Layered : ℕ → List Char → Prop
  | nil {n : ℕ} : Layered n []
  | symbol {n : ℕ} {c : Char} {rest : List Char} (hopen : c ≠ '(') (hclose : c ≠ ')') :
      Layered n rest → Layered n (c :: rest)
  | atom {n : ℕ} {inside rest : List Char} :
      IsAtom inside → Layered n rest → Layered n ('(' :: (inside ++ ')' :: rest))
  | group {n : ℕ} {inside rest : List Char} :
      Layered n inside → Layered (n + 1) rest → Layered (n + 1) ('(' :: (inside ++ ')' :: rest))

theorem IsAtom.balanced (h : IsAtom text) : Balanced text :=
  .of_forall fun c hc => ⟨(ne_of_atom (h c hc)).1, (ne_of_atom (h c hc)).2.1⟩

theorem Layered.balanced (h : Layered n text) : Balanced text := by
  induction h with
  | nil => exact .nil
  | symbol hopen hclose _ ih => exact .symbol hopen hclose ih
  | atom ha _ ih => exact .group ha.balanced ih
  | group _ _ ihInside ih => exact .group ihInside ih

/-- What is left of a text behind the layers at its start, with `depth` brackets open. -/
def ClosesLayer (n length : ℕ) : ℕ → List Char → Prop
  | 0, rest => rest = []
  | depth + 1, rest => ∃ after, rest = ')' :: after ∧ after.length < length ∧
      Nested AtomAhead n depth after

theorem Nested.exists_layered (hn : depth ≤ n) (h : Nested AtomAhead n depth text) :
    ∃ inside rest, Layered (n - depth) inside ∧ text = inside ++ rest ∧
      ClosesLayer n text.length depth rest := by
  induction hl : text.length using Nat.strongRecOn generalizing depth text with
  | ind l ih =>
    have widen {m : ℕ} (hm : m ≤ l) {depth : ℕ} {rest : List Char}
        (hrest : ClosesLayer n m depth rest) : ClosesLayer n l depth rest := by
      cases depth with
      | zero => exact hrest
      | succ depth =>
        obtain ⟨after, hr, hlt, hafter⟩ := hrest
        exact ⟨after, hr, hlt.trans_le hm, hafter⟩
    cases text with
    | nil =>
      cases depth with
      | zero => exact ⟨[], [], .nil, rfl, rfl⟩
      | succ depth => cases h
    | cons c text =>
      rw [List.length_cons] at hl
      by_cases hopen : c = '('
      · rw [hopen, Nested.opening] at h
        obtain ⟨room, h⟩ := h
        by_cases hroom : depth < n
        · obtain ⟨inside, rest, hinside, htext, after, rfl, hlt, hafter⟩ :=
            ih text.length (by omega) hroom h rfl
          obtain ⟨inside', rest', hinside', hafter', hrest'⟩ :=
            ih after.length (by omega) hn hafter rfl
          have layers : n - depth = n - (depth + 1) + 1 := by omega
          rw [layers] at hinside' ⊢
          refine ⟨_, rest', hinside.group hinside', ?_, widen (by omega) hrest'⟩
          rw [hopen, htext, hafter', List.cons_append, List.append_assoc, List.cons_append]
        · obtain ⟨inside, after, rfl, ha⟩ := room.resolve_left hroom
          rw [Nested.of_append ha, Nested.closing] at h
          rw [List.length_append, List.length_cons] at hl
          obtain ⟨inside', rest', hinside', hafter', hrest'⟩ :=
            ih after.length (by omega) hn h.2 rfl
          refine ⟨_, rest', .atom ha hinside', ?_, widen (by omega) hrest'⟩
          rw [hopen, hafter', List.cons_append, List.append_assoc, List.cons_append]
      · by_cases hclose : c = ')'
        · rw [hclose, Nested.closing] at h
          cases depth with
          | zero => exact absurd rfl h.1
          | succ depth =>
            exact ⟨[], c :: text, .nil, rfl, text, by rw [hclose], by omega, h.2⟩
        · rw [Nested.symbol hopen hclose] at h
          obtain ⟨inside, rest, hinside, htext, hrest⟩ := ih text.length (by omega) hn h rfl
          exact ⟨c :: inside, rest, .symbol hopen hclose hinside, congrArg (c :: ·) htext,
            widen (by omega) hrest⟩

theorem Nested.layered (h : Nested AtomAhead n 0 text) : Layered n text := by
  obtain ⟨inside, rest, hinside, htext, hrest⟩ := h.exists_layered (Nat.zero_le n)
  have hrest : rest = [] := hrest
  rw [htext, hrest, List.append_nil]
  exact hinside

/-- **Normalized text has no more layers than its text is nested.** -/
theorem Balanced.normalize_layered (h : Balanced text) (hn : nestingDepth text ≤ n) :
    Layered n (normalize text) := by
  have nested : Nested (fun _ => False) n 0 (text ++ []) :=
    h.nested_append (by rwa [Nat.zero_add]) rfl
  rw [List.append_nil] at nested
  have spelled := nested.respelled.respellPowers
  rw [normalize, respell, respellPowers_map]
  exact spelled.dropTimesAfter.dropTimesBefore.wrapBases.wrapExponents.layered

end SamePoly
