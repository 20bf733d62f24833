/-
  Readers that normalization does not disturb.

  A reader goes through a text symbol by symbol and may stop at one.  If it passes over spaces,
  multiplication signs and `^`, takes every operator for its other spelling, and does not care for
  brackets around a literal or a letter, it cannot tell a text from its normalized form.  So what
  such a reader finds out about a text as it was given holds of the normalized text.

  * `Reader`, `Reader.read`: a reader and what it makes of a text.
  * `Reader.Indifferent`: the readers in question.
  * `Reader.Indifferent.read_normalize`: **they cannot tell a text from its normalized form**.
-/
import SamePoly.Proofs.Construction

namespace SamePoly

variable {text rest run : List Char} {c : Char}

/-! ## Symbols -/

/-- A symbol that readers pass over. -/
def isFiller (c : Char) : Bool := c == ' ' || c == '*' || c == '^'

/-- A symbol of an operand without brackets. -/
def IsPlain (c : Char) : Prop := isLiteral c = true ∨ c.isLower = true

theorem IsPlain.ne {d : Char} (h : IsPlain c) (literal : isLiteral d = false)
    (letter : d.isLower = false) : c ≠ d := by
  rintro rfl
  rcases h with h | h
  · exact absurd h (Bool.eq_false_iff.1 literal)
  · exact absurd h (Bool.eq_false_iff.1 letter)

theorem IsPlain.isFiller (h : IsPlain c) : SamePoly.isFiller c = false := by
  have filler : c ≠ ' ' ∧ c ≠ '*' ∧ c ≠ '^' := ⟨h.ne rfl rfl, h.ne rfl rfl, h.ne rfl rfl⟩
  simp [SamePoly.isFiller, filler]

/-- Plain text has no brackets. -/
theorem balanced_of_isPlain (h : ∀ c ∈ text, IsPlain c) : Balanced text :=
  .of_forall fun c hc => ⟨(h c hc).ne rfl rfl, (h c hc).ne rfl rfl⟩

theorem isVariable_of_isLiteral (h : isLiteral c = true) : isVariable c = false := by
  rw [isLiteral, Bool.or_eq_true, beq_iff_eq] at h
  rcases h with digit | rfl
  · exact isVariable_of_isDigit digit
  · rfl

/-! ## Readers -/

/-- What becomes of the state of a reader at a symbol, if the reader goes on. -/
abbrev Reader (σ : Type) : Type := σ → Char → Option σ

namespace Reader

variable {σ : Type} {reader : Reader σ} {s : σ}

/-- Reads a text. -/
def read (reader : Reader σ) (s : σ) (text : List Char) : Option σ := text.foldlM reader s

theorem read_cons (c : Char) (text : List Char) :
    reader.read s (c :: text) = (reader s c).bind fun s => reader.read s text := rfl

theorem read_append (text rest : List Char) :
    reader.read s (text ++ rest) = (reader.read s text).bind fun s => reader.read s rest :=
  List.foldlM_append

/-- Symbols that are the same to the reader. -/
theorem read_cons_congr {d : Char} (same : ∀ s, reader s c = reader s d)
    (tail : ∀ s, reader.read s text = reader.read s rest) (s : σ) :
    reader.read s (c :: text) = reader.read s (d :: rest) := by
  rw [read_cons, read_cons, same]
  exact congrArg _ (funext tail)

theorem read_append_congr (run : List Char) (tail : ∀ s, reader.read s text = reader.read s rest)
    (s : σ) : reader.read s (run ++ text) = reader.read s (run ++ rest) := by
  rw [read_append, read_append]
  exact congrArg _ (funext tail)

/-- A reader that does not care for what the normalization does. -/
structure Indifferent (reader : Reader σ) : Prop where
  filler : ∀ s c, isFiller c = true → reader s c = some s
  respell : ∀ s c, reader s (respellChar c) = reader s c
  bracketed : ∀ s c run rest, (∀ d ∈ c :: run, IsPlain d) → hasVariable run = false →
    reader.read s (bracketed (c :: run) ++ rest) = reader.read s (c :: run ++ rest)

namespace Indifferent

theorem read_filler (h : reader.Indifferent) (hc : SamePoly.isFiller c = true) (s : σ)
    (text : List Char) : reader.read s (c :: text) = reader.read s text := by
  rw [read_cons, h.filler s c hc]
  rfl

theorem read_spaces (h : reader.Indifferent) {spaces : List Char} (hs : Spaces spaces) (s : σ)
    (rest : List Char) : reader.read s (spaces ++ rest) = reader.read s rest := by
  induction spaces with
  | nil => rfl
  | cons c spaces ih =>
    have blank : SamePoly.isFiller c = true := by
      rw [hs c List.mem_cons_self]
      rfl
    rw [List.cons_append, h.read_filler blank, ih fun d hd => hs d (List.mem_cons_of_mem c hd)]

/-- Brackets around a literal. -/
theorem read_literal (h : reader.Indifferent) (literal : ∀ d ∈ c :: run, isLiteral d = true)
    (s : σ) (rest : List Char) :
    reader.read s (SamePoly.bracketed (c :: run) ++ rest) = reader.read s (c :: run ++ rest) := by
  have constant : hasVariable run = false := hasVariable_eq_false fun d hd =>
    isVariable_of_isLiteral (literal d (List.mem_cons_of_mem c hd))
  exact h.bracketed s c run rest (fun d hd => Or.inl (literal d hd)) constant

/-- Brackets around a letter. -/
theorem read_letter (h : reader.Indifferent) (letter : c.isLower = true) (s : σ)
    (rest : List Char) : reader.read s ('(' :: c :: ')' :: rest) = reader.read s (c :: rest) := by
  have plain : ∀ d ∈ [c], IsPlain d := List.forall_mem_singleton.2 (Or.inr letter)
  exact h.bracketed s c [] rest plain rfl

/-! ## Passes of the normalization -/

theorem read_filter (h : reader.Indifferent) (s : σ) (text : List Char) :
    reader.read s (text.filter (· != ' ')) = reader.read s text := by
  induction text generalizing s with
  | nil => rfl
  | cons c text ih =>
    rw [List.filter_cons]
    split
    · exact read_cons_congr (fun _ => rfl) ih s
    · rename_i space
      have blank : c = ' ' := by simpa using space
      rw [h.read_filler (by rw [blank]; rfl), ih]

theorem read_respellPowers (h : reader.Indifferent) (s : σ) (text : List Char) :
    reader.read s (respellPowers text) = reader.read s text := by
  fun_induction respellPowers text generalizing s with
  | case1 text ih => rw [h.read_filler rfl, h.read_filler rfl, h.read_filler rfl, ih]
  | case2 c text _ ih => exact read_cons_congr (fun _ => rfl) ih s
  | case3 => rfl

theorem read_map_respellChar (h : reader.Indifferent) (s : σ) (text : List Char) :
    reader.read s (text.map respellChar) = reader.read s text := by
  induction text generalizing s with
  | nil => rfl
  | cons c text ih => exact read_cons_congr (fun s => h.respell s c) ih s

theorem read_dropTimesAfter (h : reader.Indifferent) (s : σ) (text : List Char) :
    reader.read s (dropTimesAfter text) = reader.read s text := by
  fun_induction dropTimesAfter text generalizing s with
  | case1 c text _ ih => exact read_cons_congr (fun _ => rfl) ih s
  | case2 c text _ ih =>
    refine read_cons_congr (fun _ => rfl) (fun s => ?_) s
    rw [h.read_filler rfl, ih]
  | case3 c text _ ih => exact read_cons_congr (fun _ => rfl) ih s
  | case4 => rfl

theorem read_dropTimesBefore (h : reader.Indifferent) (s : σ) (text : List Char) :
    reader.read s (dropTimesBefore text) = reader.read s text := by
  fun_induction dropTimesBefore text generalizing s with
  | case1 c text _ ih => exact read_cons_congr (fun _ => rfl) ih s
  | case2 c text _ ih =>
    rw [h.read_filler (c := '*') rfl]
    exact read_cons_congr (fun _ => rfl) ih s
  | case3 c text _ ih => exact read_cons_congr (fun _ => rfl) ih s
  | case4 => rfl

theorem read_wrapBases (h : reader.Indifferent) (s : σ) (text : List Char) :
    reader.read s (wrapBases text) = reader.read s text := by
  fun_induction wrapBases text generalizing s with
  | case1 => rfl
  | case2 c text hc _ _ after hafter ih =>
    have run : ∀ d ∈ c :: text.takeWhile isLiteral, isLiteral d = true :=
      List.forall_mem_cons.2 ⟨hc, fun d hd => List.mem_takeWhile_imp hd⟩
    have whole : c :: text = (c :: text.takeWhile isLiteral) ++ '^' :: after := by
      rw [List.cons_append, ← hafter, List.takeWhile_append_dropWhile]
    calc reader.read s ('(' :: (c :: text.takeWhile isLiteral) ++ ')' :: '^' :: wrapBases after) =
        reader.read s (SamePoly.bracketed (c :: text.takeWhile isLiteral) ++
          '^' :: wrapBases after) := by
          rw [bracketed_append, List.cons_append]
      _ = reader.read s ((c :: text.takeWhile isLiteral) ++ '^' :: wrapBases after) :=
          h.read_literal run s _
      _ = reader.read s (c :: text) := by
          rw [whole]
          exact read_append_congr _ (read_cons_congr (fun _ => rfl) ih) s
  | case3 c text hc _ _ _ ih =>
    have whole : c :: text = (c :: text.takeWhile isLiteral) ++ text.dropWhile isLiteral := by
      rw [List.cons_append, List.takeWhile_append_dropWhile]
    rw [whole]
    exact read_append_congr _ ih s
  | case4 c hc after letter ih =>
    rw [h.read_letter letter]
    exact read_cons_congr (fun _ => rfl) (read_cons_congr (fun _ => rfl) ih) s
  | case5 c hc after letter ih => exact read_cons_congr (fun _ => rfl) ih s
  | case6 c hc text caret ih => exact read_cons_congr (fun _ => rfl) ih s

theorem read_wrapExponents (h : reader.Indifferent) (s : σ) (text : List Char) :
    reader.read s (wrapExponents text) = reader.read s text := by
  fun_induction wrapExponents text generalizing s with
  | case1 c text hc _ ih =>
    have run : ∀ d ∈ c :: text.takeWhile isLiteral, isLiteral d = true :=
      List.forall_mem_cons.2 ⟨hc, fun d hd => List.mem_takeWhile_imp hd⟩
    have whole : c :: text = (c :: text.takeWhile isLiteral) ++ text.dropWhile isLiteral := by
      rw [List.cons_append, List.takeWhile_append_dropWhile]
    refine read_cons_congr (fun _ => rfl) (fun s => ?_) s
    calc reader.read s ('(' :: (c :: text.takeWhile isLiteral) ++
          ')' :: wrapExponents (text.dropWhile isLiteral)) =
        reader.read s (SamePoly.bracketed (c :: text.takeWhile isLiteral) ++
          wrapExponents (text.dropWhile isLiteral)) := by
          rw [bracketed_append, List.cons_append]
      _ = reader.read s ((c :: text.takeWhile isLiteral) ++
          wrapExponents (text.dropWhile isLiteral)) := h.read_literal run s _
      _ = reader.read s (c :: text) := by
          rw [whole]
          exact read_append_congr _ ih s
  | case2 c text hc letter ih =>
    refine read_cons_congr (fun _ => rfl) (fun s => ?_) s
    rw [h.read_letter letter]
    exact read_cons_congr (fun _ => rfl) ih s
  | case3 c text hc letter ih => exact read_cons_congr (fun _ => rfl) ih s
  | case4 c text _ ih => exact read_cons_congr (fun _ => rfl) ih s
  | case5 => rfl

/-- **An indifferent reader cannot tell a text from its normalized form.** -/
theorem read_normalize (h : reader.Indifferent) (s : σ) (text : List Char) :
    reader.read s (normalize text) = reader.read s text := by
  rw [normalize, h.read_wrapExponents, h.read_wrapBases, h.read_dropTimesBefore,
    h.read_dropTimesAfter, SamePoly.respell, h.read_map_respellChar, h.read_respellPowers,
    h.read_filter]

end Indifferent

end Reader

end SamePoly
