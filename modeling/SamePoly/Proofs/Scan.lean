/-
  The tokens of a numeric text.

  Every token is the longest one at its place.  A list of tokens is read back from its spelling
  exactly when no token goes on with the one in front of it.

  * `takeWhile_run`, `dropWhile_run`: a run of symbols up to the first one that is different.
  * `Literal.read?_eq_some_iff`, `Token.next?_eq_some_iff`: the literal and the token at the start
    of a text.
  * `Token.Merges`: two tokens that are not read as such when they are spelled side by side.
  * `Token.scan?_eq_some_iff`: **the tokens of a text** are those that spell it and do not merge.
-/
import Mathlib
import SamePoly.Arithmetic.Token
import SamePoly.Text.Symbol

namespace SamePoly

/-! ## Runs -/

section Runs

variable {α : Type} {p : α → Bool} {run rest : List α}

/-- A run ends where its test fails. -/
def Ends (p : α → Bool) (rest : List α) : Prop := ∀ a ∈ rest.head?, p a = false

theorem Ends.nil : Ends p ([] : List α) := by
  rintro a ha
  cases ha

theorem ends_cons_iff {a : α} : Ends p (a :: rest) ↔ p a = false := by
  constructor
  · exact fun h => h a rfl
  · rintro h b hb
    cases hb
    exact h

theorem Ends.cons {a : α} (h : p a = false) : Ends p (a :: rest) := ends_cons_iff.2 h

theorem takeWhile_of_ends (h : Ends p rest) : rest.takeWhile p = [] := by
  cases rest with
  | nil => rfl
  | cons a rest => rw [List.takeWhile_cons, ends_cons_iff.1 h]; rfl

theorem dropWhile_of_ends (h : Ends p rest) : rest.dropWhile p = rest := by
  cases rest with
  | nil => rfl
  | cons a rest => rw [List.dropWhile_cons, ends_cons_iff.1 h]; rfl

theorem takeWhile_run (hr : ∀ a ∈ run, p a = true) (h : Ends p rest) :
    (run ++ rest).takeWhile p = run := by
  rw [List.takeWhile_append_of_pos hr, takeWhile_of_ends h, List.append_nil]

theorem dropWhile_run (hr : ∀ a ∈ run, p a = true) (h : Ends p rest) :
    (run ++ rest).dropWhile p = rest := by
  rw [List.dropWhile_append_of_pos hr, dropWhile_of_ends h]

theorem ends_dropWhile (l : List α) : Ends p (l.dropWhile p) := by
  induction l with
  | nil => exact .nil
  | cons a l ih =>
    rw [List.dropWhile_cons]
    split
    · exact ih
    · rename_i h
      exact .cons (by simpa using h)

end Runs

namespace Arithmetic

/-! ## Literals -/

namespace Literal

variable {l : Literal} {rest : List Char}

theorem isDigit_of_mem_whole (h : l.Valid) {c : Char} (hc : c ∈ l.whole) : c.isDigit = true :=
  h.1 c (List.mem_append_left _ hc)

theorem isDigit_of_mem_fraction (h : l.Valid) {f : List Char} (hf : l.fraction = some f)
    {c : Char} (hc : c ∈ f) : c.isDigit = true := by
  refine h.1 c (List.mem_append_right _ ?_)
  rw [hf]
  exact hc

/-- A literal is made of literal symbols. -/
theorem isLiteral_of_mem_text (h : l.Valid) {c : Char} (hc : c ∈ l.text) : isLiteral c = true := by
  rw [isLiteral, Bool.or_eq_true, beq_iff_eq]
  rw [text] at hc
  cases hf : l.fraction with
  | none =>
    rw [hf] at hc
    exact Or.inl (isDigit_of_mem_whole h hc)
  | some f =>
    rw [hf] at hc
    rcases List.mem_append.1 hc with hc | hc
    · exact Or.inl (isDigit_of_mem_whole h hc)
    · rcases List.mem_cons.1 hc with rfl | hc
      · exact Or.inr rfl
      · exact Or.inl (isDigit_of_mem_fraction h hf hc)

instance (l : Literal) : Decidable l.Valid :=
  decidable_of_iff (l.digits.all Char.isDigit = true ∧ l.digits ≠ [])
    (and_congr_left' List.all_eq_true)

/-- A symbol that belongs to the literal in front of it. -/
def goesOn (l : Literal) (c : Char) : Bool := c.isDigit || l.fraction.isNone && c == '.'

/-- A literal is read back when nothing behind it goes on with it. -/
theorem read?_text_append (hl : l.Valid) (h : Ends l.goesOn rest) :
    read? (l.text ++ rest) = some (l, rest) := by
  have digits : Ends Char.isDigit rest := fun c hc => (Bool.or_eq_false_iff.1 (h c hc)).1
  obtain ⟨whole, fraction⟩ := l
  have split : ∀ c ∈ whole, c.isDigit = true := fun c => isDigit_of_mem_whole hl
  cases fraction with
  | none =>
    have nonempty : whole ≠ [] := by
      have := hl.2
      rwa [Literal.digits, Option.getD_none, List.append_nil] at this
    rw [text, read?.eq_def, takeWhile_run split digits, dropWhile_run split digits]
    split
    · exact absurd (h '.' rfl) (by simp [goesOn])
    · rw [if_neg (by simpa using nonempty)]
  | some f =>
    have hf : ∀ c ∈ f, c.isDigit = true := fun c => isDigit_of_mem_fraction hl rfl
    have point : Ends Char.isDigit ('.' :: (f ++ rest)) := .cons (by decide)
    rw [text, read?.eq_def, List.append_assoc, List.cons_append, takeWhile_run split point,
      dropWhile_run split point]
    show (if whole.isEmpty && ((f ++ rest).takeWhile Char.isDigit).isEmpty then none
      else some (Literal.mk whole (some ((f ++ rest).takeWhile Char.isDigit)),
        (f ++ rest).dropWhile Char.isDigit)) = _
    rw [takeWhile_run hf digits, dropWhile_run hf digits, if_neg]
    intro hempty
    rw [Bool.and_eq_true, List.isEmpty_iff, List.isEmpty_iff] at hempty
    exact hl.2 (by rw [Literal.digits, hempty.1, Option.getD_some, hempty.2, List.append_nil])

/-- A literal is as long as it can be. -/
theorem ends_of_read? {text : List Char} (h : read? text = some (l, rest)) :
    Ends l.goesOn rest := by
  have digits := ends_dropWhile (p := Char.isDigit)
  unfold read? at h
  split at h
  · rename_i tail point
    dsimp only at h
    split at h
    · cases h
    · cases h
      intro c hc
      simp [goesOn, digits tail c hc]
  · rename_i noPoint
    dsimp only at h
    split at h
    · cases h
    · cases h
      intro c hc
      have : c ≠ '.' := by
        rintro rfl
        cases hd : text.dropWhile Char.isDigit with
        | nil => simp [hd] at hc
        | cons d rest =>
          obtain rfl : d = '.' := by simpa [hd] using hc
          exact noPoint rest hd
      simp [goesOn, digits text c hc, this]

/-- **The literal at the start of a text** is valid and as long as it can be. -/
theorem read?_eq_some_iff {text : List Char} :
    read? text = some (l, rest) ↔ l.Valid ∧ Ends l.goesOn rest ∧ l.text ++ rest = text := by
  constructor
  · exact fun h => ⟨valid_of_read? h, ends_of_read? h, text_append_of_read? h⟩
  · rintro ⟨valid, ends, rfl⟩
    exact read?_text_append valid ends

end Literal

/-! ## Tokens -/

namespace Token

/-- A token whose literal, if it has one, is valid. -/
def Valid : Token → Prop
  | .number l => l.Valid
  | .imaginary (some l) => l.Valid
  | _ => True

/-- A literal or an imaginary unit. -/
def isAtom : Token → Bool
  | .number _ | .imaginary _ => true
  | _ => false

instance : DecidablePred Valid
  | .number l | .imaginary (some l) => inferInstanceAs (Decidable l.Valid)
  | .imaginary none | .plus | .minus | .times | .over | .power | .opening | .closing =>
    inferInstanceAs (Decidable True)

/-- A symbol that belongs to the token in front of it. -/
def goesOn : Token → Char → Bool
  | .number l, c => l.goesOn c || c == imaginaryUnit
  | _, _ => false

theorem next?_of_literal {text : List Char} {c : Char} (hc : isLiteral c = true) :
    next? (c :: text) = literal? (c :: text) := by
  rw [next?.eq_def]
  split
  case h_9 => rfl
  all_goals
    rename_i heq
    cases heq
    exact absurd hc (by decide)

theorem literal_text_eq_cons {l : Literal} (hl : l.Valid) :
    ∃ c text, l.text = c :: text ∧ isLiteral c = true := by
  cases h : l.text with
  | nil => exact absurd (Literal.text_length_pos hl) (by simp [h])
  | cons c text => exact ⟨c, text, rfl, Literal.isLiteral_of_mem_text hl (by simp [h])⟩

/-- A token is read back when nothing behind it goes on with it. -/
theorem next?_text_append {t : Token} {rest : List Char} (ht : t.Valid) (h : Ends t.goesOn rest) :
    next? (t.text ++ rest) = some (t, rest) := by
  cases t with
  | number l =>
    have hl : l.Valid := ht
    have stop : ∀ c ∈ rest.head?, l.goesOn c = false ∧ c ≠ 'i' := by
      simpa [Ends, goesOn, imaginaryUnit] using h
    obtain ⟨c, text, htext, hc⟩ := literal_text_eq_cons hl
    have read := Literal.read?_text_append hl fun c hc => (stop c hc).1
    rw [Token.text]
    rw [htext, List.cons_append] at read ⊢
    rw [next?_of_literal hc, literal?, read]
    split
    · rename_i heq
      cases heq
    · rename_i heq
      cases heq
      exact absurd rfl (stop 'i' rfl).2
    · rename_i heq
      cases heq
      rfl
  | imaginary l =>
    cases l with
    | none => rfl
    | some l =>
      have hl : l.Valid := ht
      have ends : Ends l.goesOn ('i' :: rest) := .cons (by simp [Literal.goesOn])
      obtain ⟨c, text, htext, hc⟩ := literal_text_eq_cons hl
      have read := Literal.read?_text_append hl ends
      rw [Token.text, List.append_assoc, List.singleton_append]
      rw [htext, List.cons_append] at read ⊢
      rw [next?_of_literal hc, literal?, read]
      rfl
  | _ => rfl

theorem valid_of_next? {t : Token} {text rest : List Char} (h : next? text = some (t, rest)) :
    t.Valid := by
  unfold next? at h
  split at h
  case h_9 =>
    unfold literal? at h
    split at h
    · cases h
    · rename_i read
      cases h
      exact Literal.valid_of_read? read
    · rename_i read
      cases h
      exact Literal.valid_of_read? read
  all_goals
    cases h
    trivial

/-- A token is as long as it can be. -/
theorem ends_of_next? {t : Token} {text rest : List Char} (h : next? text = some (t, rest)) :
    Ends t.goesOn rest := by
  unfold next? at h
  split at h
  case h_9 =>
    unfold literal? at h
    split at h
    · cases h
    · cases h
      exact fun _ _ => rfl
    · rename_i l rest' noUnit read
      cases h
      intro c hc
      have : c ≠ imaginaryUnit := by
        rintro rfl
        cases rest with
        | nil => cases hc
        | cons d rest =>
          cases hc
          exact noUnit _ rfl
      simp [goesOn, Literal.ends_of_read? read c hc, this]
  all_goals
    cases h
    exact fun _ _ => rfl

/-- **The token at the start of a text** is valid and as long as it can be. -/
theorem next?_eq_some_iff {t : Token} {text rest : List Char} :
    next? text = some (t, rest) ↔ t.Valid ∧ Ends t.goesOn rest ∧ t.text ++ rest = text := by
  constructor
  · exact fun h => ⟨valid_of_next? h, ends_of_next? h, text_append_of_next? h⟩
  · rintro ⟨valid, ends, rfl⟩
    exact next?_text_append valid ends

/-! ## Lists of tokens -/

/-- Two tokens that are not read as such when they are spelled side by side, because the second one
    goes on with the first. -/
def Merges : Token → Token → Prop
  | .number _, .imaginary none => True
  | .number l, .number m | .number l, .imaginary (some m) => l.fraction = none ∨ m.whole ≠ []
  | _, _ => False

theorem ends_goesOn_literal {l m : Literal} (hm : m.Valid) {rest : List Char} :
    Ends (number l).goesOn (m.text ++ rest) ↔ ¬ (l.fraction = none ∨ m.whole ≠ []) := by
  obtain ⟨whole, fraction⟩ := m
  cases whole with
  | nil =>
    cases fraction with
    | none => exact absurd rfl hm.2
    | some f =>
      simp [Literal.text, ends_cons_iff, goesOn, Literal.goesOn, imaginaryUnit,
        Option.isSome_iff_ne_none]
  | cons d whole =>
    have digit : d.isDigit = true := Literal.isDigit_of_mem_whole hm List.mem_cons_self
    cases fraction <;> simp [Literal.text, ends_cons_iff, goesOn, Literal.goesOn, digit]

/-- A token ends in front of another one unless they merge. -/
theorem ends_goesOn_iff {t u : Token} (hu : u.Valid) {rest : List Char} :
    Ends t.goesOn (u.text ++ rest) ↔ ¬ t.Merges u := by
  cases t with
  | number l =>
    cases u with
    | number m => exact ends_goesOn_literal hu
    | imaginary m =>
      cases m with
      | none => simp [Token.text, ends_cons_iff, goesOn, imaginaryUnit, Merges]
      | some m =>
        rw [Token.text, List.append_assoc]
        exact ends_goesOn_literal hu
    | _ => simp [Token.text, ends_cons_iff, goesOn, Literal.goesOn, imaginaryUnit, Merges]
  | _ => simp [Ends, goesOn, Merges]

theorem scan?_nil : scan? [] = some [] := by
  rw [scan?]
  rfl

theorem scan?_of_next? {text rest : List Char} {t : Token} (h : next? text = some (t, rest)) :
    scan? text = (scan? rest).map (t :: ·) := by
  have nonempty : text.isEmpty = false := by
    cases text with
    | nil => exact absurd (length_lt_of_next? h) (Nat.not_lt_zero _)
    | cons c text => rfl
  rw [scan?, nonempty, if_neg (by decide)]
  split
  · rename_i heq
    rw [h] at heq
    cases heq
  · rename_i heq
    rw [h] at heq
    cases heq
    rfl

theorem scan?_eq_cons_iff {t : Token} {ts : List Token} {text : List Char} :
    scan? text = some (t :: ts) ↔
      ∃ rest, next? text = some (t, rest) ∧ scan? rest = some ts := by
  constructor
  · intro h
    rw [scan?] at h
    split at h
    · cases h
    · split at h
      · cases h
      · rename_i u rest next
        obtain ⟨us, scanned, heq⟩ := Option.map_eq_some_iff.1 h
        cases heq
        exact ⟨rest, next, scanned⟩
  · rintro ⟨rest, next, scanned⟩
    rw [scan?_of_next? next, scanned]
    rfl

@[simp] theorem spelling_nil : spelling [] = [] := rfl

@[simp] theorem spelling_cons (t : Token) (ts : List Token) :
    spelling (t :: ts) = t.text ++ spelling ts := List.flatMap_cons

/-- A list of tokens that is read back from its spelling: its literals are valid, and no token goes
    on with the one in front of it. -/
structure Lexed (ts : List Token) : Prop where
  valid : ∀ t ∈ ts, t.Valid
  separate : ts.IsChain fun t u => ¬ t.Merges u

instance : DecidableRel Merges
  | .number _, .imaginary none => isTrue trivial
  | .number l, .number m | .number l, .imaginary (some m) =>
    inferInstanceAs (Decidable (l.fraction = none ∨ m.whole ≠ []))
  | .number _, .plus | .number _, .minus | .number _, .times | .number _, .over
  | .number _, .power | .number _, .opening | .number _, .closing => isFalse id
  | .imaginary _, _ | .plus, _ | .minus, _ | .times, _ | .over, _ | .power, _ | .opening, _
  | .closing, _ => isFalse id

instance (ts : List Token) : Decidable (Lexed ts) :=
  decidable_of_iff ((∀ t ∈ ts, t.Valid) ∧ ts.IsChain (¬ Merges · ·))
    ⟨fun h => ⟨h.1, h.2⟩, fun h => ⟨h.valid, h.separate⟩⟩

theorem Lexed.nil : Lexed [] := ⟨nofun, .nil⟩

theorem lexed_cons_iff {t : Token} {ts : List Token} :
    Lexed (t :: ts) ↔ t.Valid ∧ Ends t.goesOn (spelling ts) ∧ Lexed ts := by
  cases ts with
  | nil =>
    constructor
    · exact fun h => ⟨h.valid t List.mem_cons_self, .nil, .nil⟩
    · rintro ⟨valid, -, -⟩
      exact ⟨by simpa, .singleton t⟩
  | cons u ts =>
    rw [spelling_cons]
    constructor
    · rintro ⟨valid, separate⟩
      obtain ⟨ht, hts⟩ := List.forall_mem_cons.1 valid
      obtain ⟨hu, hus⟩ := List.isChain_cons_cons.1 separate
      exact ⟨ht, (ends_goesOn_iff (hts u List.mem_cons_self)).2 hu, hts, hus⟩
    · rintro ⟨ht, ends, hts, hus⟩
      refine ⟨List.forall_mem_cons.2 ⟨ht, hts⟩, List.isChain_cons_cons.2 ⟨?_, hus⟩⟩
      exact (ends_goesOn_iff (hts u List.mem_cons_self)).1 ends

/-- **The tokens of a text** are those that spell it and do not merge. -/
theorem scan?_eq_some_iff {ts : List Token} {text : List Char} :
    scan? text = some ts ↔ Lexed ts ∧ spelling ts = text := by
  induction ts generalizing text with
  | nil =>
    constructor
    · exact fun h => ⟨.nil, spelling_of_scan? h⟩
    · rintro ⟨-, rfl⟩
      exact scan?_nil
  | cons t ts ih =>
    simp only [scan?_eq_cons_iff, next?_eq_some_iff, ih, lexed_cons_iff, spelling_cons]
    constructor
    · rintro ⟨rest, ⟨valid, ends, rfl⟩, lexed, rfl⟩
      exact ⟨⟨valid, ends, lexed⟩, rfl⟩
    · rintro ⟨⟨valid, ends, lexed⟩, rfl⟩
      exact ⟨_, ⟨valid, ends, rfl⟩, lexed, rfl⟩

/-- Two tokens that stay apart because at most one of them is an atom, or the first one is
    imaginary. -/
def Apart : Token → Token → Prop
  | .number _, u => u.isAtom = false
  | _, _ => True

theorem Apart.not_merges {t u : Token} (h : Apart t u) : ¬ t.Merges u := by
  cases t with
  | number l =>
    cases u with
    | number | imaginary => cases h
    | _ => exact id
  | _ => exact id

/-- Tokens that stay apart are read back from their spelling. -/
theorem scan?_spelling {ts : List Token} (valid : ∀ t ∈ ts, t.Valid) (apart : ts.IsChain Apart) :
    scan? (spelling ts) = some ts :=
  scan?_eq_some_iff.2 ⟨⟨valid, apart.imp fun _ _ => Apart.not_merges⟩, rfl⟩

end Token

end Arithmetic

end SamePoly
