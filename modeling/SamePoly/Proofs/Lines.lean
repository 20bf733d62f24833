/-
  Lines of input, and how many of them are used.

  Lines are used until there are enough expressions.  A line that is not UTF-8 makes reading fail if
  it is one of them, and whatever stands behind them makes no difference.

  * `Divided`: the lines of a byte sequence, by what stands between the line feeds.
  * `IsUtf8`, `lineTexts`: lines that are UTF-8, and the trimmed texts of lines.
  * `Used`: the lines in front of which there are not enough expressions.
  * `Taken`: what comes of reading if a first part of the input is used.
  * `collectExpressions_taken`: **reading takes exactly what it needs**.
-/
import SamePoly.Proofs.Input

namespace SamePoly

variable {bytes line rest : List UInt8} {ls used : List (List UInt8)}
variable {text : List Char} {expressions : List (List Char)} {count held : ℕ}

/-! ## Lines -/

/-- The bytes in front of a line feed, without a carriage return at their end. -/
def withoutReturn (line : List UInt8) : List UInt8 :=
  if line.getLast? = some 13 then line.dropLast else line

/-- The lines of a byte sequence: what stands in front of each line feed, and what stands behind the
    last one, unless that is nothing. -/
inductive Divided : List UInt8 → List (List UInt8) → Prop
  | nil : Divided [] []
  | last {line : List UInt8} (nonempty : line ≠ []) (whole : 10 ∉ line) : Divided line [line]
  | ended {line rest : List UInt8} {ls : List (List UInt8)} (whole : 10 ∉ line) :
      Divided rest ls → Divided (line ++ 10 :: rest) (withoutReturn line :: ls)

theorem endedLine_eq (line : List UInt8) : endedLine line = withoutReturn line.reverse := by
  cases line with
  | nil => rfl
  | cons b line => simp [endedLine, withoutReturn]

theorem linesFrom_append (whole : 10 ∉ line) (front rest : List UInt8) :
    linesFrom front (line ++ rest) = linesFrom (line.reverse ++ front) rest := by
  induction line generalizing front with
  | nil => rfl
  | cons b line ih =>
    rw [List.mem_cons, not_or] at whole
    rw [List.cons_append, linesFrom, if_neg (by simpa using Ne.symm whole.1), ih whole.2]
    simp

theorem lines_ended (whole : 10 ∉ line) (rest : List UInt8) :
    lines (line ++ 10 :: rest) = withoutReturn line :: lines rest := by
  rw [lines, linesFrom_append whole, List.append_nil, linesFrom, if_pos (by decide), endedLine_eq,
    List.reverse_reverse, lines]

theorem lines_last (nonempty : line ≠ []) (whole : 10 ∉ line) : lines line = [line] := by
  have only := linesFrom_append whole [] []
  rw [List.append_nil, List.append_nil] at only
  rw [lines, only, linesFrom, List.reverse_reverse, if_neg (by simpa using nonempty)]

theorem divided_linesFrom {front : List UInt8} (whole : 10 ∉ front) (bytes : List UInt8) :
    Divided (front.reverse ++ bytes) (linesFrom front bytes) := by
  induction bytes generalizing front with
  | nil =>
    rw [List.append_nil, linesFrom]
    by_cases empty : front = []
    · rw [if_pos (List.isEmpty_iff.2 empty), empty]
      exact .nil
    · rw [if_neg (by rwa [List.isEmpty_iff])]
      exact .last (by simpa using empty) (by simpa using whole)
  | cons b rest ih =>
    rw [linesFrom]
    by_cases feed : b = 10
    · rw [if_pos (beq_iff_eq.2 feed), feed, endedLine_eq]
      exact .ended (by simpa using whole) (ih List.not_mem_nil)
    · rw [if_neg (by rwa [beq_iff_eq])]
      have longer : 10 ∉ b :: front := by simpa using ⟨Ne.symm feed, whole⟩
      simpa using ih longer

theorem Divided.eq_lines (h : Divided bytes ls) : ls = lines bytes := by
  induction h with
  | nil => rfl
  | last nonempty whole => exact (lines_last nonempty whole).symm
  | ended whole _ ih => rw [ih, lines_ended whole]

/-- A byte sequence is divided into its lines and into nothing else. -/
theorem divided_iff : Divided bytes ls ↔ ls = lines bytes := by
  constructor
  · exact Divided.eq_lines
  · rintro rfl
    exact divided_linesFrom List.not_mem_nil bytes

/-- Bytes that end behind a line feed, or where they start. -/
def Ended (bytes : List UInt8) : Prop := ∀ b ∈ bytes.getLast?, b = 10

theorem Ended.nil : Ended [] := nofun

theorem ended_append_iff : Ended (line ++ 10 :: rest) ↔ Ended rest := by
  rw [Ended, Ended, List.getLast?_append, List.getLast?_cons]
  cases rest.getLast? <;> simp

/-- The lines behind a line feed start anew. -/
theorem Ended.lines_append (h : Ended bytes) (rest : List UInt8) :
    lines (bytes ++ rest) = lines bytes ++ lines rest := by
  obtain ⟨ls, divided⟩ : ∃ ls, Divided bytes ls := ⟨_, divided_iff.2 rfl⟩
  induction divided with
  | nil => rfl
  | @last line nonempty whole =>
    have feed := h _ (List.getLast_mem_getLast? nonempty)
    exact absurd (feed ▸ List.getLast_mem nonempty) whole
  | ended whole _ ih =>
    rw [List.append_assoc, List.cons_append, lines_ended whole, lines_ended whole,
      ih (ended_append_iff.1 h), List.cons_append]

/-! ## Texts of lines -/

/-- A line that is UTF-8. -/
def IsUtf8 (line : List UInt8) : Prop :=
  ∃ text : List Char, text.flatMap String.utf8EncodeChar = line

/-- The texts of the lines that are UTF-8 and not blank, trimmed. -/
def lineTexts (ls : List (List UInt8)) : List (List Char) :=
  ((ls.filterMap decode?).map trim).filter (· ≠ [])

/-- Decoding is the inverse of encoding. -/
theorem decode?_eq_some_iff :
    decode? bytes = some text ↔ text.flatMap String.utf8EncodeChar = bytes := by
  have same : (⟨bytes.toArray⟩ : ByteArray) = bytes.toByteArray :=
    ByteArray.ext List.data_toByteArray.symm
  rw [decode?, same, Option.map_eq_some_iff]
  constructor
  · rintro ⟨s, decoded, rfl⟩
    rw [String.fromUTF8?] at decoded
    split at decoded
    · cases decoded
      exact List.toByteArray_inj.1 String.utf8Encode_toList
    · cases decoded
  · rintro rfl
    refine ⟨String.ofList text, ?_, String.toList_ofList⟩
    rw [String.fromUTF8?, dif_pos ⟨text, rfl⟩, Option.some_inj, ← String.toByteArray_inj,
      String.toByteArray_ofList]
    rfl

theorem exists_decode?_iff : (∃ text, decode? line = some text) ↔ IsUtf8 line :=
  exists_congr fun _ => decode?_eq_some_iff

theorem decode?_eq_none_iff : decode? line = none ↔ ¬IsUtf8 line := by
  rw [← exists_decode?_iff, ← Option.ne_none_iff_exists', not_not]

theorem lineTexts_append (ls ls' : List (List UInt8)) :
    lineTexts (ls ++ ls') = lineTexts ls ++ lineTexts ls' := by
  simp [lineTexts]

/-- The texts of lines are their entries without the gaps. -/
theorem reduceOption_lineEntries (ls : List (List UInt8)) :
    (lineEntries ls).reduceOption = lineTexts ls := by
  induction ls with
  | nil => rfl
  | cons line ls ih =>
    cases decoded : decode? line with
    | none =>
      rw [lineEntries_gap decoded, List.reduceOption_cons_of_none, ih]
      simp [lineTexts, decoded]
    | some text =>
      by_cases blank : trim text = []
      · rw [lineEntries_blank decoded blank, ih]
        simp [lineTexts, decoded, blank]
      · rw [lineEntries_text decoded blank, List.reduceOption_cons_of_some, ih]
        simp [lineTexts, decoded, blank]

/-- Lines that are all UTF-8 have no gaps. -/
theorem lineEntries_eq_map_some (h : ∀ line ∈ ls, IsUtf8 line) :
    lineEntries ls = (lineTexts ls).map some := by
  have full : (lineEntries ls).all Option.isSome = true := by
    rw [List.all_eq_true]
    intro e he
    obtain ⟨line, hline, rfl⟩ := List.mem_map.1 (List.mem_of_mem_filter he)
    obtain ⟨text, decoded⟩ := exists_decode?_iff.2 (h line hline)
    rw [decoded]
    rfl
  have same := map_some_beforeGap full
  rw [← reduceOption_lineEntries, ← same]
  simp [List.reduceOption]

theorem length_lineTexts_le (ls : List (List UInt8)) :
    (lineTexts ls).length ≤ (lineEntries ls).length := by
  rw [← reduceOption_lineEntries]
  exact List.reduceOption_length_le _

/-! ## Lines that are used -/

/-- The lines in front of which there are less than `count` expressions, if there are `held` in front
    of the first one. -/
structure Used (count held : ℕ) (ls used : List (List UInt8)) : Prop where
  front : used <+: ls
  short : ∀ first, first <+: used → first ≠ used → held + (lineTexts first).length < count
  enough : used ≠ ls → count ≤ held + (lineTexts used).length

namespace Used

theorem of_le (h : count ≤ held) (ls : List (List UInt8)) : Used count held ls [] where
  front := List.nil_prefix
  short _ front other := absurd (List.prefix_nil.1 front) other
  enough _ := h

theorem nil (count held : ℕ) : Used count held [] [] where
  front := List.nil_prefix
  short _ front other := absurd (List.prefix_nil.1 front) other
  enough other := absurd rfl other

theorem cons (h : held < count) (hused : Used count (held + (lineTexts [line]).length) ls used) :
    Used count held (line :: ls) (line :: used) where
  front := List.cons_prefix_cons.2 ⟨rfl, hused.front⟩
  short first front other := by
    rcases List.prefix_cons_iff.1 front with rfl | ⟨first, rfl, inner⟩
    · exact h
    · have short := hused.short first inner fun same => other (by rw [same])
      rwa [← List.singleton_append, lineTexts_append, List.length_append, ← Nat.add_assoc]
  enough other := by
    have enough := hused.enough fun same => other (by rw [same])
    rwa [← List.singleton_append, lineTexts_append, List.length_append, ← Nat.add_assoc]

theorem eq_of_prefix {used' : List (List UInt8)} (h : Used count held ls used)
    (h' : Used count held ls used') (front : used <+: used') : used = used' := by
  by_contra other
  have short := h'.short used front other
  have enough := h.enough fun same => other (front.eq_of_length_le (same ▸ h'.front.length_le))
  omega

/-- There is only one way to use lines. -/
theorem unique {used' : List (List UInt8)} (h : Used count held ls used)
    (h' : Used count held ls used') : used = used' := by
  rcases List.prefix_or_prefix_of_prefix h.front h'.front with front | front
  · exact h.eq_of_prefix h' front
  · exact (h'.eq_of_prefix h front).symm

end Used

/-- The lines that are used end where the input ends or behind a line feed. -/
theorem exists_used (bytes : List UInt8) (count held : ℕ) :
    ∃ consumed following, consumed ++ following = bytes ∧
      Used count held (lines bytes) (lines consumed) ∧ (following ≠ [] → Ended consumed) := by
  obtain ⟨ls, divided⟩ : ∃ ls, Divided bytes ls := ⟨_, divided_iff.2 rfl⟩
  -- Behind a line there are as many more expressions as it has texts.
  induction divided generalizing held with
  | nil => exact ⟨[], [], rfl, .nil _ _, fun _ => .nil⟩
  | @last line nonempty whole =>
    rcases le_or_gt count held with full | short
    · exact ⟨[], line, rfl, .of_le full _, fun _ => .nil⟩
    · refine ⟨line, [], List.append_nil _, ?_, fun other => absurd rfl other⟩
      rw [lines_last nonempty whole]
      exact .cons short (.nil _ _)
  | @ended line rest _ whole _ ih =>
    rcases le_or_gt count held with full | short
    · exact ⟨[], _, rfl, .of_le full _, fun _ => .nil⟩
    · obtain ⟨consumed, following, rfl, hused, ended⟩ :=
        ih (held + (lineTexts [withoutReturn line]).length)
      refine ⟨line ++ 10 :: consumed, following, by simp, ?_,
        fun more => ended_append_iff.2 (ended more)⟩
      rw [lines_ended whole, lines_ended whole]
      exact .cons short hused

/-! ## What is taken -/

/-- Reading succeeds if the lines that are used are UTF-8. -/
theorem collectLines_of_readable (h : Used count expressions.length ls used)
    (readable : ∀ line ∈ used, IsUtf8 line) :
    collectLines count expressions ls =
      ⟨expressions ++ (lineTexts ls).take (count - expressions.length), true⟩ := by
  have taken : (lineEntries ls).take (count - expressions.length) =
      ((lineTexts ls).take (count - expressions.length)).map some := by
    by_cases all : used = ls
    · rw [all] at readable
      rw [lineEntries_eq_map_some readable, List.map_take]
    · have enough := h.enough all
      obtain ⟨unused, rfl⟩ := h.front
      have room : count - expressions.length ≤ (lineTexts used).length := by omega
      rw [lineEntries_append, lineTexts_append, lineEntries_eq_map_some readable,
        List.take_append_of_le_length (by rwa [List.length_map]),
        List.take_append_of_le_length room, List.map_take]
  rw [collectLines_eq, taken]
  dsimp only
  rw [beforeGap_map_some, List.all_map]
  simp

/-- Reading fails at the first line that is not UTF-8 if there are not enough expressions in front of
    it. -/
theorem collectLines_of_unreadable {before after : List (List UInt8)}
    (readable : ∀ l ∈ before, IsUtf8 l) (gap : ¬IsUtf8 line)
    (short : expressions.length + (lineTexts before).length < count) :
    collectLines count expressions (before ++ line :: after) =
      ⟨expressions ++ lineTexts before, false⟩ := by
  have room : count - expressions.length =
      ((lineTexts before).map some).length +
        (count - expressions.length - (lineTexts before).length - 1 + 1) := by
    rw [List.length_map]
    omega
  rw [collectLines_eq, lineEntries_append, lineEntries_eq_map_some readable,
    lineEntries_gap (decode?_eq_none_iff.2 gap), room, List.take_length_add_append,
    List.take_succ_cons]
  simp [beforeGap_append_gap]

/-- What stands behind enough expressions makes no difference. -/
theorem collectLines_append (enough : count ≤ expressions.length + (lineTexts used).length)
    (unused : List (List UInt8)) :
    collectLines count expressions (used ++ unused) = collectLines count expressions used := by
  have room := length_lineTexts_le used
  rw [collectLines_eq, collectLines_eq, lineEntries_append,
    List.take_append_of_le_length (by omega)]

/-- What comes of taking expressions from bytes, if the lines of `consumed` are used. -/
structure Taken (bytes : List UInt8) (expressions : List (List Char)) (count : ℕ)
    (consumed following : List UInt8) : Prop where
  whole : consumed ++ following = bytes
  divided : ∀ ls, Divided bytes ls ↔ ls = lines bytes
  used : ∀ ls, Used count expressions.length (lines bytes) ls ↔ ls = lines consumed
  readable : (∀ line ∈ lines consumed, IsUtf8 line) →
    collectExpressions bytes expressions count =
      ⟨expressions ++ (lineTexts (lines bytes)).take (count - expressions.length), true⟩
  unreadable : ∀ before line after, lines bytes = before ++ line :: after →
    (∀ l ∈ before, IsUtf8 l) → ¬IsUtf8 line →
    expressions.length + (lineTexts before).length < count →
    collectExpressions bytes expressions count = ⟨expressions ++ lineTexts before, false⟩
  ended : following ≠ [] → Ended consumed
  further : Ended consumed → count ≤ expressions.length + (lineTexts (lines consumed)).length →
    ∀ other, collectExpressions (consumed ++ other) expressions count =
      collectExpressions bytes expressions count

/-- **Reading takes exactly what it needs.** -/
theorem collectExpressions_taken (bytes : List UInt8) (expressions : List (List Char)) (count : ℕ) :
    ∃ consumed following, Taken bytes expressions count consumed following := by
  obtain ⟨consumed, following, whole, hused, ended⟩ := exists_used bytes count expressions.length
  have further (closed : Ended consumed)
      (enough : count ≤ expressions.length + (lineTexts (lines consumed)).length)
      (other : List UInt8) : collectExpressions (consumed ++ other) expressions count =
        collectLines count expressions (lines consumed) := by
    rw [collectExpressions, closed.lines_append, collectLines_append enough]
  refine ⟨consumed, following, whole, fun _ => divided_iff, fun ls => ⟨?_, ?_⟩,
    collectLines_of_readable hused, ?_, ended, fun closed enough other => ?_⟩
  · exact fun h => h.unique hused
  · rintro rfl
    exact hused
  · intro before line after same readable gap short
    rw [collectExpressions, same, collectLines_of_unreadable readable gap short]
  · rw [further closed enough, ← whole, further closed enough]

/-- A blank line is used, and the last line is not, so it need not be UTF-8. -/
example : (collectExpressions [32, 120, 13, 10, 10, 49, 10, 255] [] 2).expressions =
      [['x'], ['1']] ∧
    (collectExpressions [32, 120, 13, 10, 10, 49, 10, 255] [] 2).readable = true := by
  decide +kernel

end SamePoly
