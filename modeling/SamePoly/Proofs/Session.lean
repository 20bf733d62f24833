/-
  Runs of the program.

  A run looks at the expressions of its options, then at the lines of its file, then at those of
  standard input, and at no more of them than it needs.

  * `Options.entries`: what there is to be read, in order.
  * `readExpressions_eq_ok_iff`: **reading succeeds when the first two entries are there**.
  * `PolyError.IsSyntax`, `PolyError.IsValue`: which errors are about the text, and which about what
    it means.
  * `Options.Chooses`: the comparison that is asked for, and `Options.chooses_iff`: there is one.
  * `Concludes`: what comes of the expressions of a run.
  * `run_concludes`: **the exit code of a run and what it writes**, which input that is not needed
    has no influence on.
-/
import SamePoly.Command.Session
import SamePoly.Proofs.Comparison
import SamePoly.Proofs.Constants
import SamePoly.Proofs.Input
import SamePoly.Proofs.Termination

namespace SamePoly

variable {R : Type}

namespace Command

/-! ## Reading -/

/-- The entries of a file: one gap if it cannot be read. -/
def FileContent.entries : FileContent → List (Option (List Char))
  | .closed _ | .unreadable _ => [none]
  | .bytes content => SamePoly.entries content

/-- The entries of the file that the options name. -/
def Options.fileEntries (options : Options R) (file : List Char → FileContent) :
    List (Option (List Char)) :=
  match options.file with
  | none => []
  | some path => (file path).entries

/-- What there is to be read: the first and the second expression of the options, the entries of
    the file and the entries of standard input. -/
def Options.entries (options : Options R) (source : Source Id) : List (Option (List Char)) :=
  (options.first.toList ++ options.second.toList).map some ++ options.fileEntries source.file ++
    SamePoly.entries source.input

section Reading

variable {es E : List (List Char)} {taken : List (Option (List Char))}

theorem all_isSome_and_append_beforeGap_iff :
    (taken.all Option.isSome = true ∧ es ++ beforeGap taken = E) ↔
      es.map some ++ taken = E.map some := by
  constructor
  · rintro ⟨readable, rfl⟩
    rw [List.map_append, map_some_beforeGap readable]
  · intro h
    obtain ⟨rest, rfl⟩ : ∃ rest, E = es ++ rest := by
      obtain ⟨front, rest, rfl, hfront, -⟩ := List.map_eq_append_iff.1 h.symm
      rw [List.map_inj_right fun _ _ => Option.some.inj] at hfront
      exact ⟨rest, by rw [hfront]⟩
    obtain rfl : taken = rest.map some := by simpa using h
    constructor
    · simp
    · induction rest <;> simp_all

/-- Topping up from bytes takes the first entries, none of which may be a gap. -/
theorem collectExpressions_eq_ok_iff (small : es.length ≤ 2) (content : List UInt8)
    (failure : Outcome) :
    (if (collectExpressions content es 2).readable then
        .ok (collectExpressions content es 2).expressions
      else .error failure) = (.ok E : Except Outcome (List (List Char))) ↔
      (es.map some ++ SamePoly.entries content).take 2 = E.map some := by
  have cut : (es.map some ++ SamePoly.entries content).take 2 =
      es.map some ++ (SamePoly.entries content).take (2 - es.length) := by
    simp [List.take_append, List.take_of_length_le, small]
  rw [cut, ← all_isSome_and_append_beforeGap_iff, collectExpressions_eq]
  dsimp only
  split <;> simp_all

theorem addFromInput_eq_ok_iff (small : es.length ≤ 2) (content : List UInt8) :
    addFromInput es content = .ok E ↔
      (es.map some ++ SamePoly.entries content).take 2 = E.map some :=
  collectExpressions_eq_ok_iff small content _

theorem addFromFile_eq_ok_iff (small : es.length < 2) (path : List Char) (content : FileContent) :
    addFromFile path es content = .ok E ↔
      (es.map some ++ content.entries).take 2 = E.map some := by
  have gap : (es.map some ++ [none]).take 2 ≠ E.map some := by
    intro h
    have : none ∈ E.map some := by
      rw [← h, List.take_of_length_le (by simp; omega)]
      simp
    simp at this
  cases content with
  | closed | unreadable => simp [addFromFile, FileContent.entries, gap]
  | bytes content => exact collectExpressions_eq_ok_iff small.le content _

/-- There are two expressions at most among the options. -/
theorem Options.length_expressions_le (options : Options R) : options.expressions.length ≤ 2 := by
  rw [expressions, List.length_append, Option.length_toList, Option.length_toList]
  split <;> split <;> decide

/-- The file is looked at if the options leave room. -/
theorem readFile_eq_ok_iff (options : Options R) (source : Source Id) :
    (readFile source options).run = .ok E ↔
      (options.expressions.map some ++ options.fileEntries source.file).take 2 = E.map some := by
  have whole : ∀ rest, options.expressions.length = 2 ∨ rest = [] →
      (options.expressions.map some ++ rest).take 2 = options.expressions.map some := by
    rintro rest (full | rfl)
    · rw [List.take_append_of_le_length (by simp [full]), List.take_of_length_le (by simp [full])]
    · rw [List.append_nil, List.take_of_length_le]
      rw [List.length_map]
      exact options.length_expressions_le
  have same : (Except.ok options.expressions : Except Outcome _) = .ok E ↔
      options.expressions.map some = E.map some := by
    simp [List.map_inj_right]
  unfold readFile Options.fileEntries
  cases options.file with
  | none => rw [whole _ (.inr rfl)]; exact same
  | some path =>
    dsimp only
    by_cases full : Nat.ble 2 options.expressions.length = true
    · rw [if_pos full,
        whole _ (.inl (options.length_expressions_le.antisymm (Nat.le_of_ble_eq_true full)))]
      exact same
    · rw [if_neg full]
      exact addFromFile_eq_ok_iff (by simpa [Nat.ble_eq] using full) path _

/-- What the options and the file have given, topped up from standard input if there is room. -/
def topUp (given : List (List Char)) (input : List UInt8) : Except Outcome (List (List Char)) :=
  if Nat.ble 2 given.length then .ok given else addFromInput given input

theorem topUp_eq_ok_iff (small : es.length ≤ 2) (input : List UInt8) :
    topUp es input = .ok E ↔ (es.map some ++ SamePoly.entries input).take 2 = E.map some := by
  unfold topUp
  split
  · rename_i full
    rw [Nat.ble_eq] at full
    rw [List.take_append_of_le_length (by simpa), List.take_of_length_le (by simpa)]
    simp [List.map_inj_right]
  · exact addFromInput_eq_ok_iff small input

/-- A run reads the file, then standard input. -/
theorem readExpressions_eq_ok_iff_exists (source : Source Id) (options : Options R) :
    (readExpressions source options).run = .ok E ↔
      ∃ given, (readFile source options).run = .ok given ∧ topUp given source.input = .ok E := by
  unfold readExpressions
  rw [Id.run_bind]
  cases (readFile source options).run with
  | error => simp
  | ok given =>
    simp [topUp]
    split <;> rfl

/-- **Reading succeeds when the first two entries are there**, and gives their texts. -/
theorem readExpressions_eq_ok_iff (options : Options R) (source : Source Id) :
    (readExpressions source options).run = .ok E ↔
      (options.entries source).take 2 = E.map some := by
  rw [readExpressions_eq_ok_iff_exists, Options.entries, ← Options.expressions]
  simp only [readFile_eq_ok_iff]
  generalize options.expressions.map some ++ options.fileEntries source.file = front
  have more : ∀ {given}, front.take 2 = given.map some →
      (topUp given source.input = .ok E ↔
        (front ++ SamePoly.entries source.input).take 2 = E.map some) := by
    intro given hfront
    have small : given.length ≤ 2 := by
      rw [← List.length_map some, ← hfront]
      exact List.length_take_le 2 front
    have room : 2 - min 2 front.length = 2 - front.length := by omega
    rw [topUp_eq_ok_iff small, ← hfront]
    simp [List.take_append, List.take_take, room]
  constructor
  · rintro ⟨given, hfront, hrest⟩
    exact (more hfront).1 hrest
  · intro h
    have hfront : front.take 2 = (E.take front.length).map some := by
      rw [List.map_take, ← h, List.take_take, List.take_append]
      simp [Nat.min_comm]
    exact ⟨_, hfront, (more hfront).2 h⟩

end Reading

/-! ## What is not looked at -/

section Unread

variable {m : Type → Type} [Monad m] [LawfulMonad m] {options : Options R}

/-- Two expressions in the options are all that is read. -/
theorem readExpressions_of_full (source : Source m) (full : 2 ≤ options.expressions.length) :
    readExpressions source options = pure (.ok options.expressions) := by
  have hfile : readFile source options = pure (.ok options.expressions) := by
    unfold readFile
    cases options.file with
    | none => rfl
    | some path => simp [full]
  simp [readExpressions, hfile, full]

/-- Standard input is not looked at when the file fills up what the options leave. -/
theorem readExpressions_of_file {source : Source m} {path : List Char} {content : FileContent}
    (named : options.file = some path) (had : source.file path = pure content)
    (enough : 2 ≤ options.expressions.length + content.entries.length) (input : m (List UInt8)) :
    readExpressions { source with input } options = readExpressions source options := by
  by_cases full : 2 ≤ options.expressions.length
  · rw [readExpressions_of_full _ full, readExpressions_of_full _ full]
  · have hfile : ∀ input : m (List UInt8), readFile { source with input } options =
        pure (addFromFile path options.expressions content) := by
      intro input
      simp [readFile, named, had, full]
    unfold readExpressions
    rw [hfile input, hfile source.input, pure_bind, pure_bind]
    cases filled : addFromFile path options.expressions content with
    | error failure => rfl
    | ok given =>
      rw [addFromFile_eq_ok_iff (by omega)] at filled
      have : 2 ≤ given.length := by
        rw [← List.length_map some, ← filled]
        simp
        omega
      simp [this]

end Unread

/-! ## What is asked for -/

end Command

/-- Errors about the text of an expression. -/
inductive PolyError.IsSyntax : PolyError → Prop
  /-- Nothing but white space. -/
  | empty : IsSyntax .empty
  /-- Brackets, numbers, symbols or operators that make no expression. -/
  | malformed (reason : Malformed) : IsSyntax (.malformed reason)
  /-- Brackets that are nested too deeply. -/
  | nested (depth : ℕ) : IsSyntax (.nested depth)
  | levels : IsSyntax .levels
  /-- A factor whose exponent has no value. -/
  | exponent (place : Place) (text : List Char) (cause : EvalError) :
      IsSyntax (.factor place (.exponent text cause))
  /-- A factor that is no numeric expression. -/
  | number (place : Place) (text : List Char) : IsSyntax (.factor place (.malformed text))
  /-- A factor of a monomial that is neither a number nor a variable. -/
  | unexpected (monomial factor : List Char) : IsSyntax (.unexpectedFactor monomial factor)
  /-- A product without factors. -/
  | nothing (lexeme : List Char) : IsSyntax (.noFactor lexeme)

/-- Errors about what an expression means. -/
inductive PolyError.IsValue : PolyError → Prop
  /-- A division or a power that makes no polynomial. -/
  | violation (reason : Violation) : IsValue (.violation reason)
  /-- A factor whose power is not part of a polynomial. -/
  | factor (place : Place) (kind : Violation.Kind) (text raisedTo : List Char) :
      IsValue (.factor place (.violation kind text raisedTo))
  /-- An exponent that is too large to be stored. -/
  | exponent (monomial : List Char) (variableName : Char) :
      IsValue (.exponentOverflow monomial variableName)
  /-- A coefficient outside the range of the numbers. -/
  | coefficient (text : List Char) : IsValue (.coefficientOverflow text)

/-- The error of a text that is rejected is of one of the two kinds, and tells of which. -/
theorem kind_of_parse [Scalar R] {text : List Char} {e : PolyError} (h : parse R text = .error e) :
    e.IsSyntax ∧ e.isSyntactic = true ∨ e.IsValue ∧ e.isSyntactic = false := by
  cases e with
  | empty => exact .inl ⟨.empty, rfl⟩
  | malformed reason => exact .inl ⟨.malformed reason, rfl⟩
  | nested depth => exact .inl ⟨.nested depth, rfl⟩
  | violation reason => exact .inr ⟨.violation reason, rfl⟩
  | levels => exact .inl ⟨.levels, rfl⟩
  | endless => exact absurd h parse_ne_endless
  | factor place fault =>
    cases fault with
    | exponent text cause => exact .inl ⟨.exponent place text cause, rfl⟩
    | malformed text => exact .inl ⟨.number place text, rfl⟩
    | violation kind text raisedTo => exact .inr ⟨.factor place kind text raisedTo, rfl⟩
  | unexpectedFactor monomial factor => exact .inl ⟨.unexpected monomial factor, rfl⟩
  | noFactor lexeme => exact .inl ⟨.nothing lexeme, rfl⟩
  | exponentOverflow monomial name => exact .inr ⟨.exponent monomial name, rfl⟩
  | coefficientOverflow text => exact .inr ⟨.coefficient text, rfl⟩

namespace Command

section Choices

variable [Scalar R] {options : Options R} {comparison comparison' : Comparison R}

/-- The comparison that options ask for.  At most one of `-m`, `-d` and `-e` may be given; if there
    were more, the first of these would count. -/
inductive Options.Chooses (options : Options R) : Comparison R → Prop
  /-- With `-m` coefficients have to be equal. -/
  | exact (m : options.exact = true) : Chooses options .exact
  /-- With `-d N` they may differ by ten to the power of `-N`. -/
  | digits {n : Int32} (m : options.exact = false) (d : options.decimal = some n) :
      Chooses options (.epsilon (Decimal.powerOfTen (-n).toInt))
  /-- With `-e EPS` they may differ by `EPS`. -/
  | tolerance {x : R} (m : options.exact = false) (d : options.decimal = none)
      (e : options.epsilon = some x) : Chooses options (.epsilon x)
  /-- With none of these they may differ by a millionth. -/
  | standard (m : options.exact = false) (d : options.decimal = none)
      (e : options.epsilon = none) : Chooses options (.epsilon (Scalar.ofDecimal 1 6))

/-- Options ask for one comparison. -/
theorem Options.chooses_iff : options.Chooses comparison ↔ comparison = options.comparison := by
  rw [Options.comparison]
  constructor
  · rintro (m | ⟨m, d⟩ | ⟨m, d, e⟩ | ⟨m, d, e⟩)
    · rw [if_pos m]
    · simp [m, d, Comparison.ofDecimalDigits]
    · simp [m, d, e]
    · simp [m, d, e, Comparison.default, Comparison.defaultTolerance]
  · rintro rfl
    cases m : options.exact with
    | true => exact .exact m
    | false =>
      rw [if_neg Bool.false_ne_true]
      cases d : options.decimal with
      | some n => exact .digits m d
      | none =>
        cases e : options.epsilon with
        | some x => exact .tolerance m d e
        | none => exact .standard m d e

end Choices

/-- Over fractions a number of digits chooses its power of ten.  Only the least integer of 32 bits
    has no negation in range. -/
theorem Options.chooses_digits_iff {options : Options ℚ} {comparison : Comparison ℚ} {n : Int32}
    (m : options.exact = false) (d : options.decimal = some n) (least : -(2 ^ 31) < n.toInt) :
    options.Chooses comparison ↔ comparison = .epsilon (10 ^ (-n.toInt)) := by
  have negated : (-n).toInt = -n.toInt := by
    rw [Int32.toInt_neg]
    exact Int.bmod_eq_of_le (by have := n.toInt_lt; omega) (by omega)
  rw [chooses_iff, Options.comparison, m, if_neg Bool.false_ne_true, d, ← negated,
    ← Decimal.powerOfTen_eq]
  rfl

/-! ## Conclusions -/

section Pair

variable [Scalar R] {options : Options R} {a b : List Char} {p q : Polynomial (Number R)}
  {e : PolyError}

/-- What comes of the expressions of a run: the exit code and what is written. -/
structure Concludes (options : Options R) (expressions : List (List Char)) (outcome : Outcome) :
    Prop where
  /-- An expression is missing. -/
  missing : expressions.length < 2 → outcome.exit = 1
  /-- The first expression is rejected, whatever the second one is. -/
  first : ∀ a b e, expressions = [a, b] → parse R a = .error e →
    e.IsSyntax ∧ outcome.exit = 3 ∨ e.IsValue ∧ outcome.exit = 4
  /-- Only the second expression is rejected. -/
  second : ∀ a b p e, expressions = [a, b] → parse R a = .ok p → parse R b = .error e →
    e.IsSyntax ∧ outcome.exit = 5 ∨ e.IsValue ∧ outcome.exit = 6
  /-- The polynomials are compared as the options ask for. -/
  verdict : ∀ a b p q, expressions = [a, b] → parse R a = .ok p → parse R b = .ok q →
    ∃ comparison, options.Chooses comparison ∧
      outcome.exit = if p.compare comparison q then 0 else 1
  /-- Something is written exactly when both expressions are parsed. -/
  output : outcome.output ≠ "" ↔
    ∃ a b p q, expressions = [a, b] ∧ parse R a = .ok p ∧ parse R b = .ok q

theorem compareExpressions_first (h : parse R a = .error e) :
    (e.IsSyntax ∧ (compareExpressions options a b).exit = 3 ∨
      e.IsValue ∧ (compareExpressions options a b).exit = 4) ∧
      (compareExpressions options a b).output = "" := by
  simp only [compareExpressions, parseLogged, h, Outcome.after, rejectedCode]
  rcases kind_of_parse h with ⟨kind, same⟩ | ⟨kind, same⟩ <;> simp [kind, same]

theorem compareExpressions_second (hp : parse R a = .ok p) (h : parse R b = .error e) :
    (e.IsSyntax ∧ (compareExpressions options a b).exit = 5 ∨
      e.IsValue ∧ (compareExpressions options a b).exit = 6) ∧
      (compareExpressions options a b).output = "" := by
  simp only [compareExpressions, parseLogged, hp, h, Outcome.after, rejectedCode]
  rcases kind_of_parse h with ⟨kind, same⟩ | ⟨kind, same⟩ <;> simp [kind, same]

theorem compareExpressions_verdict (hp : parse R a = .ok p) (hq : parse R b = .ok q) :
    (∃ comparison, options.Chooses comparison ∧
      (compareExpressions options a b).exit = if p.compare comparison q then 0 else 1) ∧
      (compareExpressions options a b).output ≠ "" := by
  refine ⟨⟨_, Options.chooses_iff.2 rfl, ?_⟩, ?_⟩
  · simp only [compareExpressions, parseLogged, hp, hq]
    split <;> rfl
  · simp only [compareExpressions, parseLogged, hp, hq]
    split <;> simp

theorem compareExpressions_output :
    (compareExpressions options a b).output ≠ "" ↔
      ∃ p q, parse R a = .ok p ∧ parse R b = .ok q := by
  constructor
  · intro written
    cases hp : parse R a with
    | error e => exact absurd (compareExpressions_first hp).2 written
    | ok p =>
      cases hq : parse R b with
      | error e => exact absurd (compareExpressions_second hp hq).2 written
      | ok q => exact ⟨p, q, rfl, rfl⟩
  · rintro ⟨p, q, hp, hq⟩
    exact (compareExpressions_verdict hp hq).2

theorem compareExpressions_concludes (options : Options R) (a b : List Char) :
    Concludes options [a, b] (compareExpressions options a b) where
  missing := by simp
  first := by
    rintro _ _ e ⟨⟩ h
    exact (compareExpressions_first h).1
  second := by
    rintro _ _ p e ⟨⟩ hp h
    exact (compareExpressions_second hp h).1
  verdict := by
    rintro _ _ p q ⟨⟩ hp hq
    exact (compareExpressions_verdict hp hq).1
  output := by
    rw [compareExpressions_output]
    constructor
    · rintro ⟨p, q, hp, hq⟩
      exact ⟨a, b, p, q, rfl, hp, hq⟩
    · rintro ⟨_, _, p, q, ⟨⟩, hp, hq⟩
      exact ⟨p, q, hp, hq⟩

theorem compareAll_concludes (options : Options R) {expressions : List (List Char)}
    (small : expressions.length ≤ 2) :
    Concludes options expressions (compareAll options expressions) := by
  match expressions, small with
  | [], _ => constructor <;> simp [compareAll]
  | [a], _ => constructor <;> simp [compareAll]
  | [a, b], _ => exact compareExpressions_concludes options a b

end Pair

section Run

variable [Scalar R]

/-- **The exit code of a run and what it writes.**  The expressions are the first two entries, a run
    that has read them concludes what they demand, a file is without influence when the options hold
    two expressions, and so is standard input when options and file have two entries. -/
theorem run_concludes (options : Options R) :
    (∀ (source : Source Id) (E : List (List Char)),
      (readExpressions source options).run = .ok E ↔
        (options.entries source).take 2 = E.map some) ∧
    (∀ (source : Source Id) (E : List (List Char)),
      (readExpressions source options).run = .ok E →
        Concludes options E (run source options).run) ∧
    (∀ {m : Type → Type} [Monad m] [LawfulMonad m] (source source' : Source m)
      (file : Option (List Char)), 2 ≤ options.expressions.length →
        run source' { options with file } = run source options) ∧
    (∀ {m : Type → Type} [Monad m] [LawfulMonad m] (source : Source m) (input : m (List UInt8))
      (path : List Char) (content : FileContent), options.file = some path →
      source.file path = pure content →
      2 ≤ options.expressions.length + content.entries.length →
        run { source with input } options = run source options) := by
  refine ⟨fun source E => readExpressions_eq_ok_iff options source, fun source E read => ?_,
    fun {m} _ _ source source' file full => ?_,
    fun {m} _ _ source input path content named had enough => ?_⟩
  · have short : E.length ≤ 2 := by
      rw [← List.length_map some, ← (readExpressions_eq_ok_iff options source).1 read]
      exact List.length_take_le 2 _
    rw [run, Id.run_bind, read]
    exact compareAll_concludes options short
  · have full' : 2 ≤ ({ options with file } : Options R).expressions.length := full
    rw [run, run, readExpressions_of_full _ full, readExpressions_of_full _ full', pure_bind,
      pure_bind]
    rfl
  · rw [run, run, readExpressions_of_file named had enough]

end Run

/-- One equals eight with `-d -1`, which allows for a difference of ten, and with `-e 7`, but not
    with `-m` and not without an option.  What comes behind the two expressions is not looked at,
    although it is not UTF-8. -/
theorem run_concludes_choices :
    let source (input : List UInt8) : Source Id := ⟨fun _ => .bytes [56, 10, 255], input⟩
    let options (first : List Char) (exact : Bool) (decimal : Option Int32) (epsilon : Option ℚ) :
        Options ℚ :=
      { first := some first, file := some "lines".toList, exact, decimal, epsilon }
    (run (source [255]) (options ['1'] false (some (-1)) none)).run.exit = 0 ∧
      (run (source [255]) (options ['1'] false none (some 7))).run.exit = 0 ∧
      (run (source [255]) (options ['1'] true none none)).run.exit = 1 ∧
      (run (source [255]) (options ['1'] false none none)).run.exit = 1 ∧
      (run (source [255]) (options "(3+4".toList false none none)).run.exit = 3 ∧
      ∀ input, run (source input) (options ['1'] true none none) =
        run (source [255]) (options ['1'] true none none) := by
  intro source options
  have lines : SamePoly.entries [56, 10, 255] = [some ['8'], none] := by decide +kernel
  have concludes (first : List Char) (exact : Bool) (decimal : Option Int32)
      (epsilon : Option ℚ) : Concludes (options first exact decimal epsilon) [first, ['8']]
        (run (source [255]) (options first exact decimal epsilon)).run := by
    obtain ⟨reads, concludes, -⟩ := run_concludes (options first exact decimal epsilon)
    refine concludes _ _ ((reads _ _).2 ?_)
    simp [Options.entries, Options.fileEntries, source, options, FileContent.entries, lines]
  have valid : validate ℚ ['1'] = .ok () ∧ validate ℚ ['8'] = .ok () := by
    constructor
    · exact validate_eq_ok_iff.2 ⟨by decide +kernel, by decide, violation?_eq_none_iff.2
        ⟨List.forall_mem_nil _, List.forall_mem_nil _⟩⟩
    · exact validate_eq_ok_iff.2 ⟨by decide +kernel, by decide, violation?_eq_none_iff.2
        ⟨List.forall_mem_nil _, List.forall_mem_nil _⟩⟩
  have one : parse ℚ ['1'] = .ok ⟨[.constant ⟨1, 0⟩]⟩ :=
    parse_digit valid.1 rfl (by decide +kernel) (by decide) (by decide +kernel) (by decide +kernel)
  have eight : parse ℚ ['8'] = .ok ⟨[.constant ⟨8, 0⟩]⟩ :=
    parse_digit valid.2 rfl (by decide +kernel) (by decide) (by decide +kernel) (by decide +kernel)
  have unclosed : parse ℚ "(3+4".toList =
      .error (.malformed (.unbalancedBrackets (.noEnclosing 0))) := by
    rw [parse_eq]
    rfl
  refine ⟨?_, ?_, ?_, ?_, ?_, fun input => ?_⟩
  · obtain ⟨_, chosen, exit⟩ := (concludes _ _ _ _).verdict _ _ _ _ rfl one eight
    obtain rfl := (Options.chooses_digits_iff (n := -1) rfl rfl (by decide)).1 chosen
    rw [exit, if_pos (by decide +kernel)]
  · obtain ⟨_, chosen, exit⟩ := (concludes _ _ _ _).verdict _ _ _ _ rfl one eight
    obtain rfl := Options.chooses_iff.1 chosen
    rw [exit, if_pos (by decide +kernel)]
  · obtain ⟨_, chosen, exit⟩ := (concludes _ _ _ _).verdict _ _ _ _ rfl one eight
    obtain rfl := Options.chooses_iff.1 chosen
    rw [exit, if_neg (by decide +kernel)]
  · obtain ⟨_, chosen, exit⟩ := (concludes _ _ _ _).verdict _ _ _ _ rfl one eight
    obtain rfl := Options.chooses_iff.1 chosen
    rw [exit, if_neg (by decide +kernel)]
  · rcases (concludes _ _ _ _).first _ _ _ rfl unclosed with ⟨-, exit⟩ | ⟨value, -⟩
    · exact exit
    · cases value
  · refine (run_concludes (options ['1'] true none none)).2.2.2 (source [255]) input _ _ rfl rfl ?_
    simp [FileContent.entries, lines, options, Options.expressions]

end Command

end SamePoly
