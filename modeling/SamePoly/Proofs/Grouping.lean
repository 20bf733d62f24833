/-
  Groups are normalized by themselves.

  No pass of the normalization looks past a closing bracket, except that a multiplication sign next
  to it goes.  So the contents of a bracket group are normalized as if they stood alone.

  * `respell_closing`, `dropTimesAfter_closing`, `dropTimesBefore_closing`, `wrapBases_closing`,
    `wrapExponents_closing`: the passes one by one.
  * `WellFormed.normalize_group`: **a well-formed text in brackets is normalized to its normalized
    text in brackets, whatever stands behind it but a multiplication sign**.
-/
import SamePoly.Proofs.NormalForm
import SamePoly.Proofs.Preservation

namespace SamePoly

variable {rest s : List Char} {c : Char}

/-! ## Passes over a closing bracket -/

theorem respellPowers_closing (s rest : List Char) :
    respellPowers (s ++ ')' :: rest) = respellPowers s ++ ')' :: respellPowers rest := by
  fun_induction respellPowers s with
  | case1 s ih => rw [List.cons_append, List.cons_append, respellPowers, ih, List.cons_append]
  | case2 c s apart ih =>
    rw [List.cons_append, respellPowers, ih, List.cons_append]
    intro more star second
    cases s with
    | nil => cases second
    | cons d s =>
      cases second
      exact apart s star rfl
  | case3 => exact respellPowers_cons (by decide) rest

theorem respell_closing (s rest : List Char) :
    respell (s ++ ')' :: rest) = respell s ++ ')' :: respell rest := by
  rw [respell, List.filter_append, List.filter_cons, if_pos (by decide), respellPowers_closing,
    List.map_append]
  rfl

theorem dropTimesAfter_closing (s : List Char) (hr : rest.head? ≠ some '*') :
    dropTimesAfter (s ++ ')' :: rest) = dropTimesAfter s ++ ')' :: dropTimesAfter rest := by
  fun_induction dropTimesAfter s with
  | case1 c s digit ih =>
    rw [List.cons_append, List.cons_append, dropTimesAfter, if_pos digit, ← List.cons_append, ih,
      List.cons_append]
  | case2 c s digit ih =>
    rw [List.cons_append, List.cons_append, dropTimesAfter, if_neg digit, ih, List.cons_append]
  | case3 c s apart ih =>
    rw [List.cons_append, dropTimesAfter_cons, ih, List.cons_append]
    cases s with
    | nil => exact fun h => by cases h
    | cons d s =>
      intro h
      cases h
      exact apart s rfl
  | case4 => exact dropTimesAfter_cons hr

theorem dropTimesBefore_closing (s rest : List Char) (hs : s.getLast? ≠ some '*') :
    dropTimesBefore (s ++ ')' :: rest) = dropTimesBefore s ++ ')' :: dropTimesBefore rest := by
  fun_induction dropTimesBefore s with
  | case1 c s digit ih =>
    rw [List.cons_append, List.cons_append, dropTimesBefore, if_pos digit, ← List.cons_append, ih,
      List.cons_append]
    rwa [List.getLast?_cons_cons] at hs
  | case2 c s digit ih =>
    rw [List.cons_append, List.cons_append, dropTimesBefore, if_neg digit, ih, List.cons_append]
    cases s with
    | nil => exact fun h => by cases h
    | cons d s => rwa [List.getLast?_cons_cons, List.getLast?_cons_cons] at hs
  | case3 c s apart ih =>
    have star : c ≠ '*' := by
      rintro rfl
      cases s with
      | nil => exact hs rfl
      | cons d s => exact apart d s rfl rfl
    rw [List.cons_append, dropTimesBefore_cons star, ih, List.cons_append]
    cases s with
    | nil => exact fun h => by cases h
    | cons d s => rwa [List.getLast?_cons_cons] at hs
  | case4 => exact dropTimesBefore_cons (by decide) rest

theorem wrapBases_symbol (literal : isLiteral c = false) (letter : c.isLower = false)
    (rest : List Char) : wrapBases (c :: rest) = c :: wrapBases rest :=
  wrapBases_cons literal fun lower => absurd lower (Bool.eq_false_iff.1 letter)

theorem wrapBases_closing (s rest : List Char) :
    wrapBases (s ++ ')' :: rest) = wrapBases s ++ ')' :: wrapBases rest := by
  fun_induction wrapBases s with
  | case1 => exact wrapBases_symbol rfl rfl rest
  | case2 c s hc _ _ after hafter =>
    rename_i ih
    have run : ∀ d ∈ c :: s.takeWhile isLiteral, isLiteral d = true :=
      List.forall_mem_cons.2 ⟨hc, fun d hd => List.mem_takeWhile_imp hd⟩
    have whole : c :: s = (c :: s.takeWhile isLiteral) ++ '^' :: after := by
      rw [List.cons_append, ← hafter, List.takeWhile_append_dropWhile]
    calc wrapBases (c :: s ++ ')' :: rest) =
        wrapBases ((c :: s.takeWhile isLiteral) ++ '^' :: (after ++ ')' :: rest)) := by
          rw [whole, List.append_assoc]
          rfl
      _ = '(' :: ((c :: s.takeWhile isLiteral) ++ ')' :: '^' :: wrapBases (after ++ ')' :: rest)) := by
          rw [wrapBases_run_power run (List.cons_ne_nil _ _), wrapBases_symbol (c := '^') rfl rfl]
      _ = '(' :: (c :: s.takeWhile isLiteral) ++ ')' :: '^' :: wrapBases after ++
          ')' :: wrapBases rest := by
          rw [ih]
          simp
  | case3 c s hc _ _ hafter =>
    rename_i ih
    have run : ∀ d ∈ c :: s.takeWhile isLiteral, isLiteral d = true :=
      List.forall_mem_cons.2 ⟨hc, fun d hd => List.mem_takeWhile_imp hd⟩
    have split := List.takeWhile_append_dropWhile (p := isLiteral) (l := s)
    have behind : Ends isLiteral (s.dropWhile isLiteral) := ends_dropWhile s
    generalize hafter' : s.dropWhile isLiteral = after at *
    have whole : c :: s = (c :: s.takeWhile isLiteral) ++ after := by rw [List.cons_append, split]
    have ends : Ends isLiteral (after ++ ')' :: rest) := by
      cases after with
      | nil => exact .cons rfl
      | cons d after => exact behind
    have head : (after ++ ')' :: rest).head? ≠ some '^' := by
      cases after with
      | nil => exact fun h => by cases h
      | cons d after => rintro ⟨⟩; exact hafter after rfl
    rw [whole, List.append_assoc, wrapBases_run run (List.cons_ne_nil _ _) ends head, ih]
    exact (List.append_assoc _ _ _).symm
  | case4 c hc after letter ih =>
    rw [List.cons_append, List.cons_append, wrapBases_letter (Bool.eq_false_iff.2 hc) letter,
      wrapBases_symbol (c := '^') rfl rfl, ih]
    rfl
  | case5 c hc after letter ih =>
    rw [List.cons_append, wrapBases_cons (Bool.eq_false_iff.2 hc) fun lower => absurd lower letter,
      ih, List.cons_append]
  | case6 c hc s caret ih =>
    rw [List.cons_append, wrapBases_cons (Bool.eq_false_iff.2 hc), ih, List.cons_append]
    intro _ head
    cases s with
    | nil => cases head
    | cons d s =>
      cases head
      exact caret s rfl

theorem wrapExponents_closing (s rest : List Char) :
    wrapExponents (s ++ ')' :: rest) = wrapExponents s ++ ')' :: wrapExponents rest := by
  fun_induction wrapExponents s with
  | case1 c s hc _ ih =>
    have run : ∀ d ∈ c :: s.takeWhile isLiteral, isLiteral d = true :=
      List.forall_mem_cons.2 ⟨hc, fun d hd => List.mem_takeWhile_imp hd⟩
    have behind : Ends isLiteral (s.dropWhile isLiteral) := ends_dropWhile s
    have ends : Ends isLiteral (s.dropWhile isLiteral ++ ')' :: rest) := by
      generalize s.dropWhile isLiteral = after at behind
      cases after with
      | nil => exact .cons rfl
      | cons d after => exact behind
    have whole : c :: s ++ ')' :: rest =
        (c :: s.takeWhile isLiteral) ++ (s.dropWhile isLiteral ++ ')' :: rest) := by
      rw [← List.append_assoc]
      exact congrArg (c :: · ++ ')' :: rest) List.takeWhile_append_dropWhile.symm
    calc wrapExponents ('^' :: c :: s ++ ')' :: rest) =
        wrapExponents ('^' :: ((c :: s.takeWhile isLiteral) ++
          (s.dropWhile isLiteral ++ ')' :: rest))) := by
          rw [← whole]
          rfl
      _ = '^' :: '(' :: ((c :: s.takeWhile isLiteral) ++
          ')' :: wrapExponents (s.dropWhile isLiteral ++ ')' :: rest)) :=
          wrapExponents_run run (List.cons_ne_nil _ _) ends
      _ = _ := by
          rw [ih]
          simp
  | case2 c s hc letter ih =>
    rw [List.cons_append, List.cons_append, wrapExponents, if_neg hc, if_pos letter, ih]
    rfl
  | case3 c s hc letter ih =>
    rw [List.cons_append, List.cons_append, wrapExponents, if_neg hc, if_neg letter,
      ← List.cons_append, ih]
    rfl
  | case4 c s apart ih =>
    by_cases caret : c = '^'
    · subst caret
      cases s with
      | nil =>
        rw [List.singleton_append, wrapExponents, if_neg (by decide), if_neg (by decide),
          wrapExponents_cons (by decide), wrapExponents_nil]
        rfl
      | cons d s => exact absurd rfl (apart d s rfl)
    · rw [List.cons_append, wrapExponents_cons caret, ih, List.cons_append]
  | case5 => exact wrapExponents_cons (by decide) rest
/-! ## Groups -/

/-- **A group is normalized by itself**, if no multiplication sign stands next to its brackets. -/
theorem normalize_group (first : (respell s).head? ≠ some '*')
    (last : (dropTimesAfter (respell s)).getLast? ≠ some '*')
    (behind : (respell rest).head? ≠ some '*') :
    normalize (bracketed s ++ rest) = bracketed (normalize s) ++ normalize rest := by
  have opened : (respell s ++ ')' :: respell rest).head? ≠ some '*' := by
    cases hs : respell s with
    | nil => exact fun h => by cases h
    | cons c text =>
      rw [hs] at first
      exact first
  have respelled : respell (bracketed s ++ rest) = '(' :: (respell s ++ ')' :: respell rest) := by
    rw [bracketed_append, respell_cons (by decide) (by decide), respell_closing]
    rfl
  rw [normalize, respelled, dropTimesAfter_cons opened, dropTimesAfter_closing _ behind,
    dropTimesBefore_cons (by decide), dropTimesBefore_closing _ _ last,
    wrapBases_symbol (c := '(') rfl rfl, wrapBases_closing, wrapExponents_cons (by decide),
    wrapExponents_closing, bracketed_append]
  rfl

/-- Well-formed text in brackets. -/
theorem WellFormed.normalize_group (h : WellFormed s) (nonblank : isBlankText s = false)
    (behind : (respell rest).head? ≠ some '*') :
    normalize (bracketed s ++ rest) = bracketed (normalize s) ++ normalize rest := by
  have powered := (h.linked nonblank).respellPowers (fun h => absurd h (by decide))
  have compact := powered.dropTimesAfter (fun h => absurd h (by decide))
  have same : respellPowers (respelled s) = respell s := by
    rw [respell, respellPowers_map]
    rfl
  rw [same] at powered compact
  refine SamePoly.normalize_group (fun first => ?_) (fun last => ?_) behind
  · obtain ⟨text, hs⟩ := List.head?_eq_some_iff.1 first
    rw [hs] at powered
    cases powered.1
  · obtain ⟨d, hd, ends⟩ := compact.getLast?
    rw [List.getLast?_cons, last] at hd
    cases hd
    cases ends

/-- Two well-formed texts in brackets. -/
theorem WellFormed.normalize_groups {t : List Char} (hs : WellFormed s) (ht : WellFormed t)
    (nonblank : isBlankText s = false) (nonblank' : isBlankText t = false) :
    normalize (bracketed s ++ bracketed t) = bracketed (normalize s) ++ bracketed (normalize t) := by
  have alone : normalize (bracketed t ++ []) = bracketed (normalize t) ++ normalize [] :=
    ht.normalize_group nonblank' fun h => by cases h
  rw [List.append_nil, normalize_nil, List.append_nil] at alone
  rw [hs.normalize_group nonblank, alone]
  rw [bracketed, respell_cons (by decide) (by decide)]
  exact fun h => by cases h

/-- A well-formed text in brackets with an exponent in brackets. -/
theorem WellFormed.normalize_power (h : WellFormed s) (nonblank : isBlankText s = false)
    (n : Numeral) :
    normalize (bracketed s ++ '^' :: bracketed n.digits) =
      bracketed (normalize s) ++ '^' :: bracketed n.digits := by
  have symbols : ∀ c ∈ '^' :: bracketed n.digits, c ≠ ' ' ∧ c ≠ '*' ∧ respellChar c = c := by
    rw [bracketed, List.forall_mem_cons, List.forall_mem_cons, List.forall_mem_append,
      List.forall_mem_singleton]
    exact ⟨by decide, by decide, fun c hc => respellChar_of_isDigit (n.decimal c hc), by decide⟩
  have digits : ∀ c ∈ n.digits, c ≠ '^' := by
    rintro c hc rfl
    exact absurd (n.decimal _ hc) (by decide)
  have powers : ('^' :: bracketed n.digits).IsChain PowerBetweenBrackets := by
    refine List.isChain_cons.2 ⟨?_, isChain_bracketed (isChain_of_forall_ne digits) ?_ ?_⟩
    · rintro d ⟨⟩
      exact ⟨fun h => absurd h (by decide), fun _ => rfl⟩
    · exact fun c hc => digits c (List.mem_of_mem_head? hc)
    · exact fun c hc => digits c (List.mem_of_mem_getLast? hc)
  have respelled := respell_append symbols []
  have kept : dropTimesAfter ('^' :: bracketed n.digits ++ []) =
      '^' :: bracketed n.digits ++ dropTimesAfter [] :=
    dropTimesAfter_append (fun c hc => (symbols c hc).2.1) fun h => by cases h
  rw [respell_nil, List.append_nil] at respelled
  rw [List.append_nil, dropTimesAfter_nil, List.append_nil] at kept
  have alone : normalize ('^' :: bracketed n.digits) = '^' :: bracketed n.digits := by
    rw [normalize, respelled, kept, wrap_eq_self powers fun c hc => (symbols c hc).2.1]
  rw [h.normalize_group nonblank, alone]
  rw [respelled]
  exact fun h => by cases h

end SamePoly
