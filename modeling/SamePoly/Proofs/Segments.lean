/-
  The groups of a product.

  The decomposition of a product with balanced brackets goes from group to group: each group
  brings the text in front of it and the tower of exponents behind it.

  * `Segment`: a group with the text in front of it and the tower behind it.
  * `Segment.push`: the factors of a segment are added.
  * `Balanced.exists_segmented`: **a balanced product is made of segments, which are added one
    after another** until a tower breaks off behind a `^`.
-/
import SamePoly.Proofs.Adjacency
import SamePoly.Proofs.Decomposition
import SamePoly.Proofs.Merging

namespace SamePoly

variable {text rest run : List Char} {c : Char}

/-! ## Towers of balanced text -/

theorem balanced_takeWhile_isLiteral (text : List Char) : Balanced (text.takeWhile isLiteral) := by
  refine .of_forall fun c hc => ?_
  have literal : isLiteral c = true := List.mem_takeWhile_imp hc
  constructor <;> (rintro rfl; cases literal)

theorem Balanced.link (h : Balanced text) :
    Balanced (SamePoly.link text).1 ∧ Balanced (SamePoly.link text).2 := by
  have whole := link_append text
  have first : Balanced (SamePoly.link text).1 := by
    rw [SamePoly.link.eq_def]
    split
    · obtain ⟨inside, after, rfl, hinside, -⟩ := h.of_opening
      rw [hinside.group?_append]
      exact .single_group hinside
    · exact balanced_takeWhile_isLiteral _
  refine ⟨first, first.of_append ?_⟩
  rwa [whole]

theorem Balanced.firstLink (h : Balanced text) :
    Balanced (SamePoly.firstLink text).1 ∧ Balanced (SamePoly.firstLink text).2 := by
  have whole := firstLink_append text
  have first : Balanced (SamePoly.firstLink text).1 := by
    rw [SamePoly.firstLink.eq_def]
    split
    · exact .nil
    · exact h.link.1
    · rename_i c rest hopen
      exact .symbol hopen (h.of_symbol hopen).1 (balanced_takeWhile_isLiteral _)
  refine ⟨first, first.of_append ?_⟩
  rwa [whole]

theorem Balanced.links (h : Balanced text) :
    Balanced (SamePoly.links text).1 ∧ Balanced (SamePoly.links text).2 := by
  fun_induction SamePoly.links text with
  | case1 c rest _ more last hmore ih =>
    obtain ⟨hfirst, hrest⟩ := (h.of_symbol (by decide)).2.link
    have hmany := ih hrest
    rw [hmore] at hmany
    exact ⟨.symbol (by decide) (by decide) (hfirst.append hmany.1), hmany.2⟩
  | case2 => exact ⟨.nil, h⟩

theorem Balanced.tower (h : Balanced text) :
    Balanced (SamePoly.tower text).1 ∧ Balanced (SamePoly.tower text).2 := by
  obtain ⟨hfirst, hrest⟩ := h.firstLink
  exact ⟨hfirst.append hrest.links.1, hrest.links.2⟩

/-- Nothing but a `^` at the end of the text is left of a `^` behind a tower. -/
theorem head?_links (h : (links text).2.head? = some '^') : (links text).2 = ['^'] := by
  fun_induction links text with
  | case1 c rest _ more last hmore ih =>
    rw [hmore] at ih
    exact ih h
  | case2 last hstop =>
    obtain ⟨tail, rfl⟩ := List.head?_eq_some_iff.1 h
    cases tail with
    | nil => rfl
    | cons c rest => exact (hstop c rest rfl).elim

/-- A link is sound. -/
theorem Sound.link (h : Sound text) : Sound (SamePoly.link text).1 := by
  have whole := link_append text
  have ends : (SamePoly.link text).1.getLast? ≠ some '.' := by
    rw [SamePoly.link.eq_def]
    split
    · split
      · rw [List.getLast?_append_of_ne_nil _ (List.cons_ne_nil _ _)]
        nofun
      · exact h.ends
    · exact (Sound.cut_takeWhile [] h).ends
  rw [← whole] at h
  exact h.cut_of_getLast? ends

theorem Sound.getLast?_links (h : Sound text) : (SamePoly.links text).1.getLast? ≠ some '.' := by
  fun_induction SamePoly.links text with
  | case1 c rest _ more last hmore ih =>
    have first : (['^'] ++ (SamePoly.link (c :: rest)).1).getLast? ≠ some '.' :=
      getLast?_append_ne nofun h.tail.link.ends
    rw [← link_append (c :: rest)] at h
    have onwards := ih h.tail.of_append
    rw [hmore] at onwards
    exact getLast?_append_ne first onwards
  | case2 => exact nofun

/-- A tower is sound. -/
theorem Sound.tower (h : Sound text) : Sound (SamePoly.tower text).1 := by
  have whole := tower_append text
  have behind := firstLink_append text
  have first : (SamePoly.firstLink text).1.getLast? ≠ some '.' := by
    rw [SamePoly.firstLink.eq_def]
    split
    · exact nofun
    · exact h.link.ends
    · rename_i c rest hopen
      exact (Sound.cut_takeWhile [c] h).ends
  have more : Sound (SamePoly.firstLink text).2 := by
    rw [← behind] at h
    exact h.of_append
  rw [← whole] at h
  exact h.cut_of_getLast? (getLast?_append_ne first more.getLast?_links)

theorem head?_tower (h : (tower text).2.head? = some '^') : (tower text).2 = ['^'] :=
  head?_links h

theorem exists_tower (text : List Char) : ∃ e rest, tower text = (e, rest) ∧ text = e ++ rest :=
  ⟨(tower text).1, (tower text).2, rfl, (tower_append text).symm⟩

/-! ## Segments -/

/-- A group of a product with the text in front of it and the tower behind it. -/
structure Segment where
  /-- The text since the group before. -/
  stretch : List Char
  /-- What stands in the brackets. -/
  inside : List Char
  /-- What stands behind a `^` behind the group. -/
  tower : Option (List Char)

namespace Segment

/-- The tower with its `^`. -/
def raise (s : Segment) : List Char := s.tower.elim [] ('^' :: ·)

/-- The spelling of a segment. -/
def spelling (s : Segment) : List Char := s.stretch ++ '(' :: (s.inside ++ ')' :: s.raise)

theorem spelling_append (s : Segment) (rest : List Char) :
    s.spelling ++ rest = s.stretch ++ '(' :: (s.inside ++ ')' :: (s.raise ++ rest)) := by
  simp [spelling]

/-- The exponent of the group, negated behind a `/`. -/
def exponent (s : Segment) : Exponent :=
  if s.stretch.getLast? = some '/' then .negated (s.tower.elim .one .literal)
  else s.tower.elim .one .literal

/-- The text in front of the group, without the operator that joins it to the group. -/
def lead (s : Segment) : List Char := withoutOperator s.stretch.reverse

/-- Adds the factors of a segment. -/
def push (factors : Factors) (s : Segment) : Factors :=
  (factors.push s.lead .one).push s.inside s.exponent

/-- Cut at brackets that match, and nowhere inside a literal. -/
structure WellCut (s : Segment) : Prop where
  stretch : ∀ c ∈ s.stretch, c ≠ '(' ∧ c ≠ ')' ∧ c ≠ '^'
  inside : Balanced s.inside
  tower : ∀ e ∈ s.tower, Balanced e ∧ Sound e

end Segment

/-- Balanced text up to its first group. -/
theorem Balanced.exists_run (h : Balanced text) :
    ∃ run, (∀ c ∈ run, c ≠ '(' ∧ c ≠ ')') ∧ (text = run ∨ ∃ inside after,
      text = run ++ '(' :: (inside ++ ')' :: after) ∧ Balanced inside ∧ Balanced after) := by
  induction h with
  | nil => exact ⟨[], nofun, .inl rfl⟩
  | @symbol c rest hopen hclose _ ih =>
    obtain ⟨run, hrun, hrest⟩ := ih
    refine ⟨c :: run, List.forall_mem_cons.2 ⟨⟨hopen, hclose⟩, hrun⟩, ?_⟩
    rcases hrest with rfl | ⟨inside, after, rfl, hinside, hafter⟩
    · exact .inl rfl
    · exact .inr ⟨inside, after, rfl, hinside, hafter⟩
  | @group inside after hinside hafter _ _ =>
    exact ⟨[], nofun, .inr ⟨inside, after, rfl, hinside, hafter⟩⟩

/-- A `^` stands only behind a group. -/
theorem ne_caret_of_run (adjacent : (run ++ rest).IsChain Follows) (hrun : ∀ c ∈ run, c ≠ ')')
    (starts : (run ++ rest).head? ≠ some '^') : ∀ c ∈ run, c ≠ '^' := by
  induction run with
  | nil => exact nofun
  | cons c run ih =>
    rw [List.cons_append] at adjacent starts
    have hc : c ≠ '^' := fun hc => starts (congrArg some hc)
    refine List.forall_mem_cons.2 ⟨hc, ih adjacent.tail (List.forall_mem_cons.1 hrun).2 ?_⟩
    intro hhead
    obtain ⟨tail, htail⟩ := List.head?_eq_some_iff.1 hhead
    rw [htail] at adjacent
    have link : Follows c '^' := (List.isChain_cons_cons.1 adjacent).1
    have before (j : Kind) (h : j.follows .caret = true) : j = .closing ∨ j = .caret := by
      revert h
      cases j <;> decide
    rcases before _ link with hk | hk
    · exact hrun c List.mem_cons_self (kind_eq_closing_iff.1 hk)
    · exact hc (kind_eq_caret_iff.1 hk)

/-- The text in front of a group. -/
theorem splitCompositionFrom_stretch (hrun : ∀ c ∈ run, c ≠ '(' ∧ c ≠ ')' ∧ c ≠ '^')
    (factors : Factors) :
    splitCompositionFrom factors [] false false (run ++ rest) =
      splitCompositionFrom factors run.reverse (run.getLast? == some '/') false rest := by
  rw [splitCompositionFrom_run fun c hc => (hrun c hc).1, List.append_nil]
  cases hlast : run.getLast? with
  | none => rfl
  | some c =>
    have caret : (c == '^') = false :=
      beq_eq_false_iff_ne.2 (hrun c (List.mem_of_getLast? hlast)).2.2
    show splitCompositionFrom factors run.reverse (c == '/') (c == '^') rest = _
    rw [caret]
    rfl

/-- The factors of a segment are added with the exponent that its `/` negates. -/
theorem Segment.push_eq (factors : Factors) (run inside : List Char) (tower : Option (List Char)) :
    Segment.push factors ⟨run, inside, tower⟩ =
      (factors.push (withoutOperator run.reverse) .one).push inside
        (if run.getLast? == some '/' then .negated (tower.elim .one .literal)
          else tower.elim .one .literal) := by
  rw [push, exponent, lead]
  simp only [beq_iff_eq]

/-- A segment with a tower, which decides whether the next group is a factor. -/
theorem splitCompositionFrom_segment {inside e after : List Char}
    (hrun : ∀ c ∈ run, c ≠ '(' ∧ c ≠ ')' ∧ c ≠ '^') (hinside : Balanced inside)
    (htower : tower after = (e, rest)) (factors : Factors) :
    splitCompositionFrom factors [] false false (run ++ '(' :: (inside ++ ')' :: '^' :: after)) =
      splitCompositionFrom (Segment.push factors ⟨run, inside, some e⟩) [] false
        (e.getLast? == some '^') rest := by
  rw [splitCompositionFrom_stretch hrun, splitCompositionFrom_tower hinside htower, Segment.push_eq]
  rfl

/-- The spelling of segments in a row. -/
def Segment.spellings (segments : List Segment) : List Char := segments.flatMap Segment.spelling

theorem Segment.spellings_cons (s : Segment) (segments : List Segment) :
    Segment.spellings (s :: segments) = s.spelling ++ Segment.spellings segments :=
  List.flatMap_cons ..

/-- A product is cut into segments and a last stretch.  The segments are added one after another,
    and then the last stretch, unless a tower breaks off behind a `^`, which spoils what follows. -/
structure Segmented (factors : Factors) (text : List Char) (segments : List Segment)
    (last : List Char) : Prop where
  cut : ∀ s ∈ segments, s.WellCut
  spelled : text = Segment.spellings segments ++ last
  added : ((∀ s ∈ segments, ∀ e ∈ s.tower, e.getLast? ≠ some '^') ∧
      (∀ c ∈ last, c ≠ '(' ∧ c ≠ ')' ∧ c ≠ '^') ∧
      splitCompositionFrom factors [] false false text =
        (segments.foldl Segment.push factors).push last .one) ∨
    ((∃ s ∈ segments, ∃ e ∈ s.tower, e.getLast? = some '^') ∧
      splitCompositionFrom factors [] false false text =
        splitCompositionFrom (segments.foldl Segment.push factors) [] false true last)

theorem Segmented.cons {s : Segment} {factors : Factors} {segments : List Segment}
    {last : List Char} (hs : s.WellCut) (clean : ∀ e ∈ s.tower, e.getLast? ≠ some '^')
    (step : splitCompositionFrom factors [] false false (s.spelling ++ rest) =
      splitCompositionFrom (s.push factors) [] false false rest)
    (h : Segmented (s.push factors) rest segments last) :
    Segmented factors (s.spelling ++ rest) (s :: segments) last := by
  refine ⟨List.forall_mem_cons.2 ⟨hs, h.cut⟩, ?_, ?_⟩
  · rw [Segment.spellings_cons, List.append_assoc, ← h.spelled]
  · rw [step]
    refine h.added.imp ?_ ?_
    · rintro ⟨towers, hlast, same⟩
      exact ⟨List.forall_mem_cons.2 ⟨clean, towers⟩, hlast, same⟩
    · rintro ⟨⟨t, ht, broken⟩, same⟩
      exact ⟨⟨t, List.mem_cons_of_mem _ ht, broken⟩, same⟩

/-- **A balanced product is made of segments.** -/
theorem Balanced.exists_segmented (h : Balanced text) (sound : Sound text)
    (starts : text.head? ≠ some '^') (ends : text.getLast? ≠ some '^') (factors : Factors) :
    ∃ segments last, Segmented factors text segments last := by
  induction hn : text.length using Nat.strongRecOn generalizing text factors with
  | ind n ih =>
    obtain ⟨run, hrun, rfl | ⟨inside, after, rfl, hinside, hafter⟩⟩ := h.exists_run
    · -- The text has no groups.
      refine ⟨[], text, nofun, rfl, .inl ⟨nofun, fun c hc => ⟨(hrun c hc).1, (hrun c hc).2, ?_⟩, ?_⟩⟩
      · rw [← List.append_nil text] at sound starts
        exact ne_caret_of_run sound.adjacent (fun c hc => (hrun c hc).2) starts c hc
      · exact splitCompositionFrom_of_forall fun c hc => (hrun c hc).1
    · have stretch : ∀ c ∈ run, c ≠ '(' ∧ c ≠ ')' ∧ c ≠ '^' := fun c hc =>
        ⟨(hrun c hc).1, (hrun c hc).2,
          ne_caret_of_run sound.adjacent (fun c hc => (hrun c hc).2) starts c hc⟩
      rw [List.length_append, List.length_cons, List.length_append, List.length_cons] at hn
      by_cases hcaret : after.head? = some '^'
      · obtain ⟨after, rfl⟩ := List.head?_eq_some_iff.1 hcaret
        obtain ⟨e, rest, htext, rfl⟩ := exists_tower after
        obtain ⟨htower, hrest⟩ := (hafter.of_symbol (by decide)).2.tower
        have soundTower : Sound (SamePoly.tower (e ++ rest)).1 :=
          sound.of_append.tail.of_append.tail.tail.tower
        rw [htext] at htower hrest soundTower
        have hs : Segment.WellCut ⟨run, inside, some e⟩ := by
          refine ⟨stretch, hinside, ?_⟩
          rintro _ ⟨⟩
          exact ⟨htower, soundTower⟩
        have spelled : run ++ '(' :: (inside ++ ')' :: '^' :: (e ++ rest)) =
            Segment.spelling ⟨run, inside, some e⟩ ++ rest :=
          (Segment.spelling_append ⟨run, inside, some e⟩ rest).symm
        have step := splitCompositionFrom_segment stretch hinside htext factors
        rw [spelled] at step
        simp only [List.length_append, List.length_cons] at hn
        rw [spelled] at sound ends ⊢
        by_cases broken : e.getLast? = some '^'
        · refine ⟨[⟨run, inside, some e⟩], rest, List.forall_mem_singleton.2 hs, ?_, .inr ⟨?_, ?_⟩⟩
          · rw [Segment.spellings, List.flatMap_singleton]
          · exact ⟨_, List.mem_singleton_self _, e, rfl, broken⟩
          · rw [step, broken]
            rfl
        · have restStarts : rest.head? ≠ some '^' := by
            intro hhead
            have left : (SamePoly.tower (e ++ rest)).2 = ['^'] :=
              head?_tower (by rw [htext]; exact hhead)
            rw [htext] at left
            have left : rest = ['^'] := left
            exact getLast?_ne_of_append ends (by rw [left]; rfl)
          obtain ⟨segments, last, hsegmented⟩ := ih rest.length (by omega) hrest
            sound.of_append restStarts (getLast?_ne_of_append ends)
            (Segment.push factors ⟨run, inside, some e⟩) rfl
          refine ⟨_, last, Segmented.cons hs ?_ ?_ hsegmented⟩
          · rintro _ ⟨⟩
            exact broken
          · rw [step, beq_eq_false_iff_ne.2 broken]
      · have hs : Segment.WellCut ⟨run, inside, none⟩ := ⟨stretch, hinside, nofun⟩
        have spelled : run ++ '(' :: (inside ++ ')' :: after) =
            Segment.spelling ⟨run, inside, none⟩ ++ after :=
          (Segment.spelling_append ⟨run, inside, none⟩ after).symm
        rw [spelled] at sound ends ⊢
        obtain ⟨segments, last, hsegmented⟩ := ih after.length (by omega) hafter
          sound.of_append hcaret (getLast?_ne_of_append ends)
          (Segment.push factors ⟨run, inside, none⟩) rfl
        refine ⟨_, last, Segmented.cons hs nofun ?_ hsegmented⟩
        rw [← spelled, splitCompositionFrom_stretch stretch,
          splitCompositionFrom_group hinside hcaret, Segment.push_eq]
        rfl

/-! ## Parts of segments -/

/-- Text of symbols and groups with given properties. -/
inductive Shaped (symbols : Char → Prop) (groups : List Char → Prop) : List Char → Prop
  | nil : Shaped symbols groups []
  | symbol {c : Char} {rest : List Char} (hopen : c ≠ '(') (hclose : c ≠ ')') :
      symbols c → Shaped symbols groups rest → Shaped symbols groups (c :: rest)
  | group {inside rest : List Char} : Balanced inside → groups inside →
      Shaped symbols groups rest → Shaped symbols groups ('(' :: (inside ++ ')' :: rest))

namespace Shaped

variable {symbols : Char → Prop} {groups : List Char → Prop} {inside : List Char}

theorem of_symbol (hopen : c ≠ '(') (h : Shaped symbols groups (c :: rest)) :
    symbols c ∧ Shaped symbols groups rest := by
  cases h with
  | symbol _ _ hc hrest => exact ⟨hc, hrest⟩
  | group _ _ _ => exact absurd rfl hopen

theorem of_group (hinside : Balanced inside)
    (h : Shaped symbols groups ('(' :: (inside ++ ')' :: rest))) :
    groups inside ∧ Shaped symbols groups rest := by
  generalize htext : '(' :: (inside ++ ')' :: rest) = text at h
  cases h with
  | nil => cases htext
  | symbol hopen _ _ _ => exact absurd (List.cons.inj htext).1.symm hopen
  | group hbalanced hgroup hrest =>
    obtain ⟨rfl, rfl⟩ := hinside.group_unique hbalanced (List.cons.inj htext).2
    exact ⟨hgroup, hrest⟩

/-- What stands behind a balanced part. -/
theorem of_append (hb : Balanced inside) (h : Shaped symbols groups (inside ++ rest)) :
    Shaped symbols groups rest := by
  induction hb with
  | nil => exact h
  | symbol hopen _ _ ih => exact ih (h.of_symbol hopen).2
  | group hinside _ _ ih =>
    rw [List.cons_append, List.append_assoc, List.cons_append] at h
    exact ih (h.of_group hinside).2

theorem of_run (hrun : ∀ c ∈ run, c ≠ '(') (h : Shaped symbols groups (run ++ rest)) :
    (∀ c ∈ run, symbols c) ∧ Shaped symbols groups rest := by
  induction run with
  | nil => exact ⟨nofun, h⟩
  | cons c run ih =>
    obtain ⟨hopen, hrun⟩ := List.forall_mem_cons.1 hrun
    obtain ⟨hc, hrest⟩ := h.of_symbol hopen
    obtain ⟨hall, hrest⟩ := ih hrun hrest
    exact ⟨List.forall_mem_cons.2 ⟨hc, hall⟩, hrest⟩

theorem forall_of_run (hrun : ∀ c ∈ run, c ≠ '(') (h : Shaped symbols groups run) :
    ∀ c ∈ run, symbols c := by
  rw [← List.append_nil run] at h
  exact (h.of_run hrun).1

end Shaped

namespace Segment

variable {segments : List Segment} {last : List Char}

theorem WellCut.balanced_raise {s : Segment} (h : s.WellCut) : Balanced s.raise := by
  rw [raise]
  cases ht : s.tower with
  | none => exact .nil
  | some e => exact .symbol (by decide) (by decide) (h.tower e ht).1

theorem spellings_cons_append (s : Segment) :
    spellings (s :: segments) ++ last =
      s.stretch ++ '(' :: (s.inside ++ ')' :: (s.raise ++ (spellings segments ++ last))) := by
  simp [spellings_cons, spelling]

/-- The properties of symbols and groups hold in every segment and behind the last one. -/
theorem forall_shaped {symbols : Char → Prop} {groups : List Char → Prop}
    (cut : ∀ s ∈ segments, s.WellCut) (h : Shaped symbols groups (spellings segments ++ last)) :
    (∀ s ∈ segments, (∀ c ∈ s.stretch, symbols c) ∧ groups s.inside) ∧
      Shaped symbols groups last := by
  induction segments with
  | nil => exact ⟨nofun, h⟩
  | cons s segments ih =>
    obtain ⟨hs, cut⟩ := List.forall_mem_cons.1 cut
    rw [spellings_cons_append] at h
    obtain ⟨hstretch, h⟩ := h.of_run fun c hc => (hs.stretch c hc).1
    obtain ⟨hgroup, h⟩ := h.of_group hs.inside
    obtain ⟨hall, hlast⟩ := ih cut (h.of_append hs.balanced_raise)
    exact ⟨List.forall_mem_cons.2 ⟨⟨hstretch, hgroup⟩, hall⟩, hlast⟩

/-- Soundness passes on to the stretch and the group of a segment. -/
theorem forall_sound (h : Sound (spellings segments ++ last)) :
    (∀ s ∈ segments, Sound s.stretch ∧ Enclosed s.inside) ∧ Sound last := by
  induction segments with
  | nil => exact ⟨nofun, h⟩
  | cons s segments ih =>
    rw [spellings_cons_append] at h
    have opened := h.of_append
    obtain ⟨hall, hlast⟩ := ih opened.tail.of_append.tail.of_append
    exact ⟨List.forall_mem_cons.2 ⟨⟨h.cut (by rintro d ⟨⟩; rfl), opened.enclosed⟩, hall⟩, hlast⟩

end Segment

end SamePoly
