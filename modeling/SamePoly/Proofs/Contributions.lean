/-
  What the text of a product contributes to its factors.

  A product is cut at the groups that are no exponents.  Each group contributes what stands in its
  brackets with the tower behind it as the exponent, and each stretch of text between groups
  contributes itself.  The decomposition lists what was contributed factor by factor.

  * `PowersBetweenGroups`: every `^` stands between two groups.
  * `GroupTower`: groups with `^` between them.
  * `Cut`, `Cut.AtGroups`: a product that is cut at its groups, and `existsUnique_cut`: there is one
    way to do so.
  * `Cut.contributions`, `collected`: what is contributed, and what is collected of it.
  * `splitComposition_eq_collected`: **the decomposition loses, duplicates and misplaces nothing**.
-/
import SamePoly.Proofs.Segments

namespace SamePoly

variable {text rest run inside after e : List Char} {c : Char}

/-! ## Powers between groups -/

/-- Every `^` stands directly between a closing and an opening bracket. -/
def PowersBetweenGroups (text : List Char) : Prop :=
  ∀ before after, text = before ++ '^' :: after →
    before.getLast? = some ')' ∧ after.head? = some '('

/-- What stands behind a cut that is not in front of a `^`. -/
theorem PowersBetweenGroups.of_append (h : PowersBetweenGroups (run ++ rest))
    (starts : EndsTower rest) : PowersBetweenGroups rest := by
  intro before after same
  obtain ⟨closes, opens⟩ := h (run ++ before) after (by rw [same, List.append_assoc])
  refine ⟨?_, opens⟩
  have hne : before ≠ [] := by
    rintro rfl
    exact starts (by rw [same]; rfl)
  rwa [List.getLast?_append_of_ne_nil _ hne] at closes

/-- What stands behind a `^`. -/
theorem PowersBetweenGroups.behind_caret (h : PowersBetweenGroups (run ++ '^' :: rest)) :
    rest.head? = some '(' ∧ PowersBetweenGroups rest := by
  obtain ⟨-, opens⟩ := h run rest rfl
  rw [List.append_cons] at h
  exact ⟨opens, h.of_append (by rw [EndsTower, opens]; decide)⟩

/-- No `^` stands in text without closing brackets. -/
theorem PowersBetweenGroups.ne_caret (h : PowersBetweenGroups (run ++ rest))
    (hrun : ∀ c ∈ run, c ≠ ')') : ∀ c ∈ run, c ≠ '^' := by
  rintro c hc rfl
  obtain ⟨before, after, rfl⟩ := List.append_of_mem hc
  obtain ⟨closes, -⟩ := h before (after ++ rest) (by rw [List.append_assoc, List.cons_append])
  exact hrun ')' (List.mem_append_left _ (List.mem_of_getLast? closes)) rfl

theorem powersBetweenGroups_of_isChain
    (h : ('(' :: (text ++ [')'])).IsChain fun c d => (d = '^' → c = ')') ∧ (c = '^' → d = '(')) :
    PowersBetweenGroups text := by
  rintro before after rfl
  rw [List.append_assoc, List.cons_append, ← List.cons_append] at h
  obtain ⟨closes, opens⟩ := neighbours_of_isChain ('(' :: before) h
  constructor
  · rcases List.eq_nil_or_concat before with rfl | ⟨front, c, rfl⟩
    · exact absurd ((closes '(' rfl).1 rfl) (by decide)
    · rw [List.concat_eq_append] at closes ⊢
      rw [← List.cons_append, List.getLast?_concat] at closes
      rw [List.getLast?_concat, (closes c rfl).1 rfl]
  · cases after with
    | nil => exact absurd ((opens ')' rfl).2 rfl) (by decide)
    | cons d after => rw [List.head?_cons, (opens d rfl).2 rfl]

/-- Groups in brackets with `^` between them. -/
inductive GroupTower : List Char → Prop
  | single {inside : List Char} : Balanced inside → GroupTower ('(' :: (inside ++ [')']))
  | link {inside e : List Char} : Balanced inside → GroupTower e →
      GroupTower ('(' :: (inside ++ ')' :: '^' :: e))

namespace GroupTower

theorem links_append (h : GroupTower e) (ends : EndsTower rest) :
    links ('^' :: (e ++ rest)) = ('^' :: e, rest) := by
  induction h with
  | single hinside =>
    rw [List.cons_append, List.append_assoc, List.singleton_append, links, link_group hinside,
      links_of_endsTower ends]
    exact Prod.ext (List.append_nil _) rfl
  | link hinside _ ih =>
    rw [List.cons_append, List.append_assoc, List.cons_append, List.cons_append, links,
      link_group hinside, ih]
    simp

/-- A tower of groups is found whole. -/
theorem tower_append (h : GroupTower e) (ends : EndsTower rest) : tower (e ++ rest) = (e, rest) := by
  cases h with
  | single hinside =>
    rw [List.cons_append, List.append_assoc, List.singleton_append, tower_group hinside ends]
  | link hinside htower =>
    rw [List.cons_append, List.append_assoc, List.cons_append, List.cons_append, tower, firstLink,
      link_group hinside, htower.links_append ends]
    simp

theorem getLast? (h : GroupTower e) : e.getLast? = some ')' := by
  induction h with
  | single _ => rw [← List.cons_append, List.getLast?_concat]
  | @link inside e _ htower ih =>
    have hne : e ≠ [] := by rintro rfl; cases htower
    rw [show '(' :: (inside ++ ')' :: '^' :: e) = ('(' :: inside ++ [')', '^']) ++ e by simp,
      List.getLast?_append_of_ne_nil _ hne, ih]

theorem balanced (h : GroupTower e) : Balanced e := by
  induction h with
  | single hinside => exact hinside.single_group
  | link hinside _ ih => exact .group hinside (.symbol (by decide) (by decide) ih)

end GroupTower

/-- Behind a `^` stands a tower of groups. -/
theorem Balanced.exists_groupTower (h : Balanced text) (powers : PowersBetweenGroups text)
    (opens : text.head? = some '(') :
    ∃ e rest, text = e ++ rest ∧ GroupTower e ∧ Balanced rest ∧ EndsTower rest := by
  induction hn : text.length using Nat.strongRecOn generalizing text with
  | ind n ih =>
    obtain ⟨tail, rfl⟩ := List.head?_eq_some_iff.1 opens
    obtain ⟨inside, after, rfl, hinside, hafter⟩ := h.of_opening
    by_cases hcaret : after.head? = some '^'
    · obtain ⟨after, rfl⟩ := List.head?_eq_some_iff.1 hcaret
      have behind : '(' :: (inside ++ ')' :: '^' :: after) =
          ('(' :: inside ++ [')']) ++ '^' :: after := by simp
      rw [behind] at powers
      obtain ⟨opens, powersAfter⟩ := powers.behind_caret
      simp only [List.length_cons, List.length_append] at hn
      obtain ⟨e, rest, rfl, htower, hrest, ends⟩ := ih after.length (by omega)
        (hafter.of_symbol (by decide)).2 powersAfter opens rfl
      exact ⟨_, rest, by simp, .link hinside htower, hrest, ends⟩
    · exact ⟨_, after, by simp, .single hinside, hafter, hcaret⟩

/-! ## Cuts -/

/-- A group that is no exponent, with the stretch in front of it and all of the tower behind it. -/
structure Segment.AtGroup (s : Segment) : Prop where
  stretch : ∀ c ∈ s.stretch, c ≠ '(' ∧ c ≠ ')' ∧ c ≠ '^'
  inside : Balanced s.inside
  tower : ∀ e ∈ s.tower, GroupTower e

/-- A product that is cut into segments and the stretch behind the last one. -/
structure Cut where
  segments : List Segment
  last : List Char

/-- The text that was cut. -/
def Cut.spelling (cut : Cut) : List Char := Segment.spellings cut.segments ++ cut.last

/-- Cut at the groups that are no exponents, and nowhere else. -/
structure Cut.AtGroups (cut : Cut) : Prop where
  segments : ∀ s ∈ cut.segments, s.AtGroup
  last : ∀ c ∈ cut.last, c ≠ '(' ∧ c ≠ ')' ∧ c ≠ '^'

theorem endsTower_of_forall (h : ∀ c ∈ text, c ≠ '(' ∧ c ≠ ')' ∧ c ≠ '^') : EndsTower text :=
  fun starts => (h '^' (List.mem_of_mem_head? starts)).2.2 rfl

theorem Segment.AtGroup.endsTower {s : Segment} (h : s.AtGroup) (rest : List Char) :
    EndsTower (s.spelling ++ rest) := by
  rw [Segment.spelling]
  cases hs : s.stretch with
  | nil => exact fun starts => by cases starts
  | cons c stretch =>
    rintro ⟨⟩
    exact (h.stretch '^' (hs ▸ List.mem_cons_self)).2.2 rfl

theorem Cut.AtGroups.endsTower {cut : Cut} (h : cut.AtGroups) : EndsTower cut.spelling := by
  obtain ⟨segments, last⟩ := cut
  cases segments with
  | nil => exact endsTower_of_forall h.last
  | cons s segments =>
    rw [Cut.spelling, Segment.spellings_cons, List.append_assoc]
    exact (h.segments s List.mem_cons_self).endsTower _

/-- Behind a group stands its tower, if it has one. -/
theorem Balanced.exists_raise (h : Balanced after) (powers : PowersBetweenGroups (run ++ after)) :
    ∃ (tower : Option (List Char)) (rest : List Char),
      after = tower.elim [] ('^' :: ·) ++ rest ∧ (∀ e ∈ tower, GroupTower e) ∧ Balanced rest ∧
        EndsTower rest := by
  by_cases hcaret : after.head? = some '^'
  · obtain ⟨after, rfl⟩ := List.head?_eq_some_iff.1 hcaret
    obtain ⟨opens, powersAfter⟩ := powers.behind_caret
    obtain ⟨e, rest, rfl, htower, hrest, ends⟩ :=
      (h.of_symbol (by decide)).2.exists_groupTower powersAfter opens
    refine ⟨some e, rest, rfl, ?_, hrest, ends⟩
    rintro _ ⟨⟩
    exact htower
  · exact ⟨none, after, rfl, nofun, h, hcaret⟩

/-- A balanced product can be cut at its groups. -/
theorem Balanced.exists_cut (h : Balanced text) (powers : PowersBetweenGroups text) :
    ∃ cut : Cut, cut.AtGroups ∧ cut.spelling = text := by
  induction hn : text.length using Nat.strongRecOn generalizing text with
  | ind n ih =>
    obtain ⟨run, hrun, rfl | ⟨inside, after, rfl, hinside, hafter⟩⟩ := h.exists_run
    · refine ⟨⟨[], text⟩, ⟨nofun, fun c hc => ⟨(hrun c hc).1, (hrun c hc).2, ?_⟩⟩, rfl⟩
      rw [← List.append_nil text] at powers
      exact powers.ne_caret (fun c hc => (hrun c hc).2) c hc
    · have caret := powers.ne_caret fun c hc => (hrun c hc).2
      have stretch : ∀ c ∈ run, c ≠ '(' ∧ c ≠ ')' ∧ c ≠ '^' :=
        fun c hc => ⟨(hrun c hc).1, (hrun c hc).2, caret c hc⟩
      simp only [List.length_append, List.length_cons] at hn
      have behind : run ++ '(' :: (inside ++ ')' :: after) =
          (run ++ '(' :: (inside ++ [')'])) ++ after := by simp
      obtain ⟨tower, rest, rfl, htower, hrest, ends⟩ := hafter.exists_raise (behind ▸ powers)
      have spelled : run ++ '(' :: (inside ++ ')' :: (tower.elim [] ('^' :: ·) ++ rest)) =
          Segment.spelling ⟨run, inside, tower⟩ ++ rest :=
        (Segment.spelling_append ⟨run, inside, tower⟩ rest).symm
      rw [spelled] at powers ⊢
      simp only [List.length_append] at hn
      obtain ⟨cut, hcut, rfl⟩ := ih rest.length (by omega) hrest (powers.of_append ends) rfl
      refine ⟨⟨⟨run, inside, tower⟩ :: cut.segments, cut.last⟩, ⟨?_, hcut.last⟩, ?_⟩
      · exact List.forall_mem_cons.2 ⟨⟨stretch, hinside, htower⟩, hcut.segments⟩
      · rw [Cut.spelling, Segment.spellings_cons, List.append_assoc]
        rfl

/-- The first of some symbols cuts a text in one way. -/
theorem run_unique {run run' rest rest' : List Char} (hrun : ∀ d ∈ run, d ≠ c)
    (hrun' : ∀ d ∈ run', d ≠ c) (same : run ++ c :: rest = run' ++ c :: rest') :
    run = run' ∧ rest = rest' := by
  induction run generalizing run' with
  | nil =>
    cases run' with
    | nil => exact ⟨rfl, (List.cons.inj same).2⟩
    | cons d run' => exact absurd (List.cons.inj same).1.symm (hrun' d List.mem_cons_self)
  | cons d run ih =>
    obtain ⟨hd, hrun⟩ := List.forall_mem_cons.1 hrun
    cases run' with
    | nil => exact absurd (List.cons.inj same).1 hd
    | cons d' run' =>
      obtain ⟨rfl, sameRest⟩ := List.cons.inj same
      obtain ⟨rfl, rfl⟩ := ih hrun (List.forall_mem_cons.1 hrun').2 sameRest
      exact ⟨rfl, rfl⟩

/-- A segment is determined by the text that it starts. -/
theorem Segment.AtGroup.unique {s s' : Segment} {rest rest' : List Char} (h : s.AtGroup)
    (h' : s'.AtGroup) (ends : EndsTower rest) (ends' : EndsTower rest')
    (same : s.spelling ++ rest = s'.spelling ++ rest') : s = s' ∧ rest = rest' := by
  rw [Segment.spelling_append, Segment.spelling_append] at same
  obtain ⟨stretch, same⟩ := run_unique (fun c hc => (h.stretch c hc).1)
    (fun c hc => (h'.stretch c hc).1) same
  obtain ⟨inside, same⟩ := h.inside.group_unique h'.inside same
  suffices tower : s.tower = s'.tower ∧ rest = rest' by
    obtain ⟨tower, rfl⟩ := tower
    cases s
    cases s'
    cases stretch
    cases inside
    cases tower
    exact ⟨rfl, rfl⟩
  rw [Segment.raise, Segment.raise] at same
  cases hs : s.tower with
  | none =>
    cases hs' : s'.tower with
    | none =>
      rw [hs, hs'] at same
      exact ⟨rfl, same⟩
    | some e' =>
      rw [hs, hs'] at same
      exact absurd (congrArg List.head? same) ends
  | some e =>
    cases hs' : s'.tower with
    | none =>
      rw [hs, hs'] at same
      exact absurd (congrArg List.head? same.symm) ends'
    | some e' =>
      rw [hs, hs'] at same
      have found := (h.tower e hs).tower_append ends
      have same : e ++ rest = e' ++ rest' := (List.cons.inj same).2
      rw [same, (h'.tower e' hs').tower_append ends'] at found
      cases found
      exact ⟨rfl, rfl⟩

/-- A product can be cut at its groups in one way only. -/
theorem Cut.AtGroups.unique {cut cut' : Cut} (h : cut.AtGroups) (h' : cut'.AtGroups)
    (same : cut.spelling = cut'.spelling) : cut = cut' := by
  obtain ⟨segments, last⟩ := cut
  obtain ⟨segments', last'⟩ := cut'
  have opens {s : Segment} {segments : List Segment} {last last' : List Char}
      (hlast : ∀ c ∈ last, c ≠ '(' ∧ c ≠ ')' ∧ c ≠ '^')
      (same : last = Segment.spellings (s :: segments) ++ last') : False := by
    rw [Segment.spellings_cons, Segment.spelling] at same
    have opening : '(' ∈ last := by simp [same]
    exact (hlast '(' opening).1 rfl
  induction segments generalizing segments' with
  | nil =>
    cases segments' with
    | nil => exact congrArg (Cut.mk []) same
    | cons s' segments' => exact (opens h.last same).elim
  | cons s segments ih =>
    cases segments' with
    | nil => exact (opens h'.last same.symm).elim
    | cons s' segments' =>
      obtain ⟨hs, hsegments⟩ := List.forall_mem_cons.1 h.segments
      obtain ⟨hs', hsegments'⟩ := List.forall_mem_cons.1 h'.segments
      have tail : Cut.AtGroups ⟨segments, last⟩ := ⟨hsegments, h.last⟩
      have tail' : Cut.AtGroups ⟨segments', last'⟩ := ⟨hsegments', h'.last⟩
      rw [Cut.spelling, Cut.spelling, Segment.spellings_cons, Segment.spellings_cons,
        List.append_assoc, List.append_assoc] at same
      obtain ⟨rfl, sameRest⟩ := hs.unique hs' tail.endsTower tail'.endsTower same
      cases ih tail segments' tail' sameRest
      rfl

/-! ## Contributions -/

/-- A stretch without the operator that joins it to the group behind it. -/
def withoutJoint (stretch : List Char) : List Char :=
  if stretch.getLast? = some '*' ∨ stretch.getLast? = some '/' then stretch.dropLast else stretch

theorem withoutOperator_reverse (stretch : List Char) :
    withoutOperator stretch.reverse = withoutJoint stretch := by
  rcases List.eq_nil_or_concat stretch with rfl | ⟨front, c, rfl⟩
  · rfl
  · rw [withoutJoint, List.concat_eq_append, List.getLast?_concat, List.dropLast_concat,
      List.reverse_append, List.reverse_singleton, List.singleton_append, withoutOperator.eq_def]
    by_cases times : c = '*'
    · simp [times]
    · by_cases slash : c = '/'
      · simp [slash]
      · simp [times, slash]

/-- A stretch contributes itself without its last operator, and a group what stands inside. -/
def Segment.contributions (s : Segment) : List (List Char × Exponent) :=
  [(withoutJoint s.stretch, .one), (s.inside, s.exponent)]

/-- All that a product contributes, in the order of the text; empty factors are dropped. -/
def Cut.contributions (cut : Cut) : List (List Char × Exponent) :=
  (cut.segments.flatMap Segment.contributions ++ [(cut.last, Exponent.one)]).filter fun x =>
    !x.1.isEmpty

/-- What several exponents of one factor come to: a sum, unless there is only one. -/
def Exponent.total : List Exponent → Exponent
  | [e] => e
  | es => .sum es

/-- The exponents that were contributed for a factor. -/
def exponentsOf (contributions : List (List Char × Exponent)) (factor : List Char) :
    List Exponent :=
  (contributions.filter fun x => x.1 == factor).map Prod.snd

/-- The factors in the order of their first contributions, each with all its exponents. -/
def collected (contributions : List (List Char × Exponent)) : Factors :=
  (contributions.map Prod.fst).eraseDups.map fun factor =>
    (factor, .total (exponentsOf contributions factor))

/-! ### Adding a contribution -/

/-- An exponent that was contributed once is no sum. -/
def Exponent.IsSingle (e : Exponent) : Prop := ∀ summands, e ≠ .sum summands

theorem Exponent.accumulate_of_isSingle {e : Exponent} (h : e.IsSingle) (other : Exponent) :
    e.accumulate other = .sum [e, other] := by
  cases e with
  | literal text => rfl
  | negated inner => rfl
  | sum summands => exact absurd rfl (h summands)

theorem Exponent.total_concat {es : List Exponent} (hne : es ≠ []) (single : ∀ e ∈ es, e.IsSingle)
    (e : Exponent) : total (es ++ [e]) = (total es).accumulate e := by
  match es, hne with
  | [first], _ => exact (accumulate_of_isSingle (single first List.mem_cons_self) e).symm
  | first :: second :: more, _ => rfl

theorem eraseDups_concat (factors : List (List Char)) (factor : List Char) :
    (factors ++ [factor]).eraseDups =
      if factor ∈ factors then factors.eraseDups else factors.eraseDups ++ [factor] := by
  rw [List.eraseDups_append]
  by_cases h : factor ∈ factors <;> simp [h, List.removeAll, List.eraseDups_cons]

theorem nodup_eraseDups (factors : List (List Char)) : factors.eraseDups.Nodup := by
  induction factors using List.reverseRecOn with
  | nil => exact List.nodup_nil
  | append_singleton factors factor ih =>
    rw [eraseDups_concat]
    split
    · exact ih
    · rename_i new
      rw [← List.concat_eq_append]
      exact ih.concat (mt List.mem_eraseDups.1 new)

section Push

variable {factor : List Char} {exponent : List Char → Exponent} {factors : List (List Char)}

/-- A new factor comes last. -/
theorem push_of_notMem (hne : factor ≠ []) (h : factor ∉ factors) (e : Exponent) :
    Factors.push (factors.map fun known => (known, exponent known)) factor e =
      (factors.map fun known => (known, exponent known)) ++ [(factor, e)] := by
  rw [Factors.push, if_neg (by simpa using hne)]
  induction factors with
  | nil => rfl
  | cons known factors ih =>
    rw [List.mem_cons, not_or] at h
    rw [List.map_cons, Factors.push.go, if_neg (by simpa using Ne.symm h.1), ih h.2,
      List.cons_append]

/-- A known factor gets one more summand. -/
theorem push_of_mem (hne : factor ≠ []) (distinct : factors.Nodup) (h : factor ∈ factors)
    (e : Exponent) :
    Factors.push (factors.map fun known => (known, exponent known)) factor e =
      factors.map fun known =>
        (known, if known = factor then (exponent known).accumulate e else exponent known) := by
  rw [Factors.push, if_neg (by simpa using hne)]
  induction factors with
  | nil => cases h
  | cons known factors ih =>
    rw [List.nodup_cons] at distinct
    rw [List.map_cons, List.map_cons, Factors.push.go]
    by_cases same : known = factor
    · subst same
      rw [if_pos (by simp), if_pos rfl]
      refine congrArg _ (List.map_congr_left fun other hother => ?_)
      rw [if_neg]
      rintro rfl
      exact distinct.1 hother
    · rw [if_neg (by simpa using same), if_neg same,
        ih distinct.2 ((List.mem_cons.1 h).resolve_left (Ne.symm same))]

end Push

variable {contributions : List (List Char × Exponent)}

theorem exponentsOf_concat (contributions : List (List Char × Exponent)) (factor other : List Char)
    (e : Exponent) :
    exponentsOf (contributions ++ [(factor, e)]) other =
      if other = factor then exponentsOf contributions other ++ [e]
      else exponentsOf contributions other := by
  by_cases same : other = factor
  · simp [exponentsOf, same]
  · simp [exponentsOf, same, Ne.symm same]

theorem exponentsOf_eq_nil_iff {factor : List Char} :
    exponentsOf contributions factor = [] ↔ factor ∉ contributions.map Prod.fst := by
  rw [exponentsOf, List.map_eq_nil_iff, List.filter_eq_nil_iff, List.mem_map]
  simp only [beq_iff_eq, not_exists, not_and]

theorem forall_exponentsOf {P : Exponent → Prop} (h : ∀ x ∈ contributions, P x.2)
    (factor : List Char) : ∀ e ∈ exponentsOf contributions factor, P e :=
  List.forall_mem_map.2 fun x hx => h x (List.mem_of_mem_filter hx)

/-- What is collected of contributions changes with one more of them as the decomposition adds
    it. -/
theorem collected_concat (single : ∀ x ∈ contributions, x.2.IsSingle) {factor : List Char}
    (hne : factor ≠ []) (e : Exponent) :
    collected (contributions ++ [(factor, e)]) = Factors.push (collected contributions) factor e := by
  rw [collected, List.map_append, List.map_singleton, eraseDups_concat, collected]
  split
  · rename_i known
    rw [push_of_mem hne (nodup_eraseDups _) (List.mem_eraseDups.2 known)]
    refine List.map_congr_left fun other hother => ?_
    rw [exponentsOf_concat]
    split
    · have some : exponentsOf contributions other ≠ [] :=
        exponentsOf_eq_nil_iff.not_left.2 (List.mem_eraseDups.1 hother)
      rw [Exponent.total_concat some (forall_exponentsOf single other)]
    · rfl
  · rename_i new
    rw [push_of_notMem hne (mt List.mem_eraseDups.1 new), List.map_append, List.map_singleton,
      exponentsOf_concat, if_pos rfl, exponentsOf_eq_nil_iff.2 new]
    refine congrArg (· ++ _) (List.map_congr_left fun other hother => ?_)
    rw [exponentsOf_concat, if_neg]
    rintro rfl
    exact new (List.mem_eraseDups.1 hother)

/-- The decomposition collects what it adds. -/
theorem foldl_push_eq_collected (h : ∀ x ∈ contributions, x.1 ≠ [] ∧ x.2.IsSingle) :
    contributions.foldl (fun factors x => Factors.push factors x.1 x.2) [] =
      collected contributions := by
  induction contributions using List.reverseRecOn with
  | nil => rfl
  | append_singleton contributions x ih =>
    obtain ⟨before, hx⟩ := List.forall_mem_append.1 h
    rw [List.foldl_append, ih before]
    exact (collected_concat (fun x hx => (before x hx).2) (hx x List.mem_cons_self).1 x.2).symm

/-! ## Decompositions -/

theorem Segment.push_eq_foldl (factors : Factors) (s : Segment) :
    s.push factors = s.contributions.foldl (fun factors x => Factors.push factors x.1 x.2) factors := by
  rw [push, lead, withoutOperator_reverse]
  rfl

theorem foldl_push_filter (contributions : List (List Char × Exponent)) (factors : Factors) :
    (contributions.filter fun x => !x.1.isEmpty).foldl
        (fun factors x => Factors.push factors x.1 x.2) factors =
      contributions.foldl (fun factors x => Factors.push factors x.1 x.2) factors := by
  induction contributions generalizing factors with
  | nil => rfl
  | cons x contributions ih =>
    by_cases empty : x.1.isEmpty = true
    · rw [List.filter_cons_of_neg (by simp [empty]), List.foldl_cons, ih, Factors.push, if_pos empty]
    · rw [List.filter_cons_of_pos (by simp [empty]), List.foldl_cons, List.foldl_cons, ih]

/-- A segment is one step of the decomposition. -/
theorem Segment.AtGroup.splitCompositionFrom {s : Segment} (h : s.AtGroup) (ends : EndsTower rest)
    (factors : Factors) :
    SamePoly.splitCompositionFrom factors [] false false (s.spelling ++ rest) =
      SamePoly.splitCompositionFrom (s.push factors) [] false false rest := by
  obtain ⟨stretch, inside, tower⟩ := s
  cases tower with
  | none =>
    have spelled : Segment.spelling ⟨stretch, inside, none⟩ ++ rest =
        stretch ++ '(' :: (inside ++ ')' :: rest) := Segment.spelling_append _ _
    rw [spelled, splitCompositionFrom_stretch h.stretch, splitCompositionFrom_group h.inside ends,
      Segment.push_eq]
    rfl
  | some e =>
    have spelled : Segment.spelling ⟨stretch, inside, some e⟩ ++ rest =
        stretch ++ '(' :: (inside ++ ')' :: '^' :: (e ++ rest)) := Segment.spelling_append _ _
    have htower : GroupTower e := h.tower e rfl
    rw [spelled, splitCompositionFrom_segment h.stretch h.inside (htower.tower_append ends),
      htower.getLast?]
    rfl

/-- The decomposition of a product that is cut at its groups adds what they contribute, one after
    another. -/
theorem Cut.AtGroups.splitComposition_eq_foldl {cut : Cut} (h : cut.AtGroups) :
    splitComposition cut.spelling =
      cut.contributions.foldl (fun factors x => Factors.push factors x.1 x.2) [] := by
  obtain ⟨segments, last⟩ := cut
  rw [Cut.contributions, foldl_push_filter, List.foldl_append]
  suffices run : ∀ factors : Factors,
      splitCompositionFrom factors [] false false (Cut.spelling ⟨segments, last⟩) =
        ((segments.flatMap Segment.contributions).foldl
          (fun factors x => Factors.push factors x.1 x.2) factors).push last .one from run []
  induction segments with
  | nil => exact fun factors => splitCompositionFrom_of_forall fun c hc => (h.last c hc).1
  | cons s segments ih =>
    intro factors
    obtain ⟨hs, hsegments⟩ := List.forall_mem_cons.1 h.segments
    have tail : Cut.AtGroups ⟨segments, last⟩ := ⟨hsegments, h.last⟩
    rw [Cut.spelling, Segment.spellings_cons, List.append_assoc, List.flatMap_cons,
      List.foldl_append, ← Segment.push_eq_foldl]
    exact (hs.splitCompositionFrom tail.endsTower factors).trans (ih tail _)

/-- No contribution is empty or a sum. -/
theorem Cut.contributions_spec (cut : Cut) :
    ∀ x ∈ cut.contributions, x.1 ≠ [] ∧ x.2.IsSingle := by
  have literal (text : List Char) : (Exponent.literal text).IsSingle := by
    rintro summands ⟨⟩
  intro x hx
  obtain ⟨hx, hne⟩ := List.mem_filter.1 hx
  refine ⟨by simpa using hne, ?_⟩
  rcases List.mem_append.1 hx with hx | hx
  · obtain ⟨s, -, hx⟩ := List.mem_flatMap.1 hx
    rcases List.mem_pair.1 hx with rfl | rfl
    · exact literal _
    · show s.exponent.IsSingle
      rw [Segment.exponent]
      split
      · rintro summands ⟨⟩
      · cases s.tower with
        | none => exact literal _
        | some e => exact literal e
  · rw [List.mem_singleton.1 hx]
    exact literal _

/-- The decomposition of a product that is cut at its groups collects what they contribute. -/
theorem Cut.AtGroups.splitComposition {cut : Cut} (h : cut.AtGroups) :
    SamePoly.splitComposition cut.spelling = collected cut.contributions :=
  h.splitComposition_eq_foldl.trans (foldl_push_eq_collected cut.contributions_spec)

/-- **The decomposition of a product loses, duplicates and misplaces nothing.**  There is one way
    to cut the text at its groups, and the result lists what the parts contribute: each factor once,
    in the order of the first contributions, with its only exponent or the sum of all of them in the
    order of the text. -/
theorem splitComposition_eq_collected (text : List Char) (balanced : Balanced text)
    (powers : PowersBetweenGroups text) :
    (∃! cut : Cut, cut.AtGroups ∧ cut.spelling = text) ∧
      ∀ cut : Cut, cut.AtGroups → cut.spelling = text →
        splitComposition text = collected cut.contributions := by
  constructor
  · obtain ⟨cut, hcut, spelled⟩ := balanced.exists_cut powers
    refine ⟨cut, ⟨hcut, spelled⟩, ?_⟩
    rintro cut' ⟨hcut', spelled'⟩
    exact hcut'.unique hcut (spelled'.trans spelled.symm)
  · rintro cut hcut rfl
    exact hcut.splitComposition

/-- A factor between two others that is divided by later on, with a tower behind it. -/
theorem splitComposition_eq_collected_repeated :
    let text := "4(x)*(y)/(x)^(2)^(3)z".toList
    Balanced text ∧ PowersBetweenGroups text ∧
      splitComposition text =
        [(['4'], .one), (['x'], .sum [.one, .negated (.literal "(2)^(3)".toList)]),
          (['y'], .one), (['z'], .one)] := by
  intro text
  have balanced : Balanced text := checkBrackets_eq_none_iff.1 rfl
  have powers : PowersBetweenGroups text := powersBetweenGroups_of_isChain (by decide)
  let cut : Cut := ⟨[⟨['4'], ['x'], none⟩, ⟨['*'], ['y'], none⟩,
    ⟨['/'], ['x'], some "(2)^(3)".toList⟩], ['z']⟩
  have plain (c : Char) (h : c ≠ '(' ∧ c ≠ ')' ∧ c ≠ '^') :
      (∀ d ∈ [c], d ≠ '(' ∧ d ≠ ')' ∧ d ≠ '^') ∧ Balanced [c] :=
    ⟨List.forall_mem_singleton.2 h, .symbol h.1 h.2.1 .nil⟩
  have tower : GroupTower "(2)^(3)".toList :=
    .link (plain '2' (by decide)).2 (.single (plain '3' (by decide)).2)
  have first : Segment.AtGroup ⟨['4'], ['x'], none⟩ :=
    ⟨(plain '4' (by decide)).1, (plain 'x' (by decide)).2, nofun⟩
  have second : Segment.AtGroup ⟨['*'], ['y'], none⟩ :=
    ⟨(plain '*' (by decide)).1, (plain 'y' (by decide)).2, nofun⟩
  have third : Segment.AtGroup ⟨['/'], ['x'], some "(2)^(3)".toList⟩ :=
    ⟨(plain '/' (by decide)).1, (plain 'x' (by decide)).2, by rintro _ ⟨⟩; exact tower⟩
  have groups : cut.AtGroups := by
    refine ⟨List.forall_mem_cons.2 ⟨first, List.forall_mem_cons.2 ⟨second, ?_⟩⟩, ?_⟩
    · exact List.forall_mem_singleton.2 third
    · exact (plain 'z' (by decide)).1
  exact ⟨balanced, powers, (splitComposition_eq_collected text balanced powers).2 cut groups rfl⟩

end SamePoly
