/-
  Which token lists are numeric expressions.

  A token list is a numeric expression when every operator finds its operands and the brackets
  match, which one pass from left to right decides.

  * `accepts`: the pass, which counts open brackets and knows when an operand has to follow.
  * `accepts_tokens`: the tokens of a tree bring the pass from wanting an operand to having one.
  * `ofTokens?_isSome_iff`: **the reader takes exactly the token lists that the pass accepts**.
-/
import SamePoly.Proofs.Reader

namespace SamePoly.Arithmetic

/-- The tokens of an expression from left to right: `depth` brackets are open, and `wants` says
    that an operand has to follow. -/
def accepts (depth : ℕ) (wants : Bool) : List Token → Bool
  | [] => !wants && depth == 0
  | .number _ :: ts => accepts depth false ts
  | .imaginary _ :: ts => accepts depth false ts
  | .plus :: ts => accepts depth true ts
  | .minus :: ts => accepts depth true ts
  | .times :: ts => !wants && accepts depth true ts
  | .over :: ts => !wants && accepts depth true ts
  | .power :: ts => !wants && accepts depth true ts
  | .opening :: ts => accepts (depth + 1) true ts
  | .closing :: ts =>
    match depth with
    | 0 => false
    | depth + 1 => !wants && accepts depth false ts

/-! ## The tokens of a tree -/

theorem accepts_signs (signs : List Sign) (depth : ℕ) (ts : List Token) :
    accepts depth true (signs.map Sign.token ++ ts) = accepts depth true ts := by
  induction signs with
  | nil => rfl
  | cons sign signs ih => cases sign <;> exact ih

mutual

/-- A sum is an operand. -/
theorem Sum.accepts_tokens (s : Sum) (depth : ℕ) (ts : List Token) :
    accepts depth true (s.tokens ++ ts) = accepts depth false ts := by
  match s with
  | .single p => exact Product.accepts_tokens p depth ts
  | .plus s p =>
    rw [Sum.tokens, List.append_assoc, Sum.accepts_tokens s depth, List.cons_append]
    exact Product.accepts_tokens p depth ts
  | .minus s p =>
    rw [Sum.tokens, List.append_assoc, Sum.accepts_tokens s depth, List.cons_append]
    exact Product.accepts_tokens p depth ts

theorem Product.accepts_tokens (p : Product) (depth : ℕ) (ts : List Token) :
    accepts depth true (p.tokens ++ ts) = accepts depth false ts := by
  match p with
  | .single u => exact Unary.accepts_tokens u depth ts
  | .times p u =>
    rw [Product.tokens, List.append_assoc, Product.accepts_tokens p depth, List.cons_append]
    exact Unary.accepts_tokens u depth ts
  | .over p u =>
    rw [Product.tokens, List.append_assoc, Product.accepts_tokens p depth, List.cons_append]
    exact Unary.accepts_tokens u depth ts
  | .beside p q =>
    rw [Product.tokens, List.append_assoc, Product.accepts_tokens p depth]
    exact Power.accepts_tokens q depth false ts

theorem Unary.accepts_tokens (u : Unary) (depth : ℕ) (ts : List Token) :
    accepts depth true (u.tokens ++ ts) = accepts depth false ts := by
  match u with
  | .signed signs q =>
    rw [Unary.tokens, List.append_assoc, accepts_signs]
    exact Power.accepts_tokens q depth true ts

theorem Power.accepts_tokens (q : Power) (depth : ℕ) (wants : Bool) (ts : List Token) :
    accepts depth wants (q.tokens ++ ts) = accepts depth false ts := by
  match q with
  | .plain b => exact Primary.accepts_tokens b depth wants ts
  | .raised b e =>
    rw [Power.tokens, List.append_assoc, Primary.accepts_tokens b depth wants, List.cons_append]
    exact Unary.accepts_tokens e depth ts

theorem Primary.accepts_tokens (b : Primary) (depth : ℕ) (wants : Bool) (ts : List Token) :
    accepts depth wants (b.tokens ++ ts) = accepts depth false ts := by
  match b with
  | .number l => rfl
  | .imaginary l => rfl
  | .group s =>
    rw [Primary.tokens, List.cons_append, List.cons_append, List.append_assoc, accepts,
      Sum.accepts_tokens s (depth + 1)]
    rfl

end

/-! ## Reading what is accepted -/

variable {ts : List Token}

theorem accepts_takeSigns {depth : ℕ} (h : accepts depth true ts = true) :
    accepts depth true (takeSigns ts).2.1 = true ∧
      ∃ t tail, (takeSigns ts).2.1 = t :: tail ∧ t.isPrimary = true := by
  induction ts with
  | nil => cases h
  | cons t ts ih =>
    cases t with
    | plus => exact ih h
    | minus => exact ih h
    | number l => exact ⟨h, .number l, ts, rfl, rfl⟩
    | imaginary l => exact ⟨h, .imaginary l, ts, rfl, rfl⟩
    | opening => exact ⟨h, .opening, ts, rfl, rfl⟩
    | closing => cases depth <;> cases h
    | _ => cases h

/-- Behind a whole operand that no product goes on with. -/
def AtSign (ts : List Token) : Prop := ∀ t ∈ ts.head?, t.isSign = true ∨ t = .closing

/-- Behind a whole sum. -/
def AtEnd (ts : List Token) : Prop := ∀ t ∈ ts.head?, t = .closing

/-- On accepted token lists shorter than `n` every level of the reader finds what it looks
    for, and what it leaves is accepted as well. -/
structure ReadsAccepted (n : ℕ) : Prop where
  sum {ts depth} : ts.length < n → accepts depth true ts = true →
    ∃ s rest, taken (readSum? ts) = some (s, rest) ∧ accepts depth false rest = true ∧ AtEnd rest
  summands {ts depth} (s : Sum) : ts.length < n → accepts depth false ts = true → AtSign ts →
    ∃ s' rest, taken (readSummands? s ts) = some (s', rest) ∧ accepts depth false rest = true ∧
      AtEnd rest
  product {ts depth} : ts.length < n → accepts depth true ts = true →
    ∃ p rest, taken (readProduct? ts) = some (p, rest) ∧ accepts depth false rest = true ∧
      AtSign rest
  factors {ts depth} (p : Product) : ts.length < n → accepts depth false ts = true →
    StopsPower ts →
    ∃ p' rest, taken (readFactors? p ts) = some (p', rest) ∧ accepts depth false rest = true ∧
      AtSign rest
  unary {ts depth} : ts.length < n → accepts depth true ts = true →
    ∃ u rest, taken (readUnary? ts) = some (u, rest) ∧ accepts depth false rest = true ∧
      StopsPower rest
  power {t ts depth wants} : (t :: ts).length < n → t.isPrimary = true →
    accepts depth wants (t :: ts) = true →
    ∃ q rest, taken (readPower? (t :: ts)) = some (q, rest) ∧ accepts depth false rest = true ∧
      StopsPower rest
  primary {t ts depth wants} : (t :: ts).length < n → t.isPrimary = true →
    accepts depth wants (t :: ts) = true →
    ∃ b rest, taken (readPrimary? (t :: ts)) = some (b, rest) ∧ accepts depth false rest = true

namespace ReadsAccepted

variable {n depth : ℕ} {wants : Bool} {t : Token}

theorem primary_succ (ih : ReadsAccepted n) (hn : (t :: ts).length < n + 1)
    (ht : t.isPrimary = true) (h : accepts depth wants (t :: ts) = true) :
    ∃ b rest, taken (readPrimary? (t :: ts)) = some (b, rest) ∧
      accepts depth false rest = true := by
  cases t with
  | number l => exact ⟨.number l, ts, taken_readPrimary?_number, h⟩
  | imaginary l => exact ⟨.imaginary l, ts, taken_readPrimary?_imaginary, h⟩
  | opening =>
    obtain ⟨s, rest, read, accepted, ends⟩ := ih.sum (Nat.lt_of_succ_lt_succ hn) h
    cases rest with
    | nil => cases accepted
    | cons t rest =>
      obtain rfl : t = .closing := ends t rfl
      refine ⟨.group s, rest, ?_, accepted⟩
      rw [taken_readPrimary?_opening, read]
  | _ => cases ht

theorem power_succ (ih : ReadsAccepted n) (hn : (t :: ts).length < n + 1)
    (ht : t.isPrimary = true) (h : accepts depth wants (t :: ts) = true) :
    ∃ q rest, taken (readPower? (t :: ts)) = some (q, rest) ∧ accepts depth false rest = true ∧
      StopsPower rest := by
  obtain ⟨b, rest, read, accepted⟩ := ih.primary_succ hn ht h
  have shorter : rest.length < (t :: ts).length := bound_of_taken read
  by_cases hp : rest.head? = some .power
  · obtain ⟨tail, rfl⟩ : ∃ tail, rest = .power :: tail := by
      cases rest with
      | nil => cases hp
      | cons t tail => cases hp; exact ⟨tail, rfl⟩
    rw [List.length_cons] at shorter
    obtain ⟨e, last, readExponent, acceptedLast, stops⟩ := ih.unary (by omega) accepted
    refine ⟨.raised b e, last, ?_, acceptedLast, stops⟩
    rw [taken_readPower?_raised read, readExponent]
    rfl
  · refine ⟨.plain b, rest, taken_readPower?_plain read hp, accepted, ?_⟩
    rintro t ht rfl
    exact hp ht

theorem unary_succ (ih : ReadsAccepted n) (hn : ts.length < n + 1)
    (h : accepts depth true ts = true) :
    ∃ u rest, taken (readUnary? ts) = some (u, rest) ∧ accepts depth false rest = true ∧
      StopsPower rest := by
  obtain ⟨accepted, t, tail, htail, ht⟩ := accepts_takeSigns h
  have shorter : (takeSigns ts).2.1.length ≤ ts.length := (takeSigns ts).2.2
  rw [htail] at accepted shorter
  obtain ⟨q, rest, read, acceptedRest, stops⟩ :=
    ih.power_succ (Nat.lt_of_le_of_lt shorter hn) ht accepted
  refine ⟨.signed (takeSigns ts).1 q, rest, ?_, acceptedRest, stops⟩
  rw [taken_readUnary?, htail, read]
  rfl

theorem factors_succ (ih : ReadsAccepted n) (p : Product) (hn : ts.length < n + 1)
    (h : accepts depth false ts = true) (stops : StopsPower ts) :
    ∃ p' rest, taken (readFactors? p ts) = some (p', rest) ∧ accepts depth false rest = true ∧
      AtSign rest := by
  cases ts with
  | nil => exact ⟨p, [], taken_readFactors?_end forall_mem_head?_nil, h, forall_mem_head?_nil⟩
  | cons t tail =>
    have hn' : tail.length < n := Nat.lt_of_succ_lt_succ hn
    have onwards {u : Unary} {rest : List Token} (p : Product)
        (read : taken (readUnary? tail) = some (u, rest)) (accepted : accepts depth false rest = true)
        (stops : StopsPower rest) :
        ∃ p' last, taken (readFactors? p rest) = some (p', last) ∧
          accepts depth false last = true ∧ AtSign last := by
      have shorter : rest.length < tail.length := bound_of_taken read
      exact ih.factors p (shorter.trans hn') accepted stops
    by_cases ht : t.isPrimary = true
    · obtain ⟨q, rest, read, accepted, stops⟩ := ih.power_succ hn ht h
      have shorter : rest.length < (t :: tail).length := bound_of_taken read
      obtain ⟨p', last, next, final⟩ := ih.factors (.beside p q) (by omega) accepted stops
      refine ⟨p', last, ?_, final⟩
      rw [taken_readFactors?_beside ht, read]
      exact next
    · cases t with
      | times =>
        obtain ⟨u, rest, read, accepted, stops⟩ := ih.unary hn' h
        obtain ⟨p', last, next, final⟩ := onwards (.times p u) read accepted stops
        refine ⟨p', last, ?_, final⟩
        rw [taken_readFactors?_times, read]
        exact next
      | «over» =>
        obtain ⟨u, rest, read, accepted, stops⟩ := ih.unary hn' h
        obtain ⟨p', last, next, final⟩ := onwards (.over p u) read accepted stops
        refine ⟨p', last, ?_, final⟩
        rw [taken_readFactors?_over, read]
        exact next
      | power => exact absurd rfl (stops .power rfl)
      | number l => exact absurd rfl ht
      | imaginary l => exact absurd rfl ht
      | opening => exact absurd rfl ht
      | plus =>
        refine ⟨p, _, taken_readFactors?_end ?_, h, ?_⟩
        · rintro t ⟨⟩; rfl
        · rintro t ⟨⟩; exact .inl rfl
      | minus =>
        refine ⟨p, _, taken_readFactors?_end ?_, h, ?_⟩
        · rintro t ⟨⟩; rfl
        · rintro t ⟨⟩; exact .inl rfl
      | closing =>
        refine ⟨p, _, taken_readFactors?_end ?_, h, ?_⟩
        · rintro t ⟨⟩; rfl
        · rintro t ⟨⟩; exact .inr rfl

theorem product_succ (ih : ReadsAccepted n) (hn : ts.length < n + 1)
    (h : accepts depth true ts = true) :
    ∃ p rest, taken (readProduct? ts) = some (p, rest) ∧ accepts depth false rest = true ∧
      AtSign rest := by
  obtain ⟨u, rest, read, accepted, stops⟩ := ih.unary_succ hn h
  have shorter : rest.length < ts.length := bound_of_taken read
  obtain ⟨p, last, next, final⟩ := ih.factors (.single u) (by omega) accepted stops
  refine ⟨p, last, ?_, final⟩
  rw [taken_readProduct?, read]
  exact next

theorem summands_succ (ih : ReadsAccepted n) (s : Sum) (hn : ts.length < n + 1)
    (h : accepts depth false ts = true) (sign : AtSign ts) :
    ∃ s' rest, taken (readSummands? s ts) = some (s', rest) ∧ accepts depth false rest = true ∧
      AtEnd rest := by
  cases ts with
  | nil => exact ⟨s, [], taken_readSummands?_end forall_mem_head?_nil, h, forall_mem_head?_nil⟩
  | cons t tail =>
    have hn' : tail.length < n := Nat.lt_of_succ_lt_succ hn
    cases t with
    | plus =>
      obtain ⟨p, rest, read, accepted, next⟩ := ih.product hn' h
      have shorter : rest.length < tail.length := bound_of_taken read
      obtain ⟨s', last, more, final⟩ := ih.summands (.plus s p) (shorter.trans hn') accepted next
      refine ⟨s', last, ?_, final⟩
      rw [taken_readSummands?_plus, read]
      exact more
    | minus =>
      obtain ⟨p, rest, read, accepted, next⟩ := ih.product hn' h
      have shorter : rest.length < tail.length := bound_of_taken read
      obtain ⟨s', last, more, final⟩ := ih.summands (.minus s p) (shorter.trans hn') accepted next
      refine ⟨s', last, ?_, final⟩
      rw [taken_readSummands?_minus, read]
      exact more
    | closing =>
      refine ⟨s, _, taken_readSummands?_end ?_, h, ?_⟩
      · rintro t ⟨⟩; rfl
      · rintro t ⟨⟩; rfl
    | _ => exact absurd (sign _ rfl) (by rintro (h | h) <;> cases h)

theorem sum_succ (ih : ReadsAccepted n) (hn : ts.length < n + 1)
    (h : accepts depth true ts = true) :
    ∃ s rest, taken (readSum? ts) = some (s, rest) ∧ accepts depth false rest = true ∧
      AtEnd rest := by
  obtain ⟨p, rest, read, accepted, next⟩ := ih.product_succ hn h
  have shorter : rest.length < ts.length := bound_of_taken read
  obtain ⟨s, last, more, final⟩ := ih.summands (.single p) (by omega) accepted next
  refine ⟨s, last, ?_, final⟩
  rw [taken_readSum?, read]
  exact more

theorem all (n : ℕ) : ReadsAccepted n := by
  induction n with
  | zero =>
    have none {m : ℕ} (hm : m < 0) : False := Nat.not_lt_zero m hm
    exact ⟨fun hn => (none hn).elim, fun _ hn => (none hn).elim, fun hn => (none hn).elim,
      fun _ hn => (none hn).elim, fun hn => (none hn).elim, fun hn => (none hn).elim,
      fun hn => (none hn).elim⟩
  | succ n ih =>
    exact ⟨ih.sum_succ, ih.summands_succ, ih.product_succ, ih.factors_succ, ih.unary_succ,
      ih.power_succ, ih.primary_succ⟩

end ReadsAccepted

/-- **The reader takes exactly the token lists that the pass accepts.** -/
theorem ofTokens?_isSome_iff : (Sum.ofTokens? ts).isSome ↔ accepts 0 true ts = true := by
  constructor
  · intro h
    obtain ⟨s, hs⟩ := Option.isSome_iff_exists.1 h
    have accepted := Sum.accepts_tokens s 0 []
    rw [List.append_nil, Sum.tokens_of_ofTokens? hs] at accepted
    exact accepted
  · intro h
    obtain ⟨s, rest, read, accepted, ends⟩ := (ReadsAccepted.all _).sum (Nat.lt_succ_self _) h
    cases rest with
    | nil => rw [Sum.ofTokens?_eq.2 read]; rfl
    | cons t rest =>
      obtain rfl : t = .closing := ends t rfl
      cases accepted

end SamePoly.Arithmetic
