/-
  The reader of numeric expressions against their syntax trees.

  The grammar of numeric expressions is unambiguous: the reader gives a tree back exactly
  when it is given the tokens of that tree.

  * `taken`: what a level of the reader took and left, without the bound on the rest.
  * `Sum.ofTokens?_tokens`: **every tree is read back from its tokens**.
  * `Sum.tokens_of_ofTokens?`: a tree that was read has the tokens it was read from.
-/
import Mathlib
import SamePoly.Arithmetic.Reader

namespace SamePoly.Arithmetic

/-! ## One equation for each level -/

/-- What a level of the reader took and left. -/
def taken {α : Type} {p : List Token → Prop} (r : Option (α × Subtype p)) :
    Option (α × List Token) := r.map fun x => (x.1, x.2.1)

variable {ts tail : List Token}

theorem taken_readSum? :
    taken (readSum? ts) =
      (taken (readProduct? ts)).bind fun x => taken (readSummands? (.single x.1) x.2) := by
  rw [readSum?]
  rcases readProduct? ts with _ | ⟨p, rest, _⟩
  · rfl
  · show _ = taken (readSummands? (.single p) rest)
    dsimp only
    cases readSummands? (.single p) rest <;> rfl

theorem taken_readSummands?_plus {s : Sum} :
    taken (readSummands? s (.plus :: tail)) =
      (taken (readProduct? tail)).bind fun x => taken (readSummands? (.plus s x.1) x.2) := by
  rw [readSummands?]
  rcases readProduct? tail with _ | ⟨p, rest, _⟩
  · rfl
  · show _ = taken (readSummands? (.plus s p) rest)
    dsimp only
    cases readSummands? (.plus s p) rest <;> rfl

theorem taken_readSummands?_minus {s : Sum} :
    taken (readSummands? s (.minus :: tail)) =
      (taken (readProduct? tail)).bind fun x => taken (readSummands? (.minus s x.1) x.2) := by
  rw [readSummands?]
  rcases readProduct? tail with _ | ⟨p, rest, _⟩
  · rfl
  · show _ = taken (readSummands? (.minus s p) rest)
    dsimp only
    cases readSummands? (.minus s p) rest <;> rfl

theorem forall_mem_head?_nil {p : Token → Prop} : ∀ t ∈ ([] : List Token).head?, p t := by
  rintro t ht
  cases ht

/-- The tokens that continue a sum. -/
def Token.isSign : Token → Bool
  | .plus | .minus => true
  | _ => false

/-- The tokens that start a power. -/
def Token.isPrimary : Token → Bool
  | .number _ | .imaginary _ | .opening => true
  | _ => false

/-- The tokens that continue a product. -/
def Token.continuesProduct : Token → Bool
  | .times | .over => true
  | t => t.isPrimary

theorem taken_readSummands?_end {s : Sum} (h : ∀ t ∈ ts.head?, t.isSign = false) :
    taken (readSummands? s ts) = some (s, ts) := by
  rw [readSummands?.eq_def]
  split
  · cases h _ rfl
  · cases h _ rfl
  · rfl

theorem taken_readProduct? :
    taken (readProduct? ts) =
      (taken (readUnary? ts)).bind fun x => taken (readFactors? (.single x.1) x.2) := by
  rw [readProduct?]
  rcases readUnary? ts with _ | ⟨u, rest, _⟩
  · rfl
  · show _ = taken (readFactors? (.single u) rest)
    dsimp only
    cases readFactors? (.single u) rest <;> rfl

theorem taken_readFactors?_times {p : Product} :
    taken (readFactors? p (.times :: tail)) =
      (taken (readUnary? tail)).bind fun x => taken (readFactors? (.times p x.1) x.2) := by
  rw [readFactors?]
  rcases readUnary? tail with _ | ⟨u, rest, _⟩
  · rfl
  · show _ = taken (readFactors? (.times p u) rest)
    dsimp only
    cases readFactors? (.times p u) rest <;> rfl

theorem taken_readFactors?_over {p : Product} :
    taken (readFactors? p (.over :: tail)) =
      (taken (readUnary? tail)).bind fun x => taken (readFactors? (.over p x.1) x.2) := by
  rw [readFactors?]
  rcases readUnary? tail with _ | ⟨u, rest, _⟩
  · rfl
  · show _ = taken (readFactors? (.over p u) rest)
    dsimp only
    cases readFactors? (.over p u) rest <;> rfl

theorem taken_readFactors?_beside {p : Product} {t : Token} (h : t.isPrimary = true) :
    taken (readFactors? p (t :: tail)) =
      (taken (readPower? (t :: tail))).bind fun x => taken (readFactors? (.beside p x.1) x.2) := by
  cases t with
  | number l =>
    rw [readFactors?]
    rcases readPower? (.number l :: tail) with _ | ⟨q, rest, _⟩
    · rfl
    · show _ = taken (readFactors? (.beside p q) rest)
      dsimp only
      cases readFactors? (.beside p q) rest <;> rfl
  | imaginary l =>
    rw [readFactors?]
    rcases readPower? (.imaginary l :: tail) with _ | ⟨q, rest, _⟩
    · rfl
    · show _ = taken (readFactors? (.beside p q) rest)
      dsimp only
      cases readFactors? (.beside p q) rest <;> rfl
  | opening =>
    rw [readFactors?]
    rcases readPower? (.opening :: tail) with _ | ⟨q, rest, _⟩
    · rfl
    · show _ = taken (readFactors? (.beside p q) rest)
      dsimp only
      cases readFactors? (.beside p q) rest <;> rfl
  | _ => cases h

theorem taken_readFactors?_end {p : Product} (h : ∀ t ∈ ts.head?, t.continuesProduct = false) :
    taken (readFactors? p ts) = some (p, ts) := by
  rw [readFactors?.eq_def]
  split
  case h_6 => rfl
  all_goals cases h _ rfl

theorem taken_readUnary? :
    taken (readUnary? ts) =
      (taken (readPower? (takeSigns ts).2.1)).map fun x =>
        (.signed (takeSigns ts).1 x.1, x.2) := by
  rw [readUnary?]
  cases takeSigns ts with
  | mk signs remainder =>
    obtain ⟨rest, h⟩ := remainder
    show _ = (taken (readPower? rest)).map fun x => (Unary.signed signs x.1, x.2)
    dsimp only
    cases readPower? rest with
    | none => rfl
    | some y => rfl

theorem taken_readPower?_raised {b : Primary}
    (h : taken (readPrimary? ts) = some (b, .power :: tail)) :
    taken (readPower? ts) = (taken (readUnary? tail)).map fun x => (.raised b x.1, x.2) := by
  rw [readPower?]
  cases hp : readPrimary? ts with
  | none => rw [hp] at h; cases h
  | some x =>
    obtain ⟨b', rest, hr⟩ := x
    rw [hp] at h
    cases h
    dsimp only
    cases readUnary? tail with
    | none => rfl
    | some y => rfl

theorem taken_readPower?_plain {b : Primary} {rest : List Token}
    (h : taken (readPrimary? ts) = some (b, rest)) (hr : rest.head? ≠ some .power) :
    taken (readPower? ts) = some (.plain b, rest) := by
  rw [readPower?]
  cases hp : readPrimary? ts with
  | none => rw [hp] at h; cases h
  | some x =>
    obtain ⟨b', rest', hr'⟩ := x
    rw [hp] at h
    cases h
    dsimp only
    split
    · rename_i heq
      cases heq
    · rename_i heq
      cases heq
      exact absurd rfl hr
    · rename_i heq
      cases heq
      rfl

theorem taken_readPower?_none (h : taken (readPrimary? ts) = none) :
    taken (readPower? ts) = none := by
  rw [readPower?]
  cases hp : readPrimary? ts with
  | none => rfl
  | some x => rw [hp] at h; cases h

theorem taken_readPrimary?_number {l : Literal} :
    taken (readPrimary? (.number l :: tail)) = some (.number l, tail) := by
  rw [readPrimary?]
  rfl

theorem taken_readPrimary?_imaginary {l : Option Literal} :
    taken (readPrimary? (.imaginary l :: tail)) = some (.imaginary l, tail) := by
  rw [readPrimary?]
  rfl

theorem taken_readPrimary?_opening :
    taken (readPrimary? (.opening :: tail)) =
      match taken (readSum? tail) with
      | some (s, .closing :: rest) => some (.group s, rest)
      | _ => none := by
  rw [readPrimary?]
  cases hs : readSum? tail with
  | none => rfl
  | some x =>
    obtain ⟨s, rest, h⟩ := x
    show _ = match some (s, rest) with
      | some (s, .closing :: rest) => some (Primary.group s, rest)
      | _ => none
    cases rest with
    | nil => rfl
    | cons t rest => cases t <;> rfl

theorem taken_readPrimary?_other (h : ∀ t ∈ ts.head?, t.isPrimary = false) :
    taken (readPrimary? ts) = none := by
  rw [readPrimary?.eq_def]
  split
  case h_4 => rfl
  all_goals cases h _ rfl

theorem Sum.ofTokens?_eq {s : Sum} :
    Sum.ofTokens? ts = some s ↔ taken (readSum? ts) = some (s, []) := by
  rw [Sum.ofTokens?]
  cases readSum? ts with
  | none => exact ⟨nofun, nofun⟩
  | some x =>
    obtain ⟨s', rest, h⟩ := x
    show _ ↔ some (s', rest) = some (s, [])
    cases rest with
    | nil => simp
    | cons t rest => simp

/-! ## Reading the tokens of a tree -/

theorem takeSigns_append (signs : List Sign) (h : ∀ t ∈ ts.head?, t.isSign = false) :
    (takeSigns (signs.map Sign.token ++ ts)).1 = signs ∧
      (takeSigns (signs.map Sign.token ++ ts)).2.1 = ts := by
  induction signs with
  | nil =>
    show (takeSigns ts).1 = [] ∧ (takeSigns ts).2.1 = ts
    rw [takeSigns.eq_def]
    split
    · cases h _ rfl
    · cases h _ rfl
    · exact ⟨rfl, rfl⟩
  | cons sign signs ih =>
    cases sign with
    | plus => exact ⟨congrArg (Sign.plus :: ·) ih.1, ih.2⟩
    | minus => exact ⟨congrArg (Sign.minus :: ·) ih.1, ih.2⟩

/-- Nothing that would make a power go on. -/
def StopsPower (ts : List Token) : Prop := ∀ t ∈ ts.head?, t ≠ .power

/-- Nothing that would make a product go on. -/
def StopsProduct (ts : List Token) : Prop :=
  ∀ t ∈ ts.head?, t ≠ .power ∧ t.continuesProduct = false

theorem StopsProduct.stopsPower (h : StopsProduct ts) : StopsPower ts := fun t ht => (h t ht).1

theorem StopsPower.cons {t : Token} (h : t ≠ .power) : StopsPower (t :: ts) := by
  intro t' ht
  cases ht
  exact h

theorem StopsProduct.cons {t : Token} (h : t ≠ .power) (hc : t.continuesProduct = false) :
    StopsProduct (t :: ts) := by
  intro t' ht
  cases ht
  exact ⟨h, hc⟩

theorem Token.isPrimary_spec {t : Token} (h : t.isPrimary = true) :
    t ≠ .power ∧ t.isSign = false := by
  cases t with
  | number l => exact ⟨nofun, rfl⟩
  | imaginary l => exact ⟨nofun, rfl⟩
  | opening => exact ⟨nofun, rfl⟩
  | _ => cases h

/-- A primary starts with a token of its own. -/
theorem Primary.exists_tokens (b : Primary) :
    ∃ t ts, b.tokens = t :: ts ∧ t.isPrimary = true := by
  cases b with
  | number l => exact ⟨.number l, [], rfl, rfl⟩
  | imaginary l => exact ⟨.imaginary l, [], rfl, rfl⟩
  | group s => exact ⟨.opening, s.tokens ++ [.closing], rfl, rfl⟩

/-- So does a power. -/
theorem Power.exists_tokens (q : Power) : ∃ t ts, q.tokens = t :: ts ∧ t.isPrimary = true := by
  cases q with
  | plain b => exact b.exists_tokens
  | raised b e =>
    obtain ⟨t, ts, hts, ht⟩ := b.exists_tokens
    refine ⟨t, ts ++ .power :: e.tokens, ?_, ht⟩
    rw [Power.tokens, hts, List.cons_append]

mutual

/-- Reading the tokens of a sum comes to the point where its last product has been read. -/
theorem Sum.taken_tokens (s : Sum) {ts : List Token} (h : StopsProduct ts) :
    taken (readSum? (s.tokens ++ ts)) = taken (readSummands? s ts) := by
  match s with
  | .single p =>
    rw [Sum.tokens, taken_readSum?, Product.taken_tokens p h.stopsPower,
      taken_readFactors?_end fun t ht => (h t ht).2]
    rfl
  | .plus s p =>
    have stops : StopsProduct (.plus :: (p.tokens ++ ts)) := .cons nofun rfl
    rw [Sum.tokens, List.append_assoc, List.cons_append, Sum.taken_tokens s stops,
      taken_readSummands?_plus, Product.taken_tokens p h.stopsPower,
      taken_readFactors?_end fun t ht => (h t ht).2]
    rfl
  | .minus s p =>
    have stops : StopsProduct (.minus :: (p.tokens ++ ts)) := .cons nofun rfl
    rw [Sum.tokens, List.append_assoc, List.cons_append, Sum.taken_tokens s stops,
      taken_readSummands?_minus, Product.taken_tokens p h.stopsPower,
      taken_readFactors?_end fun t ht => (h t ht).2]
    rfl

/-- Reading the tokens of a product comes to the point where its last factor has been read. -/
theorem Product.taken_tokens (p : Product) {ts : List Token} (h : StopsPower ts) :
    taken (readProduct? (p.tokens ++ ts)) = taken (readFactors? p ts) := by
  match p with
  | .single u =>
    rw [Product.tokens, taken_readProduct?, Unary.taken_tokens u h]
    rfl
  | .times p u =>
    have stops : StopsPower (.times :: (u.tokens ++ ts)) := .cons nofun
    rw [Product.tokens, List.append_assoc, List.cons_append, Product.taken_tokens p stops,
      taken_readFactors?_times, Unary.taken_tokens u h]
    rfl
  | .over p u =>
    have stops : StopsPower (.over :: (u.tokens ++ ts)) := .cons nofun
    rw [Product.tokens, List.append_assoc, List.cons_append, Product.taken_tokens p stops,
      taken_readFactors?_over, Unary.taken_tokens u h]
    rfl
  | .beside p q =>
    obtain ⟨t, qs, hq, ht⟩ := q.exists_tokens
    have read := Power.taken_tokens q h
    rw [hq, List.cons_append] at read
    rw [Product.tokens, List.append_assoc, hq, List.cons_append,
      Product.taken_tokens p (.cons (Token.isPrimary_spec ht).1), taken_readFactors?_beside ht, read]
    rfl

/-- A signed power is read back. -/
theorem Unary.taken_tokens (u : Unary) {ts : List Token} (h : StopsPower ts) :
    taken (readUnary? (u.tokens ++ ts)) = some (u, ts) := by
  match u with
  | .signed signs q =>
    obtain ⟨t, qs, hq, ht⟩ := q.exists_tokens
    have unsigned : ∀ t ∈ (q.tokens ++ ts).head?, t.isSign = false := by
      rw [hq, List.cons_append]
      intro t' ht'
      cases ht'
      exact (Token.isPrimary_spec ht).2
    obtain ⟨hsigns, hrest⟩ := takeSigns_append signs unsigned
    rw [Unary.tokens, List.append_assoc, taken_readUnary?, hsigns, hrest, Power.taken_tokens q h]
    rfl

/-- A power is read back. -/
theorem Power.taken_tokens (q : Power) {ts : List Token} (h : StopsPower ts) :
    taken (readPower? (q.tokens ++ ts)) = some (q, ts) := by
  match q with
  | .plain b =>
    rw [Power.tokens]
    exact taken_readPower?_plain (Primary.taken_tokens b) fun hp => h _ hp rfl
  | .raised b e =>
    rw [Power.tokens, List.append_assoc, List.cons_append,
      taken_readPower?_raised (Primary.taken_tokens b), Unary.taken_tokens e h]
    rfl

/-- A primary is read back. -/
theorem Primary.taken_tokens (b : Primary) {ts : List Token} :
    taken (readPrimary? (b.tokens ++ ts)) = some (b, ts) := by
  match b with
  | .number l => exact taken_readPrimary?_number
  | .imaginary l => exact taken_readPrimary?_imaginary
  | .group s =>
    have stops : StopsProduct (.closing :: ts) := .cons nofun rfl
    rw [Primary.tokens, List.cons_append, List.cons_append, List.append_assoc,
      List.singleton_append, taken_readPrimary?_opening, Sum.taken_tokens s stops,
      taken_readSummands?_end]
    intro t ht
    cases ht
    rfl

end

/-- **Every tree is read back** from its tokens. -/
theorem Sum.ofTokens?_tokens (s : Sum) : Sum.ofTokens? s.tokens = some s := by
  rw [Sum.ofTokens?_eq]
  have stops : StopsProduct [] := forall_mem_head?_nil
  have read := Sum.taken_tokens s stops
  rw [List.append_nil] at read
  rw [read, taken_readSummands?_end forall_mem_head?_nil]

/-! ## The tokens of a tree that was read -/

theorem bound_of_taken {α : Type} {p : List Token → Prop} {r : Option (α × Subtype p)} {a : α}
    {rest : List Token} (h : taken r = some (a, rest)) : p rest := by
  obtain ⟨⟨a', rest', hp⟩, -, same⟩ := Option.map_eq_some_iff.1 h
  cases same
  exact hp

theorem takeSigns_tokens (ts : List Token) :
    (takeSigns ts).1.map Sign.token ++ (takeSigns ts).2.1 = ts := by
  induction ts with
  | nil => rfl
  | cons t ts ih =>
    cases t with
    | plus => exact congrArg (Token.plus :: ·) ih
    | minus => exact congrArg (Token.minus :: ·) ih
    | _ => rfl

/-- On token lists shorter than `n` every level of the reader gives a tree with the tokens that
    it took. -/
structure TakesTokens (n : ℕ) : Prop where
  sum {ts rest s} : ts.length < n → taken (readSum? ts) = some (s, rest) → s.tokens ++ rest = ts
  summands {ts rest s s'} : ts.length < n → taken (readSummands? s ts) = some (s', rest) →
    s'.tokens ++ rest = s.tokens ++ ts
  product {ts rest p} : ts.length < n → taken (readProduct? ts) = some (p, rest) →
    p.tokens ++ rest = ts
  factors {ts rest p p'} : ts.length < n → taken (readFactors? p ts) = some (p', rest) →
    p'.tokens ++ rest = p.tokens ++ ts
  unary {ts rest u} : ts.length < n → taken (readUnary? ts) = some (u, rest) →
    u.tokens ++ rest = ts
  power {ts rest q} : ts.length < n → taken (readPower? ts) = some (q, rest) →
    q.tokens ++ rest = ts
  primary {ts rest b} : ts.length < n → taken (readPrimary? ts) = some (b, rest) →
    b.tokens ++ rest = ts

namespace TakesTokens

variable {n : ℕ} {rest : List Token}

theorem primary_succ (ih : TakesTokens n) {b : Primary} (hn : ts.length < n + 1)
    (h : taken (readPrimary? ts) = some (b, rest)) : b.tokens ++ rest = ts := by
  cases ts with
  | nil => rw [taken_readPrimary?_other forall_mem_head?_nil] at h; cases h
  | cons t tail =>
    cases t with
    | number l => rw [taken_readPrimary?_number] at h; cases h; rfl
    | imaginary l => rw [taken_readPrimary?_imaginary] at h; cases h; rfl
    | opening =>
      rw [taken_readPrimary?_opening] at h
      split at h
      · rename_i s rest' read
        cases h
        have := ih.sum (Nat.lt_of_succ_lt_succ hn) read
        rw [Primary.tokens, List.cons_append, List.cons_append, List.append_assoc,
          List.singleton_append, this]
      · cases h
    | _ =>
      rw [taken_readPrimary?_other] at h
      · cases h
      · rintro t ht
        cases ht
        rfl

theorem power_succ (ih : TakesTokens n) {q : Power} (hn : ts.length < n + 1)
    (h : taken (readPower? ts) = some (q, rest)) : q.tokens ++ rest = ts := by
  cases hb : taken (readPrimary? ts) with
  | none => rw [taken_readPower?_none hb] at h; cases h
  | some x =>
    obtain ⟨b, rest'⟩ := x
    have tokens := ih.primary_succ hn hb
    have shorter : rest'.length < ts.length := bound_of_taken hb
    by_cases hp : rest'.head? = some .power
    · obtain ⟨tail, rfl⟩ : ∃ tail, rest' = .power :: tail := by
        cases rest' with
        | nil => cases hp
        | cons t tail => cases hp; exact ⟨tail, rfl⟩
      rw [taken_readPower?_raised hb] at h
      obtain ⟨⟨e, last⟩, read, same⟩ := Option.map_eq_some_iff.1 h
      cases same
      rw [List.length_cons] at shorter
      have := ih.unary (by omega) read
      rw [Power.tokens, List.append_assoc, List.cons_append, this, tokens]
    · rw [taken_readPower?_plain hb hp] at h
      cases h
      exact tokens

theorem unary_succ (ih : TakesTokens n) {u : Unary} (hn : ts.length < n + 1)
    (h : taken (readUnary? ts) = some (u, rest)) : u.tokens ++ rest = ts := by
  rw [taken_readUnary?] at h
  obtain ⟨⟨q, last⟩, read, same⟩ := Option.map_eq_some_iff.1 h
  cases same
  have shorter : (takeSigns ts).2.1.length ≤ ts.length := (takeSigns ts).2.2
  rw [Unary.tokens, List.append_assoc, ih.power_succ (by omega) read, takeSigns_tokens]

theorem factors_succ (ih : TakesTokens n) {p p' : Product} (hn : ts.length < n + 1)
    (h : taken (readFactors? p ts) = some (p', rest)) : p'.tokens ++ rest = p.tokens ++ ts := by
  cases ts with
  | nil => rw [taken_readFactors?_end forall_mem_head?_nil] at h; cases h; rfl
  | cons t tail =>
    have hn' : tail.length < n := Nat.lt_of_succ_lt_succ hn
    by_cases ht : t.isPrimary = true
    · rw [taken_readFactors?_beside ht] at h
      obtain ⟨⟨q, last⟩, read, next⟩ := Option.bind_eq_some_iff.1 h
      have shorter : last.length < (t :: tail).length := bound_of_taken read
      have hlast : last.length < n := by omega
      rw [ih.factors hlast next, Product.tokens, List.append_assoc, ih.power_succ hn read]
    · cases t with
      | times =>
        rw [taken_readFactors?_times] at h
        obtain ⟨⟨u, last⟩, read, next⟩ := Option.bind_eq_some_iff.1 h
        have shorter : last.length < tail.length := bound_of_taken read
        rw [ih.factors (shorter.trans hn') next, Product.tokens, List.append_assoc, List.cons_append,
          ih.unary hn' read]
      | «over» =>
        rw [taken_readFactors?_over] at h
        obtain ⟨⟨u, last⟩, read, next⟩ := Option.bind_eq_some_iff.1 h
        have shorter : last.length < tail.length := bound_of_taken read
        rw [ih.factors (shorter.trans hn') next, Product.tokens, List.append_assoc, List.cons_append,
          ih.unary hn' read]
      | number l => exact absurd rfl ht
      | imaginary l => exact absurd rfl ht
      | opening => exact absurd rfl ht
      | _ =>
        rw [taken_readFactors?_end] at h
        · cases h; rfl
        · rintro t ht
          cases ht
          rfl

theorem product_succ (ih : TakesTokens n) {p : Product} (hn : ts.length < n + 1)
    (h : taken (readProduct? ts) = some (p, rest)) : p.tokens ++ rest = ts := by
  rw [taken_readProduct?] at h
  obtain ⟨⟨u, last⟩, read, next⟩ := Option.bind_eq_some_iff.1 h
  have shorter : last.length < ts.length := bound_of_taken read
  have hlast : last.length < n := by omega
  rw [ih.factors hlast next, Product.tokens, ih.unary_succ hn read]

theorem summands_succ (ih : TakesTokens n) {s s' : Sum} (hn : ts.length < n + 1)
    (h : taken (readSummands? s ts) = some (s', rest)) : s'.tokens ++ rest = s.tokens ++ ts := by
  cases ts with
  | nil => rw [taken_readSummands?_end forall_mem_head?_nil] at h; cases h; rfl
  | cons t tail =>
    have hn' : tail.length < n := Nat.lt_of_succ_lt_succ hn
    cases t with
    | plus =>
      rw [taken_readSummands?_plus] at h
      obtain ⟨⟨p, last⟩, read, next⟩ := Option.bind_eq_some_iff.1 h
      have shorter : last.length < tail.length := bound_of_taken read
      rw [ih.summands (shorter.trans hn') next, Sum.tokens, List.append_assoc, List.cons_append,
        ih.product hn' read]
    | minus =>
      rw [taken_readSummands?_minus] at h
      obtain ⟨⟨p, last⟩, read, next⟩ := Option.bind_eq_some_iff.1 h
      have shorter : last.length < tail.length := bound_of_taken read
      rw [ih.summands (shorter.trans hn') next, Sum.tokens, List.append_assoc, List.cons_append,
        ih.product hn' read]
    | _ =>
      rw [taken_readSummands?_end] at h
      · cases h; rfl
      · rintro t ht
        cases ht
        rfl

theorem sum_succ (ih : TakesTokens n) {s : Sum} (hn : ts.length < n + 1)
    (h : taken (readSum? ts) = some (s, rest)) : s.tokens ++ rest = ts := by
  rw [taken_readSum?] at h
  obtain ⟨⟨p, last⟩, read, next⟩ := Option.bind_eq_some_iff.1 h
  have shorter : last.length < ts.length := bound_of_taken read
  have hlast : last.length < n := by omega
  rw [ih.summands hlast next, Sum.tokens, ih.product_succ hn read]

theorem all (n : ℕ) : TakesTokens n := by
  induction n with
  | zero =>
    constructor <;> exact fun hn => absurd hn (Nat.not_lt_zero _)
  | succ n ih =>
    exact ⟨ih.sum_succ, ih.summands_succ, ih.product_succ, ih.factors_succ, ih.unary_succ,
      ih.power_succ, ih.primary_succ⟩

end TakesTokens

/-- A tree that was read has the tokens it was read from. -/
theorem Sum.tokens_of_ofTokens? {s : Sum} (h : Sum.ofTokens? ts = some s) : s.tokens = ts := by
  have := (TakesTokens.all (ts.length + 1)).sum (Nat.lt_succ_self _) (Sum.ofTokens?_eq.1 h)
  rwa [List.append_nil] at this

end SamePoly.Arithmetic
