import Pseudocode.Proofs.Parsing.Rules
import Pseudocode.Proofs.ReadBack

/-!
How readers are put together, and how parsing expressions are.

A reader counts its rounds, and knows in advance that they are enough; a parsing expression repeats
without a bound. Each way to put readers together is a way to put parsing expressions together, and
if the parts end alike, so does the whole.

Design. `Follows bound e item` says that the expression and the reader end alike on all lists of
fewer tokens than `bound`. A reader of lists or of items behind a sign looks at its items one token
further on, so the bound goes up by one there. The grammar uses this where it comes back to itself.
-/

namespace Pseudocode

open Peg Reader

/-- The next of some tokens, and those behind it. -/
def front? : List Token → Option (Token × List Token)
  | [] => none
  | t :: ts => some (t, ts)

theorem length_lt_of_front? {t : Token} {ts us : List Token} (h : front? ts = some (t, us)) :
    us.length < ts.length := by
  cases ts with
  | nil => cases h
  | cons u ts =>
    cases h
    exact Nat.lt_succ_self _

/-- The expression ends so on the tokens. -/
abbrev Ends (e : Peg Token Rule) (ts : List Token) (r : Option (List Token)) : Prop :=
  Runs front? Rule.body e ts r

/-- No expression gives back what it has taken. -/
theorem Ends.length_le {e : Peg Token Rule} {ts rest : List Token} (h : Ends e ts (some rest)) :
    rest.length ≤ ts.length :=
  h.size_le length_lt_of_front?

/-- What a reader gives settles how the expression ends. -/
theorem Ends.of_some {α : Type} {e : Peg Token Rule} {ts rest : List Token}
    {result : Option (α × List Token)} {a : α} (h : Ends e ts (result.map Prod.snd))
    (hresult : result = some (a, rest)) : Ends e ts (some rest) := by
  rwa [hresult] at h

/-- If a reader gives nothing, the expression fails. -/
theorem Ends.of_none {α : Type} {e : Peg Token Rule} {ts : List Token}
    {result : Option (α × List Token)} (h : Ends e ts (result.map Prod.snd))
    (hresult : result = none) : Ends e ts none := by
  rwa [hresult] at h

/-- On fewer tokens than `bound`, the expression ends as the reader does. -/
def Follows {α : Type} (bound : Nat) (e : Peg Token Rule) (item : Reader α) : Prop :=
  ∀ ts : List Token, ts.length < bound → Ends e ts ((item ts).map Prod.snd)

/-! ### Tokens -/

section

variable {accepts : Token → Bool} {t : Token} {ts : List Token} {e f : Peg Token Rule}
  {r : Option (List Token)}

theorem ends_token (h : accepts t = true) : Ends (.token accepts) (t :: ts) (some ts) :=
  .taken rfl h

theorem ends_token_none (h : ∀ t ∈ ts.head?, accepts t = false) :
    Ends (.token accepts) ts none := by
  refine .refused fun t us hfront => h t ?_
  cases ts with
  | nil => cases hfront
  | cons u ts =>
    cases hfront
    rfl

theorem ends_token_nil : Ends (.token accepts) [] none :=
  ends_token_none (by rintro _ ⟨⟩)

theorem ends_sign : Ends (Rule.sign t) (t :: ts) (some ts) :=
  ends_token (decide_eq_true rfl)

theorem ends_sign_none (h : ∀ rest, ts ≠ t :: rest) : Ends (Rule.sign t) ts none := by
  refine ends_token_none fun u hu => decide_eq_false ?_
  rintro rfl
  obtain ⟨rest, hrest⟩ := List.head?_eq_some_iff.mp hu
  exact h rest hrest

/-- The last expression of a chain ends the chain. -/
theorem ends_last (h : Ends e ts r) : Ends (.chain [e]) ts r := by
  cases r with
  | none => exact .broken h
  | some rest => exact .seq h .empty

theorem ends_optional_none (h : Ends e ts none) : Ends (.optional e) ts (some ts) :=
  .second h .empty

end

/-! ### Repetitions -/

section

variable {α : Type} {item : Reader α} {e : Peg Token Rule} {bound : Nat}

/-- A repetition has a round for each of its items. -/
theorem Follows.rounds (h : Follows bound e item) (hadvances : item.Advances) {ts : List Token}
    (hts : ts.length < bound) :
    Rounds front? Rule.body e (many item ts).1.length ts (many item ts).2 := by
  induction hn : ts.length using Nat.strongRecOn generalizing ts with
  | _ n ih =>
    rcases hitem : item ts with - | ⟨a, rest⟩
    · rw [many_of_none hitem]
      exact .stop ((h _ hts).of_none hitem)
    · have hlt := hadvances hitem
      rw [many_of_some hadvances hitem]
      exact .again ((h _ hts).of_some hitem) (ih rest.length (hn ▸ hlt) (Nat.lt_trans hlt hts) rfl)

/-- A repetition ends as the reader of many items does. -/
theorem Follows.many (h : Follows bound e item) (hadvances : item.Advances) {ts : List Token}
    (hts : ts.length < bound) : Ends (.many e) ts (some (many item ts).2) :=
  runs_many_iff.mpr ⟨_, _, rfl, h.rounds hadvances hts⟩

theorem Follows.afterComma (h : Follows bound e item) :
    Follows (bound + 1) (.chain [Rule.sign .comma, e]) (afterComma item) := by
  intro ts hts
  unfold Reader.afterComma
  split
  · exact .seq ends_sign (ends_last (h _ (Nat.lt_of_succ_lt_succ hts)))
  · rename_i hcomma
    exact .broken (ends_sign_none hcomma)

/-- A list of items with commas between them ends as its reader does. -/
theorem Follows.commaList (h : Follows bound e item) (hadvances : item.Advances) {ts : List Token}
    (hts : ts.length < bound) :
    Ends (Rule.listOf e) ts (some (commaList item ts).2) := by
  unfold Reader.commaList
  rcases hitem : item ts with - | ⟨a, rest⟩
  · exact ends_optional_none (.broken ((h _ hts).of_none hitem))
  · have hlt := hadvances hitem
    exact .first (.seq ((h _ hts).of_some hitem)
      (ends_last (h.afterComma.many hadvances.afterComma (by omega))))

/-- So does such a list in brackets. -/
theorem Follows.parenthesized (h : Follows bound e item) (hadvances : item.Advances) :
    Follows (bound + 1) (Rule.bracketed e) (parenthesized item) := by
  intro ts hts
  unfold Reader.parenthesized
  split
  · rename_i rest
    have hlist := h.commaList hadvances (Nat.lt_of_succ_lt_succ hts)
    split
    · rename_i items after hcommas
      rw [hcommas] at hlist
      exact .seq ends_sign (.seq hlist (ends_last ends_sign))
    · rename_i hclosed
      have hnone := ends_sign_none fun after hafter => hclosed _ after (Prod.ext rfl hafter)
      exact .seq ends_sign (.seq hlist (ends_last hnone))
  · rename_i hopen
    exact .broken (ends_sign_none hopen)

variable {operator? : Token → Option (α → α → α)}

/-- Operators and operands behind a first operand end as the reader that folds them does, if it has
rounds enough. -/
theorem Follows.foldRounds (h : Follows bound e item) (hadvances : item.Advances) (rounds : Nat)
    (left : α) {ts : List Token} (hts : ts.length < bound + 1) (hrounds : ts.length ≤ rounds) :
    Ends (.many (.chain [.token fun t => (operator? t).isSome, e])) ts
      (some (foldRounds item operator? rounds left ts).2) := by
  induction rounds generalizing left ts with
  | zero =>
    cases List.length_eq_zero_iff.mp (Nat.le_zero.mp hrounds)
    exact .stop (.broken ends_token_nil)
  | succ rounds ih =>
    rcases ts with - | ⟨t, ts⟩
    · exact .stop (.broken ends_token_nil)
    rw [List.length_cons] at hts hrounds
    rw [Reader.foldRounds]
    rcases hf : operator? t with - | f
    · refine .stop (.broken (ends_token_none ?_))
      rintro _ ⟨⟩
      rw [hf]
      rfl
    have hsign : Ends (.token fun t => (operator? t).isSome) (t :: ts) (some ts) :=
      ends_token (by rw [hf]; rfl)
    dsimp only
    -- an operator without an operand behind it is given back
    rcases hitem : item ts with - | ⟨right, rest⟩
    · exact .stop (.seq hsign (ends_last ((h _ (Nat.lt_of_succ_lt_succ hts)).of_none hitem)))
    · have hlt := hadvances hitem
      exact .again (.seq hsign (ends_last ((h _ (Nat.lt_of_succ_lt_succ hts)).of_some hitem)))
        (ih _ (by omega) (by omega))

/-- Operators between operands. -/
theorem Follows.leftAssociative {rule : Rule}
    (hbody : rule.body = Rule.infixes (fun t => (operator? t).isSome) e) (h : Follows bound e item)
    (hadvances : item.Advances) :
    Follows bound (.rule rule) (leftAssociative item operator?) := by
  intro ts hts
  refine .rule ?_
  rw [hbody, Reader.leftAssociative]
  rcases hitem : item ts with - | ⟨left, rest⟩
  · exact .broken ((h _ hts).of_none hitem)
  · have hlt := hadvances hitem
    exact .seq ((h _ hts).of_some hitem)
      (ends_last (h.foldRounds hadvances _ _ (by omega) (Nat.le_refl _)))

/-- Operators before an operand, if no operand starts like one of them. -/
theorem Follows.prefixed {sign? : Token → Option (α → α)} {self : Rule}
    (hbody : self.body = Rule.prefixes (fun t => (sign? t).isSome) self e)
    (h : Follows bound e item)
    (hnone : ∀ {t f} (rest), sign? t = some f → item (t :: rest) = none) :
    Follows bound (.rule self) (prefixed sign? item) := by
  intro ts hts
  -- induction on the tokens, as the rule calls itself behind each sign
  induction ts with
  | nil =>
    refine .rule ?_
    rw [hbody, Reader.prefixed]
    exact .second (.broken ends_token_nil) (h [] hts)
  | cons t ts ih =>
    refine .rule ?_
    rw [hbody, Reader.prefixed]
    rcases hf : sign? t with - | f
    · refine .second (.broken (ends_token_none ?_)) (h _ hts)
      rintro _ ⟨⟩
      rw [hf]
      rfl
    have hsign : Ends (.token fun t => (sign? t).isSome) (t :: ts) (some ts) :=
      ends_token (by rw [hf]; rfl)
    have hself := ih (Nat.lt_of_succ_lt hts)
    dsimp only
    rcases hmore : Reader.prefixed sign? item ts with - | ⟨a, rest⟩
    · exact .second (.seq hsign (ends_last (hself.of_none hmore))) ((h _ hts).of_none (hnone ts hf))
    · exact .first (.seq hsign (ends_last (hself.of_some hmore)))

end

end Pseudocode
