import Mathlib.Data.List.Basic

/-!
Parsing expressions.

A parsing expression takes something off the front of an input. Choices are ordered, a repetition
takes as many items as it can, and nothing is tried again afterwards. Rules may call each other and
themselves. `Runs` says how an expression ends, with no bound on the steps that this takes, so that
an expression ends at all has to be proved.

Design. The input is any type of states with a function for the next token, and with a size that
every token makes smaller. Whether the rules of a grammar always end can be told from the grammar:
`consumes` says which expressions cannot succeed without taking a token, and `descends` that a rule
calls only rules of lower rank before it has taken one. A run then goes down in the lexicographic
order of the size of what is left and the rank of the rule.

Main results: outcomes are unique (`Runs.unique`); an expression that consumes makes progress
(`Runs.size_lt`); in a checked grammar every expression has an outcome (`Checked.exists_runs`) and
every repetition ends within as many rounds as the size allows (`Checked.exists_rounds`).
-/

namespace Pseudocode

/-- A parsing expression over tokens in `T`, with the rules in `N`. -/
inductive Peg (T N : Type) where
  | empty
  | token (accepts : T → Bool)
  | rule (name : N)
  | seq (first second : Peg T N)
  | choice (first second : Peg T N)
  | many (item : Peg T N)

namespace Peg

variable {S T N : Type}

/-- An expression that may be absent. -/
def optional (e : Peg T N) : Peg T N := .choice e .empty

/-- One expression after the other. -/
def chain : List (Peg T N) → Peg T N
  | [] => .empty
  | e :: es => .seq e (chain es)

/-- The first of the expressions that fits. -/
def oneOf : List (Peg T N) → Peg T N
  | [] => .token fun _ => false
  | e :: es => .choice e (oneOf es)

/-- From a state, the expression ends in the state behind what it takes, or fails. -/
inductive Runs (next : S → Option (T × S)) (body : N → Peg T N) :
    Peg T N → S → Option S → Prop
  | empty {s : S} : Runs next body .empty s (some s)
  | taken {accepts : T → Bool} {s s' : S} {t : T} : next s = some (t, s') → accepts t = true →
    Runs next body (.token accepts) s (some s')
  | refused {accepts : T → Bool} {s : S} : (∀ t s', next s = some (t, s') → accepts t = false) →
    Runs next body (.token accepts) s none
  | rule {name : N} {s : S} {r : Option S} : Runs next body (body name) s r →
    Runs next body (.rule name) s r
  | seq {e f : Peg T N} {s m : S} {r : Option S} : Runs next body e s (some m) →
    Runs next body f m r → Runs next body (.seq e f) s r
  | broken {e f : Peg T N} {s : S} : Runs next body e s none → Runs next body (.seq e f) s none
  | first {e f : Peg T N} {s m : S} : Runs next body e s (some m) →
    Runs next body (.choice e f) s (some m)
  | second {e f : Peg T N} {s : S} {r : Option S} : Runs next body e s none →
    Runs next body f s r → Runs next body (.choice e f) s r
  | stop {e : Peg T N} {s : S} : Runs next body e s none → Runs next body (.many e) s (some s)
  | again {e : Peg T N} {s m : S} {r : Option S} : Runs next body e s (some m) →
    Runs next body (.many e) m r → Runs next body (.many e) s r

/-- From a state, the item succeeds in so many rounds and then fails, in a last state. -/
inductive Rounds (next : S → Option (T × S)) (body : N → Peg T N) (item : Peg T N) :
    Nat → S → S → Prop
  | stop {s : S} : Runs next body item s none → Rounds next body item 0 s s
  | again {n : Nat} {s m s' : S} : Runs next body item s (some m) →
    Rounds next body item n m s' → Rounds next body item (n + 1) s s'

variable {next : S → Option (T × S)} {body : N → Peg T N} {e f : Peg T N} {s s' : S} {r : Option S}

/-! ### Outcomes -/

/-- An expression has at most one outcome. -/
theorem Runs.unique (h : Runs next body e s r) {r' : Option S} (h' : Runs next body e s r') :
    r = r' := by
  -- each form is left in one of two ways, and the two contradict each other about its first part
  induction h generalizing r' with
  | empty => cases h'; rfl
  | taken hnext haccepts =>
    cases h' with
    | taken hnext' =>
      rw [hnext] at hnext'
      cases hnext'
      rfl
    | refused hno =>
      rw [hno _ _ hnext] at haccepts
      cases haccepts
  | refused hno =>
    cases h' with
    | taken hnext haccepts =>
      rw [hno _ _ hnext] at haccepts
      cases haccepts
    | refused => rfl
  | rule _ ih =>
    cases h' with
    | rule hbody => exact ih hbody
  | seq _ _ ihe ihf =>
    cases h' with
    | seq he hf =>
      cases ihe he
      exact ihf hf
    | broken he => cases ihe he
  | broken _ ih =>
    cases h' with
    | seq he => cases ih he
    | broken => rfl
  | first _ ih =>
    cases h' with
    | first he => exact ih he
    | second he => cases ih he
  | second _ _ ihe ihf =>
    cases h' with
    | first he => cases ihe he
    | second _ hf => exact ihf hf
  | stop _ ih =>
    cases h' with
    | stop => rfl
    | again he => cases ih he
  | again _ _ ihe ihmore =>
    cases h' with
    | stop he => cases ihe he
    | again he hmore =>
      cases ihe he
      exact ihmore hmore

/-- What holds of a state and still holds behind every token holds at the end. -/
theorem Runs.invariant {P : S → Prop}
    (hnext : ∀ {s t s'}, next s = some (t, s') → P s → P s') (h : Runs next body e s r) (hs : P s) :
    ∀ s' ∈ r, P s' := by
  induction h with
  | empty | stop =>
    rintro _ ⟨⟩
    exact hs
  | taken htoken =>
    rintro _ ⟨⟩
    exact hnext htoken hs
  | refused | broken => nofun
  | rule _ ih | first _ ih => exact ih hs
  | seq _ _ ihe ihf | again _ _ ihe ihf => exact ihf (ihe hs _ rfl)
  | second _ _ _ ihf => exact ihf hs

/-- States with the same tokens have the same outcomes. -/
theorem Runs.map {S' : Type} {next' : S' → Option (T × S')} {φ : S → S'}
    (hφ : ∀ s, next' (φ s) = (next s).map fun p => (p.1, φ p.2)) (h : Runs next body e s r) :
    Runs next' body e (φ s) (r.map φ) := by
  induction h with
  | empty => exact .empty
  | taken htoken haccepts => exact .taken (by rw [hφ, htoken]; rfl) haccepts
  | refused hno =>
    refine .refused fun t s' htoken => ?_
    rw [hφ, Option.map_eq_some_iff] at htoken
    obtain ⟨⟨u, m⟩, htoken, hpair⟩ := htoken
    cases hpair
    exact hno _ _ htoken
  | rule _ ih => exact .rule ih
  | seq _ _ ihe ihf => exact .seq ihe ihf
  | broken _ ih => exact .broken ih
  | first _ ih => exact .first ih
  | second _ _ ihe ihf => exact .second ihe ihf
  | stop _ ih => exact .stop ih
  | again _ _ ihe ihmore => exact .again ihe ihmore

/-- States with the same tokens have the same rounds. -/
theorem Rounds.map {S' : Type} {next' : S' → Option (T × S')} {φ : S → S'}
    (hφ : ∀ s, next' (φ s) = (next s).map fun p => (p.1, φ p.2)) {n : Nat}
    (h : Rounds next body e n s s') : Rounds next' body e n (φ s) (φ s') := by
  induction h with
  | stop he => exact .stop (he.map hφ)
  | again he _ ih => exact .again (he.map hφ) ih

/-- A repetition ends where no further round is possible. -/
theorem runs_many_iff : Runs next body (.many e) s r ↔
    ∃ n s', r = some s' ∧ Rounds next body e n s s' := by
  constructor
  · intro h
    -- the induction is on runs of any expression, so the repetition is named first
    generalize hmany : Peg.many e = g at h
    induction h with
    | stop he =>
      cases hmany
      exact ⟨0, _, rfl, .stop he⟩
    | again he _ _ ih =>
      cases hmany
      obtain ⟨n, s', rfl, hrounds⟩ := ih rfl
      exact ⟨n + 1, s', rfl, .again he hrounds⟩
    | _ => cases hmany
  · rintro ⟨n, s', rfl, h⟩
    induction h with
    | stop he => exact .stop he
    | again he _ ih => exact .again he ih

/-- The number of the rounds and the state behind them are determined. -/
theorem Rounds.unique {n m : Nat} {s'' : S} (h : Rounds next body e n s s')
    (h' : Rounds next body e m s s'') : n = m ∧ s' = s'' := by
  induction h generalizing m with
  | stop he =>
    cases h' with
    | stop => exact ⟨rfl, rfl⟩
    | again he' => cases he.unique he'
  | again he _ ih =>
    cases h' with
    | stop he' => cases he.unique he'
    | again he' hmore =>
      cases he.unique he'
      obtain ⟨rfl, rfl⟩ := ih hmore
      exact ⟨rfl, rfl⟩

/-! ### Choices -/

/-- The expression fails where `t?` is the next token, and does so before a rule is called. -/
def refuses (t? : Option T) : Peg T N → Bool
  | .empty => false
  | .token accepts => !t?.any accepts
  | .rule _ => false
  | .seq e _ => e.refuses t?
  | .choice e f => e.refuses t? && f.refuses t?
  | .many _ => false

/-- The same of an expression or of the body of a rule. -/
def shut (body : N → Peg T N) (t? : Option T) : Peg T N → Bool
  | .rule name => (body name).refuses t?
  | e => e.refuses t?

section

variable {t? : Option T} (ht : (next s).map Prod.fst = t?)
include ht

/-- An expression that refuses the next token fails. -/
theorem runs_none_of_refuses (h : e.refuses t? = true) : Runs next body e s none := by
  induction e with
  | empty | rule | many => cases h
  | token accepts =>
    refine .refused fun t s' hnext => ?_
    rw [hnext] at ht
    subst ht
    simpa [refuses] using h
  | seq e f ihe => exact .broken (ihe h)
  | choice e f ihe ihf =>
    rw [refuses, Bool.and_eq_true] at h
    exact .second (ihe h.1) (ihf h.2)

theorem runs_none_of_shut (h : shut body t? e = true) : Runs next body e s none := by
  cases e with
  | rule name => exact .rule (runs_none_of_refuses ht h)
  | _ => exact runs_none_of_refuses ht h

/-- A choice fails if the next token shuts all its alternatives. -/
theorem runs_oneOf_none {es : List (Peg T N)} (h : es.all (shut body t?) = true) :
    Runs next body (oneOf es) s none := by
  induction es with
  | nil => exact .refused fun _ _ _ => rfl
  | cons e es ih =>
    rw [List.all_cons, Bool.and_eq_true] at h
    exact .second (runs_none_of_shut ht h.1) (ih h.2)

/-- The next token may shut the alternatives at the start. -/
theorem runs_oneOf_append (before : List (Peg T N)) {es : List (Peg T N)}
    (hbefore : before.all (shut body t?) = true) (h : Runs next body (oneOf es) s r) :
    Runs next body (oneOf (before ++ es)) s r := by
  induction before with
  | nil => exact h
  | cons f before ih =>
    rw [List.all_cons, Bool.and_eq_true] at hbefore
    exact .second (runs_none_of_shut ht hbefore.1) (ih hbefore.2)

/-- An alternative that succeeds decides, if the next token shuts those before it. -/
theorem runs_oneOf_some {m : S} (before after : List (Peg T N))
    (hbefore : before.all (shut body t?) = true) (h : Runs next body e s (some m)) :
    Runs next body (oneOf (before ++ e :: after)) s (some m) :=
  runs_oneOf_append ht before hbefore (.first h)

/-- If the next token shuts the alternatives before one, and those behind it in case it fails, that
one decides. -/
theorem runs_oneOf (before after : List (Peg T N)) (hbefore : before.all (shut body t?) = true)
    (hafter : r = none → after.all (shut body t?) = true) (h : Runs next body e s r) :
    Runs next body (oneOf (before ++ e :: after)) s r := by
  cases r with
  | some m => exact runs_oneOf_some ht before after hbefore h
  | none => exact runs_oneOf_append ht before hbefore (.second h (runs_oneOf_none ht (hafter rfl)))

end

/-! ### The check of a grammar -/

/-- The expression does not succeed without taking a token, if the solid rules do not. -/
def consumes (solid : N → Bool) : Peg T N → Bool
  | .empty => false
  | .token _ => true
  | .rule name => solid name
  | .seq e f => e.consumes solid || f.consumes solid
  | .choice e f => e.consumes solid && f.consumes solid
  | .many _ => false

/-- Before a token is taken, only rules whose rank is less than the bound are called; afterwards the
bound is `limit`. An item that is repeated takes tokens. -/
def descends (solid : N → Bool) (rank : N → Nat) (limit : Nat) : Nat → Peg T N → Bool
  | _, .empty => true
  | _, .token _ => true
  | bound, .rule name => rank name < bound
  | bound, .seq e f =>
    descends solid rank limit bound e
      && descends solid rank limit (if e.consumes solid then limit else bound) f
  | bound, .choice e f => descends solid rank limit bound e && descends solid rank limit bound f
  | bound, .many e => e.consumes solid && descends solid rank limit bound e

/-- The items that the expression repeats. -/
def repeated : Peg T N → List (Peg T N)
  | .empty => []
  | .token _ => []
  | .rule _ => []
  | .seq e f => e.repeated ++ f.repeated
  | .choice e f => e.repeated ++ f.repeated
  | .many e => e :: e.repeated

/-- The grammar passes the check, with these solid rules and ranks. -/
structure Checked (solid : N → Bool) (rank : N → Nat) (limit : Nat) (body : N → Peg T N) :
    Prop where
  consumes : ∀ name, solid name = true → (body name).consumes solid = true
  descends : ∀ name, (body name).descends solid rank limit (rank name) = true

section

variable {size : S → Nat} (hsize : ∀ {s t s'}, next s = some (t, s') → size s' < size s)
include hsize

/-- No run gives back what it has taken. -/
theorem Runs.size_le (h : Runs next body e s (some s')) : size s' ≤ size s :=
  h.invariant (P := fun m => size m ≤ size s)
    (fun hnext hle => Nat.le_trans (Nat.le_of_lt (hsize hnext)) hle) (Nat.le_refl _) s' rfl

variable {solid : N → Bool} (hsolid : ∀ name, solid name = true → (body name).consumes solid = true)
include hsolid

/-- **Progress.** An expression that consumes leaves less than there was. -/
theorem Runs.size_lt (h : Runs next body e s r) (he : e.consumes solid = true) :
    ∀ s' ∈ r, size s' < size s := by
  induction h with
  | empty => cases he
  | taken hnext =>
    rintro _ ⟨⟩
    exact hsize hnext
  | refused | broken => nofun
  | @rule name _ _ _ ih => exact ih (hsolid name he)
  -- one of the two parts consumes, and the other gives nothing back
  | @seq _ _ _ m r hfirst hsecond ihe ihf =>
    rintro s' rfl
    rw [consumes, Bool.or_eq_true] at he
    rcases he with he | hf
    · exact Nat.lt_of_le_of_lt (hsecond.size_le hsize) (ihe he m rfl)
    · exact Nat.lt_of_lt_of_le (ihf hf s' rfl) (hfirst.size_le hsize)
  | first _ ih =>
    rw [consumes, Bool.and_eq_true] at he
    exact ih he.1
  | second _ _ _ ihf =>
    rw [consumes, Bool.and_eq_true] at he
    exact ihf he.2
  | stop | again => cases he

/-- Every round takes at least one token. -/
theorem Rounds.add_size_le {n : Nat} (h : Rounds next body e n s s')
    (he : e.consumes solid = true) : n + size s' ≤ size s := by
  induction h with
  | stop => exact Nat.le_of_eq (Nat.zero_add _)
  | again hitem _ ih =>
    have hlt := hitem.size_lt hsize hsolid he _ rfl
    omega

end

/-- In an expression that passes the check, what is repeated consumes and passes it too. -/
theorem descends_of_mem_repeated {solid : N → Bool} {rank : N → Nat} {limit bound : Nat}
    (h : e.descends solid rank limit bound = true) {item : Peg T N} (hitem : item ∈ e.repeated) :
    item.consumes solid = true ∧ ∃ bound, item.descends solid rank limit bound = true := by
  induction e generalizing bound with
  | empty | token | rule => cases hitem
  -- the bound may be raised behind a part that consumes, so it is left open
  | seq e f ihe ihf | choice e f ihe ihf =>
    simp only [descends, Bool.and_eq_true] at h
    rw [repeated, List.mem_append] at hitem
    rcases hitem with hitem | hitem
    · exact ihe h.1 hitem
    · exact ihf h.2 hitem
  | many e ih =>
    rw [descends, Bool.and_eq_true] at h
    rw [repeated, List.mem_cons] at hitem
    rcases hitem with rfl | hitem
    · exact ⟨h.1, bound, h.2⟩
    · exact ih h.2 hitem

namespace Checked

variable {solid : N → Bool} {rank : N → Nat} {limit : Nat}
  (h : Checked solid rank limit body) {size : S → Nat}
  (hsize : ∀ {s t s'}, next s = some (t, s') → size s' < size s)
include h hsize

/-- **Every expression of a checked grammar has an outcome.** -/
theorem exists_runs {bound : Nat} (he : e.descends solid rank limit bound = true) (s : S) :
    ∃ r, Runs next body e s r := by
  obtain ⟨k, hk⟩ : ∃ k, size s ≤ k := ⟨_, Nat.le_refl _⟩
  -- what is left comes first, then the rank of the rules that may be called, then the expression
  induction k using Nat.strongRecOn generalizing bound e s with
  | _ k ihsize =>
  induction bound using Nat.strongRecOn generalizing e s with
  | _ bound ihrank =>
  induction e generalizing s with
  | empty => exact ⟨_, .empty⟩
  | token accepts =>
    rcases hnext : next s with - | ⟨t, s'⟩
    · refine ⟨_, .refused fun t s' htoken => ?_⟩
      rw [hnext] at htoken
      cases htoken
    · rcases haccepts : accepts t with - | -
      · refine ⟨_, .refused fun u m htoken => ?_⟩
        rw [hnext] at htoken
        cases htoken
        exact haccepts
      · exact ⟨_, .taken hnext haccepts⟩
  | rule name =>
    obtain ⟨r, hr⟩ := ihrank (rank name) (of_decide_eq_true he) (h.descends name) s hk
    exact ⟨r, .rule hr⟩
  | seq e f ihe ihf =>
    rw [Peg.descends, Bool.and_eq_true] at he
    obtain ⟨r, hr⟩ := ihe he.1 s hk
    cases r with
    | none => exact ⟨_, .broken hr⟩
    | some m =>
      have hf : ∃ r, Runs next body f m r := by
        by_cases hconsumes : e.consumes solid = true
        · have hlt := hr.size_lt hsize h.consumes hconsumes m rfl
          exact ihsize (size m) (by omega) he.2 m (Nat.le_refl _)
        · have hle := hr.size_le hsize
          rw [if_neg hconsumes] at he
          exact ihf he.2 m (by omega)
      obtain ⟨r, hf⟩ := hf
      exact ⟨r, .seq hr hf⟩
  | choice e f ihe ihf =>
    rw [Peg.descends, Bool.and_eq_true] at he
    obtain ⟨r, hr⟩ := ihe he.1 s hk
    cases r with
    | some m => exact ⟨_, .first hr⟩
    | none =>
      obtain ⟨r, hf⟩ := ihf he.2 s hk
      exact ⟨r, .second hr hf⟩
  | many e ih =>
    have hmany := he
    rw [Peg.descends, Bool.and_eq_true] at he
    obtain ⟨r, hr⟩ := ih he.2 s hk
    cases r with
    | none => exact ⟨_, .stop hr⟩
    | some m =>
      have hlt := hr.size_lt hsize h.consumes he.1 m rfl
      obtain ⟨r, hmore⟩ := ihsize (size m) (by omega) hmany m (Nat.le_refl _)
      exact ⟨r, .again hr hmore⟩

theorem exists_runs_rule (name : N) (s : S) : ∃ r, Runs next body (.rule name) s r := by
  obtain ⟨r, hr⟩ := h.exists_runs hsize (h.descends name) s
  exact ⟨r, .rule hr⟩

/-- **Every repetition of a checked grammar ends**, after no more rounds than the size allows. -/
theorem exists_rounds {name : N} {item : Peg T N} (hitem : item ∈ (body name).repeated) (s : S) :
    ∃ n s', Rounds next body item n s s' ∧ n + size s' ≤ size s := by
  obtain ⟨hconsumes, bound, hdescends⟩ := descends_of_mem_repeated (h.descends name) hitem
  have hmany : (Peg.many item).descends solid rank limit bound = true := by
    rw [Peg.descends, hconsumes, hdescends]
    rfl
  obtain ⟨r, hr⟩ := h.exists_runs hsize hmany s
  obtain ⟨n, s', -, hrounds⟩ := runs_many_iff.mp hr
  exact ⟨n, s', hrounds, hrounds.add_size_le hsize h.consumes hconsumes⟩

end Checked

end Peg

end Pseudocode
