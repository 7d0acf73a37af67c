import Pseudocode.Proofs.Levels

/-!
The tokens of a program are read as that program.

A reader takes as much as it can and never tries again, so it has to be shown that it takes no token
of what follows, and that it does not stop too early. What follows an expression `Stops` it at a
level if its first token is no operator of that level or of a tighter one, and no bracket, which
would make a call of a name. The operators of a level can be told by their first token from those of
all other levels, and the words that end a block start no statement.

Design. The operators between operands are grouped to the left, so an expression at the left of an
operator is read before the reader knows of that operator. What is shown by induction is therefore
that a reader gets to the end of the expression and goes on from there with the operators of its own
level (`continueAt`); whether there are any is a question about what follows.

Main results: `expression_read`, `statement_read` and `program_read`.
-/

namespace Pseudocode

/-! ### Readers that advance -/

namespace Reader

variable {α : Type} {item : Reader α} {yield : α → List Token}

/-- The reader takes at least one token for everything that it gives. -/
def Advances (item : Reader α) : Prop :=
  ∀ ⦃ts a rest⦄, item ts = some (a, rest) → rest.length < ts.length

/-- A reader that takes the printing of what it gives advances, if no printing is empty. -/
theorem Takes.advances (h : item.Takes yield) (hyield : ∀ a, yield a ≠ []) : item.Advances := by
  intro ts a rest hts
  have hpos := List.length_pos_iff.mpr (hyield a)
  rw [h hts, List.length_append]
  omega

theorem Advances.afterComma (h : item.Advances) : (afterComma item).Advances := by
  intro ts a rest hts
  unfold Reader.afterComma at hts
  split at hts
  · exact Nat.lt_succ_of_lt (h hts)
  · cases hts

theorem Advances.nil (h : item.Advances) : item [] = none := by
  rcases hnil : item [] with - | ⟨a, rest⟩
  · rfl
  · exact absurd (h hnil) (Nat.not_lt_zero _)

/-- Rounds beyond the number of tokens make no difference. -/
theorem manyRounds_of_le (h : item.Advances) {m n : Nat} {ts : List Token} (hm : ts.length ≤ m)
    (hn : ts.length ≤ n) : manyRounds item m ts = manyRounds item n ts := by
  induction m generalizing n ts with
  | zero =>
    cases List.length_eq_zero_iff.mp (Nat.le_zero.mp hm)
    cases n with
    | zero => rfl
    | succ n => rw [manyRounds, manyRounds, h.nil]
  -- an item takes at least one token, so the bounds still cover the rest
  | succ m ih =>
    cases n with
    | zero =>
      cases List.length_eq_zero_iff.mp (Nat.le_zero.mp hn)
      rw [manyRounds, manyRounds, h.nil]
    | succ n =>
      rw [manyRounds, manyRounds]
      rcases hitem : item ts with - | ⟨a, rest⟩
      · rfl
      · have hlt := h hitem
        have hrounds : manyRounds item m rest = manyRounds item n rest :=
          ih (by omega) (by omega)
        dsimp only
        rw [hrounds]

theorem many_of_none {ts : List Token} (hitem : item ts = none) : many item ts = ([], ts) := by
  unfold many
  rcases ts with - | ⟨t, ts⟩
  · rfl
  · rw [List.length_cons, manyRounds, hitem]

/-- Where an item can be read, a repetition goes on behind it. -/
theorem many_of_some (h : item.Advances) {ts rest : List Token} {a : α}
    (hitem : item ts = some (a, rest)) :
    many item ts = (a :: (many item rest).1, (many item rest).2) := by
  have hlt := h hitem
  unfold many
  rcases ts with - | ⟨t, ts⟩
  · exact absurd hlt (Nat.not_lt_zero _)
  · rw [List.length_cons, manyRounds, hitem]
    dsimp only
    rw [manyRounds_of_le h (Nat.lt_succ_iff.mp hlt) (Nat.le_refl _)]

/-- Items are read one after the other, if each of them is read whenever one more or the end
follows. -/
theorem many_read (h : item.Advances) {Follows : List Token → Prop} {as : List α}
    {rest : List Token}
    (hread : ∀ a ∈ as, ∀ ts, Follows ts → item (yield a ++ ts) = some (a, ts))
    (hnext : ∀ a ∈ as, ∀ ts, Follows (yield a ++ ts))
    (hrest : Follows rest) (hend : item rest = none) :
    many item (as.flatMap yield ++ rest) = (as, rest) := by
  induction as with
  | nil => exact many_of_none hend
  | cons a as ih =>
    obtain ⟨hfirst, hread⟩ := List.forall_mem_cons.mp hread
    obtain ⟨-, hnext⟩ := List.forall_mem_cons.mp hnext
    have hfollows : Follows (as.flatMap yield ++ rest) := by
      rcases as with - | ⟨b, as⟩
      · exact hrest
      · rw [List.flatMap_cons, List.append_assoc]
        exact hnext b List.mem_cons_self _
    rw [List.flatMap_cons, List.append_assoc, many_of_some h (hfirst _ hfollows), ih hread hnext]

/-- Rounds beyond the number of tokens make no difference. -/
theorem foldRounds_of_le (h : item.Advances) {operator? : Token → Option (α → α → α)} {m n : Nat}
    {left : α} {ts : List Token} (hm : ts.length ≤ m) (hn : ts.length ≤ n) :
    foldRounds item operator? m left ts = foldRounds item operator? n left ts := by
  induction m generalizing n left ts with
  | zero =>
    cases List.length_eq_zero_iff.mp (Nat.le_zero.mp hm)
    cases n <;> rfl
  | succ m ih =>
    rcases ts with - | ⟨t, ts⟩
    · cases n <;> rfl
    -- there is a token left, so the other bound is no zero either
    obtain ⟨n, rfl⟩ : ∃ k, n = k + 1 := ⟨n - 1, by rw [List.length_cons] at hn; omega⟩
    rw [foldRounds, foldRounds]
    rcases hf : operator? t with - | f
    · rfl
    dsimp only
    rcases hitem : item ts with - | ⟨right, rest⟩
    · rfl
    · have hlt := h hitem
      rw [List.length_cons] at hm hn
      exact ih (by omega) (by omega)

end Reader

/-! ### What may follow -/

/-- The level at which a token goes on with an expression: the level of an operator between operands,
and 0 for the bracket that makes a call of a name. -/
def Token.level? : Token → Option Nat
  | .lparen => some 0
  | .times | .divide => some 2
  | .plus | .minus => some 3
  | .relation _ => some 4
  | .keyword .AND => some 6
  | .keyword .OR => some 7
  | _ => none

/-- The level of an operator before an operand. -/
def Token.signLevel? : Token → Option Nat
  | .plus | .minus => some 1
  | .keyword .NOT => some 5
  | _ => none

/-- The tokens do not go on with an expression of the level or of a tighter one. -/
def Stops (i : Nat) (rest : List Token) : Prop :=
  ∀ t ∈ rest.head?, ∀ j, t.level? = some j → i < j

/-- What stops a level stops the levels below it. -/
theorem Stops.mono {i j : Nat} {rest : List Token} (h : Stops j rest) (hij : i ≤ j) :
    Stops i rest :=
  fun t ht k hk => Nat.lt_of_le_of_lt hij (h t ht k hk)

theorem stops_nil (i : Nat) : Stops i [] := nofun

/-- A token stops a level unless it is an operator of this level or one below. -/
theorem stops_cons {i : Nat} {t : Token} {rest : List Token} :
    Stops i (t :: rest) ↔ ∀ j, t.level? = some j → i < j := by
  simp [Stops]

theorem stops_of_level?_eq_none {t : Token} (h : t.level? = none) (i : Nat) (rest : List Token) :
    Stops i (t :: rest) := by
  rw [stops_cons, h]
  nofun

theorem Expr.tokens_ne_nil : (e : Expr) → e.tokens ≠ []
  | .unary _ e => by simp [tokens, tokens_ne_nil e]
  | .binary _ l _ => by simp [tokens, tokens_ne_nil l]
  | .relation _ l _ => by simp [tokens, tokens_ne_nil l]
  | .number _ | .boolean _ | .reference _ | .call _ _ | .bracket _ => by simp [tokens]

namespace Grammar

open Reader

/-! ### The readers of the levels -/

theorem level?_of_operatorAt {i : Nat} {t : Token} {f : Expr → Expr → Expr}
    (h : operatorAt i t = some f) : t.level? = some i := by
  obtain ⟨op, -, hlevel, htokens⟩ | ⟨rel, -, rfl, rfl⟩ := operation_of_operatorAt h
  · cases op <;> cases hlevel <;> cases htokens <;> rfl
  · rfl

theorem signLevel?_of_signsAt {i : Nat} {sign? : Token → Option (Expr → Expr)} {t : Token}
    {f : Expr → Expr} (h : signsAt i = some sign?) (hf : sign? t = some f) :
    t.signLevel? = some i := by
  obtain ⟨op, -, hlevel, htokens⟩ := unary_of_signsAt h hf
  cases op <;> cases hlevel <;> cases htokens <;> rfl

/-- The token of an operation before its operand, and the reader of its level. -/
theorem signsAt_of_level? {i : Nat} {op : UnaryOp} (h : op.level? = some i) :
    ∃ t sign?, op.tokens = [t] ∧ signsAt i = some sign? ∧ sign? t = some (.unary op) := by
  cases op <;> cases h <;> exact ⟨_, _, rfl, rfl, rfl⟩

/-- The token of an operation between its operands, and the reader of its level. -/
theorem operatorAt_of_level? {i : Nat} {op : BinaryOp} (h : op.level? = some i) :
    ∃ t, op.tokens = [t] ∧ operatorAt i t = some (.binary op) := by
  cases op <;> cases h <;> exact ⟨_, rfl, rfl⟩

/-- A level has operators before an operand or between operands, never both. -/
theorem operatorAt_of_signsAt {i : Nat} {sign? : Token → Option (Expr → Expr)}
    (h : signsAt i = some sign?) (t : Token) : operatorAt i t = none := by
  unfold signsAt at h
  split at h <;> cases h <;> rfl

section

variable {inner : Reader Expr}

/-- The reader of a level takes the printing of what it gives. -/
theorem readerAt_takes (hinner : inner.Takes Expr.tokens) (i : Nat) :
    (readerAt inner i).Takes Expr.tokens := by
  induction i with
  | zero => exact operand_takes hinner
  | succ i ih =>
    -- a level has either operators between operands or signs before one
    rcases hsigns : signsAt (i + 1) with - | sign?
    · rw [readerAt_of_no_signs inner hsigns]
      refine ih.leftAssociative fun hf l r => ?_
      obtain ⟨op, rfl, -, htokens⟩ | ⟨rel, rfl, -, rfl⟩ := operation_of_operatorAt hf
      · simp [Expr.tokens, htokens]
      · rfl
    · rw [readerAt_of_signs inner hsigns]
      refine ih.prefixed fun hf e => ?_
      obtain ⟨op, rfl, -, htokens⟩ := unary_of_signsAt hsigns hf
      simp [Expr.tokens, htokens]

variable (inner) in
/-- Go on from an expression of a level with the operators of that level. -/
def continueAt (i : Nat) (e : Expr) (rest : List Token) : Expr × List Token :=
  foldRounds (readerAt inner (i - 1)) (operatorAt i) rest.length e rest

/-- Where no operator of a level stands, an expression of the level ends. -/
theorem continueAt_of_no_operator {i : Nat} {rest : List Token}
    (h : ∀ t ∈ rest.head?, operatorAt i t = none) (e : Expr) :
    continueAt inner i e rest = (e, rest) := by
  rcases rest with - | ⟨t, rest⟩
  · rfl
  · rw [continueAt, List.length_cons, foldRounds, h t rfl]

theorem continueAt_of_stops {i : Nat} {rest : List Token} (h : Stops i rest) (e : Expr) :
    continueAt inner i e rest = (e, rest) := by
  refine continueAt_of_no_operator (fun t ht => ?_) e
  rcases hf : operatorAt i t with - | f
  · rfl
  · exact absurd (h t ht i (level?_of_operatorAt hf)) (Nat.lt_irrefl i)

/-- Where an operator stands with an operand behind it, the expression goes on. -/
theorem continueAt_of_operator (hinner : inner.Takes Expr.tokens) {i : Nat} {t : Token}
    {f : Expr → Expr → Expr} (hf : operatorAt (i + 1) t = some f) {l r : Expr}
    {ts rest : List Token} (hr : readerAt inner i ts = some (r, rest)) :
    continueAt inner (i + 1) l (t :: ts) = continueAt inner (i + 1) (f l r) rest := by
  have hadvances := (readerAt_takes hinner i).advances Expr.tokens_ne_nil
  have hlt := hadvances hr
  rw [continueAt, List.length_cons, foldRounds, hf]
  simp only [Nat.add_sub_cancel, hr]
  exact foldRounds_of_le hadvances (Nat.le_of_lt hlt) (Nat.le_refl _)

end

/-! ### Expressions -/

/-- The first token of an expression is no operator of a looser level before an operand. -/
theorem first_of_at {i : Nat} {e : Expr} (h : e.At i) :
    ∃ t ts, e.tokens = t :: ts ∧ ∀ j, t.signLevel? = some j → j ≤ i := by
  -- only a sign begins an expression of its own level; operators come behind a left operand
  induction h with
  | number | boolean | reference | call | bracket => exact ⟨_, _, rfl, nofun⟩
  | tighter _ ih =>
    obtain ⟨t, ts, htokens, hlevel⟩ := ih
    exact ⟨t, ts, htokens, fun j hj => Nat.le_succ_of_le (hlevel j hj)⟩
  | @unary i op e hlevel _ _ =>
    obtain ⟨t, sign?, htokens, hsigns, hf⟩ := signsAt_of_level? hlevel
    refine ⟨t, e.tokens, by simp [Expr.tokens, htokens], fun j hj => ?_⟩
    rw [signLevel?_of_signsAt hsigns hf] at hj
    cases hj
    exact Nat.le_refl _
  | @binary i op l r _ _ _ ihl _ =>
    obtain ⟨t, ts, htokens, hlevel⟩ := ihl
    exact ⟨t, ts ++ op.tokens ++ r.tokens, by simp [Expr.tokens, htokens], hlevel⟩
  | @relation rel l r _ _ ihl _ =>
    obtain ⟨t, ts, htokens, hlevel⟩ := ihl
    exact ⟨t, ts ++ .relation rel :: r.tokens, by simp [Expr.tokens, htokens], hlevel⟩

section

variable {α : Type} {item : Reader α} {yield : α → List Token} (h : item.Advances) {as : List α}
  (hread : ∀ a ∈ as, ∀ ts, Stops 7 ts → item (yield a ++ ts) = some (a, ts))
  (hend : ∀ ts, item (.rparen :: ts) = none) (rest : List Token)
include h hread hend

/-- Items with commas between them are read up to the closing bracket, if each of them is read before
a comma and before a closing bracket. -/
theorem commaList_read :
    commaList item (commaSeparated (as.map yield) ++ .rparen :: rest) = (as, .rparen :: rest) := by
  rw [commaList]
  rcases as with - | ⟨a, as⟩
  · simp [commaSeparated, hend]
  obtain ⟨hfirst, hread⟩ := List.forall_mem_cons.mp hread
  -- behind the first item stands a comma or the closing bracket
  have hstops : Stops 7 ((as.flatMap fun a => .comma :: yield a) ++ .rparen :: rest) := by
    rcases as with - | ⟨b, as⟩ <;> exact stops_of_level?_eq_none rfl _ _
  have hmore : many (afterComma item)
      ((as.flatMap fun a => .comma :: yield a) ++ .rparen :: rest) = (as, .rparen :: rest) :=
    many_read h.afterComma (fun b hb ts hts => hread b hb ts hts)
      (fun b _ ts => stops_of_level?_eq_none rfl 7 (yield b ++ ts))
      (stops_of_level?_eq_none rfl 7 rest) rfl
  rw [commaSeparated_cons_map, List.append_assoc, hfirst _ hstops]
  dsimp only
  rw [hmore]

/-- A list in brackets is read back from its printing. -/
theorem parenthesized_read :
    parenthesized item (.lparen :: commaSeparated (as.map yield) ++ .rparen :: rest)
      = some (as, rest) := by
  rw [List.cons_append, parenthesized, commaList_read h hread hend rest]

end

/-- The printing of a list is no shorter than that of a member. -/
theorem length_le_commaSeparated {ts : List Token} {tss : List (List Token)} (h : ts ∈ tss) :
    ts.length ≤ (commaSeparated tss).length := by
  fun_induction commaSeparated tss with
  | case1 => cases h
  | case2 us =>
    cases List.mem_singleton.mp h
    exact Nat.le_refl _
  | case3 us rest _ ih =>
    rw [List.length_append, List.length_cons]
    rcases List.mem_cons.mp h with rfl | h
    · omega
    · have hle := ih h
      omega

theorem expressionWithin_rparen (d : Nat) (ts : List Token) :
    expressionWithin d (.rparen :: ts) = none := by
  cases d <;> rfl

/-- The reader of a level gets to the end of an expression of that level, and goes on from there with
the operators of the level. -/
def ReadsAt (i : Nat) (e : Expr) : Prop :=
  ∀ ⦃d rest⦄, e.tokens.length ≤ d → Stops (i - 1) rest →
    readerAt (expressionWithin d) i (e.tokens ++ rest)
      = some (continueAt (expressionWithin d) i e rest)

namespace ReadsAt

variable {i d : Nat} {e : Expr} {rest : List Token}

/-- At the level of an expression, its printing is read back if something follows that stops the
level. -/
theorem read (h : ReadsAt i e) (hd : e.tokens.length ≤ d) (hrest : Stops i rest) :
    readerAt (expressionWithin d) i (e.tokens ++ rest) = some (e, rest) := by
  rw [h hd (hrest.mono (Nat.sub_le i 1)), continueAt_of_stops hrest]

/-- As an expression in a larger one, its printing is read back if there is nesting enough. -/
theorem expressionWithin (h : ReadsAt 7 e) (hd : e.tokens.length < d) (hrest : Stops 7 rest) :
    expressionWithin d (e.tokens ++ rest) = some (e, rest) := by
  obtain ⟨d, rfl⟩ : ∃ n, d = n + 1 := Nat.exists_eq_add_one_of_ne_zero (Nat.ne_zero_of_lt hd)
  rw [Grammar.expressionWithin, disjunction_eq_readerAt]
  exact h.read (Nat.lt_succ_iff.mp hd) hrest

/-- A call is read back if its arguments are. -/
theorem call (name : String) {args : List Expr} (h : ∀ a ∈ args, ReadsAt 7 a) :
    ReadsAt 0 (.call name args) := by
  intro d rest hd _
  rw [Expr.tokens, Expr.tokensOf_eq_map] at hd ⊢
  have hargs : parenthesized (Grammar.expressionWithin d)
      (.lparen :: commaSeparated (args.map Expr.tokens) ++ .rparen :: rest)
        = some (args, rest) := by
    refine parenthesized_read ((expressionWithin_takes d).advances Expr.tokens_ne_nil)
      (fun a ha ts hts => (h a ha).expressionWithin ?_ hts) (expressionWithin_rparen d) rest
    -- an argument has fewer tokens than the call, which leaves nesting enough for it
    have hle := length_le_commaSeparated (List.mem_map_of_mem (f := Expr.tokens) ha)
    simp only [List.length_append, List.length_cons] at hd
    omega
  rw [continueAt_of_no_operator fun _ _ => rfl]
  simp only [List.cons_append, List.append_assoc, List.nil_append] at hargs ⊢
  simp only [readerAt, operand, hargs]

/-- An expression in brackets is read back if the expression is. -/
theorem bracket (h : ReadsAt 7 e) : ReadsAt 0 (.bracket e) := by
  intro d rest hd _
  have hinner : Grammar.expressionWithin d (e.tokens ++ .rparen :: rest)
      = some (e, .rparen :: rest) := by
    refine h.expressionWithin ?_ (stops_of_level?_eq_none rfl 7 rest)
    simp only [Expr.tokens, List.length_append, List.length_cons] at hd
    omega
  rw [continueAt_of_no_operator fun _ _ => rfl]
  simp only [Expr.tokens, List.cons_append, List.append_assoc, List.nil_append, readerAt, operand,
    hinner]

/-- An expression in a looser place: it is read by the tighter reader, and what follows is left to
the looser one. -/
theorem tighter (hat : e.At i) (h : ReadsAt i e) : ReadsAt (i + 1) e := by
  intro d rest hd hrest
  have hread := h.read hd hrest
  rcases hsigns : signsAt (i + 1) with - | sign?
  · rw [readerAt_of_no_signs _ hsigns, leftAssociative, hread]
    rfl
  · -- the expression does not start with an operator of the looser level
    obtain ⟨t, ts, htokens, hlevel⟩ := first_of_at hat
    have hsign : sign? t = none := by
      rcases hf : sign? t with - | f
      · rfl
      · exact absurd (hlevel _ (signLevel?_of_signsAt hsigns hf)) (Nat.not_succ_le_self i)
    rw [continueAt_of_no_operator fun t _ => operatorAt_of_signsAt hsigns t,
      readerAt_of_signs _ hsigns, ← hread, htokens, List.cons_append, prefixed, hsign]

/-- An operator with one operand is read back if the operand is. -/
theorem unary {op : UnaryOp} (hlevel : op.level? = some i) (h : ReadsAt i e) :
    ReadsAt i (.unary op e) := by
  intro d rest hd hrest
  obtain ⟨t, sign?, htokens, hsigns, hf⟩ := signsAt_of_level? hlevel
  -- there are no signs on the level of operands
  obtain ⟨i, rfl⟩ : ∃ j, i = j + 1 := by
    rcases i with - | j
    · cases hsigns
    · exact ⟨j, rfl⟩
  rw [Expr.tokens, htokens] at hd ⊢
  have hread := h (Nat.le_of_succ_le hd) hrest
  rw [continueAt_of_no_operator fun t _ => operatorAt_of_signsAt hsigns t,
    readerAt_of_signs _ hsigns] at hread ⊢
  rw [List.singleton_append, List.cons_append, prefixed, hf, hread]
  rfl

/-- An operator between operands: the left operand is read first, the operator is of the level with
which the reader goes on, and what follows the right operand is no part of it. -/
theorem operation {l r : Expr} {t : Token} {f : Expr → Expr → Expr}
    (hf : operatorAt (i + 1) t = some f) (htokens : (f l r).tokens = l.tokens ++ t :: r.tokens)
    (hl : ReadsAt (i + 1) l) (hr : ReadsAt i r) : ReadsAt (i + 1) (f l r) := by
  intro d rest hd hrest
  rw [htokens, List.length_append, List.length_cons] at hd
  have hstops : Stops i (t :: (r.tokens ++ rest)) := by
    rw [stops_cons, level?_of_operatorAt hf]
    rintro j ⟨⟩
    exact Nat.lt_succ_self i
  have hright : readerAt (Grammar.expressionWithin d) i (r.tokens ++ rest) = some (r, rest) :=
    hr.read (by omega) hrest
  rw [htokens, List.append_assoc, List.cons_append, hl (by omega) hstops,
    continueAt_of_operator (expressionWithin_takes d) hf hright]

end ReadsAt

/-- Every expression is read back at its level, by induction on why it has the level. -/
theorem readsAt_of_at {i : Nat} {e : Expr} (h : e.At i) : ReadsAt i e := by
  induction h with
  | number s =>
    intro d rest _ _
    rw [continueAt_of_no_operator fun _ _ => rfl]
    rfl
  | boolean b =>
    intro d rest _ _
    rw [continueAt_of_no_operator fun _ _ => rfl]
    rfl
  | reference name =>
    intro d rest _ hrest
    -- a bracket would make a call of the name
    have hargs : parenthesized (expressionWithin d) rest = none := by
      unfold parenthesized
      split
      · exact absurd (stops_cons.mp hrest 0 rfl) (Nat.lt_irrefl 0)
      · rfl
    rw [continueAt_of_no_operator fun _ _ => rfl]
    simp only [Expr.tokens, List.singleton_append, readerAt, operand, hargs]
  | call name _ ih => exact .call name ih
  | bracket _ ih => exact .bracket ih
  | tighter hat ih => exact .tighter hat ih
  | unary hlevel _ ih => exact .unary hlevel ih
  | @binary i op l r hlevel _ _ ihl ihr =>
    obtain ⟨t, htokens, hf⟩ := operatorAt_of_level? hlevel
    exact .operation hf (by simp [Expr.tokens, htokens]) ihl ihr
  | @relation rel l r _ _ ihl ihr => exact .operation (t := .relation rel) rfl rfl ihl ihr

/-- An expression is read back, if what follows does not go on with it. -/
theorem expression_read {e : Expr} (h : e.Levelled) {rest : List Token} (hrest : Stops 7 rest) :
    expression (e.tokens ++ rest) = some (e, rest) := by
  refine (readsAt_of_at h).expressionWithin ?_ hrest
  rw [List.length_append]
  omega

/-! ### Words that end a block -/

end Grammar

/-- Can the word stand behind a block? -/
def Keyword.endsBlock : Keyword → Bool
  | .ENDSUBROUTINE | .RETURN | .ELSE | .ENDIF | .ENDWHILE | .UNTIL => true
  | _ => false

namespace Grammar

open Reader

/-- A keyword that ends a block stops every level of expressions. -/
theorem stops_of_endsBlock {k : Keyword} (hk : k.endsBlock = true) (i : Nat) (ts : List Token) :
    Stops i (.keyword k :: ts) := by
  refine stops_of_level?_eq_none ?_ i ts
  cases k <;> cases hk <;> rfl

/-- No statement begins with such a keyword. -/
theorem statementWithin_endsBlock {k : Keyword} (hk : k.endsBlock = true) (d : Nat)
    (ts : List Token) : statementWithin d (.keyword k :: ts) = none := by
  cases d with
  | zero => rfl
  | succ d => cases k <;> cases hk <;> rfl

/-! ### Statements -/

/-- A statement starts with a token that does not go on with an expression. -/
theorem first_of_statement (s : Stmt) : ∃ t ts, s.tokens = t :: ts ∧ t.level? = none := by
  rcases s with ⟨_, _ | _, _⟩ | ⟨_, _, _ | _, _⟩ | ⟨_, _, _ | _⟩ | ⟨_, _⟩ | ⟨_, _⟩ | _ | ⟨_, _⟩ <;>
    exact ⟨_, _, rfl, rfl⟩

/-- The next statement stops every level of expressions, since none begins with an operator. -/
theorem stops_statement (s : Stmt) (i : Nat) (rest : List Token) : Stops i (s.tokens ++ rest) := by
  obtain ⟨t, ts, htokens, hlevel⟩ := first_of_statement s
  rw [htokens]
  exact stops_of_level?_eq_none hlevel i (ts ++ rest)

theorem stops_block (b : Block) (i : Nat) (rest : List Token) : Stops i (b.tokens ++ rest) := by
  cases b with
  | one s => exact stops_statement s i rest
  | cons s b =>
    rw [Block.tokens, List.append_assoc]
    exact stops_statement s i (b.tokens ++ rest)

theorem statementWithin_advances (d : Nat) : (statementWithin d).Advances := by
  refine (statementWithin_takes d).advances fun s => ?_
  obtain ⟨t, ts, htokens, -⟩ := first_of_statement s
  rw [htokens]
  exact List.cons_ne_nil t ts

/-- The statements of a block are read before every word that can end a block. -/
def ReadsBlock (inner : Reader Stmt) (b : Block) : Prop :=
  ∀ ⦃k⦄, k.endsBlock = true → ∀ ts,
    block inner (b.tokens ++ .keyword k :: ts) = some (b, .keyword k :: ts)

/-- A statement behind which no other can be read is a block. -/
theorem block_one {inner : Reader Stmt} {s : Stmt} {ts rest : List Token}
    (hs : inner ts = some (s, rest)) (hrest : inner rest = none) :
    block inner ts = some (.one s, rest) := by
  rw [block, hs]
  dsimp only
  rw [many_of_none hrest]
  rfl

/-- A statement before a block is a longer block. -/
theorem block_cons {inner : Reader Stmt} (hinner : inner.Advances) {s : Stmt} {b : Block}
    {ts after rest : List Token} (hs : inner ts = some (s, after))
    (hb : block inner after = some (b, rest)) : block inner ts = some (.cons s b, rest) := by
  rw [block] at hb ⊢
  rcases hfirst : inner after with - | ⟨first, afterFirst⟩
  · rw [hfirst] at hb
    cases hb
  · rw [hfirst] at hb
    cases hb
    rw [hs]
    dsimp only
    rw [many_of_some hinner hfirst]
    rfl

section

variable {inner : Reader Stmt}

/-- A block behind a keyword is read back, and so is its absence. -/
theorem blockAfter_read {word k : Keyword} {b? : Option Block} (hb : ∀ b ∈ b?, ReadsBlock inner b)
    (hk : k.endsBlock = true) (hword : k ≠ word) (ts : List Token) :
    blockAfter inner word ((b?.elim [] fun b => .keyword word :: b.tokens) ++ .keyword k :: ts)
      = (b?, .keyword k :: ts) := by
  rcases b? with - | b
  · exact if_neg hword
  · simp only [Option.elim_some, List.cons_append, blockAfter, if_pos, hb b rfl hk]

theorem optionalBlock_read (hends : ∀ ⦃k⦄, k.endsBlock = true → ∀ ts, inner (.keyword k :: ts) = none)
    {k : Keyword} {b? : Option Block} (hb : ∀ b ∈ b?, ReadsBlock inner b)
    (hk : k.endsBlock = true) (ts : List Token) :
    optionalBlock inner (b?.elim [] Block.tokens ++ .keyword k :: ts) = (b?, .keyword k :: ts) := by
  rcases b? with - | b
  · simp only [Option.elim_none, List.nil_append, optionalBlock, block, hends hk]
  · simp only [Option.elim_some, optionalBlock, hb b rfl hk]

theorem optionalReturn_read {ret : Option Expr} (h : ∀ e ∈ ret, e.Levelled) (rest : List Token) :
    optionalReturn (Expr.returnTokens ret ++ .keyword .ENDSUBROUTINE :: rest)
      = (ret, .keyword .ENDSUBROUTINE :: rest) := by
  rcases ret with - | e
  · rfl
  · have hread := expression_read (h e rfl) (stops_of_endsBlock (k := .ENDSUBROUTINE) rfl 7 rest)
    simp only [Expr.returnTokens, List.cons_append, optionalReturn, hread]

/-- A definition is read back from behind its name, if its parts are. -/
theorem subroutineNamed_read
    (hends : ∀ ⦃k⦄, k.endsBlock = true → ∀ ts, inner (.keyword k :: ts) = none)
    (title : String) (params : List String) (body : Option Block) {ret : Option Expr}
    (hbody : ∀ b ∈ body, ReadsBlock inner b) (hret : ∀ e ∈ ret, e.Levelled) (rest : List Token) :
    subroutineNamed inner title (.lparen :: commaSeparated (params.map fun p => [.name p])
        ++ .rparen :: (body.elim [] Block.tokens ++ (Expr.returnTokens ret
          ++ .keyword .ENDSUBROUTINE :: rest)))
      = some (.subroutine title params body ret, rest) := by
  have hparams : ∀ ts, parenthesized name (.lparen :: commaSeparated (params.map fun p => [.name p])
      ++ .rparen :: ts) = some (params, ts) :=
    parenthesized_read (name_takes.advances fun _ => List.cons_ne_nil _ _) (fun _ _ _ _ => rfl)
      fun _ => rfl
  -- what follows the statements starts with a word that can end a block
  obtain ⟨k, ts, hafter, hk⟩ : ∃ k ts, Expr.returnTokens ret ++ .keyword .ENDSUBROUTINE :: rest
      = .keyword k :: ts ∧ k.endsBlock = true := by
    rcases ret with - | e <;> exact ⟨_, _, rfl, rfl⟩
  rw [subroutineNamed, hparams]
  dsimp only
  rw [hafter, optionalBlock_read hends hbody hk, ← hafter]
  dsimp only
  rw [optionalReturn_read hret]

/-- A conditional statement is read back from behind its first keyword, if its parts are. -/
theorem conditional_read {condition : Expr} {thenBranch : Block} (elseBranch : Option Block)
    (hcondition : condition.Levelled) (hthen : ReadsBlock inner thenBranch)
    (helse : ∀ b ∈ elseBranch, ReadsBlock inner b) (rest : List Token) :
    conditional inner (condition.tokens ++ .keyword .THEN :: (thenBranch.tokens
        ++ ((elseBranch.elim [] fun b => .keyword .ELSE :: b.tokens) ++ .keyword .ENDIF :: rest)))
      = some (.conditional condition thenBranch elseBranch, rest) := by
  -- with or without a second branch, a keyword that ends the first one follows it
  obtain ⟨k, ts, hafter, hk⟩ : ∃ k ts,
      (elseBranch.elim [] fun b => .keyword .ELSE :: b.tokens) ++ .keyword .ENDIF :: rest
      = .keyword k :: ts ∧ k.endsBlock = true := by
    rcases elseBranch with - | b <;> exact ⟨_, _, rfl, rfl⟩
  rw [conditional, expression_read hcondition (stops_of_level?_eq_none rfl 7 _)]
  dsimp only
  rw [hafter, hthen hk, ← hafter]
  dsimp only
  rw [blockAfter_read helse rfl (by decide)]

/-- A loop that tests first is read back from behind its first keyword, if its parts are. -/
theorem whileLoop_read {condition : Expr} {body : Block} (hcondition : condition.Levelled)
    (hbody : ReadsBlock inner body) (rest : List Token) :
    whileLoop inner (condition.tokens ++ (body.tokens ++ .keyword .ENDWHILE :: rest))
      = some (.whileLoop condition body, rest) := by
  rw [whileLoop, expression_read hcondition (stops_block body 7 _)]
  dsimp only
  rw [hbody rfl]

/-- A loop that tests last is read back likewise; it ends with an expression, so something has to
stop that. -/
theorem repeatLoop_read {condition : Expr} {body : Block} (hcondition : condition.Levelled)
    (hbody : ReadsBlock inner body) {rest : List Token} (hrest : Stops 7 rest) :
    repeatLoop inner (body.tokens ++ .keyword .UNTIL :: (condition.tokens ++ rest))
      = some (.repeatLoop body condition, rest) := by
  rw [repeatLoop, hbody rfl]
  dsimp only
  rw [expression_read hcondition hrest]
  rfl

end

mutual

/-- A statement is read back, if what follows does not go on with its last expression. -/
theorem statementWithin_read : (s : Stmt) → s.Levelled → ∀ {d : Nat} {rest : List Token},
    s.tokens.length ≤ d → Stops 7 rest → statementWithin d (s.tokens ++ rest) = some (s, rest)
  | s, h, 0, rest, hd, _ => by
    obtain ⟨t, ts, htokens, -⟩ := first_of_statement s
    rw [htokens] at hd
    cases hd
  | .assign x constant value, h, d + 1, rest, _, hrest => by
    have hread := expression_read h hrest
    cases constant <;>
      simp [Stmt.tokens, statementWithin, statementOver, assignmentTo, hread]
  | .subroutine x params none ret, h, d + 1, rest, _, _ => by
    have hread := subroutineNamed_read (fun _ hk => statementWithin_endsBlock hk d) x params none
      nofun h rest
    simpa [Stmt.tokens, statementWithin, statementOver] using hread
  -- the blocks inside have fewer tokens than the statement, so one nesting less is enough for them
  | .subroutine x params (some body) ret, h, d + 1, rest, hd, _ => by
    simp only [Stmt.tokens, List.length_append, List.length_cons] at hd
    have hbody := block_read body h.1 (d := d) (by omega)
    have hread := subroutineNamed_read (fun _ hk => statementWithin_endsBlock hk d) x params
      (some body) (by rintro _ ⟨⟩; exact hbody) h.2 rest
    simpa [Stmt.tokens, statementWithin, statementOver] using hread
  | .conditional condition thenBranch none, h, d + 1, rest, hd, _ => by
    simp only [Stmt.tokens, List.length_append, List.length_cons] at hd
    have hthen := block_read thenBranch h.2 (d := d) (by omega)
    have hread := conditional_read none h.1 hthen nofun rest
    simpa [Stmt.tokens, statementWithin, statementOver] using hread
  | .conditional condition thenBranch (some elseBranch), h, d + 1, rest, hd, _ => by
    simp only [Stmt.tokens, List.length_append, List.length_cons] at hd
    have hthen := block_read thenBranch h.2.1 (d := d) (by omega)
    have helse := block_read elseBranch h.2.2 (d := d) (by omega)
    have hread := conditional_read (some elseBranch) h.1 hthen (by rintro _ ⟨⟩; exact helse) rest
    simpa [Stmt.tokens, statementWithin, statementOver] using hread
  | .whileLoop condition body, h, d + 1, rest, hd, _ => by
    simp only [Stmt.tokens, List.length_append, List.length_cons] at hd
    have hread := whileLoop_read h.1 (block_read body h.2 (d := d) (by omega)) rest
    simpa [Stmt.tokens, statementWithin, statementOver] using hread
  | .repeatLoop body condition, h, d + 1, rest, hd, hrest => by
    simp only [Stmt.tokens, List.length_append, List.length_cons] at hd
    have hread := repeatLoop_read h.2 (block_read body h.1 (d := d) (by omega)) hrest
    simpa [Stmt.tokens, statementWithin, statementOver] using hread
  | .output value, h, d + 1, rest, _, hrest => by
    simp [Stmt.tokens, statementWithin, statementOver, expression_read h hrest]
  | .call x args, h, d + 1, rest, _, _ => by
    have hread := parenthesized_read (expression_takes.advances Expr.tokens_ne_nil)
      (fun a ha ts hts => expression_read (h a ha) hts) (fun ts => expressionWithin_rparen _ ts)
      rest
    simpa [Stmt.tokens, Expr.tokensOf_eq_map, statementWithin, statementOver, assignmentTo] using
      hread

/-- The statements of a block are read back before a word that can end a block. The two results need
each other: statements are read back by their blocks, and blocks by their statements. -/
theorem block_read : (b : Block) → b.Levelled → ∀ {d : Nat}, b.tokens.length ≤ d →
    ReadsBlock (statementWithin d) b
  | .one s, h, d, hd => by
    intro k hk ts
    have hs := statementWithin_read s h hd (stops_of_endsBlock hk 7 ts)
    exact block_one hs (statementWithin_endsBlock hk d ts)
  | .cons s b, h, d, hd => by
    intro k hk ts
    rw [Block.tokens, List.length_append] at hd
    have hs := statementWithin_read s h.1 (d := d) (by omega)
      (stops_block b 7 (.keyword k :: ts))
    have hb := block_read b h.2 (d := d) (by omega) hk ts
    rw [Block.tokens, List.append_assoc]
    exact block_cons (statementWithin_advances d) hs hb

end

/-- A statement is read back from its printing, in front of whatever stops its last expression. -/
theorem statement_read {s : Stmt} (h : s.Levelled) {rest : List Token} (hrest : Stops 7 rest) :
    statement (s.tokens ++ rest) = some (s, rest) := by
  refine statementWithin_read s h ?_ hrest
  rw [List.length_append]
  omega

/-- The statements of a program are read back, and nothing is left. -/
theorem program_read {statements : List Stmt} (h : ∀ s ∈ statements, s.Levelled) :
    program (statements.flatMap Stmt.tokens) = (statements, []) := by
  have hadvances : statement.Advances := fun ts _ _ hts => statementWithin_advances _ hts
  have hread := many_read hadvances (fun s hs ts hts => statement_read (h s hs) hts)
    (fun s _ ts => stops_statement s 7 ts) (stops_nil 7) hadvances.nil
  rwa [List.append_nil] at hread

end Grammar

end Pseudocode
