import Mathlib.Logic.Relation
import Pseudocode.Interpreter
import Pseudocode.Proofs.Contract.Run

/-!
How bindings evolve.

An evaluation never takes a name away. What it does to the binding of a name is `Becomes`: a
constant keeps its binding, and a subroutine is at most defined anew. Inside a call a parameter may
mask a constant or a subroutine of the caller, so the law does not hold between the caller's
environment and the frame; it holds between frame and frame, and again between the two environments
of the caller, because leaving a call puts back what the parameters masked.

Main results: `evolves_of_eval` and `evolves_of_evalGuarded` for single evaluations,
`constants_immutable` for these and for sessions of any length, and `bound_names_persist`.
-/

namespace Pseudocode

/-- What the binding of a name may become in the course of an evaluation. -/
structure Binding.Becomes (b b' : Binding) : Prop where
  constant : b.isConstant = true → b' = b
  subroutine : b.isSubroutine = true → b'.isSubroutine = true

namespace Binding.Becomes

theorem refl (b : Binding) : b.Becomes b := ⟨fun _ => rfl, fun h => h⟩

theorem trans {b₁ b₂ b₃ : Binding} (h₁ : b₁.Becomes b₂) (h₂ : b₂.Becomes b₃) :
    b₁.Becomes b₃ := by
  refine ⟨fun hb => ?_, fun hb => h₂.subroutine (h₁.subroutine hb)⟩
  have heq : b₂ = b₁ := h₁.constant hb
  subst heq
  exact h₂.constant hb

end Binding.Becomes

/-- Every name that is bound stays bound, to what its binding may become. -/
def Env.Evolves (env env' : Env) : Prop :=
  ∀ (x : String) (b : Binding), env[x]? = some b → ∃ b', env'[x]? = some b' ∧ b.Becomes b'

namespace Env.Evolves

theorem refl (env : Env) : env.Evolves env := fun _ b h => ⟨b, h, .refl b⟩

theorem trans {env₁ env₂ env₃ : Env} (h₁ : env₁.Evolves env₂) (h₂ : env₂.Evolves env₃) :
    env₁.Evolves env₃ := by
  intro x b hb
  obtain ⟨b', hb', hbecomes⟩ := h₁ x b hb
  obtain ⟨b'', hb'', hbecomes'⟩ := h₂ x b' hb'
  exact ⟨b'', hb'', hbecomes.trans hbecomes'⟩

/-- A new binding has to continue the one it replaces. -/
theorem insert {env : Env} {name : String} {new : Binding}
    (h : ∀ b, env[name]? = some b → b.Becomes new) : env.Evolves (env.insert name new) := by
  intro x b hb
  rw [Std.ExtTreeMap.getElem?_insert]
  by_cases hx : name = x
  · subst hx
    exact ⟨new, by simp, h b hb⟩
  · exact ⟨b, by simpa [hx] using hb, .refl b⟩

/-- Leaving a call: what evolved in the frame evolved for the caller, whatever parameters hid. -/
theorem restore {caller frame left : Env} {params : List String}
    (hout : ∀ x, x ∉ params → frame[x]? = caller[x]?) (h : frame.Evolves left) :
    caller.Evolves (Env.restore caller left params) := by
  intro x b hb
  rw [Env.getElem?_restore]
  -- a parameter has its old binding again; any other name has evolved with the frame
  by_cases hx : x ∈ params
  · exact ⟨b, by simpa [hx] using hb, .refl b⟩
  · obtain ⟨b', hb', hbecomes⟩ := h x b ((hout x hx).trans hb)
    exact ⟨b', by simp [hx, hb'], hbecomes⟩

end Env.Evolves

/-! ### The contract -/

namespace Contract

/-- Any node, any values; the bindings evolve. -/
def evolution : Contract where
  admits _ _ := True
  keeps _ := True
  yields _ := True
  leads := Env.Evolves

theorem evolution_sound : evolution.Sound where
  toSoundValues := soundValues_of_forall fun _ => trivial
  refl := Env.Evolves.refl
  trans := Env.Evolves.trans
  -- an assignment is only let through where neither a constant nor a subroutine stands
  assign _ _ _ _ _ _ hfree := by
    refine ⟨trivial, .insert fun b hb => ?_⟩
    obtain ⟨hsub, hconst⟩ := hfree b hb
    exact ⟨fun h => absurd h (by simp [hconst]), fun h => absurd h (by simp [hsub])⟩
  define _ _ _ _ _ _ hfree := by
    refine ⟨trivial, .insert fun b hb => ⟨fun h => absurd h ?_, fun _ => rfl⟩⟩
    simp [hfree b hb]
  pass _ _ _ := trivial
  restore _ _ hout hleads := ⟨trivial, .restore hout hleads⟩
  descend _ _ := trivial
  part _ _ := trivial
  enter _ _ _ _ _ _ := trivial

end Contract

variable {fuel : Nat} {ctx : Context} {n : Node} {s s' : State} {v : Value}

/-- Every evaluation lets the environment grow. -/
theorem evolves_of_eval (h : eval fuel ctx n s = .done v s') : s.env.Evolves s'.env :=
  (Contract.evolution_sound.eval trivial trivial h).leads

/-- The same with the guard for a host. -/
theorem evolves_of_evalGuarded (h : evalGuarded fuel ctx n s = .done v s') :
    s.env.Evolves s'.env :=
  (Contract.evolution_sound.evalGuarded trivial trivial h).leads

/-! ### Sessions -/

namespace Interpreter

/-- One step of a session: a node is evaluated, with any settings and within any number of calls,
and the session goes on with the environment that is left. -/
def Steps (env env' : Env) : Prop :=
  ∃ settings depth n r, (evaluateAt settings depth n env).run? = some r ∧ r.env = env'

/-- The steps of a session, one after the other. -/
abbrev Session : Env → Env → Prop := Relation.ReflTransGen Steps

end Interpreter

/-- And of one run after the other. -/
theorem evolves_of_steps {env env' : Env} (h : Interpreter.Steps env env') : env.Evolves env' := by
  obtain ⟨settings, depth, n, r, hrun, rfl⟩ := h
  obtain ⟨t, hdone, henv, -⟩ := Outcome.run?_eq_some_iff.mp hrun
  rw [← henv]
  exact evolves_of_evalGuarded hdone

/-- And of a whole session. -/
theorem evolves_of_session {env env' : Env} (h : Interpreter.Session env env') :
    env.Evolves env' := by
  induction h with
  | refl => exact .refl env
  | tail _ hstep ih => exact ih.trans (evolves_of_steps hstep)

/-! ### Constants -/

/-- The constants of the first environment have the same bindings in the second one. -/
def Env.KeepsConstants (env env' : Env) : Prop :=
  ∀ (x : String) (v : Value),
    env[x]? = some (.variable v true) → env'[x]? = some (.variable v true)

/-- A constant that may only be continued stays what it is. -/
theorem Env.Evolves.keepsConstants {env env' : Env} (h : env.Evolves env') :
    env.KeepsConstants env' := by
  intro x v hx
  obtain ⟨b', hb', hbecomes⟩ := h x _ hx
  rw [hb', hbecomes.constant rfl]

/-- **Constants are immutable.** Whatever is evaluated, and however the evaluation ends, every
constant of the environment at the start has the same binding at the end; hence a constant that is
there at some point of a session has its binding at every later point. -/
theorem constants_immutable :
    (∀ (fuel : Nat) (ctx : Context) (n : Node) (s s' : State) (v : Value),
      eval fuel ctx n s = .done v s' → s.env.KeepsConstants s'.env)
    ∧ (∀ (fuel : Nat) (ctx : Context) (n : Node) (s s' : State) (v : Value),
      evalGuarded fuel ctx n s = .done v s' → s.env.KeepsConstants s'.env)
    ∧ ∀ env env' : Env, Interpreter.Session env env' → env.KeepsConstants env' := by
  refine ⟨?_, ?_, ?_⟩
  · intro fuel ctx n s s' v h
    exact (evolves_of_eval h).keepsConstants
  · intro fuel ctx n s s' v h
    exact (evolves_of_evalGuarded h).keepsConstants
  · intro env env' h
    exact (evolves_of_session h).keepsConstants

/-- A constant `c`, and a subroutine `f` that has a parameter `c`, assigns to it and calls `g`,
which assigns to it again. -/
def maskingEnv : Env :=
  ((∅ : Env).insert "c" (.variable (.bool true) true)
    |>.insert "f" (.subroutine ["c"]
      (some (.sequence (.assignment "c" false (.boolean "False")) (.call "g" []))) none))
    |>.insert "g" (.subroutine [] (some (.assignment "c" false (.boolean "True"))) none)

theorem constants_immutable_masked :
    ∃ s', eval 8 ⟨false, 50, 0, none⟩ (.call "f" [.boolean "False"]) ⟨maskingEnv, []⟩
        = .done .void s'
      ∧ s'.env["c"]? = some (.variable (.bool true) true) := by
  obtain ⟨s', hrun⟩ : ∃ s', eval 8 ⟨false, 50, 0, none⟩ (.call "f" [.boolean "False"])
      ⟨maskingEnv, []⟩ = .done .void s' := ⟨_, rfl⟩
  exact ⟨s', hrun, constants_immutable.1 _ _ _ _ _ _ hrun "c" (.bool true) rfl⟩

/-! ### Names and subroutines -/

/-- A name that is bound stays bound. -/
theorem Env.Evolves.mem {env env' : Env} (h : env.Evolves env') {x : String} (hx : x ∈ env) :
    x ∈ env' := by
  obtain ⟨b', hb', -⟩ := h x env[x] (Std.ExtTreeMap.getElem?_eq_some_getElem hx)
  exact Std.ExtTreeMap.mem_iff_isSome_getElem?.mpr (by rw [hb']; rfl)

/-- What stands for a subroutine goes on standing for one. -/
theorem Env.Evolves.subroutine {env env' : Env} (h : env.Evolves env') {x : String}
    {params : List String} {tree ret : Option Node}
    (hx : env[x]? = some (.subroutine params tree ret)) :
    ∃ params' tree' ret', env'[x]? = some (.subroutine params' tree' ret') := by
  obtain ⟨b', hb', hbecomes⟩ := h x _ hx
  rcases b' with ⟨v, constant⟩ | ⟨params', tree', ret'⟩
  · exact absurd (hbecomes.subroutine rfl) (by simp [Binding.isSubroutine])
  · exact ⟨params', tree', ret', hb'⟩

/-- **Bound names persist, and subroutines stay subroutines.** Whatever is evaluated, and however the
evaluation ends, a name that is bound at the start is bound at the end, and a name of a subroutine
is the name of a subroutine, perhaps of one that has been defined anew. A call may hide the name
behind a parameter and assign to that; leaving the call brings the subroutine back. -/
theorem bound_names_persist {fuel : Nat} {ctx : Context} {n : Node} {s s' : State} {v : Value}
    (h : eval fuel ctx n s = .done v s' ∨ evalGuarded fuel ctx n s = .done v s') :
    (∀ x : String, x ∈ s.env → x ∈ s'.env)
      ∧ ∀ (x : String) (params : List String) (tree ret : Option Node),
        s.env[x]? = some (.subroutine params tree ret) →
        ∃ params' tree' ret', s'.env[x]? = some (.subroutine params' tree' ret') := by
  have hevolves : s.env.Evolves s'.env := h.elim evolves_of_eval evolves_of_evalGuarded
  exact ⟨fun x => hevolves.mem, fun x params tree ret => hevolves.subroutine⟩

/-- A subroutine `g`, and a subroutine `f` that has a parameter `g`, assigns to it, defines `f` anew
and reads a variable that does not exist. -/
def hidingEnv : Env :=
  (∅ : Env).insert "g" (.subroutine [] none none)
    |>.insert "f" (.subroutine ["g"]
      (some (.sequence (.assignment "g" false (.boolean "False"))
        (.sequence (.subroutine "f" [] none none) (.reference "y")))) none)

theorem bound_names_persist_hidden :
    ∃ s', eval 8 ⟨false, 50, 0, none⟩ (.call "f" [.boolean "True"]) ⟨hidingEnv, []⟩
        = .done (.error (.unresolved "Variable" "y")) s'
      ∧ "g" ∈ s'.env
      ∧ (∃ params tree ret, s'.env["g"]? = some (.subroutine params tree ret))
      ∧ ∃ params tree ret, s'.env["f"]? = some (.subroutine params tree ret) := by
  obtain ⟨s', hrun⟩ : ∃ s', eval 8 ⟨false, 50, 0, none⟩ (.call "f" [.boolean "True"])
      ⟨hidingEnv, []⟩ = .done (.error (.unresolved "Variable" "y")) s' := ⟨_, rfl⟩
  obtain ⟨hbound, hsubroutine⟩ := bound_names_persist (.inl hrun)
  refine ⟨s', hrun, hbound "g" ?_, hsubroutine "g" [] none none rfl, hsubroutine "f" _ _ _ rfl⟩
  rw [Std.ExtTreeMap.mem_iff_isSome_getElem?]
  rfl

end Pseudocode
