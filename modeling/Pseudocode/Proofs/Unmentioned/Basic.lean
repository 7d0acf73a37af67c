import Pseudocode.Proofs.Names
import Pseudocode.Proofs.Subtrees

/-!
Names that are not mentioned.

`Env.put z b` gives the name `z` the binding `b`, or takes its binding away. What does not mention
`z` goes on in `env.put z b` as in `env`, since all its look-ups have the same answers, and `z` is
put into the environment that is left: it commutes with `put`.

Design. A plan does not mention a name if it looks up, binds and passes other names only and has
nothing evaluated in which the name occurs (`Plan.Spares`). What it looks up are subroutines too, so
this depends on the environment, in which no subroutine may mention the name either. That this stays
so during a run is a contract (`Contract.sparing`).

Main result: a plan that does not mention a name commutes with giving it a binding, if the evaluator
of its parts does (`Plan.run_put`).
-/

namespace Pseudocode

/-! ### The binding of one name -/

namespace Env

/-- The environment in which a name has the given binding, or none. -/
def put (env : Env) (z : String) : Option Binding → Env
  | some b => env.insert z b
  | none => env.erase z

variable {z : String}

theorem getElem?_put (env : Env) (z : String) (b : Option Binding) (x : String) :
    (env.put z b)[x]? = if x = z then b else env[x]? := by
  cases b with
  | none => simp [put, Std.ExtTreeMap.getElem?_erase, eq_comm (a := x)]
  | some b => simp [put, Std.ExtTreeMap.getElem?_insert, eq_comm (a := x)]

theorem getElem?_put_of_ne {x : String} (h : x ≠ z) (env : Env) (b : Option Binding) :
    (env.put z b)[x]? = env[x]? := by
  rw [getElem?_put, if_neg h]

/-- Binding another name can be done before or afterwards. -/
theorem put_insert {name : String} (h : name ≠ z) (env : Env) (a : Binding) (b : Option Binding) :
    put (env.insert name a) z b = (env.put z b).insert name a := by
  apply Std.ExtTreeMap.ext_getElem?
  intro x
  simp only [getElem?_put, Std.ExtTreeMap.getElem?_insert]
  by_cases hx : x = z
  · subst hx
    simp [h]
  · simp [hx]

theorem put_bindAll {params : List String} (h : z ∉ params) (env : Env) (vs : List Value)
    (b : Option Binding) : (env.bindAll params vs).put z b = (env.put z b).bindAll params vs := by
  induction params generalizing env vs with
  | nil => rfl
  | cons param params ih =>
    rw [List.mem_cons, not_or] at h
    cases vs with
    | nil => rfl
    | cons v vs => rw [bindAll, bindAll, ih h.2, put_insert (Ne.symm h.1)]

/-- The name is taken from the frame, which has it as the caller has it. -/
theorem put_restore {params : List String} (h : z ∉ params) (caller left : Env)
    (b : Option Binding) :
    (restore caller left params).put z b = restore (caller.put z b) (left.put z b) params := by
  apply Std.ExtTreeMap.ext_getElem?
  intro x
  simp only [getElem?_put, getElem?_restore]
  by_cases hx : x = z
  · subst hx
    simp [h]
  · simp [hx]

theorem put_put (env : Env) (b b' : Option Binding) : (env.put z b).put z b' = env.put z b' := by
  apply Std.ExtTreeMap.ext_getElem?
  intro x
  simp only [getElem?_put]
  split <;> rfl

end Env

/-- The state in which a name has the given binding, or none. -/
def State.put (s : State) (z : String) (b : Option Binding) : State :=
  { s with env := s.env.put z b }

theorem State.put_note (s : State) (z : String) (b : Option Binding) (ctx : Context) (e : Event) :
    (s.note ctx e).put z b = (s.put z b).note ctx e := by
  unfold note
  split <;> rfl

/-! ### Outcomes -/

namespace Outcome

variable {o : Outcome} {g : Env → Env}

/-- A change of the environment may be made before what follows, if what follows commutes with
it. -/
theorem mapEnv_andThen {k k' : Value → State → Outcome}
    (h : ∀ v s, o = .done v s → k' v ⟨g s.env, s.log⟩ = (k v s).mapEnv g) :
    (o.andThen k).mapEnv g = (o.mapEnv g).andThen k' := by
  rcases o with ⟨v, s⟩ | log | -
  · rcases hv : v.isError with - | -
    · rw [mapEnv, andThen_done_of_not_isError hv, andThen_done_of_not_isError hv, h v s rfl]
    · obtain ⟨fault, rfl⟩ := Value.isError_iff.mp hv
      rfl
  · rfl
  · rfl

theorem mapEnv_noted (ctx : Context) (e : Value → Event) :
    (o.noted ctx e).mapEnv g = (o.mapEnv g).noted ctx e := by
  rcases o with ⟨v, s⟩ | log | -
  · simp only [noted, mapEnv, State.note]
    split <;> rfl
  · rfl
  · rfl

theorem mapEnv_caught (fault : Fault) (env : Env) :
    (o.caught fault env).mapEnv g = (o.mapEnv g).caught fault (g env) := by
  rcases o with ⟨v, s⟩ | log | - <;> rfl

theorem mapEnv_mapEnv_comm {f f' : Env → Env} (h : ∀ env, g (f env) = f' (g env)) :
    (o.mapEnv f).mapEnv g = (o.mapEnv g).mapEnv f' := by
  rcases o with ⟨v, s⟩ | log | -
  · simp only [mapEnv, h]
  · rfl
  · rfl

end Outcome

/-! ### Trees and environments that do not mention a name -/

namespace Node

variable {n : Node} {x : String}

theorem mem_names_of_text? (h : n.text? "name" = some x) : x ∈ n.names := by
  obtain ⟨kind, ps, cs⟩ := n
  exact mem_names_mk.mpr (.inl h)

theorem hereditary_not_mem_names (z : String) : Hereditary fun n => z ∉ n.names := by
  intro n c slot hn h hz
  obtain ⟨kind, ps, cs⟩ := n
  exact hn (mem_names_mk.mpr (.inr ⟨(slot, c), mem_children_of_child? h, hz⟩))

/-- A name in a list is the text of a property. -/
theorem text?_of_label? {key : String} (h : n.label? key = some x) : n.text? key = some x := by
  unfold label? at h
  rcases hp : n.property? key with - | p
  · rw [hp] at h
    cases h
  · rw [hp] at h
    dsimp only at h
    split at h
    · rw [text?, hp, ← h]
      rfl
    · cases h

/-- A name that a tree does not mention is no parameter in it. -/
theorem not_mem_parameterNames? {slot : Slot} {params : List String} (hn : x ∉ n.names)
    (h : parameterNames? (n.child? slot) = some params) : x ∉ params := by
  intro hx
  obtain ⟨link, hlink, hlabel⟩ := exists_of_mem_mapM h hx
  have hlink' := (hereditary_not_mem_names x).below hn (below_of_mem_links hlink)
  exact hlink' (mem_names_of_text? (text?_of_label? hlabel))

end Node

/-- The binding does not mention the name: not as a parameter, and not in a tree. -/
def Binding.Spares (z : String) : Binding → Prop
  | .variable _ _ => True
  | .subroutine params tree ret =>
    z ∉ params ∧ ∀ m, tree = some m ∨ ret = some m → z ∉ m.names

/-- No binding of the environment mentions the name. -/
def Env.Spares (z : String) (env : Env) : Prop :=
  ∀ (x : String) (b : Binding), env[x]? = some b → b.Spares z

namespace Env.Spares

variable {z : String} {env : Env}

theorem insert (h : env.Spares z) (name : String) {a : Binding} (ha : a.Spares z) :
    Spares z (env.insert name a) := by
  intro x b hx
  rw [Std.ExtTreeMap.getElem?_insert] at hx
  split at hx
  · cases hx
    exact ha
  · exact h x b hx

theorem bindAll (h : env.Spares z) (params : List String) (vs : List Value) :
    Spares z (env.bindAll params vs) := by
  induction params generalizing env vs with
  | nil => exact h
  | cons param params ih =>
    cases vs with
    | nil => exact h
    | cons v vs => exact ih (h.insert param (a := .variable v false) trivial) vs

theorem restore {left : Env} (h : env.Spares z) (hleft : left.Spares z) (params : List String) :
    Spares z (Env.restore env left params) := by
  intro x b hx
  rw [getElem?_restore] at hx
  split at hx
  · exact h x b hx
  · rcases Option.or_eq_some_iff.mp hx with hx | ⟨-, hx⟩
    · exact hleft x b hx
    · exact h x b hx

end Env.Spares

namespace Contract

/-- The name is mentioned neither in the code nor in the environment. -/
def sparing (z : String) : Contract where
  admits _ n := z ∉ n.names
  keeps env := env.Spares z
  yields _ := True
  leads _ _ := True

/-- Code that does not mention a name, with trees stored that do not, stores only such trees. -/
theorem sparing_sound (z : String) : (sparing z).Sound where
  toSoundValues := soundValues_of_forall fun _ => trivial
  refl _ := trivial
  trans _ _ := trivial
  assign _ _ _ hkeeps _ _ _ := ⟨Env.Spares.insert hkeeps _ trivial, trivial⟩
  define hn _ _ hparams _ hkeeps _ := by
    refine ⟨Env.Spares.insert hkeeps _ ⟨?_, ?_⟩, trivial⟩
    · exact Node.not_mem_parameterNames? hn hparams
    · rintro m (hm | hm)
      · exact Node.hereditary_not_mem_names z hn hm
      · exact Node.hereditary_not_mem_names z hn hm
  pass hkeeps _ _ := Env.Spares.insert hkeeps _ trivial
  restore hcaller hleft _ _ := ⟨Env.Spares.restore hcaller hleft _, trivial⟩
  descend hn _ := hn
  part hn hpart := (Node.hereditary_not_mem_names z).below hn hpart.below
  enter _ _ hkeeps _ hbind hm := (hkeeps _ _ hbind).2 _ hm

end Contract

/-! ### Plans that do not mention a name -/

namespace Plan

/-- In an environment that does not mention the name, the plan does not either: it looks up, binds
and passes other names, and has nothing evaluated in which the name occurs. -/
def Spares (z : String) : Plan → Prop
  | .finish _ => True
  | .unfinished => True
  | .look k => ∀ env : Env, env.Spares z → (∀ b, k (env.put z b) = k env) ∧ (k env).Spares z
  | .note _ _ next => next.Spares z
  | .emit _ next => next.Spares z
  | .bind name b next => name ≠ z ∧ b.Spares z ∧ next.Spares z
  | .ask _ m k => z ∉ m.names ∧ ∀ v, (k v).Spares z
  | .askReturn _ m => z ∉ m.names
  | .guarded _ inner => inner.Spares z
  | .framed _ params _ inner => z ∉ params ∧ inner.Spares z

/-- An evaluator of parts that commutes with giving the name a binding, and keeps to environments
that do not mention it. -/
def Commutes (z : String) (b : Option Binding) (ev : Evaluator) : Prop :=
  ∀ ctx m (s : State), z ∉ m.names → s.env.Spares z →
    ev ctx m (s.put z b) = (ev ctx m s).mapEnv (Env.put · z b)
      ∧ ∀ v t, ev ctx m s = .done v t → t.env.Spares z

variable {z : String} {b : Option Binding}

/-- A plan that does not mention the name commutes with giving it a binding. -/
theorem run_put {ev : Evaluator} (hev : Commutes z b ev) {plan : Plan} (hplan : plan.Spares z)
    (ctx : Context) {s : State} (hs : s.env.Spares z) :
    plan.run ev ctx (s.put z b) = (plan.run ev ctx s).mapEnv (Env.put · z b) := by
  induction plan generalizing ctx s with
  | finish v => rfl
  | unfinished => rfl
  | look k ih =>
    -- the look-up has the same answer with `z` put in
    obtain ⟨hsame, hnext⟩ := hplan s.env hs
    have hrun := ih s.env hnext ctx hs
    rw [run_look, run_look, ← hrun]
    exact congrArg (fun plan : Plan => plan.run ev ctx (s.put z b)) (hsame b)
  | note e remark next ih =>
    have hnext := ih hplan ctx (s := s.note ctx e) (by rwa [State.env_note])
    rw [State.put_note] at hnext
    exact hnext
  | emit v next ih => exact ih hplan ctx (s := s.emit v) hs
  | bind name a next ih =>
    obtain ⟨hname, ha, hnext⟩ := hplan
    have hbind : (s.bind name a).put z b = (s.put z b).bind name a := by
      simp only [State.bind, State.put, Env.put_insert hname]
    have hrun := ih hnext ctx (s := s.bind name a) (hs.insert name ha)
    rw [hbind] at hrun
    exact hrun
  | ask effects m k ih =>
    obtain ⟨hm, hk⟩ := hplan
    obtain ⟨hanswer, hleft⟩ := hev ctx m s hm hs
    have hafter : ∀ env, (effects.after s.env env).put z b
        = effects.after (s.env.put z b) (env.put z b) := by
      intro env
      cases effects <;> rfl
    rw [run_ask, run_ask, hanswer]
    show ((_ : Outcome).mapEnv (effects.after (s.env.put z b))).andThen _ = _
    rw [← Outcome.mapEnv_mapEnv_comm hafter]
    -- it remains to go on, in the environment of the part or in the one before it
    refine (Outcome.mapEnv_andThen fun v t ht => ?_).symm
    obtain ⟨u, hu, rfl⟩ := Outcome.mapEnv_eq_done_iff.mp ht
    refine ih v (hk v) ctx ?_
    cases effects with
    | kept => exact hleft v u hu
    | undone => exact hs
  | askReturn name m =>
    rw [run_askReturn, run_askReturn, (hev ctx m s hplan hs).1, Outcome.mapEnv_noted]
  | guarded name inner ih =>
    by_cases hdepth : ctx.limit ≤ ctx.depth
    · rw [run_guarded_of_le _ _ hdepth, run_guarded_of_le _ _ hdepth]
      rfl
    · rw [run_guarded_of_not_le _ _ hdepth, run_guarded_of_not_le _ _ hdepth, ih hplan ctx hs,
        Outcome.mapEnv_caught]
      rfl
  | framed name params vs inner ih =>
    obtain ⟨hparams, hinner⟩ := hplan
    let frame := State.note ⟨s.env.bindAll params vs, s.log⟩ ctx (.entered name ctx.inCall.depth)
    have hspares : frame.env.Spares z := by
      rw [State.env_note]
      exact hs.bindAll params vs
    have hput : frame.put z b = State.note ⟨(s.env.put z b).bindAll params vs, s.log⟩ ctx
        (.entered name ctx.inCall.depth) := by
      rw [State.put_note, ← Env.put_bindAll hparams]
      rfl
    calc (framed name params vs inner).run ev ctx (s.put z b)
        = (inner.run ev ctx.inCall (frame.put z b)).mapEnv
            fun left => Env.restore (s.env.put z b) left params := by
          rw [run_framed, hput]
          rfl
      _ = ((inner.run ev ctx.inCall frame).mapEnv (Env.put · z b)).mapEnv
            fun left => Env.restore (s.env.put z b) left params := by
          rw [ih hinner ctx.inCall hspares]
      _ = ((framed name params vs inner).run ev ctx s).mapEnv (Env.put · z b) :=
          (Outcome.mapEnv_mapEnv_comm fun left => Env.put_restore hparams s.env left b).symm

end Plan

end Pseudocode
