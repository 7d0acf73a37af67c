import Pseudocode.Proofs.Unmentioned.Rules

/-!
Runs and the names that they do not mention.

A call copies the whole environment of its caller into a frame, and at its end the environment is
put together again from the frame and the caller. So a name that a program never mentions goes
through every frame. It comes out of all of them with the binding that it had, and makes no
difference on the way.

Main results: evaluation commutes with giving a binding to a name that is not mentioned
(`eval_put`), so the binding makes no difference (`unmentioned_name_inert`).
-/

namespace Pseudocode

/-! ### Evaluations -/

/-- Evaluation commutes with giving a binding to a name that is mentioned neither in the tree nor in
the environment. -/
theorem eval_put {z : String} {n : Node} (hn : z ∉ n.names) {s : State} (hs : s.env.Spares z)
    (fuel : Nat) (ctx : Context) (b : Option Binding) :
    eval fuel ctx n (s.put z b) = (eval fuel ctx n s).mapEnv (Env.put · z b) := by
  induction fuel generalizing ctx n s with
  | zero => rfl
  | succ fuel ih =>
    rcases hroom : ctx.descend? with - | inner
    · rw [eval_of_no_room hroom, eval_of_no_room hroom]
      rfl
    · -- the parts take one step less; that they leave `z` unmentioned is the contract
      have hev : Plan.Commutes z b (eval fuel) := fun ctx m s hm hs =>
        ⟨ih hm hs ctx, fun v t h => ((Contract.sparing_sound z).eval hm hs h).keeps⟩
      have hentry : (s.note ctx (.started n.kind)).env.Spares z := by rwa [State.env_note]
      rw [eval_of_descend hroom, eval_of_descend hroom, Outcome.mapEnv_noted, ← State.put_note,
        Plan.run_put hev (Plan.spares_ofNode hn fuel) inner hentry]

/-- A guarded run commutes with the change as well. -/
theorem evalGuarded_put {z : String} {n : Node} (hn : z ∉ n.names) {s : State}
    (hs : s.env.Spares z) (fuel : Nat) (ctx : Context) (b : Option Binding) :
    evalGuarded fuel ctx n (s.put z b) = (evalGuarded fuel ctx n s).mapEnv (Env.put · z b) := by
  rw [evalGuarded, evalGuarded, eval_put hn hs, Outcome.mapEnv_caught]
  rfl

/-- Two outcomes that differ in the binding of one name only: the first one leaves the name without
a binding, and the second one with the given one. -/
inductive Outcome.SameBut (z : String) (b : Option Binding) : Outcome → Outcome → Prop
  | done {v : Value} {s t : State} : t.log = s.log → s.env[z]? = none → t.env[z]? = b →
      (∀ x, x ≠ z → t.env[x]? = s.env[x]?) → SameBut z b (.done v s) (.done v t)
  | overflow {log : List Event} : SameBut z b (.overflow log) (.overflow log)
  | unfinished : SameBut z b .unfinished .unfinished

/-- Of two outcomes that differ only in a name, one is done if the other is. -/
theorem Outcome.SameBut.ends_iff {z : String} {b : Option Binding} {o o' : Outcome}
    (h : o.SameBut z b o') : (∃ v t, o' = .done v t) ↔ ∃ v t, o = .done v t := by
  cases h <;> simp

/-- What commutes with giving the name a binding differs in that binding only. -/
theorem Outcome.sameBut_of_put {z : String} {f : State → Outcome} {s : State}
    (habsent : s.env[z]? = none) (hf : ∀ b, f (s.put z b) = (f s).mapEnv (Env.put · z b))
    (b : Option Binding) : (f s).SameBut z b (f (s.put z b)) := by
  have hself : s.put z none = s := by
    have henv : s.env.put z none = s.env := by
      apply Std.ExtTreeMap.ext_getElem?
      intro x
      rw [Env.getElem?_put]
      split
      · rename_i hx
        rw [hx, habsent]
      · rfl
    rw [State.put, henv]
  have hnone := hf none
  rw [hself] at hnone
  rw [hf b]
  rcases hout : f s with ⟨v, t⟩ | log | -
  · -- taking the binding away changes nothing, so there is none
    rw [hout, mapEnv] at hnone
    have henv : t.env = t.env.put z none := congrArg State.env (Outcome.done.inj hnone).2
    refine .done rfl ?_ ?_ fun x hx => ?_
    · rw [henv, Env.getElem?_put, if_pos rfl]
    · rw [Env.getElem?_put, if_pos rfl]
    · rw [Env.getElem?_put_of_ne hx]
  · exact .overflow
  · exact .unfinished

/-- **A name that is not mentioned makes no difference.** Let `z` occur neither in the tree nor in a
parameter list, a body or a return expression of a subroutine with another name. Then whatever `z`
is bound to, the evaluation ends if and only if it does so with `z` unbound, with the same value and
the same events, and all names but `z` have the same bindings then. With `z` unbound it stays
unbound, and otherwise it keeps its binding. -/
theorem unmentioned_name_inert {z : String} {n : Node} {env : Env} (hn : z ∉ n.names)
    (henv : ∀ (x : String) (a : Binding), x ≠ z → env[x]? = some a → a.Spares z)
    (b : Option Binding) (ctx : Context) (log : List Event) :
    (∀ fuel, (eval fuel ctx n ⟨env.erase z, log⟩).SameBut z b
        (eval fuel ctx n ⟨env.put z b, log⟩))
      ∧ (∀ fuel, (evalGuarded fuel ctx n ⟨env.erase z, log⟩).SameBut z b
        (evalGuarded fuel ctx n ⟨env.put z b, log⟩))
      ∧ ((∃ fuel v t, evalGuarded fuel ctx n ⟨env.put z b, log⟩ = .done v t)
        ↔ ∃ fuel v t, evalGuarded fuel ctx n ⟨env.erase z, log⟩ = .done v t) := by
  -- both evaluations are compared with the one that starts without `z`
  let start : State := ⟨env.erase z, log⟩
  have habsent : start.env[z]? = none := by simp [start]
  have hspares : start.env.Spares z := by
    intro x a hx
    have hx' : (env.put z none)[x]? = some a := hx
    rw [Env.getElem?_put] at hx'
    split at hx'
    · cases hx'
    · exact henv x a ‹_› hx'
  have hput : (⟨env.put z b, log⟩ : State) = start.put z b :=
    congrArg (State.mk · log) (env.put_put none b).symm
  have hguarded : ∀ fuel, (evalGuarded fuel ctx n start).SameBut z b
      (evalGuarded fuel ctx n (start.put z b)) := fun fuel =>
    Outcome.sameBut_of_put habsent (evalGuarded_put hn hspares fuel ctx) b
  rw [hput]
  refine ⟨fun fuel => ?_, hguarded, ?_⟩
  · exact Outcome.sameBut_of_put habsent (eval_put hn hspares fuel ctx) b
  · exact exists_congr fun fuel => (hguarded fuel).ends_iff

/-- A subroutine `f` that, called on a true value, puts it out, assigns it to `u` and calls itself.
-/
def recursiveEnv : Env :=
  (∅ : Env).insert "f" (.subroutine ["p"]
    (some (.conditional (.reference "p")
      (.sequence (.assignment "u" false (.output (.reference "p"))) (.call "f" [.boolean "False"]))
      none))
    (some (.reference "p")))

/-- A subroutine `z` that mentions itself goes through both calls of `f`. -/
theorem unmentioned_name_inert_recursive :
    "z" ∉ (Node.call "f" [.boolean "True"]).names
      ∧ (∀ (x : String) (a : Binding), x ≠ "z" → recursiveEnv[x]? = some a → a.Spares "z")
      ∧ ∃ s t, evalGuarded 12 ⟨true, 50, 0, none⟩ (.call "f" [.boolean "True"])
          ⟨recursiveEnv.erase "z", []⟩ = .done (.bool true) s
        ∧ evalGuarded 12 ⟨true, 50, 0, none⟩ (.call "f" [.boolean "True"])
          ⟨recursiveEnv.put "z" (some (.subroutine ["z"] (some (.reference "z")) none)), []⟩
          = .done (.bool true) t
        ∧ t.log = s.log ∧ s.env["u"]? = some (.variable (.bool true) false)
        ∧ t.env["u"]? = some (.variable (.bool true) false)
        ∧ t.env["z"]? = some (.subroutine ["z"] (some (.reference "z")) none) := by
  have hn : "z" ∉ (Node.call "f" [.boolean "True"]).names := by decide
  have hspares : recursiveEnv.Spares "z" := by
    refine Env.Spares.insert ?_ "f" ⟨by decide, ?_⟩
    · intro x a hx
      cases hx
    · rintro m (hm | hm)
      · obtain rfl := Option.some.inj hm
        decide
      · obtain rfl := Option.some.inj hm
        decide
  have henv : ∀ (x : String) (a : Binding), x ≠ "z" → recursiveEnv[x]? = some a → a.Spares "z" :=
    fun x a _ hx => hspares x a hx
  obtain ⟨s, hrun, hu⟩ : ∃ s, evalGuarded 12 ⟨true, 50, 0, none⟩ (.call "f" [.boolean "True"])
      ⟨recursiveEnv.erase "z", []⟩ = .done (.bool true) s
        ∧ s.env["u"]? = some (.variable (.bool true) false) := ⟨_, rfl, rfl⟩
  -- with the name unbound the run is known, and with a binding for it the run is the same
  have hsame := (unmentioned_name_inert hn henv
    (some (.subroutine ["z"] (some (.reference "z")) none)) ⟨true, 50, 0, none⟩ []).2.1 12
  rw [hrun] at hsame
  generalize hout : evalGuarded 12 ⟨true, 50, 0, none⟩ (.call "f" [.boolean "True"])
    ⟨recursiveEnv.put "z" (some (.subroutine ["z"] (some (.reference "z")) none)), []⟩ = o at hsame
  cases hsame with
  | @done _ _ t hlog _ hz hother =>
    exact ⟨hn, henv, s, t, hrun, rfl, hlog, hu, (hother "u" (by decide)).trans hu, hz⟩

end Pseudocode
