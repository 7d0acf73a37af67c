import Pseudocode.Proofs.Acts.Rules
import Pseudocode.Proofs.Fuel
import Pseudocode.Proofs.Moments

/-!
The limit of the call depth is transparent.

A call checks the depth before anything else of it happens, and the error of a call that is refused
is final like any other. So a run under some limit is the same as the run under a greater limit, or
it is cut off where the other one goes on. `Cut` is this relation between the two outcomes. It is
carried through everything that outcomes are put together with, and through plans; what a run puts
out is never taken back, so a run that is cut off has put out the beginning of what the other one
puts out.

The depth itself grows by one in a frame and nowhere else. An argument is evaluated at the depth of
its caller, however many calls are nested in it.

Main result: `depth_limit_transparent`.
-/

namespace Pseudocode

open Eval

/-! ### What is put out -/

/-- The values put out according to a log, the earliest first. -/
def emissions (log : List Event) : List Value := log.reverse.filterMap Event.emission?

/-- The values put out, if the evaluation ends or exhausts the stack. -/
def Outcome.emissions? (o : Outcome) : Option (List Value) := o.log?.map emissions

theorem emissions_note {e : Event} (h : e.emission? = none) (ctx : Context) (s : State) :
    emissions (s.note ctx e).log = emissions s.log := by
  unfold State.note
  split
  · simp [emissions, h]
  · rfl

theorem emissions_landmarks (log : List Event) : emissions (landmarks log) = emissions log := by
  rw [emissions, landmarks, ← List.filter_reverse, List.filterMap_filter]
  congr 1
  funext e
  cases e <;> rfl

/-- What has been put out is not taken back. -/
theorem emissions_prefix_of_run {fuel : Nat} {plan : Plan} {ctx : Context} {s : State}
    {log : List Event} (h : (plan.run (eval fuel) ctx s).log? = some log) :
    emissions s.log <+: emissions log := by
  rw [← emissions_landmarks s.log, ← emissions_landmarks log,
    Plan.landmarks_run (landmarks_of_eval fuel) h]
  simp [emissions]

namespace Outcome

@[simp] theorem emissions?_mapEnv (o : Outcome) (g : Env → Env) :
    (o.mapEnv g).emissions? = o.emissions? := by
  rw [emissions?, emissions?, log?_mapEnv]

@[simp] theorem emissions?_caught (o : Outcome) (fault : Fault) (env : Env) :
    (o.caught fault env).emissions? = o.emissions? := by
  rw [emissions?, emissions?, log?_caught]

theorem emissions?_noted (o : Outcome) (ctx : Context) {e : Value → Event}
    (he : ∀ v, (e v).emission? = none) : (o.noted ctx e).emissions? = o.emissions? := by
  rcases o with ⟨v, s⟩ | log | -
  · exact congrArg some (emissions_note (he v) ctx s)
  · rfl
  · rfl

/-! ### Runs that are cut off -/

/-- The two outcomes are the same, or the first one is the error of a limit, and what it has put out
is the beginning of what the second one puts out. -/
def Cut (limit : Int) (o o' : Outcome) : Prop :=
  o' = o ∨ (∃ name s, o = .done (.error (.depthExceeded limit name)) s)
    ∧ ∀ out out', o.emissions? = some out → o'.emissions? = some out' → out <+: out'

variable {limit : Int} {o o' : Outcome}

theorem Cut.refl (o : Outcome) : o.Cut limit o := .inl rfl

/-- What changes neither the errors nor what is put out. -/
theorem Cut.map (h : o.Cut limit o') {g : Outcome → Outcome}
    (hout : ∀ o, (g o).emissions? = o.emissions?)
    (herror : ∀ fault s, ∃ s', g (.done (.error fault) s) = .done (.error fault) s') :
    (g o).Cut limit (g o') := by
  obtain rfl | ⟨⟨name, s, rfl⟩, hstart⟩ := h
  · exact .refl _
  · obtain ⟨s', hs'⟩ := herror (.depthExceeded limit name) s
    refine .inr ⟨⟨name, s', hs'⟩, ?_⟩
    rw [hout, hout]
    exact hstart

theorem Cut.andThen (h : o.Cut limit o') {k k' : Value → State → Outcome}
    (hk : ∀ v s, (k v s).Cut limit (k' v s))
    (hgrow : ∀ v s out, (k' v s).emissions? = some out → emissions s.log <+: out) :
    (o.andThen k).Cut limit (o'.andThen k') := by
  obtain rfl | ⟨⟨name, s, rfl⟩, hstart⟩ := h
  · rcases o' with ⟨v, s⟩ | log | -
    · rcases hv : v.isError with - | -
      · rw [andThen_done_of_not_isError hv, andThen_done_of_not_isError hv]
        exact hk v s
      · obtain ⟨fault, rfl⟩ := Value.isError_iff.mp hv
        exact .refl _
    · exact .refl _
    · exact .refl _
  · refine .inr ⟨⟨name, s, rfl⟩, fun out out' hout hout' => ?_⟩
    -- with the smaller limit the run has stopped; with the greater one it may have gone on
    by_cases hgo : o'.Succeeds
    · obtain ⟨v, t, rfl, hv⟩ := hgo
      rw [andThen_done_of_not_isError hv] at hout'
      exact (hstart out _ hout rfl).trans (hgrow v t out' hout')
    · rw [emissions?, log?_andThen_of_not_succeeds hgo] at hout'
      exact hstart out out' hout hout'

end Outcome

/-! ### Plans under two limits -/

section

variable {ctx : Context} {n : Node} {s : State} {limit : Int}

/-- A plan under two limits, if its parts are cut off at most. -/
theorem Plan.cut_run {fuel : Nat} {plan : Plan}
    (hev : ∀ ctx n s, ctx.limit ≤ limit →
      (eval fuel ctx n s).Cut ctx.limit (eval fuel { ctx with limit := limit } n s))
    (hlimit : ctx.limit ≤ limit) :
    (plan.run (eval fuel) ctx s).Cut ctx.limit
      (plan.run (eval fuel) { ctx with limit := limit } s) := by
  induction plan generalizing ctx s with
  | finish v => exact .refl _
  | unfinished => exact .refl _
  | look k ih => exact ih s.env hlimit
  | note e remark next ih => exact ih hlimit
  | emit v next ih => exact ih hlimit
  | bind name b next ih => exact ih hlimit
  | ask effects m k ih =>
    rw [run_ask, run_ask]
    refine Outcome.Cut.andThen ?_ (fun v t => ih v hlimit) fun v t out h => ?_
    · exact (hev ctx m s hlimit).map (fun o => o.emissions?_mapEnv _) fun fault t => ⟨_, rfl⟩
    · obtain ⟨log, hlog, rfl⟩ := Option.map_eq_some_iff.mp h
      exact emissions_prefix_of_run hlog
  | askReturn name m =>
    exact (hev ctx m s hlimit).map (g := Outcome.noted ctx (.returned name))
      (fun o => o.emissions?_noted ctx fun _ => rfl) fun fault t => ⟨_, rfl⟩
  | guarded name inner ih =>
    by_cases hdepth : ctx.limit ≤ ctx.depth
    · -- refused here; the other run has put out the same so far
      have hrefused : (guarded name inner).run (eval fuel) ctx s
          = .done (.error (.depthExceeded ctx.limit name)) s :=
        run_guarded_of_le name inner hdepth
      refine .inr ⟨⟨name, s, hrefused⟩, fun out out' hout hout' => ?_⟩
      rw [hrefused] at hout
      obtain rfl := Option.some.inj hout
      obtain ⟨log, hlog, rfl⟩ := Option.map_eq_some_iff.mp hout'
      exact emissions_prefix_of_run hlog
    · have hdepth' : ¬ limit ≤ ctx.depth := by omega
      rw [run_guarded_of_not_le _ _ hdepth, run_guarded_of_not_le _ _ hdepth']
      exact (ih hlimit).map (fun o => o.emissions?_caught _ _) fun fault t => ⟨_, rfl⟩
  | framed name params vs inner ih =>
    have hinner : ctx.inCall.limit ≤ limit := hlimit
    exact (ih hinner).map (g := Outcome.mapEnv fun env => Env.restore s.env env params)
      (fun o => o.emissions?_mapEnv _) fun fault t => ⟨_, rfl⟩

/-- Going down to a node does not look at the limit. -/
theorem Context.descend?_limit (ctx : Context) (limit : Int) :
    ({ ctx with limit := limit } : Context).descend?
      = ctx.descend?.map fun inner => { inner with limit := limit } := by
  obtain ⟨tracing, limit', depth, room⟩ := ctx
  rcases room with - | (- | r) <;> rfl

/-- An evaluation under two limits is the same, or is cut off under the lower one. -/
theorem cut_eval (fuel : Nat) (ctx : Context) (n : Node) (s : State) (hlimit : ctx.limit ≤ limit) :
    (eval fuel ctx n s).Cut ctx.limit (eval fuel { ctx with limit := limit } n s) := by
  induction fuel generalizing ctx n s with
  | zero => exact .refl _
  | succ fuel ih =>
    -- both sides have the same room, so both go down to the parts or neither does
    have hdescend := ctx.descend?_limit limit
    rcases hroom : ctx.descend? with - | inner
    · rw [hroom] at hdescend
      rw [eval_of_no_room hroom, eval_of_no_room hdescend]
      exact .refl _
    · rw [hroom] at hdescend
      rw [eval_of_descend hroom, eval_of_descend hdescend]
      obtain ⟨room, rfl⟩ := Context.eq_of_descend? hroom
      have hinner : ({ ctx with room := room } : Context).limit ≤ limit := hlimit
      exact (Plan.cut_run ih hinner).map (g := Outcome.noted ctx .completed)
        (fun o => o.emissions?_noted ctx fun _ => rfl) fun fault t => ⟨_, rfl⟩

end

/-! ### Depths -/

/-- How the depth of a part is related to the depth of the node that has it evaluated. -/
inductive Eval.Depth : Point → Point → Prop
  /-- A part of a node, as an argument of a call, is evaluated at the depth of the node. -/
  | part {p q : Point} : p.node.Performs q.node ∨ Part p.node q.node →
      q.ctx.depth = p.ctx.depth → Depth p q
  /-- The body and the return expression of a subroutine are evaluated one call deeper than the
  call, if that is still within the limit. -/
  | frame {p q : Point} {name params tree ret} : p.node.kind = .call →
      p.node.text? "name" = some name →
      p.state.env[name]? = some (.subroutine params tree ret) →
      tree = some q.node ∨ ret = some q.node → p.ctx.depth < p.ctx.limit →
      q.ctx.depth = p.ctx.depth + 1 → Depth p q

variable {fuel : Nat} {p q : Point}

/-- A part is at the depth of its node, or at the next one inside a frame. -/
theorem depth_of_consults (h : Consults fuel p q) :
    Eval.Depth p q ∧ q.ctx.limit = p.ctx.limit := by
  obtain ⟨inner, exit, hroom, h⟩ := h
  obtain ⟨room, rfl⟩ := Context.eq_of_descend? hroom
  have hdoes : Does { p.ctx with room := room } p.node p.entry (.part q exit) := does_of_mem_acts h
  cases hdoes with
  | part hcall hargs hm => exact ⟨.part (.inl hm) rfl, rfl⟩
  | argument hk hm _ => exact ⟨.part (.inr hm) rfl, rfl⟩
  | frame hk hname hbind hm hdepth =>
    rw [p.env_entry] at hbind
    exact ⟨.frame hk hname hbind hm hdepth rfl, rfl⟩

/-- No node is evaluated deeper than the limit, unless the start was there already. -/
theorem depth_le_of_started (h : .started q ∈ moments fuel p) :
    q.ctx.depth ≤ max p.ctx.depth p.ctx.limit := by
  induction fuel generalizing p with
  | zero => cases h
  | succ fuel ih =>
    obtain rfl | ⟨r, hr, h⟩ := eq_or_consults_of_started h
    · omega
    · have hq : q.ctx.depth ≤ max r.ctx.depth r.ctx.limit := ih h
      obtain ⟨hdepth, hlimit⟩ := depth_of_consults hr
      cases hdepth with
      | part _ heq => omega
      | frame _ _ _ _ hlt heq => omega

/-- **The depth limit is transparent.** Under a limit, no node is evaluated at a depth beyond the
limit and the depth at the start. An evaluation that ends with anything but the error of the limit
ends in the same way under every greater limit, with the same value, environment and events. If both
evaluations end, the one under the lower limit has put out the beginning of what the other one has
put out. Of the things that a call has evaluated, the arguments are at the depth of the call, and the
body and the return expression one deeper. -/
theorem depth_limit_transparent {ctx : Context} {limit : Int} (hlimit : ctx.limit ≤ limit)
    (n : Node) (s : State) :
    (∀ fuel q, .started q ∈ moments fuel ⟨ctx, n, s⟩ → q.ctx.depth ≤ max ctx.depth ctx.limit)
      ∧ (∀ fuel v t, eval fuel ctx n s = .done v t →
        (∀ name, v ≠ .error (.depthExceeded ctx.limit name)) →
        eval fuel { ctx with limit := limit } n s = .done v t)
      ∧ (∀ fuel fuel' v v' t t', eval fuel ctx n s = .done v t →
        eval fuel' { ctx with limit := limit } n s = .done v' t' →
        emissions t.log <+: emissions t'.log)
      ∧ ∀ fuel p q, Consults fuel p q → Eval.Depth p q := by
  refine ⟨fun fuel q => depth_le_of_started, ?_, ?_, fun fuel p q h => (depth_of_consults h).1⟩
  · intro fuel v t h hv
    obtain heq | ⟨⟨name, u, hcut⟩, -⟩ := cut_eval fuel ctx n s hlimit
    · rw [heq, h]
    · rw [h] at hcut
      cases hcut
      exact absurd rfl (hv name)
  · intro fuel fuel' v v' t t' h h'
    -- with enough steps for both
    have hmax : eval (max fuel fuel') ctx n s = .done v t := eval_eq_of_done h (Nat.le_max_left ..)
    have hmax' : eval (max fuel fuel') { ctx with limit := limit } n s = .done v' t' :=
      eval_eq_of_done h' (Nat.le_max_right ..)
    obtain heq | ⟨-, hstart⟩ := cut_eval (max fuel fuel') ctx n s hlimit
    · rw [hmax, hmax'] at heq
      cases heq
      exact List.prefix_rfl
    · rw [hmax, hmax'] at hstart
      exact hstart _ _ rfl rfl

/-- A subroutine `f` that returns its argument, and a subroutine `r` that puts out a value and calls
itself. -/
def nestingEnv : Env :=
  (∅ : Env).insert "f" (.subroutine ["x"] none (some (.reference "x")))
    |>.insert "r" (.subroutine [] (some (.sequence (.output (.boolean "True")) (.call "r" []))) none)

/-- With a limit of one, `f` can be called on the result of `f`, and `r` is cut off at its first call
of itself. -/
theorem depth_limit_transparent_nested :
    (∃ t, eval 12 ⟨false, 1, 0, none⟩ (.call "f" [.call "f" [.boolean "True"]]) ⟨nestingEnv, []⟩
        = .done (.bool true) t
      ∧ eval 12 ⟨false, 3, 0, none⟩ (.call "f" [.call "f" [.boolean "True"]]) ⟨nestingEnv, []⟩
        = .done (.bool true) t)
    ∧ ∃ t t', eval 12 ⟨false, 1, 0, none⟩ (.call "r" []) ⟨nestingEnv, []⟩
        = .done (.error (.depthExceeded 1 "r")) t
      ∧ eval 12 ⟨false, 3, 0, none⟩ (.call "r" []) ⟨nestingEnv, []⟩
        = .done (.error (.depthExceeded 3 "r")) t'
      ∧ emissions t.log = [.bool true] ∧ (emissions t'.log).length = 3
      ∧ emissions t.log <+: emissions t'.log := by
  obtain ⟨t, ht⟩ : ∃ t, eval 12 ⟨false, 1, 0, none⟩ (.call "f" [.call "f" [.boolean "True"]])
      ⟨nestingEnv, []⟩ = .done (.bool true) t := ⟨_, rfl⟩
  have hle : (⟨false, 1, 0, none⟩ : Context).limit ≤ 3 := by decide
  obtain ⟨-, hsame, -, -⟩ := depth_limit_transparent hle
    (.call "f" [.call "f" [.boolean "True"]]) ⟨nestingEnv, []⟩
  -- a subroutine without end runs into either limit, sooner and later
  obtain ⟨u, u', hu, hu', hone, hthree⟩ : ∃ u u',
      eval 12 ⟨false, 1, 0, none⟩ (.call "r" []) ⟨nestingEnv, []⟩
        = .done (.error (.depthExceeded 1 "r")) u
      ∧ eval 12 ⟨false, 3, 0, none⟩ (.call "r" []) ⟨nestingEnv, []⟩
        = .done (.error (.depthExceeded 3 "r")) u'
      ∧ emissions u.log = [.bool true] ∧ (emissions u'.log).length = 3 :=
    ⟨_, _, rfl, rfl, rfl, rfl⟩
  obtain ⟨-, -, hstart, -⟩ := depth_limit_transparent hle (.call "r" []) ⟨nestingEnv, []⟩
  exact ⟨⟨t, ht, hsame 12 _ t ht nofun⟩, u, u', hu, hu', hone, hthree,
    hstart 12 12 _ _ u u' hu hu'⟩

end Pseudocode
