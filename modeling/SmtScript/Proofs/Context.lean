import Mathlib.Algebra.GroupWithZero.Nat
import SmtScript.Proofs.Session.Running

/-!
What a solver context keeps count of.

A context and a model are used again and again, and each use may fail. `Past` lists the uses with
what came of them, newest first; symbols may be made between them. From such a list one can tell
how many scopes are open and which answer is in force, without looking at the context: this is what
`Context.Keeps` compares. A use consults the solver if what comes of it depends on what the solver
does, `Consults`.
-/

namespace SmtScript

open Solver Step

variable {σ μ α β : Type}

/-- The uses of a thing so far with what came of them, newest first, and how they leave it. -/
inductive Past {υ γ : Type} (step : υ → ExceptT Error (StateM (γ × SymbolTable)) α) (start : γ) :
    List (υ × Except Error α) → γ → Prop
  | none : Past step start [] start
  | next {past : List (υ × Except Error α)} {state state' : γ} {r : Except Error α}
      {table' : SymbolTable} (h : Past step start past state) (use : υ) (table : SymbolTable)
      (hrun : (step use).run (state, table) = (r, state', table')) :
      Past step start ((use, r) :: past) state'

/-- Whether it depends on the solver what comes of a step. -/
def Consults {γ : Type} (step : Solver σ μ → ExceptT Error (StateM (γ × SymbolTable)) α)
    (p : γ × SymbolTable) : Prop :=
  ∃ one other : Solver σ μ, (step one).run p ≠ (step other).run p

theorem not_consults {γ : Type} {step : Solver σ μ → ExceptT Error (StateM (γ × SymbolTable)) α}
    {p : γ × SymbolTable} {result : Except Error α × γ × SymbolTable}
    (h : ∀ solver, (step solver).run p = result) : ¬Consults step p := by
  rintro ⟨one, other, hne⟩
  exact hne ((h one).trans (h other).symm)

/-- Whether an error is the one for a context or a model that is not there any more. -/
def Error.SaysReleased (e : Error) : Prop :=
  ∃ report, e.report = some report ∧ report.code = FaultCode.released.text

theorem Error.saysReleased_context : Error.contextReleased.SaysReleased := ⟨_, rfl, rfl⟩

theorem Error.saysReleased_model : Error.modelReleased.SaysReleased := ⟨_, rfl, rfl⟩

namespace Context

/-- What a context is asked to do. -/
inductive Use where
  | add (t : Term)
  | push (levels : Nat)
  | pop (levels : Nat)
  | reset
  | check (assumptions : List Term)
  | model
  | core
  | close

/-- What a context gives back. -/
inductive Gain (μ : Type) where
  | nothing
  | status (status : CheckStatus)
  | model (model : μ)
  | core (ts : List Term)

def Use.step [Solver σ μ] : Use → ContextStep σ (Gain μ)
  | .add t => do Context.add t; return .nothing
  | .push levels => do Context.push levels; return .nothing
  | .pop levels => do Context.pop levels; return .nothing
  | .reset => do Context.reset; return .nothing
  | .check assumptions => do return .status (← Context.check assumptions)
  | .model => do return .model (← Context.model)
  | .core => do return .core (← Context.core)
  | .close => do Context.change Context.close; return .nothing

/-! ### What can be told from the uses -/

/-- A use with what came of it. -/
abbrev Event (μ : Type) := Use × Except Error (Gain μ)

/-- Whether a use succeeded after which an earlier answer is not in force any more. -/
def Settles : Event μ → Prop
  | (.add _, .ok _) | (.push _, .ok _) | (.pop _, .ok _) | (.reset, .ok _) => True
  | (.check _, .ok _) => True
  | _ => False

/-- Whether a check gave this answer, and nothing that succeeded later has superseded it. -/
def InForce (past : List (Event μ)) (status : CheckStatus) : Prop :=
  ∃ later assumptions earlier,
    past = later ++ (.check assumptions, .ok (.status status)) :: earlier ∧
      ∀ event ∈ later, ¬Settles event

/-- Whether a use is not a successful reset. -/
def isNoReset : Event μ → Bool
  | (.reset, .ok _) => false
  | _ => true

def levelsPushed : Event μ → Nat
  | (.push levels, .ok _) => levels
  | _ => 0

def levelsPopped : Event μ → Nat
  | (.pop levels, .ok _) => levels
  | _ => 0

/-- The levels opened since the last reset. -/
def pushed (past : List (Event μ)) : Nat := ((past.takeWhile isNoReset).map levelsPushed).sum

/-- The levels closed since the last reset. -/
def popped (past : List (Event μ)) : Nat := ((past.takeWhile isNoReset).map levelsPopped).sum

theorem pushed_cons {event : Event μ} (h : isNoReset event = true) (past : List (Event μ)) :
    pushed (event :: past) = levelsPushed event + pushed past := by
  rw [pushed, List.takeWhile_cons_of_pos h, List.map_cons, List.sum_cons, pushed]

theorem popped_cons {event : Event μ} (h : isNoReset event = true) (past : List (Event μ)) :
    popped (event :: past) = levelsPopped event + popped past := by
  rw [popped, List.takeWhile_cons_of_pos h, List.map_cons, List.sum_cons, popped]

theorem pushed_reset (gain : Gain μ) (past : List (Event μ)) :
    pushed ((.reset, .ok gain) :: past) = 0 := rfl

theorem popped_reset (gain : Gain μ) (past : List (Event μ)) :
    popped ((.reset, .ok gain) :: past) = 0 := rfl

/-- What does not settle anything leaves the answer that is in force. -/
theorem inForce_cons_of_not {event : Event μ} (h : ¬Settles event) (past : List (Event μ))
    (status : CheckStatus) : InForce (event :: past) status ↔ InForce past status := by
  constructor
  · rintro ⟨later, assumptions, earlier, hpast, hlater⟩
    cases later with
    | nil =>
      obtain ⟨rfl, _⟩ := List.cons.inj hpast
      exact absurd trivial h
    | cons first later =>
      obtain ⟨rfl, rfl⟩ := List.cons.inj hpast
      exact ⟨later, assumptions, earlier, rfl, fun e he => hlater e (List.mem_cons_of_mem _ he)⟩
  · rintro ⟨later, assumptions, earlier, rfl, hlater⟩
    refine ⟨event :: later, assumptions, earlier, rfl, fun e he => ?_⟩
    rcases List.mem_cons.mp he with rfl | he
    · exact h
    · exact hlater e he

/-- After something that settles, only what it answers itself is in force. -/
theorem inForce_cons_of_settles {event : Event μ} (h : Settles event) (past : List (Event μ))
    (status : CheckStatus) : InForce (event :: past) status ↔
      ∃ assumptions, event = (.check assumptions, .ok (.status status)) := by
  constructor
  · rintro ⟨later, assumptions, earlier, hpast, hlater⟩
    cases later with
    | nil => exact ⟨assumptions, (List.cons.inj hpast).1⟩
    | cons first later =>
      obtain ⟨rfl, _⟩ := List.cons.inj hpast
      exact absurd h (hlater _ List.mem_cons_self)
  · rintro ⟨assumptions, rfl⟩
    exact ⟨[], assumptions, past, rfl, List.forall_mem_nil _⟩

theorem not_inForce_nil (status : CheckStatus) : ¬InForce ([] : List (Event μ)) status := by
  rintro ⟨later, _, _, hpast, _⟩
  cases later <;> cases hpast

/-! ### What a context shows of its uses -/

/-- What a use does to the count of scopes and to the remembered answer. -/
inductive Moves : Event μ → Context σ → Context σ → Prop
  | failed {use : Use} (e : Error) {solver solver' : Option σ} {depth : Nat}
      {last : Option CheckStatus} (hclose : use ≠ .close) (h : solver'.isNone = solver.isNone) :
      Moves (use, .error e) ⟨solver, depth, last⟩ ⟨solver', depth, last⟩
  | added (t : Term) (gain : Gain μ) {solver solver' : σ} {depth : Nat}
      {last : Option CheckStatus} :
      Moves (.add t, .ok gain) ⟨some solver, depth, last⟩ ⟨some solver', depth, none⟩
  | pushed (levels : Nat) (gain : Gain μ) {solver solver' : σ} {depth : Nat}
      {last : Option CheckStatus} :
      Moves (.push levels, .ok gain) ⟨some solver, depth, last⟩
        ⟨some solver', depth + levels, none⟩
  | popped {levels : Nat} (gain : Gain μ) {solver solver' : σ} {depth : Nat}
      {last : Option CheckStatus} (h : levels < depth) :
      Moves (.pop levels, .ok gain) ⟨some solver, depth, last⟩
        ⟨some solver', depth - levels, none⟩
  | reset (gain : Gain μ) {solver solver' : σ} {depth : Nat} {last : Option CheckStatus} :
      Moves (.reset, .ok gain) ⟨some solver, depth, last⟩ ⟨some solver', 1, none⟩
  | checked (assumptions : List Term) (status : CheckStatus) {solver solver' : σ} {depth : Nat}
      {last : Option CheckStatus} :
      Moves (.check assumptions, .ok (.status status)) ⟨some solver, depth, last⟩
        ⟨some solver', depth, some status⟩
  | model (gain : Gain μ) {solver solver' : σ} {depth : Nat} {last : Option CheckStatus} :
      Moves (.model, .ok gain) ⟨some solver, depth, last⟩ ⟨some solver', depth, last⟩
  | core (gain : Gain μ) {solver solver' : σ} {depth : Nat} {last : Option CheckStatus} :
      Moves (.core, .ok gain) ⟨some solver, depth, last⟩ ⟨some solver', depth, last⟩
  | closed (gain : Gain μ) {solver : Option σ} {depth : Nat} {last : Option CheckStatus} :
      Moves (.close, .ok gain) ⟨solver, depth, last⟩ ⟨none, depth, last⟩

/-- What a context shows of the uses so far. -/
structure Keeps (past : List (Event μ)) (context : Context σ) : Prop where
  depth_pos : 1 ≤ context.depth
  depth_eq : context.depth + popped past = 1 + pushed past
  last_eq : ∀ status, context.last = some status ↔ InForce past status
  closed_iff : context.isClosed = true ↔ ∃ r, (.close, r) ∈ past

section Keeps

variable {context context' : Context σ} {past : List (Event μ)} {use : Use}
  {r : Except Error (Gain μ)}

theorem keeps_ofSolver (solver : σ) : Keeps ([] : List (Event μ)) (ofSolver solver) where
  depth_pos := Nat.le_refl 1
  depth_eq := rfl
  last_eq status := ⟨nofun, fun h => absurd h (not_inForce_nil status)⟩
  closed_iff := ⟨nofun, nofun⟩

theorem close_mem_cons : (∃ r', (Use.close, r') ∈ (use, r) :: past) ↔
    use = .close ∨ ∃ r', (Use.close, r') ∈ past := by
  constructor
  · rintro ⟨r', hr⟩
    rcases List.mem_cons.mp hr with heq | hr
    · exact .inl (Prod.mk.inj heq).1.symm
    · exact .inr ⟨r', hr⟩
  · rintro (rfl | ⟨r', hr⟩)
    · exact ⟨r, List.mem_cons_self⟩
    · exact ⟨r', List.mem_cons_of_mem _ hr⟩

/-- A use that leaves the count and the answer in force. -/
theorem Keeps.passed (h : Keeps past context)
    (hsettles : ¬Settles (use, r)) (hreset : isNoReset (use, r) = true)
    (hpushed : levelsPushed (use, r) = 0) (hpopped : levelsPopped (use, r) = 0)
    (hdepth : context'.depth = context.depth) (hlast : context'.last = context.last)
    (hclosed : context'.isClosed = true ↔ use = .close ∨ context.isClosed = true) :
    Keeps ((use, r) :: past) context' where
  depth_pos := by
    rw [hdepth]
    exact h.depth_pos
  depth_eq := by
    have hcount := h.depth_eq
    rw [pushed_cons hreset, popped_cons hreset, hpushed, hpopped]
    omega
  last_eq status := by
    rw [inForce_cons_of_not hsettles, hlast]
    exact h.last_eq status
  closed_iff := by
    rw [close_mem_cons, hclosed, h.closed_iff]

/-- A use after which no answer is in force. -/
theorem Keeps.cleared (h : Keeps past context)
    (hcheck : ∀ assumptions, use ≠ .check assumptions) (hsettles : Settles (use, r))
    (hpos : 1 ≤ context'.depth)
    (hdepth : context'.depth + popped ((use, r) :: past) = 1 + pushed ((use, r) :: past))
    (hlast : context'.last = none)
    (hclosed : context'.isClosed = true ↔ use = .close ∨ context.isClosed = true) :
    Keeps ((use, r) :: past) context' where
  depth_pos := hpos
  depth_eq := hdepth
  last_eq status := by
    rw [hlast, inForce_cons_of_settles hsettles]
    constructor
    · nofun
    · rintro ⟨assumptions, heq⟩
      exact absurd (Prod.mk.inj heq).1 (hcheck assumptions)
  closed_iff := by
    rw [close_mem_cons, hclosed, h.closed_iff]

theorem Moves.keeps (h : Moves (use, r) context context') (hkeeps : Keeps past context) :
    Keeps ((use, r) :: past) context' := by
  have hpos := hkeeps.depth_pos
  have hdepth := hkeeps.depth_eq
  cases h with
  | failed e hclose hsame =>
    cases use with
    | close => exact absurd rfl hclose
    | _ => exact hkeeps.passed id rfl rfl rfl rfl rfl (by simp [isClosed, hsame])
  | added t gain =>
    refine hkeeps.cleared nofun trivial hpos ?_ rfl (by simp [isClosed])
    rw [pushed_cons rfl, popped_cons rfl]
    simpa [levelsPushed, levelsPopped] using hdepth
  | pushed levels gain =>
    refine hkeeps.cleared nofun trivial (Nat.le_add_right_of_le hpos) ?_ rfl (by simp [isClosed])
    rw [pushed_cons rfl, popped_cons rfl]
    simp only [levelsPushed, levelsPopped] at hdepth ⊢
    omega
  | popped gain hlt =>
    refine hkeeps.cleared nofun trivial (Nat.sub_pos_of_lt hlt) ?_ rfl (by simp [isClosed])
    rw [pushed_cons rfl, popped_cons rfl]
    simp only [levelsPushed, levelsPopped] at hdepth ⊢
    omega
  | reset gain =>
    refine hkeeps.cleared nofun trivial (Nat.le_refl 1) ?_ rfl (by simp [isClosed])
    rw [pushed_reset, popped_reset]
  | checked assumptions status =>
    refine ⟨hpos, ?_, fun status' => ?_, ?_⟩
    · rw [pushed_cons rfl, popped_cons rfl]
      simpa [levelsPushed, levelsPopped] using hdepth
    · have hsettles : Settles ((.check assumptions, .ok (.status status)) : Event μ) := trivial
      rw [inForce_cons_of_settles hsettles]
      simp
    · rw [close_mem_cons, ← hkeeps.closed_iff]
      simp [isClosed]
  | model gain => exact hkeeps.passed id rfl rfl rfl rfl rfl (by simp [isClosed])
  | core gain => exact hkeeps.passed id rfl rfl rfl rfl rfl (by simp [isClosed])
  | closed gain => exact hkeeps.passed id rfl rfl rfl rfl rfl (by simp [isClosed])

theorem Moves.of_error {e : Error} (h : Moves (use, (.error e : Except Error (Gain μ))) context
    context') : context'.depth = context.depth ∧ context'.last = context.last := by
  cases h
  exact ⟨rfl, rfl⟩

end Keeps

/-- Which answer the outcome of a call of the solver is. -/
def Means : CheckStatus → Except Fault Bool → Prop
  | .sat, .ok true | .unsat, .ok false => True
  | .unknown, .error f => f.code = .noAnswer
  | _, _ => False

theorem statusOf_eq_ok {assumptions : List Term} {outcome : Except Fault Bool}
    {status : CheckStatus} : statusOf assumptions outcome = .ok status ↔ Means status outcome := by
  rcases outcome with f | _ | _
  · by_cases hcode : f.code = .noAnswer <;> cases status <;> simp [statusOf, Means, hcode]
  · cases status <;> simp [statusOf, Means]
  · cases status <;> simp [statusOf, Means]

/-! ### One use -/

/-- A step that begins with a call of the solver fails there, or goes on with what it gives. -/
theorem run_call_bind (toError : Fault → Error) (call : SolverCall σ α) (k : α → ContextStep σ β)
    (context : Context σ) (table : SymbolTable) :
    (∃ e solver' table', solver'.isNone = context.solver.isNone ∧
      (Context.call toError call >>= k).run (context, table) =
        (.error e, { context with solver := solver' }, table')) ∨
    ∃ solver a solver' table', context.solver = some solver ∧
      call.run (solver, table) = (.ok a, solver', table') ∧
      (Context.call toError call >>= k).run (context, table) =
        (k a).run ({ context with solver := some solver' }, table') := by
  cases hsolver : context.solver with
  | none =>
    have hrun := run_bind_error (f := k) (run_call_none toError call hsolver table)
    exact .inl ⟨_, none, table, rfl, by rw [hrun, ← hsolver]⟩
  | some solver =>
    obtain ⟨⟨r, solver', table'⟩, hcall⟩ : ∃ p, call.run (solver, table) = p := ⟨_, rfl⟩
    have hrun := run_call toError hsolver hcall
    cases r with
    | error f => exact .inl ⟨toError f, some solver', table', rfl, run_bind_error hrun⟩
    | ok a => exact .inr ⟨solver, a, solver', table', rfl, hcall, run_bind_ok hrun⟩

/-- The solver is asked if its faults become errors of the step. -/
theorem consults_of_faults {step : Solver σ μ → ContextStep σ α} {p : Context σ × SymbolTable}
    (solvers : Fault → Solver σ μ)
    (h : ∀ f, (step (solvers f)).run p = (.error (.fault f none [] []), p)) : Consults step p := by
  refine ⟨solvers .broken, solvers .needsOwnModel, ?_⟩
  rw [h, h]
  nofun

section Step

variable [Solver σ μ] {context context' : Context σ} {table table' : SymbolTable}

theorem step_add (t : Term) : ((Use.add t).step : ContextStep σ (Gain μ)) = do
    Context.call (fun f => .fault f none [t] []) (Solver.add t)
    Context.change fun c => { c with last := none }
    return .nothing :=
  bind_assoc _ _ _

theorem step_push (levels : Nat) : ((Use.push levels).step : ContextStep σ (Gain μ)) = do
    Context.call Context.plainError (Solver.push levels)
    Context.change fun c => { c with depth := c.depth + levels, last := none }
    return .nothing :=
  bind_assoc _ _ _

theorem step_reset : (Use.reset.step : ContextStep σ (Gain μ)) = do
    Context.call Context.plainError Solver.reset
    Context.change fun c => { c with depth := 1, last := none }
    return .nothing :=
  bind_assoc _ _ _

/-- A context that has been closed refuses everything but to be closed again. -/
theorem run_step_closed {use : Use} (h : context.solver = none) (hclose : use ≠ .close)
    (table : SymbolTable) :
    use.step.run (context, table) = (.error .contextReleased, context, table) := by
  obtain ⟨solver, depth, last⟩ := context
  obtain rfl : solver = none := h
  cases use with
  | close => exact absurd rfl hclose
  | _ => rfl

theorem run_pop_beyond {levels : Nat} (hopen : context.isClosed = false)
    (h : context.depth ≤ levels) (table : SymbolTable) :
    (Use.pop levels).step.run (context, table) =
      (.error (.popBeyondContext levels context.depth), context, table) := by
  obtain ⟨solver, depth, last⟩ := context
  cases solver with
  | none => cases hopen
  | some solver =>
    have hrun : (Use.pop levels).step.run (⟨some solver, depth, last⟩, table) =
        ((if depth ≤ levels then throw (Error.popBeyondContext levels depth) >>= fun _ => _
          else _ : ContextStep σ Unit) >>= fun _ => pure Gain.nothing).run
            (⟨some solver, depth, last⟩, table) := rfl
    rw [hrun, if_pos h]
    rfl

theorem run_pop_within {levels : Nat} {solver : σ} (hsolver : context.solver = some solver)
    (h : levels < context.depth) (table : SymbolTable) :
    (Use.pop levels).step.run (context, table) = (do
      Context.call Context.plainError (Solver.pop levels)
      Context.change fun c => { c with depth := c.depth - levels, last := none }
      return Gain.nothing : ContextStep σ (Gain μ)).run (context, table) := by
  obtain ⟨_, depth, last⟩ := context
  obtain rfl : _ = some solver := hsolver
  have hrun : (Use.pop levels).step.run (⟨some solver, depth, last⟩, table) =
      ((if depth ≤ levels then throw (Error.popBeyondContext levels depth) >>= fun _ => _
        else _ : ContextStep σ Unit) >>= fun _ => pure Gain.nothing).run
          (⟨some solver, depth, last⟩, table) := rfl
  rw [hrun, if_neg (Nat.not_le_of_lt h), bind_assoc]

/-- A model is asked for if the answer in force says that there can be one. -/
theorem run_model_asked {solver : σ} (hsolver : context.solver = some solver)
    (h : context.last = some .sat ∨ context.last = some .unknown) (table : SymbolTable) :
    Use.model.step.run (context, table) =
      (do return Gain.model (← Context.call Context.plainError Solver.model) :
        ContextStep σ (Gain μ)).run (context, table) := by
  obtain ⟨_, depth, last⟩ := context
  obtain rfl : _ = some solver := hsolver
  rcases h with h | h
  · obtain rfl : last = some .sat := h
    rfl
  · obtain rfl : last = some .unknown := h
    rfl

theorem run_model_refused (hopen : context.isClosed = false)
    (h : ¬(context.last = some .sat ∨ context.last = some .unknown)) (table : SymbolTable) :
    Use.model.step.run (context, table) = (.error .noModel, context, table) := by
  obtain ⟨solver, depth, last⟩ := context
  cases solver with
  | none => cases hopen
  | some solver =>
    rcases last with _ | _ | _ | _
    · rfl
    · exact absurd (.inl rfl) h
    · rfl
    · exact absurd (.inr rfl) h

/-- A core is asked for if the answer in force says that there can be one. -/
theorem run_core_asked {solver : σ} (hsolver : context.solver = some solver)
    (h : context.last = some .unsat) (table : SymbolTable) :
    Use.core.step.run (context, table) =
      (do return Gain.core (← Context.call Context.plainError Solver.core) :
        ContextStep σ (Gain μ)).run (context, table) := by
  obtain ⟨_, depth, last⟩ := context
  obtain rfl : _ = some solver := hsolver
  obtain rfl : last = some .unsat := h
  rfl

theorem run_core_refused (hopen : context.isClosed = false) (h : context.last ≠ some .unsat)
    (table : SymbolTable) :
    Use.core.step.run (context, table) = (.error .noCore, context, table) := by
  obtain ⟨solver, depth, last⟩ := context
  cases solver with
  | none => cases hopen
  | some solver =>
    rcases last with _ | _ | _ | _
    · rfl
    · rfl
    · exact absurd rfl h
    · rfl

/-- A check gives what the outcome of the call means. -/
theorem run_check_step {assumptions : List Term} {solver solver' : σ}
    {outcome : Except Fault Bool} (hsolver : context.solver = some solver)
    (hcall : (Solver.satisfiable assumptions).run (solver, table) = (outcome, solver', table')) :
    (Use.check assumptions).step.run (context, table) =
      match statusOf assumptions outcome with
      | .ok status =>
        (.ok (.status status), { context with solver := some solver', last := some status },
          table')
      | .error e => (.error e, { context with solver := some solver' }, table') := by
  have hrun := run_call plainError hsolver (Session.run_outcome hcall)
  have hcheck : (Use.check assumptions).step.run (context, table) =
      (do
        let status ← Context.check assumptions
        return Gain.status status : ContextStep σ (Gain μ)).run (context, table) := rfl
  rw [hcheck, Context.check, bind_assoc, run_bind_ok hrun]
  cases statusOf assumptions outcome <;> rfl

/-- A call after which the context is changed. -/
theorem moves_call {use : Use} {call : SolverCall σ Unit} {f : Context σ → Context σ}
    {toError : Fault → Error} {r : Except Error (Gain μ)} (hclose : use ≠ .close)
    (hstep : use.step.run (context, table) = (do
      Context.call toError call
      Context.change f
      return Gain.nothing : ContextStep σ (Gain μ)).run (context, table))
    (hmoves : ∀ {solver solver' : σ}, context.solver = some solver →
      Moves (use, .ok .nothing) context (f { context with solver := some solver' }) (μ := μ))
    (hrun : use.step.run (context, table) = (r, context', table')) :
    Moves (use, r) context context' := by
  rw [hstep] at hrun
  rcases run_call_bind toError call _ context table with
    ⟨e, solver', table₁, hsame, herror⟩ | ⟨solver, _, solver', table₁, hsolver, _, hok⟩
  · obtain ⟨rfl, hp⟩ := Prod.mk.inj (herror.symm.trans hrun)
    obtain ⟨rfl, _⟩ := Prod.mk.inj hp
    exact .failed e hclose hsame
  · obtain ⟨rfl, hp⟩ := Prod.mk.inj (hok.symm.trans hrun)
    obtain ⟨rfl, _⟩ := Prod.mk.inj hp
    exact hmoves hsolver

/-- A call that gives something and changes neither the count nor the remembered answer. -/
theorem moves_query {use : Use} {call : SolverCall σ α} {gain : α → Gain μ}
    {toError : Fault → Error} {r : Except Error (Gain μ)} (hclose : use ≠ .close)
    (hstep : use.step.run (context, table) = (do
      return gain (← Context.call toError call) : ContextStep σ (Gain μ)).run (context, table))
    (hmoves : ∀ {solver solver' : σ} (a : α), context.solver = some solver →
      Moves (use, .ok (gain a)) context { context with solver := some solver' })
    (hrun : use.step.run (context, table) = (r, context', table')) :
    Moves (use, r) context context' := by
  rw [hstep] at hrun
  rcases run_call_bind toError call _ context table with
    ⟨e, solver', table₁, hsame, herror⟩ | ⟨solver, a, solver', table₁, hsolver, _, hok⟩
  · obtain ⟨rfl, hp⟩ := Prod.mk.inj (herror.symm.trans hrun)
    obtain ⟨rfl, _⟩ := Prod.mk.inj hp
    exact .failed e hclose hsame
  · obtain ⟨rfl, hp⟩ := Prod.mk.inj (hok.symm.trans hrun)
    obtain ⟨rfl, _⟩ := Prod.mk.inj hp
    exact hmoves a hsolver

/-- A use that is refused changes nothing. -/
theorem moves_refused {use : Use} {e : Error} {r : Except Error (Gain μ)} (hclose : use ≠ .close)
    (hrefused : use.step.run (context, table) = (.error e, context, table))
    (hrun : use.step.run (context, table) = (r, context', table')) :
    Moves (use, r) context context' := by
  obtain ⟨rfl, hp⟩ := Prod.mk.inj (hrefused.symm.trans hrun)
  obtain ⟨rfl, _⟩ := Prod.mk.inj hp
  exact .failed e hclose rfl

theorem moves_of_run {use : Use} {r : Except Error (Gain μ)}
    (hrun : use.step.run (context, table) = (r, context', table')) :
    Moves (use, r) context context' := by
  by_cases hclose : use = .close
  · obtain rfl := hclose
    obtain ⟨rfl, hp⟩ := Prod.mk.inj hrun
    obtain ⟨rfl, _⟩ := Prod.mk.inj hp
    exact .closed .nothing
  obtain ⟨solver, depth, last⟩ := context
  cases solver with
  | none => exact moves_refused hclose (run_step_closed rfl hclose table) hrun
  | some solver =>
    cases use with
    | add t => exact moves_call hclose (by rw [step_add]) (fun _ => .added t _) hrun
    | push levels => exact moves_call hclose (by rw [step_push]) (fun _ => .pushed levels _) hrun
    | pop levels =>
      by_cases hdepth : levels < depth
      · exact moves_call hclose (run_pop_within rfl hdepth table) (fun _ => .popped _ hdepth) hrun
      · exact moves_refused hclose (run_pop_beyond rfl (Nat.le_of_not_lt hdepth) table) hrun
    | reset => exact moves_call hclose (by rw [step_reset]) (fun _ => .reset _) hrun
    | check assumptions =>
      obtain ⟨⟨outcome, solver', table₁⟩, hcall⟩ :
        ∃ p, (Solver.satisfiable assumptions).run (solver, table) = p := ⟨_, rfl⟩
      rw [run_check_step rfl hcall] at hrun
      cases hstatus : statusOf assumptions outcome with
      | error e =>
        rw [hstatus] at hrun
        obtain ⟨rfl, hp⟩ := Prod.mk.inj hrun
        obtain ⟨rfl, _⟩ := Prod.mk.inj hp
        exact .failed e hclose rfl
      | ok status =>
        rw [hstatus] at hrun
        obtain ⟨rfl, hp⟩ := Prod.mk.inj hrun
        obtain ⟨rfl, _⟩ := Prod.mk.inj hp
        exact .checked assumptions status
    | model =>
      by_cases hlast : last = some .sat ∨ last = some .unknown
      · exact moves_query hclose (run_model_asked rfl hlast table) (fun _ _ => .model _) hrun
      · exact moves_refused hclose (run_model_refused rfl hlast table) hrun
    | core =>
      by_cases hlast : last = some .unsat
      · exact moves_query hclose (run_core_asked rfl hlast table) (fun _ _ => .core _) hrun
      · exact moves_refused hclose (run_core_refused rfl hlast table) hrun
    | close => exact absurd rfl hclose

/-- A check answers what the outcome of the call means, and fails if it means nothing. -/
theorem check_gives_iff {solver : σ} (hsolver : context.solver = some solver)
    (assumptions : List Term) (status : CheckStatus) :
    ((Use.check assumptions).step.run (context, table)).1 = .ok (.status status) ↔
      Means status ((Solver.satisfiable assumptions).run (solver, table)).1 := by
  obtain ⟨⟨outcome, solver', table'⟩, hcall⟩ :
    ∃ p, (Solver.satisfiable assumptions).run (solver, table) = p := ⟨_, rfl⟩
  rw [run_check_step hsolver hcall, hcall]
  have hmeans := @statusOf_eq_ok assumptions outcome status
  rw [← hmeans]
  cases statusOf assumptions outcome <;> simp

/-- Popping the lowest scope is refused without asking the solver. -/
theorem pop_beyond_refused {levels : Nat} (h : context.depth ≤ levels) (table : SymbolTable) :
    (∃ e, ((Use.pop levels).step : ContextStep σ (Gain μ)).run (context, table) =
      (.error e, context, table)) ∧
    ¬Consults (fun _ : Solver σ μ => (Use.pop levels).step) (context, table) := by
  cases hopen : context.isClosed with
  | false =>
    exact ⟨⟨_, run_pop_beyond hopen h table⟩,
      not_consults fun _ => run_pop_beyond hopen h table⟩
  | true =>
    have hsolver : context.solver = none := Option.isNone_iff_eq_none.mp hopen
    have hclose : Use.pop levels ≠ .close := nofun
    exact ⟨⟨_, run_step_closed hsolver hclose table⟩,
      not_consults fun _ => run_step_closed hsolver hclose table⟩

/-! ### Who is asked -/

/-- A solver that gives neither a model nor a core, but a fault of its choice. -/
@[reducible]
def unhelpful (solver : Solver σ μ) (f : Fault) : Solver σ μ :=
  { solver with model := throw f, core := throw f }

theorem run_call_throw (f : Fault) (k : α → ContextStep σ β) {solver : σ}
    (hsolver : context.solver = some solver) (table : SymbolTable) :
    (Context.call Context.plainError (throw f) >>= k).run (context, table) =
      (.error (.fault f none [] []), context, table) := by
  have hthrow : (throw f : SolverCall σ α).run (solver, table) = (.error f, solver, table) := rfl
  have hcall := run_call plainError hsolver hthrow
  rw [← hsolver] at hcall
  exact run_bind_error hcall

theorem consults_model_iff (hopen : context.isClosed = false) (table : SymbolTable) :
    Consults (fun _ : Solver σ μ => Use.model.step) (context, table) ↔
      context.last = some .sat ∨ context.last = some .unknown := by
  obtain ⟨solver, hsolver⟩ : ∃ solver, context.solver = some solver :=
    Option.isSome_iff_exists.mp (Option.isNone_eq_false_iff.mp hopen)
  constructor
  · intro hconsults
    by_contra hlast
    exact not_consults (fun _ => run_model_refused hopen hlast table) hconsults
  · intro hlast
    apply consults_of_faults (unhelpful ‹_›)
    intro f
    have hasked := @run_model_asked σ μ (unhelpful ‹_› f) context solver hsolver hlast table
    exact hasked.trans (run_call_throw f _ hsolver table)

theorem consults_core_iff (hopen : context.isClosed = false) (table : SymbolTable) :
    Consults (fun _ : Solver σ μ => Use.core.step) (context, table) ↔
      context.last = some .unsat := by
  obtain ⟨solver, hsolver⟩ : ∃ solver, context.solver = some solver :=
    Option.isSome_iff_exists.mp (Option.isNone_eq_false_iff.mp hopen)
  constructor
  · intro hconsults
    by_contra hlast
    exact not_consults (fun _ => run_core_refused hopen hlast table) hconsults
  · intro hlast
    apply consults_of_faults (unhelpful ‹_›)
    intro f
    have hasked := @run_core_asked σ μ (unhelpful ‹_› f) context solver hsolver hlast table
    exact hasked.trans (run_call_throw f _ hsolver table)

/-- However its calls of the solver end, a context shows what is left of its uses. -/
theorem keeps_of_past {solver : σ} (h : Past Use.step (ofSolver solver) past context) :
    Keeps past context := by
  induction h with
  | none => exact keeps_ofSolver solver
  | next _ _ _ hrun ih => exact (moves_of_run hrun).keeps ih

end Step

end Context

namespace Model

/-- What a model is asked to do. -/
inductive Use where
  | evaluate (t : Term)
  | interpret (f : Symbol)
  | release

/-- What a model gives back. -/
inductive Gain where
  | nothing
  | value (value : Term)
  | definition (parameters : List Symbol) (body : Term)

def Use.step (σ : Type) {μ : Type} [Solver σ μ] : Use → ModelStep μ Gain
  | .evaluate t => do return .value (← Model.evaluate (σ := σ) t)
  | .interpret f => do
    let (parameters, body) ← Model.interpret (σ := σ) f
    return .definition parameters body
  | .release => do
    modify fun (_, table) => (none, table)
    return .nothing

variable [Solver σ μ]

/-- A model that has been released refuses everything but to be released again. -/
theorem run_step_released {use : Use} (h : use ≠ .release) (table : SymbolTable) :
    (use.step σ).run ((none : Option μ), table) = (.error .modelReleased, none, table) := by
  cases use with
  | release => exact absurd rfl h
  | _ => rfl

/-- A released model stays so. -/
theorem eq_none_of_past {model : μ} {past : List (Use × Except Error Gain)} {handle : Option μ}
    (h : Past (Use.step σ) (some model) past handle) (hreleased : ∃ r, (Use.release, r) ∈ past) :
    handle = none := by
  induction h with
  | none =>
    obtain ⟨r, hr⟩ := hreleased
    cases hr
  | next _ use table hrun ih =>
    by_cases huse : use = .release
    · obtain rfl := huse
      exact (Prod.mk.inj (Prod.mk.inj hrun).2).1.symm
    · obtain ⟨r', hr'⟩ := hreleased
      rcases List.mem_cons.mp hr' with heq | hr'
      · exact absurd (Prod.mk.inj heq).1.symm huse
      · obtain rfl := ih ⟨r', hr'⟩
        have hsame := (run_step_released (σ := σ) huse table).symm.trans hrun
        exact (Prod.mk.inj (Prod.mk.inj hsame).2).1.symm

end Model

namespace Context

/-- A context keeps count of its scopes and of the answer in force, whatever becomes of its calls,
and asks the solver only for what it can have. What has been closed or released says so and leaves
the solver alone. -/
theorem keeps_track [Solver σ μ] {solver : σ} {past : List (Event μ)} {context : Context σ}
    (h : Past Use.step (ofSolver solver) past context) (table : SymbolTable) :
    (1 ≤ context.depth ∧ context.depth + popped past = 1 + pushed past) ∧
    (∀ levels, context.depth ≤ levels →
      (∃ e, ((Use.pop levels).step : ContextStep σ (Gain μ)).run (context, table) =
        (.error e, context, table)) ∧
      ¬Consults (fun _ : Solver σ μ => (Use.pop levels).step) (context, table)) ∧
    (∀ status, context.last = some status ↔ InForce past status) ∧
    (∀ solver' assumptions status, context.solver = some solver' →
      (((Use.check assumptions).step.run (context, table)).1 = .ok (.status status) ↔
        Means status ((Solver.satisfiable assumptions).run (solver', table)).1)) ∧
    ((∀ r, (Use.close, r) ∉ past) →
      (Consults (fun _ : Solver σ μ => Use.model.step) (context, table) ↔
        context.last = some .sat ∨ context.last = some .unknown) ∧
      (Consults (fun _ : Solver σ μ => Use.core.step) (context, table) ↔
        context.last = some .unsat)) ∧
    (∀ (use : Use) e context' table',
      use.step.run (context, table) = (.error e, context', table') →
        context'.depth = context.depth ∧ context'.last = context.last) ∧
    ((∃ r, (Use.close, r) ∈ past) →
      (∀ use : Use, use ≠ .close →
        (∃ e, e.SaysReleased ∧ use.step.run (context, table) = (.error e, context, table)) ∧
        ¬Consults (fun _ : Solver σ μ => use.step) (context, table)) ∧
      Use.close.step.run (context, table) = (.ok .nothing, context, table)) ∧
    ∀ (model : μ) uses handle, Past (Model.Use.step σ) (some model) uses handle →
      (∃ r, (Model.Use.release, r) ∈ uses) →
        (∀ use : Model.Use, use ≠ .release →
          (∃ e, e.SaysReleased ∧ (use.step σ).run (handle, table) = (.error e, handle, table)) ∧
          ¬Consults (fun _ : Solver σ μ => use.step σ) (handle, table)) ∧
        (Model.Use.release.step σ).run (handle, table) = (.ok .nothing, handle, table) := by
  have hkeeps := keeps_of_past h
  refine ⟨⟨hkeeps.depth_pos, hkeeps.depth_eq⟩,
    fun levels hlevels => pop_beyond_refused hlevels table, hkeeps.last_eq,
    fun _ assumptions status hsolver => check_gives_iff hsolver assumptions status, ?_,
    fun use e context' table' hrun => (moves_of_run hrun).of_error, ?_, ?_⟩
  · intro hnever
    have hopen : context.isClosed = false := by
      rw [← Bool.not_eq_true, hkeeps.closed_iff]
      rintro ⟨r, hr⟩
      exact hnever r hr
    exact ⟨consults_model_iff hopen table, consults_core_iff hopen table⟩
  · intro hclose
    have hsolver : context.solver = none :=
      Option.isNone_iff_eq_none.mp (hkeeps.closed_iff.mpr hclose)
    constructor
    · intro use huse
      have hrun : ∀ [Solver σ μ], use.step.run (context, table) = (.error _, context, table) :=
        run_step_closed hsolver huse table
      exact ⟨⟨_, Error.saysReleased_context, hrun⟩, not_consults fun _ => hrun⟩
    · obtain ⟨_, depth, last⟩ := context
      obtain rfl : _ = none := hsolver
      rfl
  · intro model uses handle huses hrelease
    obtain rfl := Model.eq_none_of_past huses hrelease
    constructor
    · intro use huse
      have hrun : ∀ [Solver σ μ], (use.step σ).run (none, table) = (.error _, none, table) :=
        Model.run_step_released huse table
      exact ⟨⟨_, Error.saysReleased_model, hrun⟩, not_consults fun _ => hrun⟩
    · rfl

/-- Two scopes are opened and a check finds a model; three scopes cannot be closed, and the answer
stays in force until the context is closed. -/
theorem keeps_track_of_refused_pop :
    (InForce (μ := ScriptedModel) [(.pop 3, .error (.popBeyondContext 3 3)),
        (.check [], .ok (.status .sat)), (.push 2, .ok .nothing)] .sat ∧
      Consults (fun _ : Solver Scripted ScriptedModel => Use.model.step)
        (⟨some Scripted.start, 3, some .sat⟩, .empty)) ∧
    (∃ e, e.SaysReleased ∧ Use.model.step.run ((⟨none, 3, some .sat⟩ : Context Scripted), .empty) =
      (.error e, ⟨none, 3, some .sat⟩, .empty)) ∧
    ∃ e, e.SaysReleased ∧
      ((Model.Use.evaluate (.bool true)).step Scripted).run
        ((none : Option ScriptedModel), .empty) = (.error e, none, .empty) := by
  have hpushed : Past Use.step (ofSolver Scripted.start) [(.push 2, .ok .nothing)]
      ⟨some Scripted.start, 3, none⟩ := .next .none _ .empty rfl
  have hchecked : Past Use.step (ofSolver Scripted.start)
      [(.check [], .ok (.status .sat)), (.push 2, .ok .nothing)]
      ⟨some Scripted.start, 3, some .sat⟩ := .next hpushed _ .empty rfl
  have hopen : Past Use.step (ofSolver Scripted.start)
      [(.pop 3, .error (.popBeyondContext 3 3)), (.check [], .ok (.status .sat)),
        (.push 2, .ok .nothing)] ⟨some Scripted.start, 3, some .sat⟩ :=
    .next hchecked _ .empty rfl
  have hclosed : Past Use.step (ofSolver Scripted.start)
      [(.close, .ok .nothing), (.pop 3, .error (.popBeyondContext 3 3)),
        (.check [], .ok (.status .sat)), (.push 2, .ok .nothing)] ⟨none, 3, some .sat⟩ :=
    .next hopen _ .empty rfl
  have hreleased : Past (Model.Use.step Scripted) (some ⟨[]⟩) [(.release, .ok .nothing)] none :=
    .next .none _ .empty rfl
  obtain ⟨_, _, hlast, _, hasked, _⟩ := keeps_track hopen .empty
  obtain ⟨_, _, _, _, _, _, hend, hhandle⟩ := keeps_track hclosed .empty
  refine ⟨⟨(hlast .sat).mp rfl, ?_⟩, ?_, ?_⟩
  · exact (hasked (by simp)).1.mpr (.inl rfl)
  · exact ((hend ⟨.ok .nothing, List.mem_cons_self⟩).1 .model nofun).1
  · have hrefused := hhandle ⟨[]⟩ _ none hreleased ⟨.ok .nothing, List.mem_cons_self⟩
    exact (hrefused.1 (.evaluate _) nofun).1

end Context

end SmtScript
