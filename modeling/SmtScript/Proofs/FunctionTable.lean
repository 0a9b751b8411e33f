import Mathlib.Data.List.Find
import SmtScript.Proofs.Steps
import SmtScript.Proofs.Symbol
import SmtScript.Proofs.Term.Instantiation
import SmtScript.Solver.FunctionTable

/-!
Values of functions by their definitions.

`FunctionTable.valueAt` says what a table has on a function at given arguments: the value of the
first entry with these arguments and, if there is none, the other value, in which the formals
stand for the arguments. The body that is built from the table has this value if the parameters
have the arguments as theirs, `FunctionTable.builds_body`.
-/

namespace SmtScript

open Step

/-! ### Several symbols at once -/

namespace Interpretation

variable {I : Interpretation} {symbols : List Symbol} {vs : List Value} {s : Symbol}

/-- The interpretation that differs in the values of several symbols. -/
def assignAll (I : Interpretation) (symbols : List Symbol) (vs : List Value) : Interpretation :=
  { I with symbol := fun s => ((symbols.zip vs).lookup s).getD (I.symbol s) }

theorem lookup_zip_eq_none {α : Type} {as : List α} (hs : s ∉ symbols) :
    (symbols.zip as).lookup s = none := by
  refine List.lookup_eq_none_iff.mpr fun p hp => ?_
  have hne : s ≠ p.1 := fun heq => hs (heq ▸ (List.of_mem_zip hp).1)
  simpa using hne

theorem symbol_assignAll (hs : s ∉ symbols) : (I.assignAll symbols vs).symbol s = I.symbol s := by
  simp only [assignAll, lookup_zip_eq_none hs, Option.getD_none]

/-- What has nothing to do with the symbols does not depend on their values. -/
theorem agree_assignAll {among : Symbol → Prop} (h : ∀ s ∈ symbols, ¬ among s) :
    Agree among (I.assignAll symbols vs) I :=
  ⟨fun s hs => symbol_assignAll fun hmem => h s hmem hs, rfl, rfl⟩

theorem map_symbol_assignAll (hnodup : symbols.Nodup) (hlength : symbols.length = vs.length) :
    symbols.map (I.assignAll symbols vs).symbol = vs := by
  induction symbols generalizing vs with
  | nil => exact (List.length_eq_zero_iff.mp hlength.symm).symm
  | cons first rest ih =>
    obtain ⟨hnew, hrest⟩ := List.nodup_cons.mp hnodup
    cases vs with
    | nil => cases hlength
    | cons v others =>
      have hlater : rest.map (I.assignAll (first :: rest) (v :: others)).symbol =
          rest.map (I.assignAll rest others).symbol := by
        refine List.map_congr_left fun s hs => ?_
        have hne : (s == first) = false := beq_false_of_ne fun heq => hnew (heq ▸ hs)
        simp [assignAll, List.lookup_cons, hne]
      rw [List.map_cons, hlater, ih hrest (Nat.succ.inj hlength)]
      simp [assignAll]

theorem Proper.assignAll (hI : I.Proper)
    (h : List.Forall₂ Value.HasSort vs (symbols.map Symbol.sort)) :
    (I.assignAll symbols vs).Proper := by
  refine ⟨⟨fun s => ?_, hI.apply⟩, hI.ranges⟩
  simp only [Interpretation.assignAll]
  induction symbols generalizing vs with
  | nil => simpa using hI.symbol s
  | cons first rest ih =>
    cases h with
    | cons hfirst hrest =>
      rw [List.zip_cons_cons, List.lookup_cons]
      cases heq : s == first with
      | true => exact beq_iff_eq.mp heq ▸ hfirst
      | false => exact ih hrest

end Interpretation

namespace FunctionTable

open Term

variable {table : FunctionTable} {domains : List SmtSort} {target : SmtSort}
  {parameters : List Symbol} {I : Interpretation} {vs : List Value}

/-! ### What a table has on a function -/

/-- Whether some terms have given values. -/
def isAt (I : Interpretation) (args : List Term) (vs : List Value) : Bool :=
  (vs.zip args).all fun (v, arg) => v.equals (arg.eval I)

theorem isAt_congr {J : Interpretation} {args : List Term}
    (h : ∀ arg ∈ args, arg.eval J = arg.eval I) : isAt J args vs = isAt I args vs := by
  refine Bool.eq_iff_iff.mpr ?_
  simp only [isAt, List.all_eq_true]
  exact forall₂_congr fun p hp => by rw [h p.2 (List.of_mem_zip hp).2]

/-- The value that a table has for a function at some arguments. -/
def valueAt (table : FunctionTable) (I : Interpretation) (vs : List Value) : Value :=
  match table.entries.find? fun entry => isAt I entry.1 vs with
  | some entry => entry.2.eval I
  | none => table.otherwise.eval (I.assignAll table.formals vs)

/-- Whether all that a table has on a function is of the right sorts. -/
structure Fits (table : FunctionTable) (domains : List SmtSort) (target : SmtSort) : Prop where
  arguments : ∀ entry ∈ table.entries, List.Forall₂ Typed entry.1 domains
  values : ∀ entry ∈ table.entries, entry.2.Typed target
  formals : ∀ p ∈ table.formals.zip domains, p.1.sort = p.2
  otherwise : table.otherwise.Typed target

/-- Whether parameters have nothing to do with a table. -/
structure Avoids (table : FunctionTable) (parameters : List Symbol) : Prop where
  entries : ∀ entry ∈ table.entries, ∀ t ∈ entry.2 :: entry.1, ∀ s ∈ parameters, s ∉ t.freeSymbols
  otherwise : ∀ s ∈ parameters, s ∉ table.otherwise.freeSymbols
  bound : table.otherwise.Tame fun s => s ∉ table.formals ∧ s ∉ parameters

/-- Whether a body is of a sort and has, for parameters with some values, the value that a table has
at these arguments. -/
structure Defines (table : FunctionTable) (domains : List SmtSort) (target : SmtSort)
    (parameters : List Symbol) (body : Term) : Prop where
  typed : body.Typed target
  agrees : ∀ (I : Interpretation) (vs : List Value), I.Proper →
    List.Forall₂ Value.HasSort vs domains →
      body.eval (I.assignAll parameters vs) = table.valueAt I vs

/-! ### Entries -/

/-- There is a condition for each parameter. -/
theorem conditions_build {args : List Term}
    (h : List.Forall₂ Typed args (parameters.map Symbol.sort)) :
    ∃ ts, (parameters.zip args).mapM (fun (p, arg) => mkSame (.symbol p) arg) = .ok ts ∧
      (∀ t ∈ ts, t.Typed .bool) ∧ ∀ I : Interpretation, I.WellSorted →
        (ts.all fun t => (t.eval I).isTrue) = isAt I args (parameters.map I.symbol) := by
  induction parameters generalizing args with
  | nil => exact ⟨[], rfl, nofun, fun _ _ => rfl⟩
  | cons p rest ih =>
    cases h with
    | @cons arg _ others _ harg hothers =>
      have hp : (Term.symbol p).Typed p.sort := .node rfl nofun
      obtain ⟨t, ht, htyped, hvalue⟩ := builds_mkSame_equals hp harg
      obtain ⟨ts, hts, hall, hvalues⟩ := ih hothers
      refine ⟨t :: ts, ?_, List.forall_mem_cons.mpr ⟨htyped, hall⟩, fun I hI => ?_⟩
      · rw [List.zip_cons_cons, List.mapM_cons, hts]
        simp only [ht]
        rfl
      · rw [List.all_cons, hvalue I hI, hvalues I hI]
        rfl

theorem builds_argumentsAre {args : List Term}
    (h : List.Forall₂ Typed args (parameters.map Symbol.sort)) :
    Builds (argumentsAre parameters args) .bool
      fun I => .bool (isAt I args (parameters.map I.symbol)) := by
  obtain ⟨ts, hts, hall, hvalues⟩ := conditions_build h
  have hbuilds := (builds_mkAnd hall).congr fun I hI => congrArg Value.bool (hvalues I hI)
  unfold argumentsAre
  rw [hts]
  exact hbuilds

/-- The first entry whose arguments are the parameters decides. -/
theorem builds_distinguish {otherwise : Term} {entries : List (List Term × Term)}
    (harguments : ∀ entry ∈ entries, List.Forall₂ Typed entry.1 (parameters.map Symbol.sort))
    (hvalues : ∀ entry ∈ entries, entry.2.Typed target) (hotherwise : otherwise.Typed target) :
    Builds (distinguish parameters otherwise entries) target fun I =>
      match entries.find? fun entry => isAt I entry.1 (parameters.map I.symbol) with
      | some entry => entry.2.eval I
      | none => otherwise.eval I := by
  induction entries with
  | nil => exact .ok hotherwise
  | cons entry rest ih =>
    obtain ⟨hargs, hargsRest⟩ := List.forall_mem_cons.mp harguments
    obtain ⟨hv, hvRest⟩ := List.forall_mem_cons.mp hvalues
    refine (ih hargsRest hvRest).bind fun body hbody hbodyValue => ?_
    refine (builds_argumentsAre hargs).bind fun c hc hcValue => ?_
    refine (builds_mkIte hc hv hbody).congr fun I hI => ?_
    rw [hcValue I hI, hbodyValue I hI, List.find?_cons]
    cases isAt I entry.1 (parameters.map I.symbol) <;> rfl

/-! ### Bodies -/

theorem lookup_zip_map {α β : Type} (g : α → β) (symbols : List Symbol) (as : List α)
    (s : Symbol) : (symbols.zip (as.map g)).lookup s = ((symbols.zip as).lookup s).map g := by
  induction symbols generalizing as with
  | nil => rfl
  | cons first rest ih =>
    cases as with
    | nil => rfl
    | cons a others =>
      rw [List.map_cons, List.zip_cons_cons, List.zip_cons_cons, List.lookup_cons, List.lookup_cons,
        ih others]
      cases s == first <;> rfl

/-- Parameters that are put in the place of formals lend them their values. -/
theorem agree_bind (formals : List Symbol) (hnodup : parameters.Nodup)
    (hlength : parameters.length = vs.length) {among : Symbol → Prop}
    (hapart : ∀ s ∈ parameters, ¬ among s) :
    Interpretation.Agree among
      ((I.assignAll parameters vs).bind (formals.zip (parameters.map .symbol)))
      (I.assignAll formals vs) := by
  refine ⟨fun s hs => ?_, rfl, rfl⟩
  have hplain : (I.assignAll parameters vs).symbol s = I.symbol s :=
    Interpretation.symbol_assignAll fun hmem => hapart s hmem hs
  have hvalues : (formals.zip vs).lookup s =
      ((formals.zip parameters).lookup s).map (I.assignAll parameters vs).symbol := by
    rw [← lookup_zip_map, Interpretation.map_symbol_assignAll hnodup hlength]
  have hterms := lookup_zip_map Term.symbol formals parameters s
  have hright : (I.assignAll formals vs).symbol s =
      ((formals.zip vs).lookup s).getD (I.symbol s) := rfl
  rw [hright, hvalues]
  cases hp : (formals.zip parameters).lookup s with
  | none =>
    rw [hp, Option.map_none] at hterms
    simpa only [Interpretation.bind, hterms, Option.map_none, Option.getD_none] using hplain
  | some p =>
    rw [hp, Option.map_some] at hterms
    simp only [Interpretation.bind, hterms]
    rfl

/-- What is put in the place of the formals is of their sorts. -/
theorem typed_of_mem_zip {formals : List Symbol}
    (hsorts : ∀ p ∈ formals.zip (parameters.map Symbol.sort), p.1.sort = p.2) :
    ∀ p ∈ formals.zip (parameters.map Term.symbol), p.2.Typed p.1.sort := by
  intro p hp
  rw [List.zip_map_right] at hp hsorts
  obtain ⟨q, hq, rfl⟩ := List.mem_map.mp hp
  have hsort := hsorts _ (List.mem_map_of_mem hq)
  exact ⟨.node rfl nofun, hsort.symm⟩

/-- There is a body for each table, and it defines what the table has on the function. -/
theorem builds_body (hfits : table.Fits domains target) (havoids : table.Avoids parameters)
    (hsorts : parameters.map Symbol.sort = domains) (hnodup : parameters.Nodup) :
    ∃ body, table.body parameters = .ok body ∧ table.Defines domains target parameters body := by
  subst hsorts
  have hputs (s : Symbol) (hs : s ∉ table.formals ∧ s ∉ parameters) :
      (table.formals.zip (parameters.map Term.symbol)).lookup s = none ∧
        ∀ p ∈ table.formals.zip (parameters.map Term.symbol), s ∉ p.2.freeSymbols := by
    refine ⟨Interpretation.lookup_zip_eq_none hs.1, fun p hp hfree => ?_⟩
    obtain ⟨q, hq, heq⟩ := List.mem_map.mp (List.of_mem_zip hp).2
    obtain rfl : s = q := by simpa [← heq, freeSymbols] using hfree
    exact hs.2 hq
  obtain ⟨otherwise, hotherwise, hbecomes⟩ := substitute_becomes hfits.otherwise.wellSorted
    havoids.bound (typed_of_mem_zip hfits.formals) hputs
  have htyped : otherwise.Typed target := hfits.otherwise.sort_eq ▸ hbecomes.typed
  obtain ⟨body, hbody, hbodyTyped, hvalue⟩ :=
    builds_distinguish hfits.arguments hfits.values htyped
  refine ⟨body, ?_, hbodyTyped, ?_⟩
  · rw [FunctionTable.body, hotherwise]
    exact hbody
  intro I vs hI hvs
  have hJ : (I.assignAll parameters vs).Proper := hI.assignAll hvs
  have hlength : parameters.length = vs.length := by simpa using hvs.length_eq.symm
  have hentry {t : Term} (hapart : ∀ s ∈ parameters, s ∉ t.freeSymbols) :
      t.eval (I.assignAll parameters vs) = t.eval I :=
    eval_congr (Interpretation.agree_assignAll hapart)
  have hfind : (table.entries.find? fun entry => isAt (I.assignAll parameters vs) entry.1 vs) =
      table.entries.find? fun entry => isAt I entry.1 vs := by
    refine List.find?_congr fun entry he => ?_
    refine isAt_congr fun arg harg => hentry ?_
    exact havoids.entries entry he arg (List.mem_cons_of_mem _ harg)
  rw [hvalue _ hJ.toWellSorted]
  dsimp only
  rw [Interpretation.map_symbol_assignAll hnodup hlength, hfind, valueAt]
  cases hfound : table.entries.find? fun entry => isAt I entry.1 vs with
  | none =>
    have hagree := agree_bind (I := I) table.formals hnodup hlength havoids.otherwise
    exact (hbecomes.eval _ hJ).trans (eval_congr hagree)
  | some entry =>
    have hmem := List.mem_of_find?_eq_some hfound
    exact hentry (havoids.entries entry hmem entry.2 List.mem_cons_self)

end FunctionTable

/-! ### Definitions -/

namespace FunctionSource

variable {μ : Type} {source : FunctionSource μ} {f : Symbol} {m : μ}
  {symbols symbols' : SymbolTable} {parameters : List Symbol} {p p' p'' : μ × SymbolTable}

/-- The parameters are new symbols of the sorts of the arguments. -/
theorem parameters_new {sorts : List SmtSort}
    (hfresh : symbols.freshAll "x!" sorts = (parameters, symbols')) :
    parameters.map Symbol.sort = sorts ∧ parameters.Nodup ∧
      ∀ s ∈ parameters, symbols.hasName s.name = false ∧
        ∃ n : Nat, s.name = "x!" ++ toString n := by
  obtain rfl : (symbols.freshAll "x!" sorts).1 = parameters := congrArg Prod.fst hfresh
  have hmakes := symbols.makes_freshAll "x!" sorts
  refine ⟨symbols.sorts_freshAll _ _, ?_, fun s hs => ⟨?_, ?_⟩⟩
  · have hnames := hmakes.distinct
    rw [List.map_map] at hnames
    exact hnames.of_map
  · exact hmakes.new ("x!", s) (List.mem_map_of_mem hs)
  · exact hmakes.numbered ("x!", s) (List.mem_map_of_mem hs)

theorem run_define_of_some {table : FunctionTable} {body : Term}
    (hfresh : symbols.freshAll "x!" f.sort.domains = (parameters, symbols'))
    (haccept : (source.accept (.apply f (parameters.map .symbol))).run (m, symbols') = (.ok ⟨⟩, p))
    (htable : (source.table? f).run p = (.ok (some table), p'))
    (hbody : table.body parameters = .ok body) :
    (source.define f).run (m, symbols) = (.ok (parameters, body), p') := by
  unfold define
  rw [run_bind_ok (run_modifyGet _ _)]
  simp only [hfresh]
  rw [run_bind_ok haccept, run_bind_ok htable]
  simp only [hbody]
  rfl

theorem run_define_of_none {v : Term}
    (hfresh : symbols.freshAll "x!" f.sort.domains = (parameters, symbols'))
    (haccept : (source.accept (.apply f (parameters.map .symbol))).run (m, symbols') = (.ok ⟨⟩, p))
    (htable : (source.table? f).run p = (.ok none, p'))
    (hvalue : (source.value (.apply f (parameters.map .symbol))).run p' = (.ok v, p'')) :
    (source.define f).run (m, symbols) = (.ok (parameters, v), p'') := by
  unfold define
  rw [run_bind_ok (run_modifyGet _ _)]
  simp only [hfresh]
  rw [run_bind_ok haccept, run_bind_ok htable]
  dsimp only
  rw [run_bind_ok hvalue]
  rfl

/-- A definition that is given is made from what there is on the function, or from a value. -/
theorem define_ok {r : List Symbol × Term}
    (hrun : (source.define f).run (m, symbols) = (.ok r, p'')) :
    ∃ symbols' p p', symbols.freshAll "x!" f.sort.domains = (r.1, symbols') ∧
      (source.accept (.apply f (r.1.map .symbol))).run (m, symbols') = (.ok ⟨⟩, p) ∧
      ((source.table? f).run p = (.ok none, p') ∧
          (source.value (.apply f (r.1.map .symbol))).run p' = (.ok r.2, p'') ∨
        ∃ table, (source.table? f).run p = (.ok (some table), p'') ∧
          table.body r.1 = .ok r.2) := by
  obtain ⟨⟨parameters, symbols'⟩, hfresh⟩ : ∃ made, symbols.freshAll "x!" f.sort.domains = made :=
    ⟨_, rfl⟩
  unfold define at hrun
  rw [run_bind_ok (run_modifyGet _ _)] at hrun
  simp only [hfresh] at hrun
  rw [run_bind] at hrun
  split at hrun
  case h_2 => cases hrun
  rename_i _ p haccept
  rw [run_bind] at hrun
  split at hrun
  case h_2 => cases hrun
  rename_i known p' htable
  cases known with
  | none =>
    dsimp only at hrun
    rw [run_bind] at hrun
    split at hrun
    case h_2 => cases hrun
    rename_i v _ hvalue
    obtain ⟨heq, rfl⟩ := Prod.mk.inj hrun
    obtain rfl := Except.ok.inj heq
    exact ⟨symbols', p, p', hfresh, haccept, .inl ⟨htable, hvalue⟩⟩
  | some table =>
    dsimp only at hrun
    cases hbody : table.body parameters with
    | error fault =>
      rw [hbody] at hrun
      cases hrun
    | ok body =>
      rw [hbody] at hrun
      obtain ⟨heq, rfl⟩ := Prod.mk.inj hrun
      obtain rfl := Except.ok.inj heq
      exact ⟨symbols', p, p', hfresh, haccept, .inr ⟨table, htable, hbody⟩⟩

end FunctionSource

end SmtScript
