import SmtScript.Proofs.Session.Signatures
import SmtScript.Proofs.Standard.BitTranslation

/-!
Bit-vector operators in a session.

In every scope of a session that a run leads to, an application of a bit-vector operator to operands
of widths that the standard allows is accepted and has the standard value,
`Session.bitVectors_standard`. The operands are whatever the scope has read, so this goes for
applications inside of applications.
-/

namespace SmtScript

open Solver Step

namespace Session

open Standard

variable {σ μ : Type} {S : Session σ μ} {names : Names} {T T' : TermState} {args : List SExpr}
  {ts : List Term}

/-- What a scope of a sound session has read are operands. -/
theorem Sound.operands (hS : S.Sound) (hscope : S.Scope names T)
    (hargs : (translateAll S.sorts names args).run T = (.ok ts, T')) :
    Operands ts (ts.map Term.sort) := by
  obtain ⟨hT, hnames⟩ := hS.inScope hscope
  have hcarries := (kept_sound.carries_all S.sorts fun _ _ _ _ => trivial).2.1
  obtain ⟨-, hts⟩ := hcarries names args [] T ⟨hT, hnames⟩ trivial _ _ hargs
  exact ⟨fun t ht => ((hts ts rfl).2 t ht).wellSorted, rfl⟩

/-- In every scope of every session that a run leads to, an application of a bit-vector operator
whose name is not bound there is accepted if its operands are and have widths that a signature of
the operator allows. The term has the sort of the signature, and under every assignment its value is
the standard one for the values of the operands, also where a divisor is zero. So the signed
remainder that follows the divisor is congruent to the dividend and has the sign of the divisor. -/
theorem bitVectors_standard [Solver σ μ] [GrowingSolver σ μ] {op : VectorOp} {sort : SmtSort}
    (hS : S.Reachable) (hscope : S.Scope names T)
    (hargs : (translateAll S.sorts names args).run T = (.ok ts, T'))
    (htakes : op.Takes (ts.map Term.sort) sort) (hfree : names.find? op.name = none) :
    ∃ t, (translate S.sorts names (.list (op.head :: args))).run T = (.ok t, T') ∧
      t.sort = sort ∧
      ∀ I : Interpretation, I.WellSorted →
        t.eval I = op.value (valuesOf I ts) ∧
        ∀ dividend divisor, op = .binary .smod → ts = [dividend, divisor] →
          (bits (dividend.eval I)).IsModulo (bits (divisor.eval I)) (bits (t.eval I)) := by
  have hoperands := hS.sound.operands hscope hargs
  obtain ⟨t, hrun, htyped, hvalue⟩ := translate_vectorOp hoperands htakes hfree hargs
  refine ⟨t, hrun, htyped.sort_eq, fun I hI => ⟨hvalue I hI, ?_⟩⟩
  rintro dividend divisor rfl rfl
  have hwidths : (bits (dividend.eval I)).width = (bits (divisor.eval I)).width := by
    obtain ⟨w, hdividend, hdivisor⟩ := htakes.two
      (hoperands.wellSorted dividend (by simp)) (hoperands.wellSorted divisor (by simp))
    rw [width_eval hdividend hI, width_eval hdivisor hI]
  rw [hvalue I hI]
  exact Bits.isModulo_smod hwidths

/-- So it is with a declared vector and a negative number that divides it. -/
theorem bitVectors_standard_smod :
    ∃ (commands : List SExpr) (S : Session Scripted ScriptedModel) (ts : List Term)
      (T' : TermState) (t : Term),
      commands = [.list [.atom "set-logic", .atom "ALL"],
        .list [.atom "declare-fun", .atom "x", .list [],
          .list [.atom "_", .atom "BitVec", .atom "8"]]] ∧
      after commands (start (.ofSolver "z3")) = S ∧
      (translateAll S.sorts S.environment [.atom "x", .atom "#xfd"]).run S.terms = (.ok ts, T') ∧
      ts.map Term.sort = [.bitVec 8, .bitVec 8] ∧
      S.environment.find? "bvsmod" = none ∧
      (translate S.sorts S.environment
        (.list [.atom "bvsmod", .atom "x", .atom "#xfd"])).run S.terms = (.ok t, T') ∧
      t.sort = .bitVec 8 ∧
      ∀ I : Interpretation, I.WellSorted →
        t.eval I = VectorOp.value (.binary .smod) (valuesOf I ts) ∧
        ∀ dividend divisor, ts = [dividend, divisor] →
          (bits (dividend.eval I)).IsModulo (bits (divisor.eval I)) (bits (t.eval I)) := by
  obtain ⟨S, hS⟩ : ∃ S : Session Scripted ScriptedModel, after
    [.list [.atom "set-logic", .atom "ALL"],
      .list [.atom "declare-fun", .atom "x", .list [],
        .list [.atom "_", .atom "BitVec", .atom "8"]]]
    (start (.ofSolver "z3")) = S := ⟨_, rfl⟩
  obtain ⟨⟨result, T'⟩, hrun⟩ : ∃ q : Except Error (List Term) × TermState,
    (translateAll S.sorts S.environment [.atom "x", .atom "#xfd"]).run S.terms = q := ⟨_, rfl⟩
  have hfree : S.environment.find? "bvsmod" = none := by
    have h : (S.environment.find? "bvsmod").isNone = true := by subst hS; decide +kernel
    exact Option.isNone_iff_eq_none.mp h
  have hsorts : result.toOption.map (·.map Term.sort) = some [.bitVec 8, .bitVec 8] := by
    have h : result = _ := (congrArg Prod.fst hrun).symm
    subst h hS
    decide +kernel
  cases result with
  | error e => cases hsorts
  | ok ts =>
    have hts : ts.map Term.sort = [.bitVec 8, .bitVec 8] := Option.some.inj hsorts
    have htakes : VectorOp.Takes (.binary .smod) (ts.map Term.sort) (.bitVec 8) := by
      rw [hts]
      exact .binary (by decide) (Nat.le_refl 2) (.inr rfl)
    obtain ⟨t, happlied, hsort, hvalue⟩ :=
      bitVectors_standard ⟨_, _, hS⟩ .top hrun htakes hfree
    refine ⟨_, S, ts, T', t, rfl, hS, hrun, hts, hfree, happlied, hsort, fun I hI => ?_⟩
    obtain ⟨hstandard, hmodulo⟩ := hvalue I hI
    exact ⟨hstandard, fun dividend divisor hpair => hmodulo dividend divisor rfl hpair⟩

end Session

end SmtScript
