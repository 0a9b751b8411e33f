import SmtScript.Proofs.Session.Running

/-!
What a configuration makes of the options that are set.

The text of an option is recorded before its value is looked at. So the solver options follow the
last value that was accepted, the record follows the last value, and the two part with a value that
is refused, until the option is set to one that is accepted.
-/

namespace SmtScript.Configuration

/-- The configuration after options were set on an empty one, the latest call listed first. Calls
that fail are among them. -/
def configured (solver : String) : List (String × String) → Configuration
  | [] => ofSolver solver
  | (keyword, value) :: earlier => ((setOption keyword value).run (configured solver earlier)).2

/-- Whether a value of an option is accepted. -/
def accepts (keyword value : String) : Bool :=
  ((setOption keyword value).run (ofSolver availableSolver)).1.isOk

/-! ### One call -/

/-- The record takes the text in any case, the solver options only a value that is accepted. -/
theorem run_setOption (keyword value : String) (c : Configuration) :
    (setOption keyword value).run c =
      match steer c.options keyword value with
      | .ok options => (.ok (), { c with options, recorded := c.recorded.insert keyword value })
      | .error e => (.error e, { c with recorded := c.recorded.insert keyword value }) := by
  rw [setOption, Step.run_bind_ok (Step.run_modify _ _), Step.run_bind_ok (Step.run_get _)]
  cases steer c.options keyword value <;> rfl

theorem eq_of_map_read {β : Type} {read : Except Error β} {f : β → SolverOptions}
    {options : SolverOptions} (h : (do return f (← read)) = Except.ok options) :
    ∃ b, read = .ok b ∧ options = f b := by
  cases read with
  | ok b => exact ⟨b, rfl, (Except.ok.inj h).symm⟩
  | error e => cases h

theorem steer_cases {options options' : SolverOptions} {keyword value : String}
    (h : steer options keyword value = .ok options') :
    (keyword = ":produce-unsat-cores" ∧
      ∃ on, parseBool value = .ok on ∧ options' = { options with cores := some on }) ∨
    (keyword = ":produce-models" ∧
      ∃ on, parseBool value = .ok on ∧ options' = { options with models := some on }) ∨
    (keyword = ":random-seed" ∧
      ∃ seed, parseSeed value = .ok seed ∧ options' = { options with seed := some seed }) ∨
    options' = options := by
  unfold steer at h
  split_ifs at h with hcores hmodels hseed
  · exact .inl ⟨hcores, eq_of_map_read h⟩
  · exact .inr (.inl ⟨hmodels, eq_of_map_read h⟩)
  · exact .inr (.inr (.inl ⟨hseed, eq_of_map_read h⟩))
  · exact .inr (.inr (.inr (Except.ok.inj h).symm))

/-- Whether a value is accepted does not depend on what was set before. -/
theorem isOk_steer (options options' : SolverOptions) (keyword value : String) :
    (steer options keyword value).isOk = (steer options' keyword value).isOk := by
  unfold steer
  split_ifs
  · cases parseBool value <;> rfl
  · cases parseBool value <;> rfl
  · cases parseSeed value <;> rfl
  · rfl

theorem accepts_eq (keyword value : String) (options : SolverOptions) :
    accepts keyword value = (steer options keyword value).isOk := by
  rw [accepts, run_setOption, isOk_steer options (ofSolver availableSolver).options]
  cases steer (ofSolver availableSolver).options keyword value <;> rfl

/-- A call on any configuration fails if and only if the value is not accepted. -/
theorem isOk_setOption (keyword value : String) (c : Configuration) :
    ((setOption keyword value).run c).1.isOk = accepts keyword value := by
  rw [run_setOption, accepts_eq keyword value c.options]
  cases steer c.options keyword value <;> rfl

/-! ### Options that steer the solver -/

/-- An option that steers the solver: how its values are read, and what the solver options have of
it. No other option changes this. -/
structure Steering (β : Type) where
  keyword : String
  read : String → Except Error β
  field : SolverOptions → Option β
  /-- The option itself takes the value that is read. -/
  hit : ∀ options value, (steer options keyword value).map field = (read value).map some
  miss : ∀ {options options' : SolverOptions} {key value : String}, key ≠ keyword →
    steer options key value = .ok options' → field options' = field options

namespace Steering

variable {β : Type}

def cores : Steering Bool where
  keyword := ":produce-unsat-cores"
  read := parseBool
  field := SolverOptions.cores
  hit options value := by
    rw [steer, if_pos rfl]
    cases parseBool value <;> rfl
  miss hkey h := by
    rcases steer_cases h with ⟨rfl, _⟩ | ⟨rfl, _, _, rfl⟩ | ⟨rfl, _, _, rfl⟩ | rfl
    · exact absurd rfl hkey
    all_goals rfl

def models : Steering Bool where
  keyword := ":produce-models"
  read := parseBool
  field := SolverOptions.models
  hit options value := by
    rw [steer, if_neg (by decide), if_pos rfl]
    cases parseBool value <;> rfl
  miss hkey h := by
    rcases steer_cases h with ⟨rfl, _, _, rfl⟩ | ⟨rfl, _⟩ | ⟨rfl, _, _, rfl⟩ | rfl
    · rfl
    · exact absurd rfl hkey
    all_goals rfl

def seed : Steering Nat where
  keyword := ":random-seed"
  read := parseSeed
  field := SolverOptions.seed
  hit options value := by
    rw [steer, if_neg (by decide), if_neg (by decide), if_pos rfl]
    cases parseSeed value <;> rfl
  miss hkey h := by
    rcases steer_cases h with ⟨rfl, _, _, rfl⟩ | ⟨rfl, _, _, rfl⟩ | ⟨rfl, _⟩ | rfl
    · rfl
    · rfl
    · exact absurd rfl hkey
    · rfl

/-- Whether the solver options have the translation of what is recorded for an option, and nothing
if nothing is recorded. -/
def Agrees (option : Steering β) (c : Configuration) : Prop :=
  (c.recorded.get? option.keyword).map option.read = (option.field c.options).map .ok

theorem agrees_ofSolver (option : Steering β) (solver : String)
    (h : option.field ⟨none, none, none⟩ = none) : option.Agrees (ofSolver solver) := by
  rw [Agrees, ofSolver, h]
  rfl

/-- A call for the option itself leaves agreement if and only if the value is accepted. -/
theorem agrees_setOption (option : Steering β) (value : String) (c : Configuration) :
    option.Agrees ((setOption option.keyword value).run c).2 ↔
      accepts option.keyword value = true := by
  have hhit := option.hit c.options value
  rw [Agrees, accepts_eq _ _ c.options, run_setOption]
  cases hsteer : steer c.options option.keyword value with
  | ok options =>
    obtain ⟨read, hread⟩ : ∃ read, option.read value = .ok read := by
      cases hread : option.read value with
      | ok read => exact ⟨read, rfl⟩
      | error e => simp [hsteer, hread, Except.map] at hhit
    have hfield : option.field options = some read := by
      simpa [hsteer, hread, Except.map] using hhit
    simp [hread, hfield, Except.isOk, Except.toBool]
  | error e =>
    have hread : option.read value = .error e := by
      cases hread : option.read value with
      | ok read => simp [hsteer, hread, Except.map] at hhit
      | error e' => simpa [hsteer, hread, Except.map, eq_comm] using hhit
    cases option.field c.options <;> simp [hread, Except.isOk, Except.toBool]

theorem agrees_setOption_of_ne (option : Steering β) {key : String} (hkey : key ≠ option.keyword)
    (value : String) (c : Configuration) :
    option.Agrees ((setOption key value).run c).2 ↔ option.Agrees c := by
  rw [Agrees, Agrees, run_setOption]
  cases hsteer : steer c.options key value with
  | ok options => simp [Ne.symm hkey, option.miss hkey hsteer]
  | error e => simp [Ne.symm hkey]

/-- An option agrees with its record if and only if the last call for it, if there was one, was
accepted. -/
theorem agrees_configured (option : Steering β) (h : option.field ⟨none, none, none⟩ = none)
    (solver : String) (calls : List (String × String)) :
    option.Agrees (configured solver calls) ↔
      ∀ value, calls.lookup option.keyword = some value → accepts option.keyword value = true := by
  induction calls with
  | nil => exact iff_of_true (option.agrees_ofSolver solver h) fun _ hlookup => nomatch hlookup
  | cons call earlier ih =>
    obtain ⟨key, value⟩ := call
    rw [configured, Table.lookup_cons_eq]
    by_cases hkey : key = option.keyword
    · subst hkey
      rw [agrees_setOption, if_pos rfl]
      exact ⟨fun h _ hvalue => Option.some.inj hvalue ▸ h, fun h => h value rfl⟩
    · rw [agrees_setOption_of_ne option hkey, if_neg (Ne.symm hkey), ih]

end Steering

/-! ### Any number of calls -/

/-- Every translated option is the translation of what is recorded for it. -/
structure Consistent (c : Configuration) : Prop where
  cores : (c.recorded.get? ":produce-unsat-cores").map parseBool = c.options.cores.map .ok
  models : (c.recorded.get? ":produce-models").map parseBool = c.options.models.map .ok
  seed : (c.recorded.get? ":random-seed").map parseSeed = c.options.seed.map .ok

theorem accepts_of_ne {keyword : String} (value : String)
    (hcores : keyword ≠ ":produce-unsat-cores") (hmodels : keyword ≠ ":produce-models")
    (hseed : keyword ≠ ":random-seed") : accepts keyword value = true := by
  rw [accepts_eq keyword value ⟨none, none, none⟩, steer, if_neg hcores, if_neg hmodels,
    if_neg hseed]
  rfl

theorem consistent_configured_iff (solver : String) (calls : List (String × String)) :
    Consistent (configured solver calls) ↔
      ∀ keyword value, calls.lookup keyword = some value → accepts keyword value = true := by
  have hcores := Steering.cores.agrees_configured rfl solver calls
  have hmodels := Steering.models.agrees_configured rfl solver calls
  have hseed := Steering.seed.agrees_configured rfl solver calls
  constructor
  · intro h keyword value hlookup
    by_cases hkeyword : keyword = ":produce-unsat-cores"
    · subst hkeyword
      exact hcores.mp h.cores value hlookup
    by_cases hkeyword' : keyword = ":produce-models"
    · subst hkeyword'
      exact hmodels.mp h.models value hlookup
    by_cases hkeyword'' : keyword = ":random-seed"
    · subst hkeyword''
      exact hseed.mp h.seed value hlookup
    exact accepts_of_ne value hkeyword hkeyword' hkeyword''
  · intro h
    exact ⟨hcores.mpr (h _), hmodels.mpr (h _), hseed.mpr (h _)⟩

theorem recorded_configured (solver : String) (calls : List (String × String)) (keyword : String) :
    (configured solver calls).recorded.get? keyword = calls.lookup keyword := by
  induction calls with
  | nil => rfl
  | cons call earlier ih =>
    rw [configured, run_setOption, Table.lookup_cons_eq]
    split <;> rw [Table.get?_insert, ih]

/-- Calls that fail change nothing of what the solver gets. -/
theorem options_configured (solver : String) (calls : List (String × String)) :
    (configured solver calls).options =
      (configured solver (calls.filter fun call => accepts call.1 call.2)).options := by
  induction calls with
  | nil => rfl
  | cons call earlier ih =>
    obtain ⟨keyword, value⟩ := call
    rw [configured, run_setOption, List.filter_cons, accepts_eq keyword value _]
    cases hsteer : steer (configured solver earlier).options keyword value with
    | error e => exact ih
    | ok options =>
      show options = ((setOption keyword value).run _).2.options
      rw [run_setOption, ← ih, hsteer]

end SmtScript.Configuration

namespace SmtScript.Session

variable {σ μ : Type}

/-- An option is reported with its recorded text, whether this was accepted or not. -/
theorem getOption_recorded {S : Session σ μ} (hopen : S.status ≠ .closed) (keyword : String) :
    (getOption keyword).run S =
      (match S.configuration.recorded.get? keyword with
        | some value => .ok value
        | none => .error (.optionNotSet keyword), S) := by
  rw [getOption, Step.run_bind_ok (run_requireOpen hopen), Step.run_bind_ok (Step.run_get S)]
  cases S.configuration.recorded.get? keyword <;> rfl

end SmtScript.Session

namespace SmtScript.Configuration

/-- What calls make of an empty configuration, those that fail included. The record has the last
text of each option, the solver options the translation of the last value that was accepted; the
two are consistent if and only if no option was last set to a value that is refused. A call that
fails leaves the solver options and records its text: the configuration is the same only if it had
this text already, and it is not consistent in any case. A session reports the last text, accepted
or not. -/
theorem options_follow_accepted (solver : String) (calls : List (String × String)) :
    (Consistent (configured solver calls) ↔
      ∀ keyword value, calls.lookup keyword = some value → accepts keyword value = true) ∧
    (∀ keyword, (configured solver calls).recorded.get? keyword = calls.lookup keyword) ∧
    (Consistent (configured solver (calls.filter fun call => accepts call.1 call.2)) ∧
      (configured solver calls).options =
        (configured solver (calls.filter fun call => accepts call.1 call.2)).options) ∧
    (∀ keyword value e next,
      (setOption keyword value).run (configured solver calls) = (.error e, next) →
        next.options = (configured solver calls).options ∧
        next.recorded = (configured solver calls).recorded.insert keyword value ∧
        (next = configured solver calls ↔ calls.lookup keyword = some value) ∧
        ¬ Consistent next) ∧
    ∀ {σ μ : Type} (S : Session σ μ), S.configuration = configured solver calls →
      S.status ≠ .closed → ∀ keyword value,
        (((Session.getOption keyword).run S).1 = .ok value ↔
          calls.lookup keyword = some value) := by
  refine ⟨consistent_configured_iff solver calls, recorded_configured solver calls,
    ⟨(consistent_configured_iff solver _).mpr fun keyword value h => ?_,
      options_configured solver calls⟩, fun keyword value e next hrun => ?_,
    fun S hconfiguration hopen keyword value => ?_⟩
  · exact (List.mem_filter.mp (Environment.mem_of_lookup h)).2
  · have hrefused : accepts keyword value = false := by
      rw [← isOk_setOption keyword value (configured solver calls), hrun]
      rfl
    have hnext : next = configured solver ((keyword, value) :: calls) := by
      rw [configured, hrun]
    have hrecord : next = { configured solver calls with
        recorded := (configured solver calls).recorded.insert keyword value } := by
      rw [run_setOption] at hrun
      split at hrun
      · cases hrun
      · exact (Prod.mk.inj hrun).2.symm
    refine ⟨by rw [hrecord], by rw [hrecord], ?_, fun hconsistent => ?_⟩
    · rw [hrecord, ← recorded_configured solver, ← Table.insert_eq_self_iff]
      exact ⟨congrArg recorded, fun h => by rw [h]⟩
    · rw [hnext, consistent_configured_iff] at hconsistent
      have := hconsistent keyword value (by simp)
      rw [hrefused] at this
      cases this
  · rw [Session.getOption_recorded hopen, hconfiguration, recorded_configured]
    cases calls.lookup keyword <;> simp

/-- A seed that is refused after one that was accepted: it is recorded, and the old one counts. -/
theorem options_follow_accepted_seed :
    ∃ before next, before = configured "z3" [(":random-seed", "3")] ∧
      next = configured "z3" [(":random-seed", "abc"), (":random-seed", "3")] ∧
      (setOption ":random-seed" "abc").run before = (.error (.notASeed "abc"), next) ∧
      next.options = ⟨none, none, some 3⟩ ∧ ¬ Consistent next ∧
      Consistent (configured "z3" [(":random-seed", "3"), (":random-seed", "abc")]) := by
  have hrefused := (options_follow_accepted "z3" [(":random-seed", "3")]).2.2.2.1
    ":random-seed" "abc" (.notASeed "abc") _ rfl
  refine ⟨_, _, rfl, rfl, rfl, hrefused.1, hrefused.2.2.2, ?_⟩
  refine (options_follow_accepted "z3" [(":random-seed", "3"), (":random-seed", "abc")]).1.mpr ?_
  intro keyword value h
  rw [Table.lookup_cons_eq, Table.lookup_cons_eq] at h
  split_ifs at h with hkeyword
  · obtain rfl := Option.some.inj h
    subst hkeyword
    rfl
  · cases h

end SmtScript.Configuration
