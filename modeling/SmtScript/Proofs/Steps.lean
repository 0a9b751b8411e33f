/-!
Running steps that may fail and keep the state in either case.

A step is run on a state and gives a result or an error, and the state that it leaves. The lemmas
say what this is for the ways of putting steps together. `Step.Leads` is what a step does to the
state in any case, and what holds of its result; `Step.Stops` is what holds if it fails.
-/

namespace SmtScript

namespace Step

variable {ε σ α β : Type}

@[simp] theorem run_pure (a : α) (s : σ) :
    (pure a : ExceptT ε (StateM σ) α).run s = (.ok a, s) := rfl

@[simp] theorem run_throw (e : ε) (s : σ) :
    (throw e : ExceptT ε (StateM σ) α).run s = (.error e, s) := rfl

/-- A result that is known already. -/
@[simp] theorem run_mk (r : Except ε α) (s : σ) :
    (ExceptT.mk (pure r) : ExceptT ε (StateM σ) α).run s = (r, s) := rfl

@[simp] theorem run_get (s : σ) : (get : ExceptT ε (StateM σ) σ).run s = (.ok s, s) := rfl

@[simp] theorem run_set (s s' : σ) :
    (set s' : ExceptT ε (StateM σ) PUnit).run s = (.ok ⟨⟩, s') := rfl

@[simp] theorem run_modify (f : σ → σ) (s : σ) :
    (modify f : ExceptT ε (StateM σ) PUnit).run s = (.ok ⟨⟩, f s) := rfl

@[simp] theorem run_modifyGet (f : σ → α × σ) (s : σ) :
    (modifyGet f : ExceptT ε (StateM σ) α).run s = (.ok (f s).1, (f s).2) := rfl

/-- Steps one after the other: what the first one gives decides how it goes on. -/
theorem run_bind (x : ExceptT ε (StateM σ) α) (f : α → ExceptT ε (StateM σ) β) (s : σ) :
    (x >>= f).run s =
      match (x.run s : Except ε α × σ) with
      | (.ok a, s') => (f a).run s'
      | (.error e, s') => (.error e, s') := by
  rw [ExceptT.run_bind]
  show (match (x.run s : Except ε α × σ).1 with
    | .ok a => (f a).run
    | .error e => pure (.error e)) (x.run s : Except ε α × σ).2 = _
  cases (x.run s : Except ε α × σ) with
  | mk r s' => cases r <;> rfl

theorem run_bind_ok {x : ExceptT ε (StateM σ) α} {f : α → ExceptT ε (StateM σ) β} {s s' : σ}
    {a : α} (h : x.run s = (.ok a, s')) : (x >>= f).run s = (f a).run s' := by
  rw [run_bind, h]

theorem run_bind_error {x : ExceptT ε (StateM σ) α} {f : α → ExceptT ε (StateM σ) β} {s s' : σ}
    {e : ε} (h : x.run s = (.error e, s')) : (x >>= f).run s = (.error e, s') := by
  rw [run_bind, h]

/-- A step without a result of its own, once it is known to succeed. -/
theorem run_of_isOk {x : ExceptT ε (StateM σ) PUnit} {s : σ}
    (h : (x.run s : Except ε PUnit × σ).1.isOk = true) :
    (x.run s : Except ε PUnit × σ) = (.ok ⟨⟩, (x.run s : Except ε PUnit × σ).2) := by
  revert h
  generalize (x.run s : Except ε PUnit × σ) = p
  obtain ⟨r, s'⟩ := p
  intro h
  cases r with
  | ok a => rfl
  | error e => cases h

/-- Whether a relation of states goes along any number of steps. -/
structure Closed (R : σ → σ → Prop) : Prop where
  refl : ∀ s, R s s
  trans : ∀ {s s' s''}, R s s' → R s' s'' → R s s''

/-- Whether a step leads to a related state, and its result, if it has one, is as expected. -/
def Leads (R : σ → σ → Prop) (x : ExceptT ε (StateM σ) α) (s : σ) (Q : σ → α → Prop) : Prop :=
  ∀ r s', x.run s = (r, s') → R s s' ∧ ∀ a, r = .ok a → Q s' a

variable {R : σ → σ → Prop} {s : σ} {Q : σ → α → Prop}

theorem Leads.of_run {x : ExceptT ε (StateM σ) α} {r : Except ε α} {s' : σ}
    (hrun : x.run s = (r, s')) (hR : R s s') (hQ : ∀ a, r = .ok a → Q s' a) :
    Leads R x s Q := by
  intro r' s'' h
  obtain ⟨rfl, rfl⟩ := Prod.mk.inj (hrun.symm.trans h)
  exact ⟨hR, hQ⟩

theorem Leads.mono {x : ExceptT ε (StateM σ) α} {Q' : σ → α → Prop} (h : Leads R x s Q)
    (hQ : ∀ s' a, R s s' → Q s' a → Q' s' a) : Leads R x s Q' := by
  intro r s' hrun
  obtain ⟨hR, hres⟩ := h r s' hrun
  exact ⟨hR, fun a ha => hQ s' a hR (hres a ha)⟩

/-- The state that a step ends in is related to the first one. -/
theorem Leads.keep {x : ExceptT ε (StateM σ) α} (h : Leads R x s Q) :
    Leads R x s fun s' a => R s s' ∧ Q s' a :=
  h.mono fun _ _ hR hQ => ⟨hR, hQ⟩

/-- What a step gives is what running it gives. -/
theorem Leads.ran {x : ExceptT ε (StateM σ) α} (h : Leads R x s Q) :
    Leads R x s fun s' a => x.run s = (.ok a, s') ∧ Q s' a := by
  intro r s' hrun
  obtain ⟨hR, hres⟩ := h r s' hrun
  exact ⟨hR, fun a ha => ⟨ha ▸ hrun, hres a ha⟩⟩

theorem Leads.weaken {R' : σ → σ → Prop} {x : ExceptT ε (StateM σ) α} (h : Leads R x s Q)
    (hR : ∀ s', R s s' → R' s s') : Leads R' x s Q := by
  intro r s' hrun
  obtain ⟨hs', hres⟩ := h r s' hrun
  exact ⟨hR s' hs', hres⟩

theorem Leads.pure (hR : Closed R) {a : α} (h : Q s a) :
    Leads R (pure a : ExceptT ε (StateM σ) α) s Q :=
  .of_run (run_pure a s) (hR.refl s) fun _ ha => Except.ok.inj ha ▸ h

theorem Leads.throw (hR : Closed R) (e : ε) :
    Leads R (throw e : ExceptT ε (StateM σ) α) s Q :=
  .of_run (run_throw e s) (hR.refl s) nofun

theorem Leads.mk (hR : Closed R) {r : Except ε α} (h : ∀ a, r = .ok a → Q s a) :
    Leads R (ExceptT.mk (Pure.pure r) : ExceptT ε (StateM σ) α) s Q :=
  .of_run (run_mk r s) (hR.refl s) h

theorem Leads.bind (hR : Closed R) {x : ExceptT ε (StateM σ) α}
    {f : α → ExceptT ε (StateM σ) β} {Q' : σ → β → Prop} (hx : Leads R x s Q)
    (hf : ∀ a s', R s s' → Q s' a → Leads R (f a) s' Q') : Leads R (x >>= f) s Q' := by
  intro r s'' h
  rw [run_bind] at h
  split at h
  · rename_i a s' hrun
    obtain ⟨hR', hres⟩ := hx _ _ hrun
    obtain ⟨hR'', hres'⟩ := hf a s' hR' (hres a rfl) r s'' h
    exact ⟨hR.trans hR' hR'', hres'⟩
  · rename_i e s' hrun
    obtain ⟨rfl, rfl⟩ := Prod.mk.inj h
    exact ⟨(hx _ _ hrun).1, nofun⟩

/-- The last steps, in view of where the whole leads. -/
theorem Leads.bind_into {R' : σ → σ → Prop} {x : ExceptT ε (StateM σ) α}
    {f : α → ExceptT ε (StateM σ) β} {Q' : σ → β → Prop} (hx : Leads R x s Q)
    (hstop : ∀ s', R s s' → R' s s')
    (hf : ∀ a s', R s s' → Q s' a → Leads (fun _ => R' s) (f a) s' Q') :
    Leads R' (x >>= f) s Q' := by
  intro r s'' h
  rw [run_bind] at h
  split at h
  · rename_i a s' hrun
    obtain ⟨hR, hres⟩ := hx _ _ hrun
    exact hf a s' hR (hres a rfl) r s'' h
  · rename_i e s' hrun
    obtain ⟨rfl, rfl⟩ := Prod.mk.inj h
    exact ⟨hstop _ (hx _ _ hrun).1, nofun⟩

theorem Closed.and {R' : σ → σ → Prop} (h : Closed R) (h' : Closed R') :
    Closed fun s s' => R s s' ∧ R' s s' where
  refl s := ⟨h.refl s, h'.refl s⟩
  trans hs hs' := ⟨h.trans hs.1 hs'.1, h'.trans hs.2 hs'.2⟩

theorem closed_eq : Closed (@Eq σ) := ⟨fun _ => rfl, Eq.trans⟩

theorem closed_true : Closed fun _ _ : σ => True := ⟨fun _ => trivial, fun _ _ => trivial⟩

theorem Leads.any (x : ExceptT ε (StateM σ) α) (s : σ) :
    Leads (fun _ _ => True) x s fun _ _ => True :=
  fun _ _ _ => ⟨trivial, fun _ _ => trivial⟩

/-- A step that leaves the state alone comes first. -/
theorem Leads.bind_same {x : ExceptT ε (StateM σ) α} {f : α → ExceptT ε (StateM σ) β}
    {Q' : σ → β → Prop} (hrefl : R s s) (hx : Leads Eq x s Q)
    (hf : ∀ a, Q s a → Leads R (f a) s Q') : Leads R (x >>= f) s Q' := by
  intro r s'' h
  rw [run_bind] at h
  split at h
  · rename_i a s' hrun
    obtain ⟨rfl, hres⟩ := hx _ _ hrun
    exact hf a (hres a rfl) r s'' h
  · rename_i e s' hrun
    obtain ⟨rfl, _⟩ := hx _ _ hrun
    obtain ⟨rfl, rfl⟩ := Prod.mk.inj h
    exact ⟨hrefl, nofun⟩

/-- A step that leaves the state alone fails or has a result. -/
theorem Leads.same {x : ExceptT ε (StateM σ) α} (h : Leads Eq x s Q) :
    (∃ e, x.run s = (.error e, s)) ∨ ∃ a, x.run s = (.ok a, s) ∧ Q s a := by
  obtain ⟨⟨r, s'⟩, hrun⟩ : ∃ p, x.run s = p := ⟨_, rfl⟩
  obtain ⟨rfl, hres⟩ := h r s' hrun
  cases r with
  | error e => exact .inl ⟨e, hrun⟩
  | ok a => exact .inr ⟨a, hrun, hres a rfl⟩

/-- A step that is known to succeed is passed by. -/
theorem Leads.bind_of_run {x : ExceptT ε (StateM σ) α} {f : α → ExceptT ε (StateM σ) β}
    {P : σ → Prop} {Q' : σ → β → Prop} {a : α} {s' : σ} (hrun : x.run s = (.ok a, s'))
    (h : Leads (fun _ => P) (f a) s' Q') : Leads (fun _ => P) (x >>= f) s Q' := by
  intro r s'' hbind
  rw [run_bind_ok hrun] at hbind
  exact h r s'' hbind

/-- A step that fails at once, or does the same as another one under some condition. -/
theorem Leads.guarded {x y : ExceptT ε (StateM σ) α} {f : α → ExceptT ε (StateM σ) β}
    {Q : σ → β → Prop} {P : Prop} (hrefl : R s s)
    (h : (∃ e, x.run s = (.error e, s)) ∨ P ∧ x.run s = y.run s)
    (hy : P → Leads R (y >>= f) s Q) : Leads R (x >>= f) s Q := by
  intro r s' hrun
  rcases h with ⟨e, he⟩ | ⟨hP, heq⟩
  · rw [run_bind_error he] at hrun
    obtain ⟨rfl, rfl⟩ := Prod.mk.inj hrun
    exact ⟨hrefl, nofun⟩
  · rw [run_bind, heq, ← run_bind] at hrun
    exact hy hP r s' hrun

/-- A look at the state. -/
theorem Leads.get {f : σ → ExceptT ε (StateM σ) α} (h : Leads R (f s) s Q) :
    Leads R (MonadState.get >>= f) s Q := by
  intro r s' hrun
  rw [run_bind] at hrun
  exact h r s' hrun

theorem Leads.modify {f : σ → σ} {Q : σ → PUnit → Prop} (hR : R s (f s))
    (h : Q (f s) ⟨⟩) : Leads R (modify f : ExceptT ε (StateM σ) PUnit) s Q :=
  .of_run (run_modify f s) hR fun _ _ => h

/-! ### Steps that fail -/

/-- Whether a step that fails does so with an error and a state that are as expected. -/
def Stops (E : ε → σ → Prop) (x : ExceptT ε (StateM σ) α) (s : σ) : Prop :=
  ∀ e s', x.run s = (.error e, s') → E e s'

variable {E : ε → σ → Prop}

theorem Leads.stops {x : ExceptT ε (StateM σ) α} (h : Leads R x s Q) :
    Stops (fun _ => R s) x s :=
  fun _ _ hrun => (h _ _ hrun).1

theorem Stops.mono {x : ExceptT ε (StateM σ) α} {E' : ε → σ → Prop} (h : Stops E x s)
    (hE : ∀ e s', E e s' → E' e s') : Stops E' x s :=
  fun e s' hrun => hE e s' (h e s' hrun)

theorem Stops.of_ok {x : ExceptT ε (StateM σ) α} {a : α} {s' : σ} (h : x.run s = (.ok a, s')) :
    Stops E x s := by
  intro e s'' hrun
  cases h.symm.trans hrun

theorem Stops.of_error {x : ExceptT ε (StateM σ) α} {e : ε} {s' : σ}
    (h : x.run s = (.error e, s')) (hE : E e s') : Stops E x s := by
  intro e' s'' hrun
  obtain ⟨he, rfl⟩ := Prod.mk.inj (h.symm.trans hrun)
  exact Except.error.inj he ▸ hE

theorem Stops.pure (a : α) : Stops E (pure a : ExceptT ε (StateM σ) α) s := .of_ok rfl

theorem Stops.modify (f : σ → σ) : Stops E (modify f : ExceptT ε (StateM σ) PUnit) s := .of_ok rfl

theorem Stops.throw {e : ε} (h : E e s) : Stops E (throw e : ExceptT ε (StateM σ) α) s :=
  .of_error rfl h

theorem Stops.bind {x : ExceptT ε (StateM σ) α} {f : α → ExceptT ε (StateM σ) β}
    (hx : Stops E x s) (hf : ∀ a s', x.run s = (.ok a, s') → Stops E (f a) s') :
    Stops E (x >>= f) s := by
  intro e s'' h
  rw [run_bind] at h
  split at h
  · rename_i a s' hrun
    exact hf a s' hrun e s'' h
  · rename_i e' s' hrun
    obtain ⟨he, rfl⟩ := Prod.mk.inj h
    exact Except.error.inj he ▸ hx e' s' hrun

/-- A step that is known to succeed comes first. -/
theorem Stops.bind_of_run {x : ExceptT ε (StateM σ) α} {f : α → ExceptT ε (StateM σ) β} {a : α}
    {s' : σ} (hrun : x.run s = (.ok a, s')) (h : Stops E (f a) s') : Stops E (x >>= f) s := by
  intro e s'' hbind
  rw [run_bind_ok hrun] at hbind
  exact h e s'' hbind

/-- A step that leads somewhere comes first. -/
theorem Stops.bind_leads {x : ExceptT ε (StateM σ) α} {f : α → ExceptT ε (StateM σ) β}
    (hx : Leads R x s Q) (hstop : ∀ e s', R s s' → E e s')
    (hf : ∀ a s', R s s' → Q s' a → Stops E (f a) s') : Stops E (x >>= f) s :=
  .bind (hx.stops.mono hstop) fun a s' hrun =>
    hf a s' (hx _ _ hrun).1 ((hx _ _ hrun).2 a rfl)

/-- Where a step leads, if it succeeds, together with how it fails, if it does. -/
theorem Stops.bind_and_leads (hR : Closed R) {x : ExceptT ε (StateM σ) α}
    {f : α → ExceptT ε (StateM σ) β} {Q' : σ → β → Prop} (hx : Stops E x s ∧ Leads R x s Q)
    (hf : ∀ a s', R s s' → Q s' a → Stops E (f a) s' ∧ Leads R (f a) s' Q') :
    Stops E (x >>= f) s ∧ Leads R (x >>= f) s Q' :=
  ⟨.bind hx.1 fun a s' hrun => (hf a s' (hx.2 _ _ hrun).1 ((hx.2 _ _ hrun).2 a rfl)).1,
    .bind hR hx.2 fun a s' hs' ha => (hf a s' hs' ha).2⟩

theorem Stops.get {f : σ → ExceptT ε (StateM σ) α} (h : Stops E (f s) s) :
    Stops E (MonadState.get >>= f) s := by
  intro e s' hrun
  rw [run_bind] at hrun
  exact h e s' hrun

/-! ### Steps on related states -/

/-- Whether two steps give the same result and, if they give one, lead to related states. -/
def Alike (x y : ExceptT ε (StateM σ) α) (s s' : σ) (Q : σ → σ → Prop) : Prop :=
  (x.run s).1 = (y.run s').1 ∧ ∀ a, (x.run s).1 = .ok a → Q (x.run s).2 (y.run s').2

variable {s' : σ} {P : σ → σ → Prop} {Q' : σ → σ → Prop}

theorem Alike.pure {a : α} (h : P s s') :
    Alike (pure a : ExceptT ε (StateM σ) α) (Pure.pure a) s s' P :=
  ⟨rfl, fun _ _ => h⟩

theorem Alike.throw (e : ε) :
    Alike (throw e : ExceptT ε (StateM σ) α) (MonadExcept.throw e) s s' P :=
  ⟨rfl, nofun⟩

theorem Alike.bind {x y : ExceptT ε (StateM σ) α} {f g : α → ExceptT ε (StateM σ) β}
    (hx : Alike x y s s' P) (hf : ∀ a t t', P t t' → Alike (f a) (g a) t t' Q') :
    Alike (x >>= f) (y >>= g) s s' Q' := by
  obtain ⟨hresult, hstates⟩ := hx
  rw [Alike, run_bind, run_bind]
  revert hresult hstates
  generalize (x.run s : Except ε α × σ) = p
  generalize (y.run s' : Except ε α × σ) = q
  obtain ⟨r, t⟩ := p
  obtain ⟨r', t'⟩ := q
  rintro (rfl : r = r') hstates
  cases r with
  | ok a => exact hf a t t' (hstates a rfl)
  | error e => exact ⟨rfl, nofun⟩

theorem Alike.get {f g : σ → ExceptT ε (StateM σ) β} (h : Alike (f s) (g s') s s' Q') :
    Alike (MonadState.get >>= f) (MonadState.get >>= g) s s' Q' := by
  rw [Alike, run_bind, run_bind]
  exact h

end Step

end SmtScript
