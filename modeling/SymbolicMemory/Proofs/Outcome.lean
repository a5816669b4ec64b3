import SymbolicMemory.Session

/-! # What computations return and leave behind

A computation is described by what it returns and how it fails, from every state. For a
computation on one thing within a session, the description also says what becomes of the
thing, on success and on failure alike; the session may be in any state.
-/

namespace SymbolicMemory

theorem bind_ok {ε α β : Type} {x : Except ε α} {f : α → Except ε β} {b : β} (done : x >>= f = .ok b) :
    ∃ a, x = .ok a ∧ f a = .ok b := by
  cases x with
  | ok a => exact ⟨a, rfl, done⟩
  | error e => cases done

section Ensures

variable {ε σ α β : Type}

/-- What a computation returned, if it did not fail. -/
def returned? : EStateM.Result ε σ α → Option α
  | .ok a _ => some a
  | .error _ _ => none

theorem ok_of_returned? {result : EStateM.Result ε σ α} {a : α} (returned : returned? result = some a) :
    ∃ s, result = .ok a s := by
  cases result with
  | ok b s =>
      cases returned
      exact ⟨s, rfl⟩
  | error e s => cases returned

/-- From every state, a computation returns what is stated or fails as stated. -/
def Ensures (x : EStateM ε σ α) (returns : α → Prop) (fails : ε → Prop) : Prop :=
  ∀ s, match x s with
    | .ok a _ => returns a
    | .error e _ => fails e

namespace Ensures

variable {returns : α → Prop} {fails : ε → Prop}

theorem pure {a : α} (h : returns a) : Ensures (Pure.pure a : EStateM ε σ α) returns fails :=
  fun _ => h

theorem throw {e : ε} (h : fails e) : Ensures (MonadExcept.throw e : EStateM ε σ α) returns fails :=
  fun _ => h

theorem trivial (x : EStateM ε σ α) : Ensures x (fun _ => True) (fun _ => True) := by
  intro s
  cases x s <;> exact True.intro

theorem mono {x : EStateM ε σ α} (h : Ensures x returns fails) {returns' : α → Prop}
    {fails' : ε → Prop} (weaker : ∀ a, returns a → returns' a)
    (weakerFails : ∀ e, fails e → fails' e) : Ensures x returns' fails' := by
  intro s
  have here := h s
  cases result : x s with
  | ok a s' =>
      rw [result] at here
      exact weaker a here
  | error e s' =>
      rw [result] at here
      exact weakerFails e here

theorem bind {x : EStateM ε σ α} {f : α → EStateM ε σ β} {returns' : β → Prop}
    (hx : Ensures x returns fails) (hf : ∀ a, returns a → Ensures (f a) returns' fails) :
    Ensures (x >>= f) returns' fails := by
  intro s
  have first := hx s
  simp only [Bind.bind, EStateM.bind]
  cases result : x s with
  | ok a s' =>
      rw [result] at first
      exact hf a first s'
  | error e s' =>
      rw [result] at first
      exact first

theorem tryCatch {x : EStateM ε σ α} {handle : ε → EStateM ε σ α} {fails' : ε → Prop}
    (hx : Ensures x returns fails) (hh : ∀ e, fails e → Ensures (handle e) returns fails') :
    Ensures (MonadExcept.tryCatch x handle) returns fails' := by
  intro s
  have first := hx s
  simp only [MonadExcept.tryCatch, tryCatchThe, MonadExceptOf.tryCatch]
  delta EStateM.tryCatch
  dsimp only
  cases result : x s with
  | ok a s' =>
      rw [result] at first
      exact first
  | error e s' =>
      rw [result] at first
      exact hh e first _

end Ensures

end Ensures

section Leads

variable {ε σ α β : Type} {R : σ → σ → Prop}

/-- Whatever comes of a computation, it leaves a state that is related to the one before. -/
def Leads (R : σ → σ → Prop) (x : EStateM ε σ α) : Prop :=
  ∀ s, match x s with
    | .ok _ s' => R s s'
    | .error _ s' => R s s'

namespace Leads

theorem pure [Std.Refl R] (a : α) : Leads R (Pure.pure a : EStateM ε σ α) :=
  fun s => Std.Refl.refl s

theorem throw [Std.Refl R] (e : ε) : Leads R (MonadExcept.throw e : EStateM ε σ α) :=
  fun s => Std.Refl.refl s

theorem of_ok {x : EStateM ε σ α} (h : Leads R x) {s s' : σ} {a : α} (done : x s = .ok a s') : R s s' := by
  have here := h s
  rw [done] at here
  exact here

theorem of_error {x : EStateM ε σ α} (h : Leads R x) {s s' : σ} {e : ε} (failed : x s = .error e s') :
    R s s' := by
  have here := h s
  rw [failed] at here
  exact here

/-- A relation that holds on the way to a computation holds to its end. -/
theorem after [Trans R R R] {x : EStateM ε σ α} (h : Leads R x) {s s' : σ} (before : R s s') :
    match x s' with
    | .ok _ s'' => R s s''
    | .error _ s'' => R s s'' := by
  cases result : x s' with
  | ok a s'' => exact (Trans.trans before (h.of_ok result) : R s s'')
  | error e s'' => exact (Trans.trans before (h.of_error result) : R s s'')

theorem bind [Trans R R R] {x : EStateM ε σ α} {f : α → EStateM ε σ β} (hx : Leads R x)
    (hf : ∀ a, Leads R (f a)) : Leads R (x >>= f) := by
  intro s
  simp only [Bind.bind, EStateM.bind]
  cases result : x s with
  | ok a s' => exact (hf a).after (hx.of_ok result)
  | error e s' => exact hx.of_error result

/-- Goes on knowing what was returned. -/
theorem bindThat [Trans R R R] {x : EStateM ε σ α} {f : α → EStateM ε σ β} {returns : α → Prop}
    {fails : ε → Prop} (hx : Leads R x) (that : Ensures x returns fails)
    (hf : ∀ a, returns a → Leads R (f a)) : Leads R (x >>= f) := by
  intro s
  have here := that s
  simp only [Bind.bind, EStateM.bind]
  cases result : x s with
  | ok a s' =>
      rw [result] at here
      exact (hf a here).after (hx.of_ok result)
  | error e s' => exact hx.of_error result

theorem stop [Std.Refl R] (e : ε) (f : α → EStateM ε σ β) : Leads R (MonadExcept.throw e >>= f) :=
  fun s => Std.Refl.refl s

end Leads

/-- A computation that goes on and succeeds has succeeded so far. -/
theorem ok_of_bind {x : EStateM ε σ α} {f : α → EStateM ε σ β} {s s' : σ} {b : β}
    (done : (x >>= f) s = .ok b s') : ∃ a left, x s = .ok a left ∧ f a left = .ok b s' := by
  simp only [Bind.bind, EStateM.bind] at done
  cases result : x s with
  | ok a left =>
      rw [result] at done
      exact ⟨a, left, rfl, done⟩
  | error e left =>
      rw [result] at done
      cases done

/-- A computation that goes on and fails has failed at first or later. -/
theorem error_of_bind {x : EStateM ε σ α} {f : α → EStateM ε σ β} {s s' : σ} {e : ε}
    (failed : (x >>= f) s = .error e s') :
    x s = .error e s' ∨ ∃ a left, x s = .ok a left ∧ f a left = .error e s' := by
  simp only [Bind.bind, EStateM.bind] at failed
  cases result : x s with
  | ok a left =>
      rw [result] at failed
      exact .inr ⟨a, left, rfl, failed⟩
  | error e' left =>
      rw [result] at failed
      cases failed
      exact .inl rfl

end Leads

section Ends

variable {ε σ α β : Type} {s : σ} {returns : α → σ → Prop} {fails : ε → σ → Prop}

/-- From one state, a computation returns what is stated and leaves what is stated, or fails and
    leaves what is stated. -/
def Ends (x : EStateM ε σ α) (s : σ) (returns : α → σ → Prop) (fails : ε → σ → Prop) : Prop :=
  match x s with
  | .ok a s' => returns a s'
  | .error e s' => fails e s'

instance (x : EStateM ε σ α) (s : σ) [∀ a s', Decidable (returns a s')] [∀ e s', Decidable (fails e s')] :
    Decidable (Ends x s returns fails) :=
  match result : x s with
  | .ok a s' => decidable_of_iff (returns a s') (by rw [Ends, result])
  | .error e s' => decidable_of_iff (fails e s') (by rw [Ends, result])

namespace Ends

theorem of_ok {x : EStateM ε σ α} (h : Ends x s returns fails) {a : α} {s' : σ}
    (done : x s = .ok a s') : returns a s' := by
  rw [Ends, done] at h
  exact h

theorem of_error {x : EStateM ε σ α} (h : Ends x s returns fails) {e : ε} {s' : σ}
    (failed : x s = .error e s') : fails e s' := by
  rw [Ends, failed] at h
  exact h

theorem intro {x : EStateM ε σ α} (ok : ∀ a s', x s = .ok a s' → returns a s')
    (error : ∀ e s', x s = .error e s' → fails e s') : Ends x s returns fails := by
  unfold Ends
  cases result : x s with
  | ok a s' => exact ok a s' result
  | error e s' => exact error e s' result

theorem pure {a : α} (h : returns a s) : Ends (Pure.pure a) s returns fails := h

theorem throw {e : ε} (h : fails e s) : Ends (MonadExcept.throw e) s returns fails := h

theorem bind {x : EStateM ε σ α} {f : α → EStateM ε σ β} {failed : ε → σ → Prop}
    {returns' : β → σ → Prop} (hx : Ends x s returns failed)
    (weaker : ∀ e s', failed e s' → fails e s')
    (hf : ∀ a s', returns a s' → Ends (f a) s' returns' fails) : Ends (x >>= f) s returns' fails := by
  unfold Ends
  simp only [Bind.bind, EStateM.bind]
  cases result : x s with
  | ok a s' => exact hf a s' (hx.of_ok result)
  | error e s' => exact weaker e s' (hx.of_error result)

theorem tryCatch {x : EStateM ε σ α} {handle : ε → EStateM ε σ α} {failed : ε → σ → Prop}
    (hx : Ends x s returns failed) (hh : ∀ e s', failed e s' → Ends (handle e) s' returns fails) :
    Ends (MonadExcept.tryCatch x handle) s returns fails := by
  unfold Ends
  simp only [MonadExcept.tryCatch, tryCatchThe, MonadExceptOf.tryCatch]
  delta EStateM.tryCatch
  dsimp only
  cases result : x s with
  | ok a s' => exact hx.of_ok result
  | error e s' => exact hh e s' (hx.of_error result)

end Ends

theorem Leads.ends {x : EStateM ε σ α} {R : σ → σ → Prop} (h : Leads R x) (s : σ) :
    Ends x s (fun _ s' => R s s') (fun _ s' => R s s') :=
  .intro (fun _ _ => h.of_ok) fun _ _ => h.of_error

/-- What is so from every state, and where this one leads to. -/
theorem Ensures.ends {x : EStateM ε σ α} {result : α → Prop} {failure : ε → Prop} {R : σ → σ → Prop}
    (h : Ensures x result failure) (leads : Leads R x) (s : σ) :
    Ends x s (fun a s' => result a ∧ R s s') (fun e s' => failure e ∧ R s s') := by
  have here := h s
  refine .intro (fun a s' done => ?_) fun e s' failed => ?_
  · rw [done] at here
    exact ⟨here, leads.of_ok done⟩
  · rw [failed] at here
    exact ⟨here, leads.of_error failed⟩

end Ends

namespace Session

theorem count_succeeds (counter : Counter) :
    Ensures (count counter) (fun _ => True) (fun _ => False) := fun _ => True.intro

theorem record_succeeds (event : Event) :
    Ensures (record event) (fun _ => True) (fun _ => False) := fun _ => True.intro

theorem draw_succeeds (supply : Supply) (next : Names → String × Names) :
    Ensures (draw supply next) (fun _ => True) (fun _ => False) := fun _ => True.intro

theorem check_ok {α : Type} (r : Except Fault α) :
    Ensures (check r) (fun a => r = .ok a) (fun _ => True) := by
  cases r with
  | ok a => exact .pure rfl
  | error fault => exact .throw True.intro

end Session

namespace On

variable {σ τ α β : Type}

theorem ensures_lift {x : Run α} {returns : α → Prop} {fails : Failure → Prop}
    (h : SymbolicMemory.Ensures x returns fails) :
    SymbolicMemory.Ensures (liftM x : On σ α) returns fails := by
  intro (thing, session)
  have here := h session
  simp only [liftM, monadLift, MonadLift.monadLift, run]
  cases result : x session with
  | ok a left =>
      rw [result] at here
      exact here
  | error e left =>
      rw [result] at here
      exact here

/-- From every session, a computation on a thing returns what is stated and leaves what is stated,
    or fails and leaves what is stated. -/
def Ensures (x : On σ α) (thing : σ) (returns : α → σ → Prop) (fails : σ → Prop) : Prop :=
  ∀ session, match x (thing, session) with
    | .ok a (thing, _) => returns a thing
    | .error _ (thing, _) => fails thing

namespace Ensures

variable {thing : σ} {returns : α → σ → Prop} {fails : σ → Prop}

theorem pure {a : α} (h : returns a thing) : Ensures (Pure.pure a) thing returns fails := fun _ => h

theorem throw {e : Failure} (h : fails thing) :
    Ensures (MonadExcept.throw e) thing returns fails := fun _ => h

theorem mono {x : On σ α} (h : Ensures x thing returns fails) {returns' : α → σ → Prop}
    {fails' : σ → Prop} (weaker : ∀ a new, returns a new → returns' a new)
    (weakerFails : ∀ new, fails new → fails' new) : Ensures x thing returns' fails' := by
  intro session
  have here := h session
  cases result : x (thing, session) with
  | ok a left =>
      rw [result] at here
      exact weaker a _ here
  | error e left =>
      rw [result] at here
      exact weakerFails _ here

theorem bind {x : On σ α} {f : α → On σ β} {returns' : β → σ → Prop}
    (hx : Ensures x thing returns fails)
    (hf : ∀ a new, returns a new → Ensures (f a) new returns' fails) :
    Ensures (x >>= f) thing returns' fails := by
  intro session
  have first := hx session
  simp only [Bind.bind, EStateM.bind]
  cases result : x (thing, session) with
  | ok a left =>
      rw [result] at first
      exact hf a _ first _
  | error e left =>
      rw [result] at first
      exact first

/-- Goes on where a computation succeeds, and says anew what is left where it fails. -/
theorem andThen {x : On σ α} {f : α → On σ β} {failed : σ → Prop} {returns' : β → σ → Prop}
    (hx : Ensures x thing returns failed) (weaker : ∀ new, failed new → fails new)
    (hf : ∀ a new, returns a new → Ensures (f a) new returns' fails) :
    Ensures (x >>= f) thing returns' fails :=
  (hx.mono (fun _ _ returned => returned) weaker).bind hf

theorem tryCatch {x : On σ α} {handle : Failure → On σ α} {fails' : σ → Prop}
    (hx : Ensures x thing returns fails)
    (hh : ∀ e new, fails new → Ensures (handle e) new returns fails') :
    Ensures (MonadExcept.tryCatch x handle) thing returns fails' := by
  intro session
  have first := hx session
  simp only [MonadExcept.tryCatch, tryCatchThe, MonadExceptOf.tryCatch]
  delta EStateM.tryCatch
  dsimp only
  cases result : x (thing, session) with
  | ok a left =>
      rw [result] at first
      exact first
  | error e left =>
      rw [result] at first
      exact hh e _ first _

/-- The thing at hand, for a computation that looks at it first. -/
theorem look {f : σ → On σ β} {returns' : β → σ → Prop} (h : Ensures (f thing) thing returns' fails) :
    Ensures (On.thing >>= f) thing returns' fails := h

theorem change {f : σ → σ} {returns' : Unit → σ → Prop} (h : returns' () (f thing)) :
    Ensures (On.change f) thing returns' fails := fun _ => h

/-- A computation within the session leaves the thing alone. -/
theorem lift {x : Run α} {result : α → Prop} {failure : Failure → Prop}
    (h : SymbolicMemory.Ensures x result failure) (thing : σ) :
    Ensures (liftM x : On σ α) thing (fun a new => result a ∧ new = thing)
      (fun new => (∃ e, failure e) ∧ new = thing) := by
  intro session
  have here := h session
  simp only [liftM, monadLift, MonadLift.monadLift, run]
  cases outcome : x session with
  | ok a left =>
      rw [outcome] at here
      exact ⟨here, rfl⟩
  | error e left =>
      rw [outcome] at here
      exact ⟨⟨e, here⟩, rfl⟩

/-- A computation within the session that always succeeds, and what comes after it. -/
theorem first {x : Run α} {f : α → On σ β} {result : α → Prop} {returns' : β → σ → Prop}
    (h : SymbolicMemory.Ensures x result (fun _ => False))
    (hf : ∀ a, result a → Ensures (f a) thing returns' fails) :
    Ensures (liftM x >>= f) thing returns' fails := by
  refine (lift h thing).andThen (fun _ ⟨⟨_, no⟩, _⟩ => no.elim) ?_
  rintro a _ ⟨fact, rfl⟩
  exact hf a fact

/-- A computation on a part of a thing. -/
theorem part {project : τ → σ} {replace : σ → τ → τ} {x : On σ α} {whole : τ}
    (h : Ensures x (project whole) returns fails) :
    Ensures (On.part project replace x) whole
      (fun a new => ∃ piece, returns a piece ∧ new = replace piece whole)
      (fun new => ∃ piece, fails piece ∧ new = replace piece whole) := by
  intro session
  have here := h session
  simp only [On.part]
  cases outcome : x (project whole, session) with
  | ok a left =>
      rw [outcome] at here
      exact ⟨_, here, rfl⟩
  | error e left =>
      rw [outcome] at here
      exact ⟨_, here, rfl⟩

theorem ends {x : On σ α} (h : Ensures x thing returns fails) (session : Session) :
    Ends x (thing, session) (fun a left => returns a left.1) (fun _ left => fails left.1) := by
  have here := h session
  refine .intro (fun a left done => ?_) fun e left failed => ?_
  · rw [done] at here
    exact here
  · rw [failed] at here
    exact here

end Ensures

/-- A computation within the session, and what comes after it. -/
theorem ends_first {x : Run α} {f : α → On σ β} {thing : σ} {session : Session}
    {result : α → Session → Prop} {failed : Failure → Session → Prop} {returns : β → σ × Session → Prop}
    {fails : Failure → σ × Session → Prop} (h : Ends x session result failed)
    (weaker : ∀ e left, failed e left → fails e (thing, left))
    (hf : ∀ a left, result a left → Ends (f a) (thing, left) returns fails) :
    Ends (liftM x >>= f) (thing, session) returns fails := by
  unfold Ends
  simp only [Bind.bind, EStateM.bind, liftM, monadLift, MonadLift.monadLift, run]
  cases outcome : x session with
  | ok a left => exact hf a left (h.of_ok outcome)
  | error e left => exact weaker e left (h.of_error outcome)

end On

end SymbolicMemory
