import CircuitSynthesis.InPlace

/-!
# Reasoning about runs

A run is followed step by step: a check that passes leaves the state alone and
the rest runs on (`lift_bind_ok`). A run that has succeeded is taken apart in
the same way (`bind_eq_ok_iff`). A run that fails at one of its checks, before
anything was changed, is refused (`Refuses`); a single change is either made or
refused (`Guarded`). What every single step keeps is kept by the whole run, also
by one that fails half way (`Keeps`).
-/

namespace CircuitSynthesis

variable {ε σ α β : Type} {s s' : σ}

/-! ## Following a run -/

theorem bind_ok {x : EStateM ε σ α} {f : α → EStateM ε σ β} {a : α} (h : x s = .ok a s') :
    (x >>= f) s = f a s' := by
  show EStateM.bind x f s = _
  rw [EStateM.bind, h]

theorem get_bind (f : σ → EStateM ε σ β) : (get >>= f) s = f s s := rfl

theorem lift_bind_ok {r : Except ε α} {f : α → EStateM ε σ β} {a : α} (h : r = .ok a) :
    ((liftM r : EStateM ε σ α) >>= f) s = f a s := by
  subst h
  rfl

theorem state_unique {run : EStateM ε σ α} {a b : α} {t : σ} (h : run s = .ok a s')
    (h' : run s = .ok b t) : s' = t := by
  rw [h] at h'
  cases h'
  rfl

/-- A run in two parts succeeds exactly when the first part does and then the
second. -/
theorem bind_eq_ok_iff {x : EStateM ε σ α} {f : α → EStateM ε σ β} {b : β} :
    (x >>= f) s = .ok b s' ↔ ∃ a t, x s = .ok a t ∧ f a t = .ok b s' := by
  show EStateM.bind x f s = _ ↔ _
  unfold EStateM.bind
  cases x s with
  | ok a t => exact ⟨fun h => ⟨a, t, rfl, h⟩, by rintro ⟨_, _, ⟨⟩, h⟩; exact h⟩
  | error e t => exact ⟨nofun, by rintro ⟨_, _, ⟨⟩, _⟩⟩

theorem lift_bind_eq_ok_iff {r : Except ε α} {f : α → EStateM ε σ β} {b : β} :
    ((liftM r : EStateM ε σ α) >>= f) s = .ok b s' ↔ ∃ a, r = .ok a ∧ f a s = .ok b s' := by
  cases r with
  | ok a => exact ⟨fun h => ⟨a, rfl, h⟩, by rintro ⟨_, ⟨⟩, h⟩; exact h⟩
  | error e => exact ⟨nofun, by rintro ⟨_, ⟨⟩, _⟩⟩

/-! ## Refusals -/

/-- The run fails and leaves the state as it was. -/
def Refuses (run : EStateM ε σ α) (s : σ) : Prop := ∃ e, run s = .error e s

theorem refuses_get_bind {f : σ → EStateM ε σ α} (h : Refuses (f s) s) :
    Refuses (get >>= f) s := h

/-- A run that starts with a check is refused by the check or by what follows. -/
theorem refuses_lift_bind {r : Except ε α} {f : α → EStateM ε σ β}
    (h : ∀ a, r = .ok a → Refuses (f a) s) : Refuses ((liftM r : EStateM ε σ α) >>= f) s := by
  cases r with
  | ok a => exact h a rfl
  | error e => exact ⟨e, rfl⟩

/-- If the run fails, it leaves the state as it was. -/
def FailsClean (run : EStateM ε σ α) (s : σ) : Prop := ∀ e t, run s = .error e t → t = s

theorem failsClean_modify (f : σ → σ) (s : σ) :
    FailsClean (modify f : EStateM ε σ PUnit) s := nofun

theorem failsClean_throw (e : ε) (s : σ) : FailsClean (throw e : EStateM ε σ α) s := by
  intro e t h
  cases h
  rfl

theorem failsClean_lift_bind {r : Except ε α} {f : α → EStateM ε σ β}
    (h : ∀ a, FailsClean (f a) s) : FailsClean ((liftM r : EStateM ε σ α) >>= f) s := by
  cases r with
  | ok a => exact h a
  | error e => exact failsClean_throw e s

/-- The run succeeds exactly under a condition, and a failure leaves the state
as it was. -/
structure Atomic (run : EStateM ε σ α) (s : σ) (accepts : Prop) : Prop where
  succeeds_iff : (∃ a s', run s = .ok a s') ↔ accepts
  unchanged : ∀ e s', run s = .error e s' → s' = s

theorem Atomic.intro {run : EStateM ε σ α} {accepts : Prop}
    (hok : accepts → ∃ a s', run s = .ok a s') (hrefuse : ¬accepts → Refuses run s) :
    Atomic run s accepts := by
  by_cases haccepts : accepts
  · obtain ⟨a, s', hrun⟩ := hok haccepts
    refine ⟨⟨fun _ => haccepts, hok⟩, fun e s'' herror => ?_⟩
    rw [hrun] at herror
    cases herror
  · obtain ⟨e, hrun⟩ := hrefuse haccepts
    constructor
    · refine ⟨?_, fun h => absurd h haccepts⟩
      rintro ⟨a, s', hok⟩
      rw [hrun] at hok
      cases hok
    · intro e' s' herror
      rw [hrun] at herror
      cases herror
      rfl

theorem Atomic.refuses {run : EStateM ε σ α} {accepts : Prop} (h : Atomic run s accepts)
    (hnot : ¬accepts) : Refuses run s := by
  cases hrun : run s with
  | ok a s' => exact absurd (h.succeeds_iff.mp ⟨a, s', hrun⟩) hnot
  | error e s' =>
    obtain rfl := h.unchanged e s' hrun
    exact ⟨e, hrun⟩

theorem Atomic.fails_iff {run : EStateM ε σ α} {accepts : Prop} (h : Atomic run s accepts) :
    (∃ e s', run s = .error e s') ↔ ¬accepts := by
  rw [← h.succeeds_iff]
  cases run s <;> simp

/-! ## Single changes -/

/-- Under a condition the run succeeds, with the given result and state;
otherwise it is refused. -/
def Guarded (run : EStateM ε σ α) (s : σ) (accepts : Prop) (a : α) (t : σ) : Prop :=
  accepts ∧ run s = .ok a t ∨ ¬accepts ∧ Refuses run s

namespace Guarded

variable {run : EStateM ε σ α} {accepts : Prop} {a : α} {t : σ}

theorem atomic (h : Guarded run s accepts a t) : Atomic run s accepts := by
  rcases h with ⟨haccepts, hrun⟩ | ⟨hnot, hrefuses⟩
  · exact .intro (fun _ => ⟨a, t, hrun⟩) fun hnot => absurd haccepts hnot
  · exact .intro (fun haccepts => absurd haccepts hnot) fun _ => hrefuses

theorem eq_ok_iff (h : Guarded run s accepts a t) {b : α} {u : σ} :
    run s = .ok b u ↔ accepts ∧ b = a ∧ u = t := by
  rcases h with ⟨haccepts, hrun⟩ | ⟨hnot, e, hrun⟩
  · rw [hrun]
    simp [haccepts, eq_comm]
  · rw [hrun]
    simp [hnot]

theorem eq_ok (h : Guarded run s accepts a t) (haccepts : accepts) : run s = .ok a t :=
  h.eq_ok_iff.mpr ⟨haccepts, rfl, rfl⟩

theorem bind_pure (h : Guarded run s accepts a t) (f : α → β) :
    Guarded (run >>= fun x => pure (f x)) s accepts (f a) t := by
  rcases h with ⟨haccepts, hrun⟩ | ⟨hnot, e, hrun⟩
  · exact .inl ⟨haccepts, bind_ok hrun⟩
  · refine .inr ⟨hnot, e, ?_⟩
    show EStateM.bind run _ s = _
    rw [EStateM.bind, hrun]

/-- What holds before and after the change holds wherever the run ends. -/
theorem of_stateAfter {Inv : σ → Prop} (h : Guarded run s accepts a t) (hs : Inv s)
    (ht : accepts → Inv t) : Inv (stateAfter run s) := by
  unfold stateAfter
  rcases h with ⟨haccepts, hrun⟩ | ⟨-, e, hrun⟩
  · rw [hrun]
    exact ht haccepts
  · rw [hrun]
    exact hs

end Guarded

/-! ## What a run keeps -/

/-- The property holds after the run if it held before, whether the run fails
or not. -/
def Keeps (Inv : σ → Prop) (run : EStateM ε σ α) : Prop := ∀ s, Inv s → Inv (stateAfter run s)

namespace Keeps

variable {Inv : σ → Prop}

theorem pure (a : α) : Keeps Inv (Pure.pure a : EStateM ε σ α) := fun _ hs => hs

theorem lift (r : Except ε α) : Keeps Inv (liftM r : EStateM ε σ α) := by
  intro s hs
  cases r <;> exact hs

theorem bind {x : EStateM ε σ α} {f : α → EStateM ε σ β} (hx : Keeps Inv x)
    (hf : ∀ a, Keeps Inv (f a)) : Keeps Inv (x >>= f) := by
  intro s hs
  have hmiddle := hx s hs
  show Inv (stateAfter (EStateM.bind x f) s)
  unfold stateAfter EStateM.bind
  unfold stateAfter at hmiddle
  cases hrun : x s with
  | ok a s' =>
    rw [hrun] at hmiddle
    exact hf a s' hmiddle
  | error e s' =>
    rw [hrun] at hmiddle
    exact hmiddle

theorem set (h : Inv s) : Keeps Inv (MonadStateOf.set s : EStateM ε σ PUnit) := fun _ _ => h

theorem get_bind {f : σ → EStateM ε σ α} (hf : ∀ s, Inv s → Keeps Inv (f s)) :
    Keeps Inv (get >>= f) := fun s hs => hf s hs s hs

theorem lift_bind {r : Except ε α} {f : α → EStateM ε σ β} (hf : ∀ a, Keeps Inv (f a)) :
    Keeps Inv ((liftM r : EStateM ε σ α) >>= f) :=
  (lift r).bind hf

end Keeps

end CircuitSynthesis
