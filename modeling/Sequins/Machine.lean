import Mathlib.Logic.Relation

/-!
# Machines

A transition system with labelled steps: where it starts, and which event can take a
state to which other. Concurrent code is such a machine, with one event for each atomic
action of each of its threads, so that a run is an interleaving.

The two rules used throughout: an invariant that holds at the start and is kept by every
step holds of every reachable state (`Reachable.invariant`), and a machine whose steps
are restricted by a guard only reaches what the machine itself does
(`Reachable.of_restrict`). Where the step is a function, single runs can be evaluated
(`Reachable.run`).
-/

universe u v

/-- A transition system with labelled steps. -/
structure Machine (σ : Type u) (ε : Type v) where
  /-- the states it may start in -/
  start : σ → Prop
  /-- what an event may do to a state -/
  step : σ → ε → σ → Prop

namespace Machine

variable {σ : Type u} {ε : Type v} {M : Machine σ ε}

/-- The states of the runs of a machine. -/
inductive Reachable (M : Machine σ ε) : σ → Prop where
  /-- a run starts -/
  | start {s : σ} : M.start s → Reachable M s
  /-- a run goes on -/
  | step {s s' : σ} {e : ε} : Reachable M s → M.step s e s' → Reachable M s'

/-- **The invariant rule.** The step may use that its state is reachable, hence any
invariant proved before. -/
theorem Reachable.invariant {P : σ → Prop} (hstart : ∀ s, M.start s → P s)
    (hstep : ∀ s e s', M.Reachable s → P s → M.step s e s' → P s') {s : σ}
    (h : M.Reachable s) : P s := by
  induction h with
  | start hs => exact hstart _ hs
  | step hr hs ih => exact hstep _ _ _ hr ih hs

/-- The machine with only those steps that pass a guard. -/
def restrict (M : Machine σ ε) (guard : σ → ε → Prop) : Machine σ ε where
  start := M.start
  step := fun s e s' => guard s e ∧ M.step s e s'

/-- A run whose steps pass a guard is a run. -/
theorem Reachable.of_restrict {guard : σ → ε → Prop} {s : σ} (h : (M.restrict guard).Reachable s) :
    M.Reachable s := by
  induction h with
  | start hs => exact .start hs
  | step _ hs ih => exact .step ih hs.2

/-! ## Machines given by a function -/

/-- The machine of a step function: an event that cannot happen has no next state. -/
def ofStep (start : σ) (step : σ → ε → Option σ) : Machine σ ε where
  start := fun s => s = start
  step := fun s e s' => step s e = some s'

/-- Running a list of events. -/
def runEvents (step : σ → ε → Option σ) : σ → List ε → Option σ
  | s, [] => some s
  | s, e :: es => (step s e).bind fun s => runEvents step s es

/-- What a run of the function reaches is reachable. -/
theorem Reachable.run {start : σ} {step : σ → ε → Option σ} {s s' : σ}
    (h : (ofStep start step).Reachable s) (es : List ε) (hrun : runEvents step s es = some s') :
    (ofStep start step).Reachable s' := by
  induction es generalizing s with
  | nil =>
    obtain rfl := Option.some.inj hrun
    exact h
  | cons e es ih =>
    obtain ⟨s₁, hstep, hrun⟩ := Option.bind_eq_some_iff.mp hrun
    exact ih (.step h hstep) hrun

/-- The same for a run whose steps pass a guard. -/
theorem Reachable.runGuarded {start : σ} {step : σ → ε → Option σ} {guard : σ → ε → Prop}
    [∀ s, DecidablePred (guard s)] {s s' : σ}
    (h : ((ofStep start step).restrict guard).Reachable s) (es : List ε)
    (hrun : runEvents (fun s e => if guard s e then step s e else none) s es = some s') :
    ((ofStep start step).restrict guard).Reachable s' := by
  induction es generalizing s with
  | nil =>
    obtain rfl := Option.some.inj hrun
    exact h
  | cons e es ih =>
    obtain ⟨s₁, hstep, hrun⟩ := Option.bind_eq_some_iff.mp hrun
    dsimp only at hstep
    split at hstep
    · exact ih (.step h ⟨‹_›, hstep⟩) hrun
    · cases hstep

end Machine
