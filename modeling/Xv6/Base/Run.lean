/-
Runs of a labelled transition function. `Reach init step ok` holds of the states reached from an
initial one by steps each of which meets the guard `ok` in the state it is taken in; `Reachable`
is the case of no guard. Invariants are proved by `Reach.inv` (one step preserves it) or, when they
lean on invariants already proved, by `Reach.inv_of`; `Reach.simulate` takes the runs of one system to
those of another; a concrete list of actions evaluated by `runActs` is a witness of `Reachable`.
-/
import Mathlib.Logic.Basic

namespace Base

variable {σ α : Type} {init P : σ → Prop} {step : σ → α → Option σ} {ok : σ → α → Prop} {s : σ}

/-- The states reached by steps that meet `ok`. -/
inductive Reach (init : σ → Prop) (step : σ → α → Option σ) (ok : σ → α → Prop) : σ → Prop
  | init {s : σ} (h : init s) : Reach init step ok s
  | step {s s' : σ} {a : α} (hr : Reach init step ok s) (hok : ok s a) (hs : step s a = some s') :
      Reach init step ok s'

abbrev Reachable (init : σ → Prop) (step : σ → α → Option σ) : σ → Prop :=
  Reach init step fun _ _ => True

/-- A property that holds initially and that every guarded step preserves holds of every state
reached. -/
theorem Reach.inv (h0 : ∀ s, init s → P s) (hstep : ∀ s a s', P s → ok s a → step s a = some s' → P s') {s : σ}
    (hr : Reach init step ok s) : P s := by
  induction hr with
  | init h => exact h0 _ h
  | step _ hok hs ih => exact hstep _ _ _ ih hok hs

/-- The same, with an invariant `Q` of the run already known. -/
theorem Reach.inv_of {Q : σ → Prop} (hQ : ∀ s, Reach init step ok s → Q s) (h0 : ∀ s, init s → P s)
    (hstep : ∀ s a s', Q s → P s → ok s a → step s a = some s' → P s') {s : σ} (hr : Reach init step ok s) :
    P s := by
  induction hr with
  | init h => exact h0 _ h
  | step hr hok hs ih => exact hstep _ _ _ (hQ _ hr) ih hok hs

theorem Reach.mono {ok' : σ → α → Prop} (h : ∀ s a, ok s a → ok' s a) {s : σ} (hr : Reach init step ok s) :
    Reach init step ok' s := by
  induction hr with
  | init h0 => exact .init h0
  | step _ hok hs ih => exact .step ih (h _ _ hok) hs

theorem Reach.trans {t : σ} (hs : Reach init step ok s) (ht : Reach (· = s) step ok t) : Reach init step ok t := by
  induction ht with
  | init h => rw [h]; exact hs
  | step _ hok h ih => exact .step ih hok h

/-- Forward simulation: what a step does is a step of the other system, or nothing to it. -/
theorem Reach.simulate {τ β : Type} {init' : τ → Prop} {step' : τ → β → Option τ}
    {ok' : τ → β → Prop} (R : σ → τ → Prop) (h0 : ∀ s, init s → ∃ t, init' t ∧ R s t)
    (hstep : ∀ s a s' t, Reach init' step' ok' t → R s t → ok s a → step s a = some s' →
      R s' t ∨ ∃ b t', ok' t b ∧ step' t b = some t' ∧ R s' t')
    {s : σ} (hr : Reach init step ok s) : ∃ t, Reach init' step' ok' t ∧ R s t := by
  induction hr with
  | init h => obtain ⟨t, ht, hR⟩ := h0 _ h; exact ⟨t, .init ht, hR⟩
  | step _ hok hs ih =>
    obtain ⟨t, ht, hR⟩ := ih
    rcases hstep _ _ _ t ht hR hok hs with hR' | ⟨b, t', hok', hs', hR'⟩
    · exact ⟨t, ht, hR'⟩
    · exact ⟨t', .step ht hok' hs', hR'⟩

/-- The state after a list of actions. -/
def runActs (step : σ → α → Option σ) : σ → List α → Option σ
  | s, [] => some s
  | s, a :: as => (step s a).bind fun s' => runActs step s' as

def guarded (step : σ → α → Option σ) (ok : σ → α → Prop) [∀ s a, Decidable (ok s a)] (s : σ) (a : α) : Option σ :=
  if ok s a then step s a else none

theorem guarded_eq_some [∀ s a, Decidable (ok s a)] {s' : σ} {a : α} (h : guarded step ok s a = some s') :
    ok s a ∧ step s a = some s' := by
  unfold guarded at h
  split at h
  · exact ⟨‹_›, h⟩
  · cases h

section

variable {step' : σ → α → Option σ}

theorem reach_runActs :
    ∀ (as : List α) {s t : σ}, (∀ a ∈ as, ∀ s s', step' s a = some s' → ok s a ∧ step s a = some s') →
      Reach init step ok s → runActs step' s as = some t → Reach init step ok t
  | [], s, t, _, hr, h => by
    cases h; exact hr
  | a :: as, s, t, hok, hr, h => by
    obtain ⟨s', hs, h⟩ := Option.bind_eq_some_iff.1 h
    obtain ⟨hok', hs⟩ := hok a (.head _) s s' hs
    exact reach_runActs as (fun x hx => hok x (List.mem_cons_of_mem a hx)) (.step hr hok' hs) h

theorem exists_reach_of_runActs (h0 : init s) (as : List α)
    (hok : ∀ a ∈ as, ∀ s s', step' s a = some s' → ok s a ∧ step s a = some s') (check : σ → Bool)
    (h : (runActs step' s as).any check = true) : ∃ t, Reach init step ok t ∧ check t = true := by
  rcases ht : runActs step' s as with _ | t
  · rw [ht] at h; cases h
  · rw [ht] at h; exact ⟨t, reach_runActs as hok (.init h0) ht, h⟩

/-- What a check finds true of the state after a list of actions, each allowed in any state, is true
of a state reached. -/
theorem exists_reach_of_run (init : σ → Prop) (ok : σ → α → Prop) (h0 : init s) (as : List α)
    (hok : ∀ a ∈ as, ∀ s, ok s a) (check : σ → Bool) (h : (runActs step s as).any check = true) :
    ∃ t, Reach init step ok t ∧ check t = true :=
  exists_reach_of_runActs h0 as (fun a ha s _ hs => ⟨hok a ha s, hs⟩) check h

theorem exists_reachable_of_run (init : σ → Prop) (h0 : init s) (as : List α) (check : σ → Bool)
    (h : (runActs step s as).any check = true) : ∃ t, Reachable init step t ∧ check t = true :=
  exists_reach_of_run init _ h0 as (fun _ _ _ => trivial) check h

/-- The same for a guard that is decided in each state of the run. -/
theorem exists_reach_of_guarded_run (init : σ → Prop) (ok : σ → α → Prop) [∀ s a, Decidable (ok s a)] (h0 : init s)
    (as : List α) (check : σ → Bool) (h : (runActs (guarded step ok) s as).any check = true) :
    ∃ t, Reach init step ok t ∧ check t = true :=
  exists_reach_of_runActs h0 as (fun _ _ _ _ hs => guarded_eq_some hs) check h

end

end Base
