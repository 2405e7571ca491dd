import Mathlib.Logic.Function.Basic
import Mathlib.Algebra.Order.Ring.Nat
import Mathlib.Tactic.Push

/-!
# Interleavings

A component is given by a step function that may refuse an action. Several components run
interleaved: each step is a step of one of them. What holds of every state that a component reaches
on its own holds in every interleaving, as long as the components share nothing that changes.

The second part is about components that get on by themselves: if every step lowers a measure, runs
are no longer than that, or have no more such steps than that; and all runs may end in the same
state. The third one is about components that do share something: their steps may change it, and a
system refines such components if each of its steps is that of one of them.
-/

namespace Galette.Lib

variable {ι S T A σ : Type}

/-- The states that a component reaches. -/
inductive Reachable (step : S → A → Option S) (start : S) : S → Prop where
  | start : Reachable step start start
  | step {s s' : S} {a : A} (hs : Reachable step start s) (h : step s a = some s') :
      Reachable step start s'

/-- Invariant rule. -/
theorem Reachable.inv {step : S → A → Option S} {start s : S} (hs : Reachable step start s)
    (P : S → Prop) (h0 : P start)
    (hstep : ∀ s s' a, P s → step s a = some s' → P s') : P s := by
  induction hs with
  | start => exact h0
  | step _ h ih => exact hstep _ _ _ ih h

/-- The states that components reach together. -/
inductive Interleaved [DecidableEq ι] (step : ι → S → A → Option S) (start : ι → S) :
    (ι → S) → Prop where
  | start : Interleaved step start start
  | step {s : ι → S} {i : ι} {a : A} {c : S} (hs : Interleaved step start s)
      (h : step i (s i) a = some c) : Interleaved step start (Function.update s i c)

/-- In an interleaving every component is in a state that it reaches on its own. -/
theorem Interleaved.component [DecidableEq ι] {step : ι → S → A → Option S} {start s : ι → S}
    (hs : Interleaved step start s) (i : ι) : Reachable (step i) (start i) (s i) := by
  induction hs with
  | start => exact .start
  | @step s j a c _ h ih =>
    by_cases hij : i = j
    · subst hij
      rw [Function.update_self]
      exact ih.step h
    · rw [Function.update_of_ne hij]
      exact ih

/-- `n` steps, with actions that satisfy `ok`. -/
inductive Steps (step : S → A → Option S) (ok : A → Prop) : Nat → S → S → Prop where
  | refl (s : S) : Steps step ok 0 s s
  | tail {n : Nat} {s t u : S} {a : A} (hs : Steps step ok n s t) (ha : ok a)
      (h : step t a = some u) : Steps step ok (n + 1) s u

/-- If every step lowers a measure, the measure bounds the number of steps. -/
theorem Steps.length_le {step : S → A → Option S} {ok : A → Prop} {n : Nat} {s t : S}
    (h : Steps step ok n s t) (size : S → Nat)
    (hsize : ∀ s s' a, ok a → step s a = some s' → size s' < size s) : n + size t ≤ size s := by
  induction h with
  | refl s => omega
  | tail _ ha hst ih =>
    have := hsize _ _ _ ha hst
    omega

theorem Steps.head {step : S → A → Option S} {ok : A → Prop} {n : Nat} {s t u : S} {a : A}
    (ha : ok a)
    (h : step s a = some t) (hs : Steps step ok n t u) : Steps step ok (n + 1) s u := by
  induction hs with
  | refl => exact .tail (.refl s) ha h
  | tail _ hb hst ih => exact .tail (ih h) hb hst

/-- If every step lowers a measure, every state leads to one without further steps. -/
theorem Steps.exists_last {step : S → A → Option S} {ok : A → Prop} (size : S → Nat)
    (hsize : ∀ s s' a, ok a → step s a = some s' → size s' < size s) (s : S) :
    ∃ n t, Steps step ok n s t ∧ ∀ a, ok a → step t a = none := by
  induction hn : size s using Nat.strong_induction_on generalizing s with
  | _ k ih =>
    by_cases hlast : ∀ a, ok a → step s a = none
    · exact ⟨0, s, .refl s, hlast⟩
    · push Not at hlast
      obtain ⟨a, ha, hne⟩ := hlast
      obtain ⟨s', hs'⟩ := Option.ne_none_iff_exists'.1 hne
      obtain ⟨n, t, hst, ht⟩ := ih (size s') (hn ▸ hsize s s' a ha hs') s' rfl
      exact ⟨n + 1, t, .head ha hs' hst, ht⟩

/-- Steps of one component are steps of an interleaving. -/
theorem Interleaved.steps [DecidableEq ι] {step : ι → S → A → Option S} {start s : ι → S}
    {ok : A → Prop} {i : ι} {n : Nat} {c d : S} (h : Steps (step i) ok n c d) (hc : s i = c)
    (hs : Interleaved step start s) : Interleaved step start (Function.update s i d) := by
  induction h with
  | refl =>
    rw [← hc, Function.update_eq_self]
    exact hs
  | @tail n c t u a _ _ hst ih =>
    have hnext := (ih hc).step (i := i) (a := a) (c := u) (by rw [Function.update_self]; exact hst)
    rwa [Function.update_idem] at hnext

/-- Every run from a state comes to an end, in `t`. -/
inductive Settles (step : S → A → Option S) : S → S → Prop where
  | final {t : S} (h : ∀ a, step t a = none) : Settles step t t
  | step {s t : S} (hgo : ∃ a s', step s a = some s')
      (h : ∀ a s', step s a = some s' → Settles step s' t) : Settles step s t

theorem Settles.after {step : S → A → Option S} {ok : A → Prop} {n : Nat} {s s' t : S}
    (h : Settles step s t) (hs : Steps step ok n s s') : Settles step s' t := by
  induction hs with
  | refl => exact h
  | tail _ _ hst ih =>
    cases ih h with
    | final hno =>
      rw [hno] at hst
      cases hst
    | step _ hgo => exact hgo _ _ hst

/-- A run that cannot go on has got to the end. -/
theorem Settles.eq_of_final {step : S → A → Option S} {ok : A → Prop} {n : Nat} {s s' t : S}
    (h : Settles step s t) (hs : Steps step ok n s s') (hno : ∀ a, step s' a = none) : s' = t := by
  cases h.after hs with
  | final => rfl
  | step hgo _ =>
    obtain ⟨a, u, hu⟩ := hgo
    rw [hno] at hu
    cases hu

/-- No run goes on forever. -/
theorem Settles.not_forever {step : S → A → Option S} {s t : S} (h : Settles step s t)
    (run : Nat → S) (h0 : run 0 = s) : ∃ n, ∀ a, step (run n) a ≠ some (run (n + 1)) := by
  induction h generalizing run with
  | final hno => exact ⟨0, by simp [h0, hno]⟩
  | step _ _ ih =>
    by_cases hgo : ∃ a, step (run 0) a = some (run 1)
    · obtain ⟨a, ha⟩ := hgo
      obtain ⟨n, hn⟩ := ih a (run 1) (h0 ▸ ha) (fun n => run (n + 1)) rfl
      exact ⟨n + 1, hn⟩
    · push Not at hgo
      exact ⟨0, hgo⟩

/-- A run with actions that are `ok` where they happen, `n` of which satisfy `counted`. -/
inductive Paced (step : S → A → Option S) (ok : S → A → Prop) (counted : A → Prop) :
    Nat → S → S → Prop where
  | refl (s : S) : Paced step ok counted 0 s s
  | counted {n : Nat} {s t u : S} {a : A} (hs : Paced step ok counted n s t) (ha : ok t a)
      (hc : counted a) (h : step t a = some u) : Paced step ok counted (n + 1) s u
  | other {n : Nat} {s t u : S} {a : A} (hs : Paced step ok counted n s t) (ha : ok t a)
      (hc : ¬ counted a) (h : step t a = some u) : Paced step ok counted n s u

/-- What every step keeps, a run keeps. -/
theorem Paced.inv {step : S → A → Option S} {ok : S → A → Prop} {counted : A → Prop} {n : Nat}
    {s t : S} (h : Paced step ok counted n s t) (P : S → Prop) (hs : P s)
    (hkeep : ∀ s s' a, P s → ok s a → step s a = some s' → P s') : P t := by
  induction h with
  | refl => exact hs
  | counted _ ha _ hst ih => exact hkeep _ _ _ (ih hs) ha hst
  | other _ ha _ hst ih => exact hkeep _ _ _ (ih hs) ha hst

/-- If the counted steps lower a measure and no others raise it, the measure bounds how many there
are, however many others come between them. -/
theorem Paced.length_le {step : S → A → Option S} {ok : S → A → Prop} {counted : A → Prop} {n : Nat}
    {s t : S} (h : Paced step ok counted n s t) (P : S → Prop) (size : S → Nat) (hs : P s)
    (hkeep : ∀ s s' a, P s → ok s a → step s a = some s' → P s')
    (hcounted : ∀ s s' a, P s → ok s a → counted a → step s a = some s' → size s' < size s)
    (hother : ∀ s s' a, P s → ok s a → ¬ counted a → step s a = some s' → size s' ≤ size s) :
    n + size t ≤ size s := by
  induction h with
  | refl s => omega
  | counted hst₀ ha hc hst ih =>
    have hle := ih hs
    have := hcounted _ _ _ (hst₀.inv P hs hkeep) ha hc hst
    omega
  | other hst₀ ha hc hst ih =>
    have hle := ih hs
    have := hother _ _ _ (hst₀.inv P hs hkeep) ha hc hst
    omega

/-! ## Shared state -/

/-- The states that components reach together with what they share. -/
inductive Shared [DecidableEq ι] (step : ι → S → σ → A → Option (S × σ)) (start : ι → S) (m₀ : σ) :
    (ι → S) → σ → Prop where
  | start : Shared step start m₀ start m₀
  | step {s : ι → S} {m m' : σ} {i : ι} {a : A} {c : S} (hs : Shared step start m₀ s m)
      (h : step i (s i) m a = some (c, m')) : Shared step start m₀ (Function.update s i c) m'

/-- Refinement: if each step of a system is a step of one of the components, with the same effect on
what they share, or has no effect on it, then whatever the system reaches the components reach. -/
theorem Reachable.refine [DecidableEq ι] {B : Type} {step : S → A → Option S}
    {step' : ι → T → σ → B → Option (T × σ)} {start s : S} {start' : ι → T}
    (hs : Reachable step start s) (R : S → (ι → T) → Prop) (shared : S → σ) (h0 : R start start')
    (hstep : ∀ s a s' t, R s t → step s a = some s' → (shared s' = shared s ∧ R s' t) ∨
      ∃ i b c, step' i (t i) (shared s) b = some (c, shared s') ∧ R s' (Function.update t i c)) :
    ∃ t, Shared step' start' (shared start) t (shared s) ∧ R s t := by
  induction hs with
  | start => exact ⟨start', .start, h0⟩
  | @step s s' a _ h ih =>
    obtain ⟨t, ht, hR⟩ := ih
    rcases hstep s a s' t hR h with ⟨hsame, hR'⟩ | ⟨i, b, c, hc, hR'⟩
    · exact ⟨t, hsame ▸ ht, hR'⟩
    · exact ⟨_, ht.step hc, hR'⟩

end Galette.Lib
