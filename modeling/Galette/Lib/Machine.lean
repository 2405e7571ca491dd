import Mathlib.Logic.Basic
import Mathlib.Data.List.Infix

/-!
# Deterministic machines with observable steps

A machine steps from state to state; a step may show one event. A state without a step is final.
The run of a machine is the list of its events, and two machines are compared by these lists, by
the final states they reach, and by whether they reach one at all.

The rule `Machine.Sim` is a forward simulation in which every step of the first machine is matched
by one *or more* steps of the second. Both machines are deterministic, so the forward direction is
enough: the second machine has no other run.
-/

namespace Galette.Lib

/-- A deterministic machine over states `σ` that shows events `ε`. -/
structure Machine (σ ε : Type) where
  /-- The next state and the event shown on the way, if the state is not final. -/
  step : σ → Option (Option ε × σ)

namespace Machine

variable {σ τ ε : Type}

/-- The events of at most `n` steps from `s`, and the state they lead to. -/
def run (M : Machine σ ε) : Nat → σ → List ε × σ
  | 0, s => ([], s)
  | n + 1, s =>
    match M.step s with
    | none => ([], s)
    | some (o, s') => (o.toList ++ (M.run n s').1, (M.run n s').2)

/-- From `s` the machine shows exactly the events `t` and stops in the final state `s'`. -/
def Halts (M : Machine σ ε) (s : σ) (t : List ε) (s' : σ) : Prop :=
  ∃ n, M.run n s = (t, s') ∧ M.step s' = none

/-- From `s` the machine never stops. -/
def Diverges (M : Machine σ ε) (s : σ) : Prop := ∀ n, M.step (M.run n s).2 ≠ none

/-- The finite beginnings of the event sequence shown from `s`. -/
def traces (M : Machine σ ε) (s : σ) : Set (List ε) := { t | ∃ n, (M.run n s).1 = t }

variable (M : Machine σ ε)

@[simp] theorem run_zero (s : σ) : M.run 0 s = ([], s) := rfl

theorem run_final {s : σ} (h : M.step s = none) (n : Nat) : M.run n s = ([], s) := by
  cases n with
  | zero => rfl
  | succ n => simp [run, h]

theorem run_succ {s s' : σ} {o : Option ε} (h : M.step s = some (o, s')) (n : Nat) :
    M.run (n + 1) s = (o.toList ++ (M.run n s').1, (M.run n s').2) := by
  simp [run, h]

theorem run_add (m n : Nat) (s : σ) :
    M.run (m + n) s = ((M.run m s).1 ++ (M.run n (M.run m s).2).1, (M.run n (M.run m s).2).2) := by
  induction m generalizing s with
  | zero => simp
  | succ m ih =>
    cases hs : M.step s with
    | none => simp [M.run_final hs]
    | some p =>
      obtain ⟨o, s'⟩ := p
      rw [show m + 1 + n = (m + n) + 1 by omega, M.run_succ hs, M.run_succ hs, ih]
      simp

/-- The events of a shorter run are a beginning of those of a longer one. -/
theorem run_prefix {m n : Nat} (h : m ≤ n) (s : σ) : (M.run m s).1 <+: (M.run n s).1 := by
  obtain ⟨k, rfl⟩ := Nat.exists_eq_add_of_le h
  rw [run_add]
  exact List.prefix_append _ _

/-- Once a run has stopped, longer runs add nothing. -/
theorem run_of_halted {m n : Nat} {s : σ} (h : M.step (M.run m s).2 = none) (hmn : m ≤ n) :
    M.run n s = M.run m s := by
  obtain ⟨k, rfl⟩ := Nat.exists_eq_add_of_le hmn
  rw [run_add, M.run_final h]
  simp

/-- A state from which something is shown is not final. -/
theorem step_ne_none_of_run {n : Nat} {s s' : σ} {e : ε} {t : List ε}
    (h : M.run n s = (e :: t, s')) : M.step s ≠ none := by
  intro hs
  rw [M.run_final hs] at h
  cases h

/-- What a final state shows and where it stops. -/
theorem halts_final {s : σ} (h : M.step s = none) {t : List ε} {s' : σ} :
    M.Halts s t s' ↔ t = [] ∧ s' = s := by
  constructor
  · rintro ⟨n, hn, _⟩
    rw [M.run_final h] at hn
    exact ⟨(Prod.mk.inj hn).1.symm, (Prod.mk.inj hn).2.symm⟩
  · rintro ⟨rfl, rfl⟩
    exact ⟨0, rfl, h⟩

/-- A machine stops in one way only. -/
theorem Halts.unique {s s₁ s₂ : σ} {t₁ t₂ : List ε} (h₁ : M.Halts s t₁ s₁) (h₂ : M.Halts s t₂ s₂) :
    t₁ = t₂ ∧ s₁ = s₂ := by
  obtain ⟨m, hm, fm⟩ := h₁
  obtain ⟨n, hn, fn⟩ := h₂
  have em : M.step (M.run m s).2 = none := by rw [hm]; exact fm
  have en : M.step (M.run n s).2 = none := by rw [hn]; exact fn
  have : M.run m s = M.run n s := by
    rcases le_total m n with h | h
    · exact (M.run_of_halted em h).symm
    · exact M.run_of_halted en h
  rw [hm, hn] at this
  exact Prod.mk.inj this

/-- A run that stops can be taken up from any state on its way. -/
theorem halts_after {k : Nat} {s b : σ} {u : List ε} (h : M.run k s = (u, b)) {t : List ε}
    {s' : σ} :
    M.Halts s t s' ↔ ∃ t', t = u ++ t' ∧ M.Halts b t' s' := by
  constructor
  · rintro ⟨n, hn, hf⟩
    have he : M.run (k + n) s = (t, s') := by
      have hnf : M.step (M.run n s).2 = none := by rw [hn]; exact hf
      rw [M.run_of_halted hnf (by omega), hn]
    rw [run_add, h] at he
    obtain ⟨h1, h2⟩ := Prod.mk.inj he
    exact ⟨_, h1.symm, n, Prod.ext rfl h2, hf⟩
  · rintro ⟨t', rfl, n, hn, hf⟩
    exact ⟨k + n, by rw [run_add, h]; simp [hn], hf⟩

/-- A machine that does not diverge stops. -/
theorem exists_halts_of_not_diverges {s : σ} (h : ¬ M.Diverges s) : ∃ t s', M.Halts s t s' := by
  unfold Diverges at h
  push Not at h
  obtain ⟨n, hn⟩ := h
  exact ⟨_, _, n, rfl, hn⟩

theorem Halts.not_diverges {s s' : σ} {t : List ε} (h : M.Halts s t s') : ¬ M.Diverges s := by
  obtain ⟨n, hn, hf⟩ := h
  intro hd
  apply hd n
  rw [hn]
  exact hf

/-- `R` relates states of `M` to states of `N` that behave alike: a step of `M` is matched by one or
more steps of `N` that show the same event, and a final state of `M` by a run of `N` that shows
nothing and stops in a state matched by `F`. -/
structure Sim (M : Machine σ ε) (N : Machine τ ε) (R F : σ → τ → Prop) : Prop where
  step : ∀ a b o a', R a b → M.step a = some (o, a') →
    ∃ k b', N.step b ≠ none ∧ N.run (k + 1) b = (o.toList, b') ∧ R a' b'
  final : ∀ a b, R a b → M.step a = none →
    ∃ k b', N.run k b = ([], b') ∧ N.step b' = none ∧ F a b'

variable {M} {N : Machine τ ε} {R F : σ → τ → Prop}

/-- Every run of the first machine is matched by a run of the second, which is at least as long. -/
theorem Sim.run (h : Sim M N R F) {a : σ} {b : τ} (hab : R a b) (n : Nat) :
    ∃ m b', N.run m b = ((M.run n a).1, b') ∧ R (M.run n a).2 b' := by
  induction n generalizing a b with
  | zero => exact ⟨0, b, rfl, hab⟩
  | succ n ih =>
    cases hs : M.step a with
    | none => exact ⟨0, b, by simp [M.run_final hs], by simpa [M.run_final hs] using hab⟩
    | some p =>
      obtain ⟨o, a'⟩ := p
      obtain ⟨k, b₁, _, hk, hR⟩ := h.step a b o a' hab hs
      obtain ⟨m, b', hm, hR'⟩ := ih hR
      refine ⟨k + 1 + m, b', ?_, ?_⟩
      · rw [run_add, hk, M.run_succ hs]
        simp [hm]
      · simpa [M.run_succ hs] using hR'

/-- A final state of the first machine is matched by a run of the second that stops. -/
theorem Sim.halts (h : Sim M N R F) {a a' : σ} {b : τ} {t : List ε} (hab : R a b)
    (ha : M.Halts a t a') : ∃ b', N.Halts b t b' ∧ F a' b' := by
  obtain ⟨n, hn, hf⟩ := ha
  obtain ⟨m, b₁, hm, hR⟩ := h.run hab n
  rw [hn] at hm hR
  obtain ⟨k, b', hk, hk', hF⟩ := h.final a' b₁ hR hf
  exact ⟨b', (N.halts_after hm).2 ⟨[], by simp, k, hk, hk'⟩, hF⟩

/-- The second machine stops only if the first one does. The induction is on the length of the run
of the second machine: matching one step of the first uses up at least one of its steps. -/
theorem Sim.halts_back (h : Sim M N R F) {a : σ} {b b' : τ} {t : List ε} (hab : R a b)
    (hb : N.Halts b t b') : ∃ a', M.Halts a t a' := by
  obtain ⟨n, hn, hf⟩ := hb
  have hstop : N.step (N.run n b).2 = none := by rw [hn]; exact hf
  induction n using Nat.strong_induction_on generalizing a b t with
  | _ n ih =>
    cases hs : M.step a with
    | none =>
      obtain ⟨k, b₁, hk, hk', _⟩ := h.final a b hab hs
      obtain ⟨rfl, _⟩ := Halts.unique N ⟨n, hn, hf⟩ ⟨k, hk, hk'⟩
      exact ⟨a, (M.halts_final hs).2 ⟨rfl, rfl⟩⟩
    | some p =>
      obtain ⟨o, a'⟩ := p
      obtain ⟨k, b₁, hne, hk, hR⟩ := h.step a b o a' hab hs
      have hpos : n ≠ 0 := by
        rintro rfl
        exact hne hstop
      have hback : ∃ m < n, ∃ t', t = o.toList ++ t' ∧ N.run m b₁ = (t', b') := by
        by_cases hlt : k + 1 ≤ n
        · obtain ⟨m, rfl⟩ := Nat.exists_eq_add_of_le hlt
          rw [run_add, hk] at hn
          obtain ⟨h1, h2⟩ := Prod.mk.inj hn
          exact ⟨m, by omega, _, h1.symm, Prod.ext rfl h2⟩
        · -- the run had stopped before it was matched: `b₁` is its last state
          have he := N.run_of_halted hstop (show n ≤ k + 1 by omega)
          rw [hk, hn] at he
          obtain ⟨h1, h2⟩ := Prod.mk.inj he
          exact ⟨0, by omega, [], by simp [h1], by simp [h2]⟩
      obtain ⟨m, hm, t', rfl, hm'⟩ := hback
      obtain ⟨a'', ha''⟩ := ih m hm hR hm' (by rw [hm']; exact hf)
      exact ⟨a'', (M.halts_after (k := 1) (u := o.toList) (by simp [Machine.run, hs])).2
        ⟨t', rfl, ha''⟩⟩

/-- Two related machines diverge together. -/
theorem Sim.diverges_iff (h : Sim M N R F) {a : σ} {b : τ} (hab : R a b) :
    M.Diverges a ↔ N.Diverges b := by
  constructor
  · intro hd
    by_contra hcon
    obtain ⟨t, b', hb⟩ := N.exists_halts_of_not_diverges hcon
    obtain ⟨a', ha⟩ := h.halts_back hab hb
    exact Halts.not_diverges M ha hd
  · intro hd
    by_contra hcon
    obtain ⟨t, a', ha⟩ := M.exists_halts_of_not_diverges hcon
    obtain ⟨b', hb, _⟩ := h.halts hab ha
    exact Halts.not_diverges N hb hd

/-- A beginning of one step's events is none of them or all of them. -/
theorem prefix_toList {t : List ε} {o : Option ε} (h : t <+: o.toList) : t = [] ∨ t = o.toList := by
  cases o with
  | none => exact Or.inl (List.prefix_nil.1 h)
  | some e =>
    rcases List.prefix_cons_iff.1 h with rfl | ⟨t', rfl, ht'⟩
    · exact Or.inl rfl
    · exact Or.inr (by rw [List.prefix_nil.1 ht']; rfl)

/-- Two related machines show the same sequence of events, also when neither stops. -/
theorem Sim.traces_eq (h : Sim M N R F) {a : σ} {b : τ} (hab : R a b) :
    M.traces a = N.traces b := by
  ext t
  constructor
  · rintro ⟨n, rfl⟩
    obtain ⟨m, b', hm, _⟩ := h.run hab n
    exact ⟨m, by rw [hm]⟩
  · rintro ⟨m, rfl⟩
    induction m using Nat.strong_induction_on generalizing a b with
    | _ m ih =>
      cases hs : M.step a with
      | none =>
        obtain ⟨k, b₁, hk, hk', _⟩ := h.final a b hab hs
        refine ⟨0, ?_⟩
        have hp := N.run_prefix (Nat.le_add_right m k) b
        have hstop : N.step (N.run k b).2 = none := by rw [hk]; exact hk'
        rw [N.run_of_halted hstop (Nat.le_add_left k m), hk] at hp
        exact (List.prefix_nil.1 hp).symm
      | some p =>
        obtain ⟨o, a'⟩ := p
        obtain ⟨k, b₁, _, hk, hR⟩ := h.step a b o a' hab hs
        by_cases hlt : m ≤ k + 1
        · have hp := N.run_prefix hlt b
          rw [hk] at hp
          rcases prefix_toList hp with he | he
          · exact ⟨0, he.symm⟩
          · exact ⟨1, by simp [Machine.run, hs, he]⟩
        · obtain ⟨m', rfl⟩ := Nat.exists_eq_add_of_le (show k + 1 ≤ m by omega)
          obtain ⟨n, hn⟩ := ih m' (by omega) hR
          refine ⟨n + 1, ?_⟩
          rw [M.run_succ hs, run_add, hk, hn]

/-! ## Following one run -/

/-- A run of `M` that stops in `f` is followed by a run of `P`. Only the states on the way matter:
every event of the run is in `G`, and `f` can be reached from each of them. -/
theorem Halts.forward {δ : Type} {P : Machine τ δ} {R : σ → τ → Prop} {G : ε → Prop} {f : σ}
    (g : ε → δ)
    (hstep : ∀ a b o a', R a b → M.step a = some (o, a') → (∀ e ∈ o.toList, G e) →
      (∃ t, M.Halts a' t f) → ∃ k b', P.run k b = (o.toList.map g, b') ∧ R a' b')
    {a : σ} {b : τ} {t : List ε} (hab : R a b) (ha : M.Halts a t f) (hG : ∀ e ∈ t, G e) :
    ∃ k b', P.run k b = (t.map g, b') ∧ R f b' := by
  obtain ⟨n, hn, hf⟩ := ha
  induction n generalizing a b t with
  | zero =>
    obtain ⟨rfl, rfl⟩ := Prod.mk.inj hn
    exact ⟨0, b, rfl, hab⟩
  | succ n ih =>
    cases hs : M.step a with
    | none =>
      rw [M.run_final hs] at hn
      obtain ⟨rfl, rfl⟩ := Prod.mk.inj hn
      exact ⟨0, b, rfl, hab⟩
    | some p =>
      obtain ⟨o, a'⟩ := p
      rw [M.run_succ hs] at hn
      obtain ⟨rfl, hlast⟩ := Prod.mk.inj hn
      have hrest : M.run n a' = ((M.run n a').1, f) := Prod.ext rfl hlast
      obtain ⟨k, b₁, hk, hR⟩ := hstep a b o a' hab hs
        (fun e he => hG e (List.mem_append_left _ he)) ⟨_, n, hrest, hf⟩
      obtain ⟨m, b', hm, hR'⟩ := ih hR (fun e he => hG e (List.mem_append_right _ he)) hrest
      refine ⟨k + m, b', ?_, hR'⟩
      rw [run_add, hk, hm, List.map_append]

/-! ## Agreement -/

/-- From `a` and `b` the two machines show the same events, diverge together, and stop together, in
states related by `F`. -/
structure Agree (M : Machine σ ε) (N : Machine τ ε) (F : σ → τ → Prop) (a : σ) (b : τ) : Prop where
  traces : M.traces a = N.traces b
  diverges : M.Diverges a ↔ N.Diverges b
  halts : ∀ t a', M.Halts a t a' → ∃ b', N.Halts b t b' ∧ F a' b'
  halts_back : ∀ t b', N.Halts b t b' → ∃ a', M.Halts a t a' ∧ F a' b'

/-- Related machines agree. -/
theorem Sim.agree (h : Sim M N R F) {a : σ} {b : τ} (hab : R a b) : Agree M N F a b where
  traces := h.traces_eq hab
  diverges := h.diverges_iff hab
  halts _ _ ha := h.halts hab ha
  halts_back t b' hb := by
    obtain ⟨a', ha⟩ := h.halts_back hab hb
    obtain ⟨b'', hb'', hF⟩ := h.halts hab ha
    obtain ⟨_, rfl⟩ := Halts.unique N hb hb''
    exact ⟨a', ha, hF⟩

theorem Agree.mono {G : σ → τ → Prop} {a : σ} {b : τ} (h : Agree M N F a b)
    (hFG : ∀ a' b', F a' b' → G a' b') : Agree M N G a b where
  traces := h.traces
  diverges := h.diverges
  halts t a' ha := by
    obtain ⟨b', hb, hF⟩ := h.halts t a' ha
    exact ⟨b', hb, hFG a' b' hF⟩
  halts_back t b' hb := by
    obtain ⟨a', ha, hF⟩ := h.halts_back t b' hb
    exact ⟨a', ha, hFG a' b' hF⟩

/-- Agreement composes. -/
theorem Agree.trans {ρ : Type} {P : Machine ρ ε} {G : τ → ρ → Prop} {a : σ} {b : τ} {c : ρ}
    (h : Agree M N F a b) (h' : Agree N P G b c) :
    Agree M P (fun a' c' => ∃ b', F a' b' ∧ G b' c') a c where
  traces := h.traces.trans h'.traces
  diverges := h.diverges.trans h'.diverges
  halts t a' ha := by
    obtain ⟨b', hb, hF⟩ := h.halts t a' ha
    obtain ⟨c', hc, hG⟩ := h'.halts t b' hb
    exact ⟨c', hc, b', hF, hG⟩
  halts_back t c' hc := by
    obtain ⟨b', hb, hG⟩ := h'.halts_back t c' hc
    obtain ⟨a', ha, hF⟩ := h.halts_back t b' hb
    exact ⟨a', ha, b', hF, hG⟩

end Machine

end Galette.Lib
