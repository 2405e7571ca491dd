import Galette.Chainsmith.Analyse
import Galette.Chainsmith.Generate

/-!
# Proofs: positions and values of variants

The analysis gives the variants of an enum in the order in which they are declared. Their values are
their positions exactly if the enum is `Positional`.
-/

namespace Galette.Chainsmith

open Galette.Lib Galette.Protocol

/-! ## What the analysis has seen -/

/-- The enum that `packet` returns, and its variants. -/
theorem analyse_enum {name : String} {file : SynFile} {analysis : FnAnalysis} {ident : String}
    {variants : List String} (h : analyse name file = .ok analysis)
    (hret : analysis.retTy = .enum ident variants) :
    ∃ e, enumItem file ident = some e ∧ variants = e.variants.map Variant.ident := by
  unfold analyse at h
  split at h
  · cases h
  · obtain ⟨ret, hr, h⟩ := Except.bind_eq_ok.1 h
    obtain rfl := Except.ok.inj h
    obtain rfl : ret = .enum ident variants := hret
    unfold retTy at hr
    split at hr
    · cases hr
    · split at hr
      · cases hr
      · split at hr
        · cases hr
        · rename_i e he
          obtain ⟨rfl, rfl⟩ := NfReturnType.enum.inj (Except.ok.inj hr)
          exact ⟨e, he, rfl⟩

/-- Every function of an analysed chain has a source that was accepted. -/
theorem getNfReturnTypes_ok {crates : Crates} {chain : Chain} {analyses : List FnAnalysis}
    (h : getNfReturnTypes crates chain = .ok analyses) :
    ∀ e ∈ analysed chain analyses, ∃ file, loadSource crates e.1.1 e.1.2 = .ok file ∧
      analyse e.1.1 file = .ok e.2 := by
  have key := foldE_inv (fun done (fnRetvals : List FnAnalysis) => fnRetvals.length = done.length ∧
    ∀ e ∈ done.zip fnRetvals, ∃ file, loadSource crates e.1.1 e.1.2 = .ok file ∧
      analyse e.1.1 file = .ok e.2) h ⟨rfl, by simp⟩ ?_
  · exact key.2
  · rintro done x rest fnRetvals fnRetvals' _ ⟨hlen, hall⟩ hb
    obtain ⟨file, hfile, hb⟩ := Except.bind_eq_ok.1 hb
    obtain ⟨a, ha, hb⟩ := Except.bind_eq_ok.1 hb
    obtain rfl := Except.ok.inj hb
    refine ⟨by simp [hlen], ?_⟩
    rw [List.zip_append hlen.symm]
    intro e he
    rcases List.mem_append.1 he with he | he
    · exact hall e he
    · obtain rfl : e = (x, a) := by simpa using he
      exact ⟨file, hfile, ha⟩

/-! ## Values -/

theorem Build.cast_zero (b : Build) : b.cast 0 = 0 := by cases b <;> rfl

theorem Build.cast_succ {b : Build} {d : Int} {k : Nat} (h : b.cast d = k) (hk : k + 1 < 2 ^ 32) :
    b.cast (d + 1) = k + 1 := by
  cases b with
  | xdp =>
    simp only [Build.cast, Build.bits] at h ⊢
    omega
  | user =>
    simp only [Build.cast, Build.bits] at h ⊢
    omega

/-- `Positional` for the variants from position `k` on. `follows` says whether a variant without a
discriminant may come first. -/
def PositionalFrom (b : Build) : Nat → Bool → List Variant → Prop
  | _, _, [] => True
  | k, follows, v :: vs =>
    (v.cfg b = true → k < 2 ^ 32 ∧
      match v.discriminant with
      | some d => b.cast d = k
      | none => follows = true) ∧
    PositionalFrom b (k + 1) (v.cfg b) vs

theorem positionalFrom_iff {b : Build} {vs : List Variant} {k : Nat} {follows : Bool} :
    PositionalFrom b k follows vs ↔
      ∀ (i : Nat) v, vs[i]? = some v → v.cfg b = true → k + i < 2 ^ 32 ∧
        match v.discriminant with
        | some d => b.cast d = k + i
        | none => (i = 0 → follows = true) ∧
            ∀ j, i = j + 1 → ∃ w, vs[j]? = some w ∧ w.cfg b = true := by
  induction vs generalizing k follows with
  | nil => simp [PositionalFrom]
  | cons v vs ih =>
    rw [PositionalFrom, ih]
    refine Iff.trans (and_congr ?_ (forall_congr' fun i => ?_)) Nat.and_forall_add_one
    · simp only [List.getElem?_cons_zero, Option.some.injEq, forall_eq', Nat.add_zero]
      cases v.discriminant <;> simp
    · simp only [List.getElem?_cons_succ]
      refine forall₂_congr fun w _ => ?_
      rw [show k + 1 + i = k + (i + 1) by omega]
      refine imp_congr_right fun _ => and_congr_right fun _ => ?_
      cases w.discriminant with
      | some d => rfl
      | none =>
        cases i with
        | zero => simp
        | succ j => simp

theorem positional_iff {b : Build} {vs : List Variant} :
    Positional b vs ↔ PositionalFrom b 0 true vs := by
  rw [positionalFrom_iff]
  refine forall₂_congr fun i v => forall₂_congr fun _ _ => ?_
  rw [Nat.zero_add]
  refine and_congr_right fun _ => ?_
  cases v.discriminant <;> simp

/-- The values of a list are positions, the first of which is `k`. -/
def ValuesFrom (b : Build) (k : Nat) (values : List (Option Int)) : Prop :=
  ∀ (i : Nat) d, values[i]? = some (some d) → b.cast d = k + i ∧ k + i < 2 ^ 32

theorem valuesFrom_cons {b : Build} {k : Nat} {x : Option Int} {xs : List (Option Int)} :
    ValuesFrom b k (x :: xs) ↔
      (∀ d, x = some d → b.cast d = k ∧ k < 2 ^ 32) ∧ ValuesFrom b (k + 1) xs := by
  refine Iff.trans Nat.and_forall_add_one.symm (and_congr (by simp) (forall_congr' fun i => ?_))
  rw [List.getElem?_cons_succ, show k + (i + 1) = k + 1 + i by omega]

/-- The values of the variants from position `k` on are the positions, if `next` is a value that a
variant without a discriminant gets at position `k` at the latest. -/
theorem valuesFrom_discriminants {b : Build} {vs : List Variant} {k : Nat} {follows : Bool}
    {next : Int}
    (hnext : k < 2 ^ 32 → b.cast next ≤ k ∧ (follows = true ↔ b.cast next = k)) :
    ValuesFrom b k (discriminants b next vs) ↔ PositionalFrom b k follows vs := by
  induction vs generalizing k follows next with
  | nil => simp [ValuesFrom, discriminants, PositionalFrom]
  | cons v vs ih =>
    rw [PositionalFrom, discriminants]
    by_cases hv : v.cfg b = true
    · have hhead : (∀ d, some (v.discriminant.getD next) = some d → b.cast d = k ∧ k < 2 ^ 32) ↔
          k < 2 ^ 32 ∧
            match v.discriminant with
            | some d => b.cast d = k
            | none => follows = true := by
        simp only [Option.some.injEq, forall_eq']
        rw [and_comm]
        refine and_congr_right fun hk => ?_
        cases v.discriminant with
        | some d => rfl
        | none => exact (hnext hk).2.symm
      rw [if_pos hv, valuesFrom_cons, hv, forall_prop_of_true rfl, ← hhead]
      refine and_congr_right fun hcast => ih fun hk => ?_
      rw [Build.cast_succ (hcast _ rfl).1 hk]
      simp
    · have hv' : v.cfg b = false := by simpa using hv
      rw [if_neg hv, valuesFrom_cons, hv']
      refine and_congr (by simp) (ih fun hk => ?_)
      -- The next value stays behind: `next` is at most `k`.
      have hle := (hnext (by omega)).1
      refine ⟨by omega, ?_⟩
      simp only [Bool.false_eq_true, false_iff]
      omega

theorem ItemEnum.returned_eq_some {e : ItemEnum} {b : Build} {i n : Nat} :
    e.returned b i = some n ↔
      ∃ d, (discriminants b 0 e.variants)[i]? = some (some d) ∧ b.cast d = n := by
  unfold ItemEnum.returned
  rw [Option.map_eq_some_iff]
  simp [Option.bind_eq_some_iff]

/-- **The wrappers return the positions of the variants exactly if the enum is positional.** -/
theorem returned_iff_positional {e : ItemEnum} {b : Build} :
    (∀ i n, e.returned b i = some n → n = i ∧ i < 2 ^ 32) ↔ Positional b e.variants := by
  have hvalues : ValuesFrom b 0 (discriminants b 0 e.variants) ↔
    PositionalFrom b 0 true e.variants :=
    valuesFrom_discriminants (by simp [Build.cast_zero])
  rw [positional_iff, ← hvalues]
  simp only [ItemEnum.returned_eq_some, ValuesFrom, Nat.zero_add]
  constructor
  · intro h i d hd
    exact h i _ ⟨d, hd, rfl⟩
  · rintro h i n ⟨d, hd, rfl⟩
    exact h i d hd

/-- The build has a variant exactly if it has a value for it. -/
theorem exists_returned {e : ItemEnum} {b : Build} {i : Nat} :
    (∃ n, e.returned b i = some n) ↔ ∃ v, e.variants[i]? = some v ∧ v.cfg b = true := by
  have key : ∀ (vs : List Variant) next (i : Nat),
      (∃ d, (discriminants b next vs)[i]? = some (some d)) ↔
        ∃ v, vs[i]? = some v ∧ v.cfg b = true := by
    intro vs
    induction vs with
    | nil => simp [discriminants]
    | cons v vs ih =>
      intro next i
      rw [discriminants]
      by_cases hv : v.cfg b = true
      · cases i with
        | zero => simp [hv]
        | succ i => simp [hv, ih]
      · cases i with
        | zero => simp [hv]
        | succ i => simp [hv, ih]
  rw [← key e.variants 0 i]
  simp only [ItemEnum.returned_eq_some]
  constructor
  · rintro ⟨n, d, hd, _⟩
    exact ⟨d, hd⟩
  · rintro ⟨d, hd⟩
    exact ⟨_, d, hd, rfl⟩

end Galette.Chainsmith
