import Mathlib.Algebra.Order.Ring.Nat
import Mathlib.Data.List.Basic
import Mathlib.Data.List.Forall2

/-!
# Computations that fail or panic

A Rust function of type `Result<T, E>` ends in a value, returns an error of type `E`, or panics
(`unwrap` of a missing value, `unreachable!()`, an index out of range). The loops of the source are
folds in this monad; the rules below are the invariant rules for such a fold, with the invariant
indexed by the elements already processed.
-/

namespace Galette.Lib

/-- How a computation ends without a value. -/
inductive Fail (E : Type) where
  | error (e : E)
  | panic (msg : String)
  deriving DecidableEq, Repr

/-- Change the type of the error, as `?` does (`From::from`). A panic stays a panic. -/
def Fail.map {E E' : Type} (f : E → E') : Fail E → Fail E'
  | error e => error (f e)
  | panic msg => panic msg

/-- The result of a computation that may return an error or panic. -/
abbrev Outcome (E α : Type) := Except (Fail E) α

variable {α β ε : Type}

theorem Except.bind_eq_ok {x : Except ε α} {f : α → Except ε β} {b : β} :
    x.bind f = .ok b ↔ ∃ a, x = .ok a ∧ f a = .ok b := by
  cases x with
  | error e => simp [Except.bind]
  | ok a => simp [Except.bind]

theorem Except.bind_eq_error {x : Except ε α} {f : α → Except ε β} {e : ε} :
    x.bind f = .error e ↔ x = .error e ∨ ∃ a, x = .ok a ∧ f a = .error e := by
  cases x with
  | error e => simp [Except.bind]
  | ok a => simp [Except.bind]

theorem Except.mapError_eq_ok {ε' : Type} {x : Except ε α} {f : ε → ε'} {a : α} :
    x.mapError f = .ok a ↔ x = .ok a := by
  cases x with
  | error e => simp [Except.mapError]
  | ok a => simp [Except.mapError]

/-- A computation over a list, one element after the other. -/
def foldE (f : β → α → Except ε β) : β → List α → Except ε β
  | b, [] => .ok b
  | b, x :: l => (f b x).bind fun b' => foldE f b' l

@[simp] theorem foldE_nil (f : β → α → Except ε β) (b : β) : foldE f b [] = .ok b := rfl

theorem foldE_cons (f : β → α → Except ε β) (b : β) (x : α) (l : List α) :
    foldE f b (x :: l) = (f b x).bind fun b' => foldE f b' l := rfl

/-- Invariant rule: what holds at the start and is kept by every step that succeeds holds at the
end. The invariant may speak about the elements processed so far. -/
theorem foldE_inv {f : β → α → Except ε β} {l : List α} {b r : β} (P : List α → β → Prop)
    (h : foldE f b l = .ok r) (h0 : P [] b)
    (hstep : ∀ done x rest b b', l = done ++ x :: rest → P done b → f b x = .ok b' →
      P (done ++ [x]) b') : P l r := by
  have key : ∀ (rest done : List α) (b : β), l = done ++ rest → P done b →
      foldE f b rest = .ok r → P l r := by
    intro rest
    induction rest with
    | nil =>
      intro done b hl hP hr
      obtain rfl : b = r := by simpa using hr
      simpa [hl] using hP
    | cons x rest ih =>
      intro done b hl hP hr
      obtain ⟨b', hb', hr'⟩ := Except.bind_eq_ok.1 (by simpa only [foldE_cons] using hr)
      exact ih (done ++ [x]) b' (by simpa using hl) (hstep done x rest b b' hl hP hb') hr'
  exact key l [] b rfl h0 h

/-- A loop that succeeds made every step succeed. -/
theorem foldE_forall {f : β → α → Except ε β} {l : List α} {b r : β} (h : foldE f b l = .ok r) :
    ∀ x ∈ l, ∃ b₁ b₂, f b₁ x = .ok b₂ := by
  refine foldE_inv (fun done _ => ∀ x ∈ done, ∃ b₁ b₂, f b₁ x = .ok b₂) h (by simp) ?_
  intro done x rest b₁ b₂ _ hdone hb y hy
  rcases List.mem_append.1 hy with hy | hy
  · exact hdone y hy
  · obtain rfl := List.mem_singleton.1 hy
    exact ⟨b₁, b₂, hb⟩

/-- A loop whose every step succeeds under the invariant succeeds, and the invariant holds at the
end. -/
theorem foldE_total {f : β → α → Except ε β} {l : List α} {b : β} (P : List α → β → Prop)
    (h0 : P [] b) (hstep : ∀ done x rest b, l = done ++ x :: rest → P done b →
      ∃ b', f b x = .ok b' ∧ P (done ++ [x]) b') : ∃ r, foldE f b l = .ok r ∧ P l r := by
  have key : ∀ (rest done : List α) (b : β), l = done ++ rest → P done b →
      ∃ r, foldE f b rest = .ok r ∧ P l r := by
    intro rest
    induction rest with
    | nil =>
      intro done b hl hP
      exact ⟨b, rfl, by simpa [hl] using hP⟩
    | cons x rest ih =>
      intro done b hl hP
      obtain ⟨b', hb', hP'⟩ := hstep done x rest b hl hP
      obtain ⟨r, hr, hPr⟩ := ih (done ++ [x]) b' (by simpa using hl) hP'
      exact ⟨r, by rw [foldE_cons, hb']; exact hr, hPr⟩
  exact key l [] b rfl h0

/-- A loop fails in the first step that fails: the steps before it succeeded and kept the
invariant. -/
theorem foldE_error {f : β → α → Except ε β} {l : List α} {b : β} {e : ε} (P : List α → β → Prop)
    (h : foldE f b l = .error e) (h0 : P [] b)
    (hstep : ∀ done x rest b b', l = done ++ x :: rest → P done b → f b x = .ok b' →
      P (done ++ [x]) b') :
    ∃ done x rest b', l = done ++ x :: rest ∧ P done b' ∧ f b' x = .error e := by
  have key : ∀ (rest done : List α) (b : β), l = done ++ rest → P done b →
      foldE f b rest = .error e →
      ∃ done x rest b', l = done ++ x :: rest ∧ P done b' ∧ f b' x = .error e := by
    intro rest
    induction rest with
    | nil => intro done b _ _ hr; simp at hr
    | cons x rest ih =>
      intro done b hl hP hr
      rcases Except.bind_eq_error.1 (by simpa only [foldE_cons] using hr) with hx | ⟨b', hb', hr'⟩
      · exact ⟨done, x, rest, b, hl, hP, hx⟩
      · exact ih (done ++ [x]) b' (by simpa using hl) (hstep done x rest b b' hl hP hb') hr'
  exact key l [] b rfl h0 h

/-! ## Positions -/

/-- The element of a loop with positions that comes after `done` has position `done.length`. -/
theorem zipIdx_pos {l : List α} {done rest : List (α × Nat)} {x : α × Nat}
    (h : l.zipIdx = done ++ x :: rest) : x.2 = done.length ∧ l[done.length]? = some x.1 := by
  have hx : l.zipIdx[done.length]? = some x := by rw [h]; simp
  simp only [List.getElem?_zipIdx, Option.map_eq_some_iff] at hx
  obtain ⟨a, ha, rfl⟩ := hx
  exact ⟨by simp, ha⟩

theorem forall₂_getElem? {R : α → β → Prop} {as : List α} {bs : List β}
    (h : List.Forall₂ R as bs) {i : Nat} {a : α} (ha : as[i]? = some a) :
    ∃ b, bs[i]? = some b ∧ R a b := by
  obtain ⟨hlen, hget⟩ := List.forall₂_iff_get.1 h
  obtain ⟨hi, rfl⟩ := List.getElem?_eq_some_iff.1 ha
  exact ⟨bs[i], List.getElem?_eq_getElem (hlen ▸ hi), hget i hi (hlen ▸ hi)⟩

/-- If a function has a value on all of a list, the list of these values has one at each
position. -/
theorem exists_of_map_eq {f : α → Option β} {as : List α} {bs : List β}
    (h : as.map f = bs.map some) {i : Nat} {a : α} (ha : as[i]? = some a) :
    ∃ b, bs[i]? = some b ∧ f a = some b := by
  have hget : (bs.map some)[i]? = some (f a) := by
    rw [← h, List.getElem?_map, ha]
    rfl
  rw [List.getElem?_map] at hget
  obtain ⟨b, hb, hab⟩ := Option.map_eq_some_iff.1 hget
  exact ⟨b, hb, hab.symm⟩

/-- One more element of a list: it is the last, or it was there before. -/
theorem getElem?_snoc {l : List α} {x y : α} {i : Nat} (h : (l ++ [x])[i]? = some y) :
    i < l.length ∧ l[i]? = some y ∨ i = l.length ∧ y = x := by
  by_cases hi : i < l.length
  · rw [List.getElem?_append_left hi] at h
    exact Or.inl ⟨hi, h⟩
  · have hlt := (List.getElem?_eq_some_iff.1 h).1
    have hi' : i = l.length := by simp at hlt; omega
    subst hi'
    simp at h
    exact Or.inr ⟨rfl, h.symm⟩

end Galette.Lib
