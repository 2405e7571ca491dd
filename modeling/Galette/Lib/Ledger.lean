import Mathlib.Algebra.Order.BigOperators.Group.Finset
import Mathlib.Algebra.Order.Group.Multiset
import Mathlib.Data.Fintype.BigOperators
import Mathlib.Tactic.Abel

/-!
# Ledgers

Tokens lie at finitely many places, and are moved from one place to another; some of them may be
lost on the way. A ledger says which tokens lie where. What matters is the total: a transfer changes
it by what is lost, and the tokens at some of the places are never more than the total.
-/

namespace Galette.Lib

/-- The tokens at every place. -/
abbrev Ledger (L α : Type) := L → Multiset α

namespace Ledger

variable {L α : Type} [Fintype L]

def total (m : Ledger L α) : Multiset α := ∑ l, m l

theorem mem_total {m : Ledger L α} {x : α} : x ∈ m.total ↔ ∃ l, x ∈ m l := by
  unfold total
  rw [Multiset.mem_sum]
  simp

variable [DecidableEq L]

/-- The total is the tokens at two places and at all others. -/
theorem total_eq (m : Ledger L α) {a b : L} (h : a ≠ b) :
    m.total = m a + (m b + ∑ l ∈ (Finset.univ.erase a).erase b, m l) := by
  have hb : b ∈ Finset.univ.erase a := Finset.mem_erase.2 ⟨h.symm, Finset.mem_univ b⟩
  rw [Finset.add_sum_erase _ m hb, Finset.add_sum_erase _ m (Finset.mem_univ a)]
  rfl

/-- The tokens at two places are among all of them. -/
theorem add_le_total (m : Ledger L α) {a b : L} (h : a ≠ b) : m a + m b ≤ m.total := by
  rw [m.total_eq h, ← add_assoc]
  exact Multiset.le_add_right _ _

/-- **Transfers.** If only two places change, the total changes by what these two lose. -/
theorem total_transfer {m m' : Ledger L α} {a b : L} {lost : Multiset α} (hne : a ≠ b)
    (hothers : ∀ l, l ≠ a → l ≠ b → m' l = m l) (h : m a + m b = m' a + m' b + lost) :
    m.total = m'.total + lost := by
  have hsum : ∑ l ∈ (Finset.univ.erase a).erase b, m' l =
      ∑ l ∈ (Finset.univ.erase a).erase b, m l := by
    refine Finset.sum_congr rfl fun l hl => ?_
    obtain ⟨hb, hl⟩ := Finset.mem_erase.1 hl
    exact hothers l (Finset.mem_erase.1 hl).1 hb
  rw [m.total_eq hne, m'.total_eq hne, hsum, ← add_assoc, ← add_assoc, h]
  abel

end Ledger

end Galette.Lib
