import Mathlib.Data.Finset.Filter
import Mathlib.Data.Finset.Card
import Mathlib.Data.List.Chain
import Mathlib.Data.List.Nodup
import Mathlib.Data.List.Perm.Subperm
import Mathlib.Logic.Relation

/-!
# Walks through a finite graph

A graph is a relation. A walk can go on forever exactly if a cycle can be reached from where it
starts; if none can, a walk never comes to a node twice, and what is true of a node as soon as it is
true of its successors is true.
-/

namespace Galette.Lib

open Relation

variable {α : Type} {r : α → α → Prop} {a b : α}

/-- A cycle can be reached from `a`. -/
def ReachesCycle (r : α → α → Prop) (a : α) : Prop := ∃ b, ReflTransGen r a b ∧ TransGen r b b

theorem ReachesCycle.of_rel (h : r a b) (hb : ReachesCycle r b) : ReachesCycle r a := by
  obtain ⟨c, hbc, hc⟩ := hb
  exact ⟨c, .head h hbc, hc⟩

/-- There is a way on from a node that reaches a cycle. -/
theorem ReachesCycle.exists_next (h : ReachesCycle r a) : ∃ b, r a b ∧ ReachesCycle r b := by
  obtain ⟨c, hac, hc⟩ := h
  rcases ReflTransGen.cases_head hac with rfl | ⟨b, hab, hbc⟩
  · obtain ⟨b, hab, hba⟩ := TransGen.head'_iff.1 hc
    exact ⟨b, hab, a, hba, hc⟩
  · exact ⟨b, hab, c, hbc, hc⟩

/-- From a node that reaches a cycle one can walk forever. -/
theorem ReachesCycle.exists_path (h : ReachesCycle r a) :
    ∃ p : Nat → α, p 0 = a ∧ ∀ n, r (p n) (p (n + 1)) := by
  have hnext : ∀ x : { x // ReachesCycle r x }, ∃ y : { x // ReachesCycle r x }, r x y := by
    rintro ⟨x, hx⟩
    obtain ⟨y, hxy, hy⟩ := hx.exists_next
    exact ⟨⟨y, hy⟩, hxy⟩
  choose next hrel using hnext
  refine ⟨fun n => (next^[n] ⟨a, h⟩).val, rfl, fun n => ?_⟩
  have hsucc : next^[n + 1] ⟨a, h⟩ = next (next^[n] ⟨a, h⟩) := Function.iterate_succ_apply' next n _
  simpa only [hsucc] using hrel (next^[n] ⟨a, h⟩)

/-- A walk that cannot reach a cycle does not come to a node twice. -/
theorem nodup_of_isChain {l : List α} (ha : ¬ ReachesCycle r a) (hl : (a :: l).IsChain r) :
    (a :: l).Nodup := by
  induction l generalizing a with
  | nil => exact List.nodup_singleton a
  | cons b l ih =>
    have hab : r a b := (List.isChain_cons_cons.1 hl).1
    refine List.nodup_cons.2 ⟨fun hmem => ha ?_, ih (fun hb => ha (.of_rel hab hb)) hl.tail⟩
    exact ⟨a, .refl, (hl.imp fun _ _ h => TransGen.single h).rel_cons hmem⟩

theorem mem_of_isChain {nodes l : List α} (hnodes : ∀ x y, r x y → y ∈ nodes)
    (hl : (a :: l).IsChain r) : ∀ x ∈ l, x ∈ nodes := by
  induction l generalizing a with
  | nil => simp
  | cons b l ih =>
    intro x hx
    rcases List.mem_cons.1 hx with rfl | hx
    · exact hnodes a x (List.isChain_cons_cons.1 hl).1
    · exact ih hl.tail x hx

/-- Induction along walks that cannot reach a cycle. A walk is not longer than the list of nodes, so
going on from one node without the property to the next comes to an end. -/
theorem acyclic_induction {P : α → Prop} {nodes : List α} (hnodes : ∀ x y, r x y → y ∈ nodes)
    (step : ∀ x, (∀ y, r x y → P y) → P x) (ha : ¬ ReachesCycle r a) : P a := by
  by_contra hP
  have hwalks : ∀ n x, ¬ ReachesCycle r x → ¬ P x → ∃ l, (x :: l).IsChain r ∧ l.length = n := by
    intro n
    induction n with
    | zero => exact fun x _ _ => ⟨[], List.isChain_singleton x, rfl⟩
    | succ n ih =>
      intro x hx hPx
      have hnext : ∃ y, r x y ∧ ¬ P y := by
        by_contra hall
        push Not at hall
        exact hPx (step x hall)
      obtain ⟨y, hxy, hPy⟩ := hnext
      obtain ⟨l, hl, hlen⟩ := ih y (fun hy => hx (.of_rel hxy hy)) hPy
      exact ⟨y :: l, List.isChain_cons_cons.2 ⟨hxy, hl⟩, by rw [List.length_cons, hlen]⟩
  obtain ⟨l, hl, hlen⟩ := hwalks (nodes.length + 1) a ha hP
  have hnodup : l.Nodup := (List.nodup_cons.1 (nodup_of_isChain ha hl)).2
  have hle := (hnodup.subperm fun x hx => mem_of_isChain hnodes hl x hx).length_le
  omega

open Classical in
/-- How many nodes can be reached from a node. -/
noncomputable def rank (r : α → α → Prop) (nodes : Finset α) (a : α) : Nat :=
  (nodes.filter fun x => TransGen r a x).card

theorem rank_le (r : α → α → Prop) (nodes : Finset α) (a : α) : rank r nodes a ≤ nodes.card := by
  classical
  unfold rank
  exact Finset.card_filter_le _ _

/-- Every step on the way lowers the rank, as long as no cycle can be reached. -/
theorem rank_lt {nodes : Finset α} (hnodes : ∀ x y, r x y → y ∈ nodes) (hab : r a b)
    (ha : ¬ ReachesCycle r a) : rank r nodes b < rank r nodes a := by
  classical
  unfold rank
  refine Finset.card_lt_card ⟨fun x hx => ?_, fun hsub => ha ?_⟩
  · obtain ⟨hmem, hbx⟩ := Finset.mem_filter.1 hx
    exact Finset.mem_filter.2 ⟨hmem, .head hab hbx⟩
  · have hb := hsub (Finset.mem_filter.2 ⟨hnodes a b hab, .single hab⟩)
    exact ⟨b, .single hab, (Finset.mem_filter.1 hb).2⟩

end Galette.Lib
