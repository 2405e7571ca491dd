import Mathlib.Algebra.Order.Ring.Nat
import Mathlib.Data.List.AList
import Mathlib.Data.List.Induction
import Mathlib.Data.List.Nodup
import Mathlib.Order.Lattice

/-!
# Finite maps

The two map types of the standard library that the programs use. A `HashMap` is a list of entries
with distinct keys (Mathlib's `AList`); its iteration order means nothing, so statements about an
iteration hold for every permutation of the entries. A `BTreeMap` is iterated in the order of its
keys, so its entries are kept sorted.
-/

namespace Galette.Lib

/-- A map without a meaningful order. -/
abbrev HashMap (K V : Type) := AList (fun _ : K => V)

namespace HashMap

variable {K V α : Type} [DecidableEq K]

/-- The values, in some order. -/
def values (m : HashMap K V) : List V := m.entries.map Sigma.snd

/-- Change the value under `k`, if there is one (`get_mut`). -/
def modify (m : HashMap K V) (k : K) (f : V → V) : HashMap K V :=
  match m.lookup k with
  | some v => m.insert k (f v)
  | none => m

/-- Insert one entry for every element of a list, in the order of the list. -/
def insertAll (key : α → K) (val : α → V) (l : List α) (m : HashMap K V) : HashMap K V :=
  l.foldl (fun m x => m.insert (key x) (val x)) m

theorem lookup_insert_ite (m : HashMap K V) (k a : K) (v : V) :
    (AList.insert k v m).lookup a = if a = k then some v else m.lookup a := by
  by_cases h : a = k
  · subst h; simp
  · simp [h, AList.lookup_insert_ne h]

theorem lookup_modify (m : HashMap K V) (k a : K) (f : V → V) :
    (modify m k f).lookup a = if a = k then (m.lookup k).map f else m.lookup a := by
  unfold modify
  cases hk : m.lookup k with
  | none =>
    by_cases h : a = k
    · subst h; simp [hk]
    · simp [h]
  | some v =>
    rw [lookup_insert_ite]
    by_cases h : a = k <;> simp [h]

theorem mem_values {m : HashMap K V} {v : V} : v ∈ values m ↔ ∃ k, m.lookup k = some v := by
  constructor
  · intro h
    obtain ⟨⟨k, v'⟩, he, rfl⟩ := List.mem_map.1 h
    exact ⟨k, AList.mem_lookup_iff.2 he⟩
  · rintro ⟨k, hk⟩
    exact List.mem_map.2 ⟨⟨k, v⟩, AList.mem_lookup_iff.1 hk, rfl⟩

@[simp] theorem insertAll_nil (key : α → K) (val : α → V) (m : HashMap K V) :
    insertAll key val [] m = m := rfl

@[simp] theorem insertAll_cons (key : α → K) (val : α → V) (x : α) (l : List α)
    (m : HashMap K V) :
    insertAll key val (x :: l) m = insertAll key val l (AList.insert (key x) (val x) m) := rfl

theorem insertAll_append (key : α → K) (val : α → V) (l₁ l₂ : List α) (m : HashMap K V) :
    insertAll key val (l₁ ++ l₂) m = insertAll key val l₂ (insertAll key val l₁ m) := by
  simp [insertAll]

/-- A key that no element has keeps its value. -/
theorem lookup_insertAll_of_notMem {key : α → K} {val : α → V} {l : List α} {m : HashMap K V}
    {k : K} (h : ∀ x ∈ l, key x ≠ k) : (insertAll key val l m).lookup k = m.lookup k := by
  induction l generalizing m with
  | nil => rfl
  | cons x l ih =>
    rw [insertAll_cons, ih (fun y hy => h y (List.mem_cons_of_mem _ hy)), lookup_insert_ite]
    simp [(h x (List.mem_cons_self ..)).symm]

/-- The last element with a key decides its value. -/
theorem lookup_insertAll_last (key : α → K) (val : α → V) (l : List α) {r : List α} {x : α}
    (m : HashMap K V) (h : ∀ y ∈ r, key y ≠ key x) :
    (insertAll key val (l ++ x :: r) m).lookup (key x) = some (val x) := by
  rw [insertAll_append, insertAll_cons, lookup_insertAll_of_notMem h]
  simp

/-- A value that is found was there before, or belongs to an element with the key. -/
theorem lookup_insertAll_cases {key : α → K} {val : α → V} {l : List α} {m : HashMap K V} {k : K}
    {v : V} (h : (insertAll key val l m).lookup k = some v) :
    m.lookup k = some v ∨ ∃ x ∈ l, key x = k ∧ val x = v := by
  induction l generalizing m with
  | nil => exact Or.inl h
  | cons x l ih =>
    rw [insertAll_cons] at h
    rcases ih h with hm | ⟨y, hy, hyk, hyv⟩
    · rw [lookup_insert_ite] at hm
      split at hm
      · rename_i hk
        exact Or.inr ⟨x, List.mem_cons_self .., hk.symm, Option.some.inj hm⟩
      · exact Or.inl hm
    · exact Or.inr ⟨y, List.mem_cons_of_mem _ hy, hyk, hyv⟩

/-- The key of an element has a value. -/
theorem exists_lookup_insertAll (key : α → K) (val : α → V) {l : List α} (m : HashMap K V) {x : α}
    (hx : x ∈ l) : ∃ v, (insertAll key val l m).lookup (key x) = some v := by
  induction l using List.reverseRecOn with
  | nil => cases hx
  | append_singleton l y ih =>
    rw [insertAll_append, insertAll_cons, insertAll_nil, lookup_insert_ite]
    by_cases hy : key x = key y
    · exact ⟨val y, if_pos hy⟩
    · have hx' : x ∈ l := by
        rcases List.mem_append.1 hx with hx | hx
        · exact hx
        · exact absurd (congrArg key (List.mem_singleton.1 hx)) hy
      obtain ⟨v, hv⟩ := ih hx'
      exact ⟨v, (if_neg hy).trans hv⟩

omit [DecidableEq K] in
/-- In an iteration no key comes again. -/
theorem key_ne_of_entries {m : HashMap K V} {done rest : List (Σ _ : K, V)} {x : Σ _ : K, V}
    (h : m.entries = done ++ x :: rest) : ∀ e ∈ done, e.1 ≠ x.1 := by
  intro e he
  have hnd := List.nodupKeys_iff_pairwise.1 m.nodupKeys
  rw [h, List.pairwise_append] at hnd
  exact hnd.2.2 e he x (by simp)

/-- With distinct keys every element finds its own value. -/
theorem lookup_insertAll_of_mem {key : α → K} (val : α → V) {l : List α} (m : HashMap K V)
    (hnd : (l.map key).Nodup) {x : α} (hx : x ∈ l) :
    (insertAll key val l m).lookup (key x) = some (val x) := by
  obtain ⟨l₁, l₂, rfl⟩ := List.append_of_mem hx
  apply lookup_insertAll_last key val l₁ m
  intro y hy he
  simp only [List.map_append, List.map_cons] at hnd
  have := (List.nodup_cons.1 (List.nodup_append.1 hnd).2.1).1
  exact this (List.mem_map.2 ⟨y, hy, he⟩)

end HashMap

/-- A map iterated in the order of its keys. -/
structure BTreeMap (K V : Type) [LT K] where
  /-- The entries, in the order in which they are iterated. -/
  entries : List (K × V)
  /-- The keys strictly increase. -/
  sorted : entries.Pairwise (fun a b => a.1 < b.1)

namespace BTreeMap

def empty {K V : Type} [LT K] : BTreeMap K V := ⟨[], .nil⟩

def singleton {K V : Type} [LT K] (k : K) (v : V) : BTreeMap K V :=
  ⟨[(k, v)], List.pairwise_singleton _ _⟩

variable {K V : Type} [LinearOrder K]

def keys (m : BTreeMap K V) : List K := m.entries.map Prod.fst

def get? (m : BTreeMap K V) (k : K) : Option V := (m.entries.find? (fun e => e.1 = k)).map Prod.snd

theorem keys_nodup (m : BTreeMap K V) : m.keys.Nodup := by
  unfold keys
  rw [List.Nodup, List.pairwise_map]
  exact m.sorted.imp (fun h => ne_of_lt h)

/-- In an iteration no key comes again. -/
theorem key_ne_of_entries {m : BTreeMap K V} {done rest : List (K × V)} {x : K × V}
    (h : m.entries = done ++ x :: rest) : ∀ e ∈ done, e.1 ≠ x.1 := by
  intro e he
  have hs := m.sorted
  rw [h, List.pairwise_append] at hs
  exact ne_of_lt (hs.2.2 e he x (by simp))

/-- Two entries with one key are the same entry. -/
theorem entries_inj (m : BTreeMap K V) {k : K} {v w : V} (hv : (k, v) ∈ m.entries)
    (hw : (k, w) ∈ m.entries) : v = w := by
  have := List.inj_on_of_nodup_map m.keys_nodup hv hw rfl
  exact (Prod.mk.inj this).2

theorem get?_eq_some {m : BTreeMap K V} {k : K} {v : V} :
    m.get? k = some v ↔ (k, v) ∈ m.entries := by
  unfold get?
  constructor
  · intro h
    obtain ⟨⟨k', v'⟩, hf, rfl⟩ := Option.map_eq_some_iff.1 h
    have hk : k' = k := by simpa using List.find?_some hf
    subst hk
    exact List.mem_of_find?_eq_some hf
  · intro h
    cases hf : m.entries.find? (fun e => e.1 = k) with
    | none => exact absurd (by simp) (List.find?_eq_none.1 hf _ h)
    | some e =>
      obtain ⟨k', v'⟩ := e
      have hk : k' = k := by simpa using List.find?_some hf
      subst hk
      simpa using m.entries_inj (List.mem_of_find?_eq_some hf) h

theorem mem_keys {m : BTreeMap K V} {k : K} : k ∈ m.keys ↔ ∃ v, m.get? k = some v := by
  simp [keys, get?_eq_some]

end BTreeMap

end Galette.Lib
