import Galette.Lib.Maps
import Galette.Lib.Outcome

/-!
# Challenge-response pairs

`crp::InMemory` answers challenges from a table that is drawn once. A bit set of its own says which
challenges are used up. Both are indexed by the challenge, the table by its 64 bits and the bit set
by a `usize`, which has 64 bits as well.

The bit set is that of the `fixedbitset` crate; what is relied on of it is collected in `BitSetApi`.
-/

namespace Galette.Crp

open Galette.Lib

/-- The answer to a challenge. -/
inductive Response (T : Type) where
  | unused (a : T)
  | used (a : T)
  | invalid
  deriving DecidableEq, Repr

/-- A set of positions below a length that is fixed when it is made. -/
structure BitSetApi (B : Type) where
  withCapacity : Nat → B
  len : B → Nat
  contains : B → Nat → Bool
  /-- Add a position; a panic is `none`. -/
  insert : B → Nat → Option B
  len_withCapacity : ∀ n, len (withCapacity n) = n
  contains_withCapacity : ∀ n i, contains (withCapacity n) i = false
  insert_lt : ∀ {b i}, i < len b → ∃ b', insert b i = some b' ∧ len b' = len b ∧
    ∀ j, contains b' j = (j = i || contains b j)

/-- The bit set as a list of flags. -/
def listBitSet : BitSetApi (List Bool) where
  withCapacity n := List.replicate n false
  len b := b.length
  contains b i := b.getD i false
  insert b i := if i < b.length then some (b.set i true) else none
  len_withCapacity := by simp
  contains_withCapacity n i := by
    by_cases h : i < n <;> simp [List.getD_eq_getElem?_getD, h]
  insert_lt {b i} h := by
    refine ⟨b.set i true, if_pos h, List.length_set, fun j => ?_⟩
    by_cases hj : j = i
    · subst hj
      simp [List.getD_eq_getElem?_getD, h]
    · simp [List.getD_eq_getElem?_getD, List.getElem?_set_ne (Ne.symm hj), hj]

/-- A store: the answers, and the challenges that are used up. -/
structure InMemory (B T : Type) where
  map : HashMap UInt64 T
  used : B

namespace InMemory

variable {B T : Type} (bits : BitSetApi B)

/-- A store with an answer for every challenge below `nChallenges`; `random` are the answers in the
order in which they are drawn. -/
def newRandom (random : Nat → T) (nChallenges : UInt64) : InMemory B T where
  map := HashMap.insertAll UInt64.ofNat random (List.range nChallenges.toNat) ∅
  used := bits.withCapacity nChallenges.toNat

/-- Answer a challenge. -/
def respond (s : InMemory B T) (challenge : UInt64) : Response T :=
  match s.map.lookup challenge with
  | some a => if bits.contains s.used challenge.toNat then .used a else .unused a
  | none => .invalid

/-- Use a challenge up. -/
def markUsed (s : InMemory B T) (challenge : UInt64) : Outcome Empty (InMemory B T) :=
  if challenge < UInt64.ofNat (bits.len s.used) then
    match bits.insert s.used challenge.toNat with
    | some used => .ok { s with used := used }
    | none => .error (.panic "insert at an index beyond the size of the set")
  else .ok s

end InMemory

end Galette.Crp
