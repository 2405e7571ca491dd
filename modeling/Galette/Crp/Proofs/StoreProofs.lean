import Galette.Crp.Store

/-!
# Proofs: the store of challenges

The table and the bit set are made for the same range of challenges, and stay so. So every challenge
that is answered can be used up, and then is for good.
-/

namespace Galette.Crp.InMemory

open Galette.Lib

variable {B T : Type} {bits : BitSetApi B} {random : Nat → T} {n : UInt64}

/-- The store once the challenges in `done` are used up. -/
structure Inv (bits : BitSetApi B) (random : Nat → T) (n : UInt64) (done : List UInt64)
    (s : InMemory B T) : Prop where
  answers : ∀ c, s.map.lookup c = if c < n then some (random c.toNat) else none
  len : bits.len s.used = n.toNat
  marked : ∀ c, bits.contains s.used c.toNat = decide (c < n ∧ c ∈ done)

/-- The table of a new store covers the challenges below `n`. -/
theorem lookup_newRandom (random : Nat → T) (n c : UInt64) :
    (newRandom bits random n).map.lookup c = if c < n then some (random c.toNat) else none := by
  have hn : n.toNat < 2 ^ 64 := n.toNat_lt
  have hval : ∀ i ∈ List.range n.toNat, (UInt64.ofNat i).toNat = i := by
    intro i hi
    rw [UInt64.toNat_ofNat', Nat.mod_eq_of_lt (lt_trans (List.mem_range.1 hi) hn)]
  have hnodup : ((List.range n.toNat).map UInt64.ofNat).Nodup := by
    refine List.Nodup.map_on (fun i hi j hj he => ?_) List.nodup_range
    rw [← hval i hi, ← hval j hj, he]
  unfold newRandom
  split
  · rename_i hlt
    have hmem : c.toNat ∈ List.range n.toNat := List.mem_range.2 (UInt64.lt_iff_toNat_lt.1 hlt)
    have hfound := HashMap.lookup_insertAll_of_mem random ∅ hnodup hmem
    rwa [UInt64.ofNat_toNat] at hfound
  · rename_i hge
    rw [HashMap.lookup_insertAll_of_notMem]
    · simp
    · rintro i hi rfl
      apply hge
      rw [UInt64.lt_iff_toNat_lt, hval i hi]
      exact List.mem_range.1 hi

theorem inv_newRandom : Inv bits random n [] (newRandom bits random n) where
  answers := lookup_newRandom random n
  len := bits.len_withCapacity _
  marked c := by simp [newRandom, bits.contains_withCapacity]

/-- Using a challenge up does not panic, and marks it if it is one of the store. -/
theorem Inv.markUsed {done : List UInt64} {s : InMemory B T} (h : Inv bits random n done s)
    (c : UInt64) : ∃ s', markUsed bits s c = .ok s' ∧ Inv bits random n (done ++ [c]) s' := by
  have hlen : UInt64.ofNat (bits.len s.used) = n := by rw [h.len, UInt64.ofNat_toNat]
  unfold InMemory.markUsed
  rw [hlen]
  by_cases hc : c < n
  · have hlt : c.toNat < bits.len s.used := by
      rw [h.len]
      exact UInt64.lt_iff_toNat_lt.1 hc
    obtain ⟨used, hins, hused, hcontains⟩ := bits.insert_lt hlt
    rw [if_pos hc, hins]
    refine ⟨_, rfl, h.answers, hused.trans h.len, fun d => ?_⟩
    show bits.contains used d.toNat = _
    rw [hcontains, h.marked]
    by_cases hd : d = c
    · subst hd
      simp [hc]
    · have hne : d.toNat ≠ c.toNat := fun he => hd (UInt64.toNat_inj.1 he)
      simp [hd, hne]
  · rw [if_neg hc]
    refine ⟨s, rfl, h.answers, h.len, fun d => ?_⟩
    rw [h.marked]
    by_cases hd : d = c
    · subst hd
      simp [hc]
    · simp [hd]

/-- What the store answers. -/
theorem Inv.respond {done : List UInt64} {s : InMemory B T} (h : Inv bits random n done s)
    (c : UInt64) : respond bits s c =
      if c < n then if c ∈ done then .used (random c.toNat) else .unused (random c.toNat)
      else .invalid := by
  unfold InMemory.respond
  rw [h.answers, h.marked]
  by_cases hc : c < n
  · simp [hc]
  · simp [hc]

/-- **Challenges are used up for good.** Whatever challenges are marked, and in whatever order, no
call panics, and the store answers from the table that was drawn: with `used` exactly the marked
challenges of its range. -/
theorem respond_after_marks (bits : BitSetApi B) (random : Nat → T) (n : UInt64)
    (marks : List UInt64) :
    ∃ s, foldE (markUsed bits) (newRandom bits random n) marks = .ok s ∧
      ∀ c, respond bits s c =
        if c < n then if c ∈ marks then .used (random c.toNat) else .unused (random c.toNat)
        else .invalid := by
  obtain ⟨s, hs, hI⟩ := foldE_total (Inv bits random n) inv_newRandom
    (fun done c _ s _ hI => hI.markUsed c)
  exact ⟨s, hs, hI.respond⟩

/-- Of two challenges one is marked, twice, and one beyond the range. -/
theorem respond_after_three_marks :
    ∃ s, foldE (markUsed listBitSet) (newRandom listBitSet (fun i => i + 7) 2) [1, 5, 1] = .ok s ∧
      respond listBitSet s 0 = .unused 7 ∧ respond listBitSet s 1 = .used 8 ∧
        respond listBitSet s 5 = .invalid := by
  obtain ⟨s, hs, h⟩ := respond_after_marks listBitSet (fun i => i + 7) 2 [1, 5, 1]
  exact ⟨s, hs, by rw [h]; decide, by rw [h]; decide, by rw [h]; decide⟩

end Galette.Crp.InMemory
