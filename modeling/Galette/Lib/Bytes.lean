import Mathlib.Algebra.Order.Ring.Nat
import Mathlib.Data.List.Basic

/-!
# Words as bytes

The four bytes of a 32-bit word in either byte order, and that reading them back gives the word; and
the numbers of any count of bytes, for the 64-bit word of eight bytes among others.
-/

namespace Galette.Lib

/-- The byte order of the machine. -/
inductive Endian where
  | little
  | big
  deriving DecidableEq, Repr

/-- The bytes of a word, the least significant one first. -/
def leBytes (x : UInt32) : List UInt8 :=
  [UInt8.ofNat x.toNat, UInt8.ofNat (x.toNat / 2 ^ 8), UInt8.ofNat (x.toNat / 2 ^ 16),
    UInt8.ofNat (x.toNat / 2 ^ 24)]

/-- The word of some bytes, the least significant one first. -/
def ofLeBytes (bs : List UInt8) : UInt32 :=
  UInt32.ofNat (bs.foldr (fun b n => b.toNat + 2 ^ 8 * n) 0)

/-- `u64::from_le_bytes`. -/
def u64FromLeBytes (bs : List UInt8) : UInt64 :=
  UInt64.ofNat (bs.foldr (fun b n => b.toNat + 2 ^ 8 * n) 0)

/-- `u32::to_ne_bytes`. -/
def toNeBytes : Endian → UInt32 → List UInt8
  | .little, x => leBytes x
  | .big, x => (leBytes x).reverse

/-- `u32::from_ne_bytes`. -/
def fromNeBytes : Endian → List UInt8 → UInt32
  | .little, bs => ofLeBytes bs
  | .big, bs => ofLeBytes bs.reverse

@[simp] theorem toNeBytes_length (e : Endian) (x : UInt32) : (toNeBytes e x).length = 4 := by
  cases e <;> simp [toNeBytes, leBytes]

theorem ofLeBytes_leBytes (x : UInt32) : ofLeBytes (leBytes x) = x := by
  have hx : x.toNat < 2 ^ 32 := x.toNat_lt
  have hsum : (leBytes x).foldr (fun b n => b.toNat + 2 ^ 8 * n) 0 = x.toNat := by
    simp only [leBytes, List.foldr_cons, List.foldr_nil, UInt8.toNat_ofNat']
    omega
  rw [ofLeBytes, hsum, UInt32.ofNat_toNat]

theorem leBytes_ofLeBytes {bs : List UInt8} (h : bs.length = 4) : leBytes (ofLeBytes bs) = bs := by
  obtain ⟨a, b, c, d, rfl⟩ := List.length_eq_four.1 h
  have ha := a.toNat_lt
  have hb := b.toNat_lt
  have hc := c.toNat_lt
  have hd := d.toNat_lt
  simp only [leBytes, ofLeBytes, List.foldr_cons, List.foldr_nil, UInt32.toNat_ofNat', List.cons.injEq,
    ← UInt8.toNat_inj, UInt8.toNat_ofNat', and_true]
  omega

@[simp] theorem fromNeBytes_toNeBytes (e : Endian) (x : UInt32) :
    fromNeBytes e (toNeBytes e x) = x := by
  cases e <;> simp [fromNeBytes, toNeBytes, ofLeBytes_leBytes]

/-! ## Numbers of any width -/

/-- The lowest `k` bytes of a number, the least significant one first. -/
def lowBytes : Nat → Nat → List UInt8
  | 0, _ => []
  | k + 1, n => UInt8.ofNat n :: lowBytes k (n / 2 ^ 8)

@[simp] theorem lowBytes_length (k n : Nat) : (lowBytes k n).length = k := by
  induction k generalizing n with
  | zero => rfl
  | succ k ih => simp [lowBytes, ih]

/-- Reading the bytes back gives the number, up to its width. -/
theorem foldr_lowBytes (k n : Nat) :
    (lowBytes k n).foldr (fun b n => b.toNat + 2 ^ 8 * n) 0 = n % (2 ^ 8) ^ k := by
  induction k generalizing n with
  | zero => simp [lowBytes, Nat.mod_one]
  | succ k ih =>
    have hb : (UInt8.ofNat n).toNat = n % 2 ^ 8 := UInt8.toNat_ofNat'
    rw [lowBytes, List.foldr_cons, ih, hb, Nat.pow_succ (2 ^ 8) k, Nat.mul_comm ((2 ^ 8) ^ k),
      Nat.mod_mul]

/-- `u64::to_le_bytes`. -/
def u64ToLeBytes (x : UInt64) : List UInt8 := lowBytes 8 x.toNat

theorem u64FromLeBytes_toLeBytes (x : UInt64) : u64FromLeBytes (u64ToLeBytes x) = x := by
  unfold u64FromLeBytes u64ToLeBytes
  have hx : x.toNat < (2 ^ 8) ^ 8 := x.toNat_lt
  rw [foldr_lowBytes, Nat.mod_eq_of_lt hx, UInt64.ofNat_toNat]

end Galette.Lib
