import Galette.Lib.Maps
import Galette.Lib.Outcome

/-!
# Values as bytes

A codec writes a value as bytes and reads one off the front of a byte string. `Lawful` is what a
format is for: what was written is read back, whatever follows it, and a part of it is never taken
for a value.

A value may be read back in another form, as long as no program can tell the two apart: a hash map
comes back in another order. So the first law is up to a relation `same`. Both laws are about the
values that satisfy `fits`, as the length of a list is written as a word.
-/

namespace Galette.Lib

/-- How values are written and read. -/
structure Codec (ε α : Type) where
  encode : α → List UInt8
  decode : List UInt8 → Except ε (α × List UInt8)

namespace Codec

variable {ε α β γ η K V : Type}

/-- The laws of a codec. `short` is the error at the end of the input. -/
structure Lawful (c : Codec ε α) (short : ε) (fits : α → Prop) (same : α → α → Prop) : Prop where
  decode_encode : ∀ a rest, fits a →
    ∃ a', same a a' ∧ c.decode (c.encode a ++ rest) = .ok (a', rest)
  decode_truncated : ∀ a p q, fits a → c.encode a = p ++ q → q ≠ [] → c.decode p = .error short

/-- The laws of a codec that gives back what it was given, whatever that is. -/
abbrev Exact (c : Codec ε α) (short : ε) : Prop := c.Lawful short (fun _ => True) Eq

/-! ## Reading on -/

section Reading

variable {c : Codec ε α} {short : ε} {fits : α → Prop} {same : α → α → Prop} {a : α}

theorem Lawful.bind_encode (h : c.Lawful short fits same) (ha : fits a) (rest : List UInt8)
    (k : α × List UInt8 → Except ε γ) :
    ∃ a', same a a' ∧ (c.decode (c.encode a ++ rest)).bind k = k (a', rest) := by
  obtain ⟨a', hs, hd⟩ := h.decode_encode a rest ha
  exact ⟨a', hs, by rw [hd]; rfl⟩

theorem Exact.bind_encode (h : c.Exact short) (a : α) (rest : List UInt8)
    (k : α × List UInt8 → Except ε γ) : (c.decode (c.encode a ++ rest)).bind k = k (a, rest) := by
  obtain ⟨a', rfl, hk⟩ := Lawful.bind_encode h trivial rest k
  exact hk

/-- If a value and what follows it are cut off somewhere, the cut is in the value or behind it. -/
theorem Lawful.bind_truncated (h : c.Lawful short fits same) (ha : fits a)
    {tail p q : List UInt8} (he : c.encode a ++ tail = p ++ q) (hq : q ≠ [])
    {k : α × List UInt8 → Except ε γ}
    (hk : ∀ a' t, same a a' → tail = t ++ q → k (a', t) = .error short) :
    (c.decode p).bind k = .error short := by
  rcases List.append_eq_append_iff.1 he with ⟨t, rfl, ht⟩ | ⟨t, ha', rfl⟩
  · obtain ⟨a', hs, hd⟩ := h.bind_encode ha t k
    rw [hd]
    exact hk a' t hs ht
  · by_cases ht : t = []
    · subst ht
      obtain ⟨a', hs, hd⟩ := h.bind_encode ha [] k
      rw [ha', List.append_nil, List.append_nil] at hd
      rw [hd]
      exact hk a' [] hs (by simp)
    · rw [h.decode_truncated a p t ha ha' ht]
      rfl

end Reading

/-! ## Bytes and pairs -/

def unit : Codec ε Unit where
  encode _ := []
  decode bs := .ok ((), bs)

theorem unit_exact (short : ε) : unit.Exact short where
  decode_encode _ _ _ := ⟨(), rfl, rfl⟩
  decode_truncated _ _ _ _ he hq := absurd (List.append_eq_nil_iff.1 he.symm).2 hq

def byte (short : ε) : Codec ε UInt8 where
  encode b := [b]
  decode
    | [] => .error short
    | b :: bs => .ok (b, bs)

theorem byte_exact (short : ε) : (byte short).Exact short where
  decode_encode b _ _ := ⟨b, rfl, rfl⟩
  decode_truncated b p q _ he hq := by
    rcases List.append_eq_singleton_iff.1 he.symm with ⟨rfl, _⟩ | ⟨_, rfl⟩
    · rfl
    · exact absurd rfl hq

/-- One value after the other. -/
def pair (c : Codec ε α) (d : Codec ε β) : Codec ε (α × β) where
  encode x := c.encode x.1 ++ d.encode x.2
  decode bs := (c.decode bs).bind fun r => (d.decode r.2).bind fun s => .ok ((r.1, s.1), s.2)

theorem pair_lawful {c : Codec ε α} {d : Codec ε β} {short : ε} {fits : α → Prop}
    {same : α → α → Prop} {fits' : β → Prop} {same' : β → β → Prop}
    (hc : c.Lawful short fits same) (hd : d.Lawful short fits' same') :
    (pair c d).Lawful short (fun x => fits x.1 ∧ fits' x.2)
      (fun x y => same x.1 y.1 ∧ same' x.2 y.2) where
  decode_encode := by
    rintro ⟨a, b⟩ rest ⟨ha, hb⟩
    obtain ⟨a', hsa, hda⟩ := hc.bind_encode ha (d.encode b ++ rest)
      fun r => (d.decode r.2).bind fun s => .ok ((r.1, s.1), s.2)
    obtain ⟨b', hsb, hdb⟩ := hd.bind_encode hb rest fun s => .ok ((a', s.1), s.2)
    refine ⟨(a', b'), ⟨hsa, hsb⟩, ?_⟩
    simp only [pair, List.append_assoc]
    exact hda.trans hdb
  decode_truncated := by
    rintro ⟨a, b⟩ p q ⟨ha, hb⟩ he hq
    refine hc.bind_truncated ha he hq ?_
    intro a' t _ ht
    have hshort := hd.decode_truncated b t q hb ht hq
    simp only [hshort]
    rfl

/-- Two values that are read back exactly. -/
theorem pair_exact {c : Codec ε α} {d : Codec ε β} {short : ε} {fits : α → Prop} {fits' : β → Prop}
    (hc : c.Lawful short fits Eq) (hd : d.Lawful short fits' Eq) :
    (pair c d).Lawful short (fun x => fits x.1 ∧ fits' x.2) Eq := by
  have h := pair_lawful hc hd
  have heq : (fun x y : α × β => x.1 = y.1 ∧ x.2 = y.2) = Eq := by
    funext x y
    exact propext Prod.ext_iff.symm
  rwa [heq] at h

/-! ## Other views of a value -/

/-- A value in the form of another one; reading may refuse the other one. -/
def convert (view : β → α) (read : α → Except ε β) (c : Codec ε α) : Codec ε β where
  encode b := c.encode (view b)
  decode bs := (c.decode bs).bind fun r => (read r.1).bind fun b => .ok (b, r.2)

theorem convert_lawful {c : Codec ε α} {short : ε} {fits : α → Prop} {same : α → α → Prop}
    {view : β → α} {read : α → Except ε β} {fits' : β → Prop} {same' : β → β → Prop}
    (hc : c.Lawful short fits same) (hfits : ∀ b, fits' b → fits (view b))
    (hread : ∀ b a, fits' b → same (view b) a → ∃ b', same' b b' ∧ read a = .ok b') :
    (convert view read c).Lawful short fits' same' where
  decode_encode b rest hb := by
    obtain ⟨a, hs, hd⟩ := hc.bind_encode (hfits b hb) rest
      fun r => (read r.1).bind fun b => .ok (b, r.2)
    obtain ⟨b', hs', hr⟩ := hread b a hb hs
    refine ⟨b', hs', hd.trans ?_⟩
    simp only [hr]
    rfl
  decode_truncated b p q hb he hq := by
    have hshort := hc.decode_truncated (view b) p q (hfits b hb) he hq
    simp only [convert, hshort]
    rfl

/-- A view that loses nothing keeps a codec exact. -/
theorem convert_exact {c : Codec ε α} {short : ε} {view : β → α} {read : α → Except ε β}
    (hc : c.Exact short) (hread : ∀ b, read (view b) = .ok b) : (convert view read c).Exact short :=
  convert_lawful hc (fun _ _ => trivial) (by rintro b _ _ rfl; exact ⟨b, rfl, hread b⟩)

/-! ## Headers -/

/-- A header says how the value behind it is written. -/
def header (h : Codec ε η) (key : β → η) (body : η → Codec ε β) : Codec ε β where
  encode b := h.encode (key b) ++ (body (key b)).encode b
  decode bs := (h.decode bs).bind fun r => (body r.1).decode r.2

theorem header_lawful {h : Codec ε η} {short : ε} {key : β → η} {body : η → Codec ε β}
    {fits : β → Prop} {same : β → β → Prop} (hh : h.Exact short)
    (hbody : ∀ b, fits b → (body (key b)).Lawful short (Eq b) same) :
    (header h key body).Lawful short fits same where
  decode_encode b rest hb := by
    obtain ⟨b', hs, hd⟩ := (hbody b hb).decode_encode b rest rfl
    refine ⟨b', hs, ?_⟩
    have hk := hh.bind_encode (key b) ((body (key b)).encode b ++ rest)
      fun r => (body r.1).decode r.2
    simp only [header, List.append_assoc]
    exact hk.trans hd
  decode_truncated b p q hb he hq := by
    refine Lawful.bind_truncated hh trivial he hq ?_
    rintro _ t rfl ht
    exact (hbody b hb).decode_truncated b t q rfl ht hq

/-! ## Lists -/

/-- Read `n` values. -/
def readN (c : Codec ε α) : Nat → List UInt8 → Except ε (List α × List UInt8)
  | 0, bs => .ok ([], bs)
  | n + 1, bs => (c.decode bs).bind fun r => (readN c n r.2).bind fun s => .ok (r.1 :: s.1, s.2)

/-- Values without their number. -/
def elems (c : Codec ε α) (n : Nat) : Codec ε (List α) where
  encode l := l.flatMap c.encode
  decode bs := readN c n bs

theorem elems_lawful {c : Codec ε α} {short : ε} {fits : α → Prop} {same : α → α → Prop}
    (hc : c.Lawful short fits same) (l : List α) (hl : ∀ a ∈ l, fits a) :
    (elems c l.length).Lawful short (Eq l) (List.Forall₂ same) where
  decode_encode := by
    rintro _ rest rfl
    induction l with
    | nil => exact ⟨[], .nil, rfl⟩
    | cons a l ih =>
      obtain ⟨l', hsl, hdl⟩ := ih fun b hb => hl b (List.mem_cons_of_mem _ hb)
      obtain ⟨a', hsa, hda⟩ := hc.bind_encode (hl a (List.mem_cons_self ..))
        (l.flatMap c.encode ++ rest)
        fun r => (readN c l.length r.2).bind fun s => .ok (r.1 :: s.1, s.2)
      refine ⟨a' :: l', .cons hsa hsl, ?_⟩
      simp only [elems, List.flatMap_cons, List.append_assoc]
      refine hda.trans ?_
      simp only [show readN c l.length (l.flatMap c.encode ++ rest) = .ok (l', rest) from hdl]
      rfl
  decode_truncated := by
    rintro _ p q rfl he hq
    induction l generalizing p with
    | nil => exact absurd (List.append_eq_nil_iff.1 he.symm).2 hq
    | cons a l ih =>
      refine hc.bind_truncated (hl a (List.mem_cons_self ..)) he hq ?_
      intro a' t _ ht
      have hshort := ih (fun b hb => hl b (List.mem_cons_of_mem _ hb)) t ht
      simp only [show readN c l.length t = .error short from hshort]
      rfl

/-- A number of values that is fixed. -/
theorem elems_exact {c : Codec ε α} {short : ε} (hc : c.Exact short) (n : Nat) :
    (elems c n).Lawful short (fun l => l.length = n) Eq where
  decode_encode := by
    rintro l rest rfl
    have h := elems_lawful hc l fun _ _ => trivial
    rw [List.forall₂_eq_eq_eq] at h
    exact h.decode_encode l rest rfl
  decode_truncated := by
    rintro l p q rfl he hq
    exact (elems_lawful hc l fun _ _ => trivial).decode_truncated l p q rfl he hq

/-- A list, behind its length. -/
def seq (len : Codec ε UInt64) (c : Codec ε α) : Codec ε (List α) :=
  header len (fun l => UInt64.ofNat l.length) fun n => elems c n.toNat

theorem toNat_length {l : List α} (h : l.length < 2 ^ 64) :
    (UInt64.ofNat l.length).toNat = l.length := by
  rw [UInt64.toNat_ofNat']
  exact Nat.mod_eq_of_lt h

theorem seq_lawful {len : Codec ε UInt64} {c : Codec ε α} {short : ε} {fits : α → Prop}
    {same : α → α → Prop} (hlen : len.Exact short) (hc : c.Lawful short fits same) :
    (seq len c).Lawful short (fun l => l.length < 2 ^ 64 ∧ ∀ a ∈ l, fits a)
    (List.Forall₂ same) := by
  refine header_lawful hlen ?_
  rintro l ⟨hl, hfits⟩
  rw [toNat_length hl]
  exact elems_lawful hc l hfits

/-- A list of values that are read back exactly is read back exactly. -/
theorem seq_exact {len : Codec ε UInt64} {c : Codec ε α} {short : ε} {fits : α → Prop}
    (hlen : len.Exact short) (hc : c.Lawful short fits Eq) :
    (seq len c).Lawful short (fun l => l.length < 2 ^ 64 ∧ ∀ a ∈ l, fits a) Eq := by
  have h := seq_lawful hlen hc
  rwa [List.forall₂_eq_eq_eq] at h

/-! ## Options and variants -/

/-- A flag, and the value if there is one. -/
def option (short bad : ε) (c : Codec ε α) : Codec ε (Option α) :=
  header (byte short) (fun o => if o.isSome then 1 else 0) fun flag =>
    if flag = 0 then convert (fun _ => ()) (fun _ => .ok none) unit
    else if flag = 1 then
      { encode := fun o => match o with
          | some a => c.encode a
          | none => []
        decode := fun bs => (c.decode bs).bind fun r => .ok (some r.1, r.2) }
    else { encode := fun _ => [], decode := fun _ => .error bad }

theorem option_lawful {c : Codec ε α} {short bad : ε} {fits : α → Prop}
    (hc : c.Lawful short fits Eq) :
    (option short bad c).Lawful short (fun o => ∀ a ∈ o, fits a) Eq := by
  refine header_lawful (byte_exact short) ?_
  rintro (_ | a) ho
  · refine ⟨?_, ?_⟩
    · rintro _ rest rfl
      exact ⟨none, rfl, rfl⟩
    · rintro _ p q rfl he hq
      exact absurd (List.append_eq_nil_iff.1 he.symm).2 hq
  · refine ⟨?_, ?_⟩
    · rintro _ rest rfl
      obtain ⟨_, rfl, hd⟩ := hc.bind_encode (ho a rfl) rest fun r => .ok (some r.1, r.2)
      exact ⟨some a, rfl, hd⟩
    · rintro _ p q rfl he hq
      have hshort := hc.decode_truncated a p q (ho a rfl) he hq
      exact congrArg (fun r => r.bind fun r => .ok (some r.1, r.2)) hshort

/-- One variant of an enumeration, with the codec of its fields. -/
structure Arm (ε α : Type) where
  {β : Type}
  codec : Codec ε β
  inj : β → α
  proj : α → Option β

/-- A value of one of the variants, behind the position of the variant. -/
def encodeArms (tag : Codec ε UInt32) : Nat → List (Arm ε α) → α → List UInt8
  | _, [], _ => []
  | i, m :: arms, a =>
    match m.proj a with
    | some b => tag.encode (UInt32.ofNat i) ++ m.codec.encode b
    | none => encodeArms tag (i + 1) arms a

/-- The fields of a value of the variant at a position. -/
def decodeArm (bad : ε) (arms : List (Arm ε α)) (i : UInt32) (bs : List UInt8) :
    Except ε (α × List UInt8) :=
  match arms[i.toNat]? with
  | some m => (m.codec.decode bs).bind fun s => .ok (m.inj s.1, s.2)
  | none => .error bad

/-- An enumeration, with its variants in order. -/
def enum (tag : Codec ε UInt32) (bad : ε) (arms : List (Arm ε α)) : Codec ε α where
  encode a := encodeArms tag 0 arms a
  decode bs := (tag.decode bs).bind fun r => decodeArm bad arms r.1 r.2

theorem encodeArms_eq (tag : Codec ε UInt32) {before : List (Arm ε α)} (after : List (Arm ε α))
    {m : Arm ε α} {a : α} {b : m.β} (hbefore : ∀ n ∈ before, n.proj a = none)
    (hm : m.proj a = some b) (i : Nat) :
    encodeArms tag i (before ++ m :: after) a =
      tag.encode (UInt32.ofNat (i + before.length)) ++ m.codec.encode b := by
  induction before generalizing i with
  | nil => simp [encodeArms, hm]
  | cons n before ih =>
    simp only [List.cons_append, encodeArms, hbefore n (List.mem_cons_self ..)]
    rw [ih (fun x hx => hbefore x (List.mem_cons_of_mem _ hx))]
    simp [Nat.add_assoc, Nat.add_comm 1]

/-- The variant of a value, at position `i`, and that its fields are read back. -/
structure ArmOf (arms : List (Arm ε α)) (short : ε) (same : α → α → Prop) (a : α) (i : Nat)
    (m : Arm ε α) (b : m.β) : Prop where
  get : arms[i]? = some m
  lt : i < 2 ^ 32
  before : ∀ n ∈ arms.take i, n.proj a = none
  proj : m.proj a = some b
  fields : ∃ fits same', m.codec.Lawful short fits same' ∧ fits b ∧
    ∀ b', same' b b' → same a (m.inj b')

section Enum

variable {tag : Codec ε UInt32} {short bad : ε} {arms : List (Arm ε α)} {same : α → α → Prop}
  {a : α} {i : Nat} {m : Arm ε α} {b : m.β}

theorem ArmOf.encode_eq (h : ArmOf arms short same a i m b) :
    (enum tag bad arms).encode a = tag.encode (UInt32.ofNat i) ++ m.codec.encode b := by
  obtain ⟨hi, hm⟩ := List.getElem?_eq_some_iff.1 h.get
  have hsplit : arms = arms.take i ++ m :: arms.drop (i + 1) := by
    rw [← hm, List.getElem_cons_drop hi, List.take_append_drop]
  have hlen : (arms.take i).length = i := by
    rw [List.length_take]
    omega
  have henc := encodeArms_eq tag (arms.drop (i + 1)) h.before h.proj 0
  rw [← hsplit, hlen, Nat.zero_add] at henc
  exact henc

theorem ArmOf.decode_eq (h : ArmOf arms short same a i m b) (t : List UInt8) :
    decodeArm bad arms (UInt32.ofNat i) t =
      (m.codec.decode t).bind fun s => .ok (m.inj s.1, s.2) := by
  have hi : (UInt32.ofNat i).toNat = i := by
    rw [UInt32.toNat_ofNat']
    exact Nat.mod_eq_of_lt h.lt
  simp only [decodeArm, hi, h.get]

theorem enum_lawful {fits : α → Prop} (htag : tag.Exact short)
    (harms : ∀ a, fits a → ∃ i m b, ArmOf arms short same a i m b) :
    (enum tag bad arms).Lawful short fits same where
  decode_encode a rest ha := by
    obtain ⟨i, m, b, h⟩ := harms a ha
    obtain ⟨fits', same', hlaw, hb, hsame⟩ := h.fields
    obtain ⟨b', hs, hd⟩ := hlaw.bind_encode hb rest fun s => .ok (m.inj s.1, s.2)
    refine ⟨m.inj b', hsame b' hs, ?_⟩
    rw [h.encode_eq, List.append_assoc]
    simp only [enum]
    rw [htag.bind_encode]
    exact (h.decode_eq _).trans hd
  decode_truncated a p q ha he hq := by
    obtain ⟨i, m, b, h⟩ := harms a ha
    obtain ⟨fits', same', hlaw, hb, hsame⟩ := h.fields
    rw [h.encode_eq] at he
    refine Lawful.bind_truncated htag trivial he hq ?_
    rintro _ t rfl ht
    refine (h.decode_eq t).trans ?_
    rw [hlaw.decode_truncated b t q hb ht hq]
    rfl

/-- A variant whose fields are read back exactly. -/
theorem armOf_exact (i : Nat) {fits : m.β → Prop} (hget : arms[i]? = some m) (hi : i < 2 ^ 32)
    (hbefore : ∀ n ∈ arms.take i, n.proj a = none) (hproj : m.proj a = some b)
    (hm : m.codec.Lawful short fits Eq) (hb : fits b) (hinj : m.inj b = a) :
    ArmOf arms short Eq a i m b where
  get := hget
  lt := hi
  before := hbefore
  proj := hproj
  fields := ⟨fits, Eq, hm, hb, by rintro _ rfl; exact hinj.symm⟩

end Enum

/-! ## Words of variable length -/

section Varint

variable {short bad : ε} {last k : Nat}

/-- A number in groups of seven bits, the least significant one first; the upper bit of a byte says
that another one follows. There are at most `k + 1` bytes. -/
def varintEncode : Nat → Nat → List UInt8
  | 0, n => [UInt8.ofNat n]
  | k + 1, n =>
    if n < 128 then [UInt8.ofNat n]
    else UInt8.ofNat (n % 128 + 128) :: varintEncode k (n / 128)

/-- Read a number of at most `k + 1` bytes; `last` is the greatest value of the last of them. -/
def varintDecode (short bad : ε) (last : Nat) : Nat → List UInt8 → Except ε (Nat × List UInt8)
  | _, [] => .error short
  | 0, b :: bs => if b.toNat ≤ last then .ok (b.toNat, bs) else .error bad
  | k + 1, b :: bs =>
    if b.toNat < 128 then .ok (b.toNat, bs)
    else (varintDecode short bad last k bs).bind fun r => .ok (b.toNat - 128 + 128 * r.1, r.2)

def varint (short bad : ε) (last k : Nat) : Codec ε Nat where
  encode n := varintEncode k n
  decode bs := varintDecode short bad last k bs

theorem div_group_lt {n : Nat} (hn : n < 128 ^ (k + 1) * (last + 1)) :
    n / 128 < 128 ^ k * (last + 1) := by
  rw [Nat.div_lt_iff_lt_mul (by decide)]
  calc n < 128 ^ (k + 1) * (last + 1) := hn
    _ = 128 ^ k * (last + 1) * 128 := by rw [Nat.pow_succ, Nat.mul_right_comm]

theorem toNat_group (n : Nat) : (UInt8.ofNat (n % 128 + 128)).toNat = n % 128 + 128 := by
  rw [UInt8.toNat_ofNat']
  omega

theorem toNat_lastGroup {n : Nat} (h : n < 128) : (UInt8.ofNat n).toNat = n := by
  rw [UInt8.toNat_ofNat']
  omega

theorem varintDecode_encode (hlast : last < 128) {n : Nat} (hn : n < 128 ^ k * (last + 1))
    (rest : List UInt8) :
    varintDecode short bad last k (varintEncode k n ++ rest) = .ok (n, rest) := by
  induction k generalizing n with
  | zero =>
    have hle : n ≤ last := by omega
    simp [varintEncode, varintDecode, toNat_lastGroup (lt_of_le_of_lt hle hlast), hle]
  | succ k ih =>
    unfold varintEncode
    by_cases hlt : n < 128
    · simp [hlt, varintDecode, toNat_lastGroup hlt]
    · rw [if_neg hlt, List.cons_append, varintDecode, toNat_group, if_neg (by omega),
        ih (div_group_lt hn)]
      simp only [Except.bind, Except.ok.injEq, Prod.mk.injEq, and_true]
      omega

theorem varintDecode_nil : varintDecode short bad last k [] = .error short := by
  cases k <;> rfl

theorem varintDecode_truncated {n : Nat} {p q : List UInt8} (he : varintEncode k n = p ++ q)
    (hq : q ≠ []) : varintDecode short bad last k p = .error short := by
  -- a single byte is cut off before it
  have hsingle : ∀ {b : UInt8} {p : List UInt8}, [b] = p ++ q → p = [] := by
    intro b p hb
    rcases List.append_eq_singleton_iff.1 hb.symm with ⟨rfl, _⟩ | ⟨_, rfl⟩
    · rfl
    · exact absurd rfl hq
  induction k generalizing n p with
  | zero =>
    obtain rfl := hsingle he
    exact varintDecode_nil
  | succ k ih =>
    unfold varintEncode at he
    by_cases hlt : n < 128
    · rw [if_pos hlt] at he
      obtain rfl := hsingle he
      exact varintDecode_nil
    · rw [if_neg hlt] at he
      cases p with
      | nil => exact varintDecode_nil
      | cons b p =>
        obtain ⟨rfl, ht⟩ := List.cons.inj he
        rw [varintDecode, toNat_group, if_neg (by omega), ih ht]
        rfl

theorem varint_lawful (hlast : last < 128) :
    (varint short bad last k).Lawful short (fun n => n < 128 ^ k * (last + 1)) Eq where
  decode_encode n rest hn := ⟨n, rfl, varintDecode_encode hlast hn rest⟩
  decode_truncated _ _ _ _ he hq := varintDecode_truncated he hq

/-- Words of 32 bits, in at most five bytes. -/
def varint32 (short bad : ε) : Codec ε UInt32 :=
  convert UInt32.toNat (fun n => .ok (UInt32.ofNat n)) (varint short bad 15 4)

/-- Words of 64 bits, in at most ten bytes. -/
def varint64 (short bad : ε) : Codec ε UInt64 :=
  convert UInt64.toNat (fun n => .ok (UInt64.ofNat n)) (varint short bad 1 9)

theorem varint32_exact : (varint32 short bad).Exact short :=
  convert_lawful (varint_lawful (by decide)) (fun x _ => x.toNat_lt)
    (by rintro x _ _ rfl; exact ⟨x, rfl, by simp⟩)

theorem varint64_exact : (varint64 short bad).Exact short :=
  convert_lawful (varint_lawful (by decide)) (fun x _ => x.toNat_lt)
    (by rintro x _ _ rfl; exact ⟨x, rfl, by simp⟩)

end Varint

/-! ## Maps -/

/-- A hash map: its entries in the order in which they are iterated, each of them inserted again
when it is read. -/
def hashMap [DecidableEq K] (len : Codec ε UInt64) (k : Codec ε K) (v : Codec ε V) :
    Codec ε (HashMap K V) :=
  convert (fun m => m.entries.map fun e => (e.1, e.2))
    (fun l => .ok (HashMap.insertAll Prod.fst Prod.snd l ∅)) (seq len (pair k v))

/-- The two maps have the same entries. -/
def SameMap [DecidableEq K] (m m' : HashMap K V) : Prop := ∀ k, m'.lookup k = m.lookup k

theorem lookup_insertAll_entries [DecidableEq K] (m : HashMap K V) :
    SameMap m (HashMap.insertAll Prod.fst Prod.snd (m.entries.map fun e => (e.1, e.2)) ∅) := by
  intro k
  have hkeys : ((m.entries.map fun e => (e.1, e.2)).map Prod.fst).Nodup := by
    rw [List.map_map]
    exact m.nodupKeys
  cases hk : m.lookup k with
  | some v =>
    have hmem : (k, v) ∈ m.entries.map fun e => (e.1, e.2) :=
      List.mem_map.2 ⟨⟨k, v⟩, AList.mem_lookup_iff.1 hk, rfl⟩
    exact HashMap.lookup_insertAll_of_mem Prod.snd ∅ hkeys hmem
  | none =>
    rw [HashMap.lookup_insertAll_of_notMem]
    · rfl
    · intro x hx hxk
      obtain ⟨e, he, rfl⟩ := List.mem_map.1 hx
      have hv : m.lookup e.1 = some e.2 := AList.mem_lookup_iff.2 he
      rw [show e.1 = k from hxk, hk] at hv
      cases hv

theorem hashMap_lawful [DecidableEq K] {len : Codec ε UInt64} {k : Codec ε K} {v : Codec ε V}
    {short : ε} {fitsK : K → Prop} {fitsV : V → Prop} (hlen : len.Exact short)
    (hk : k.Lawful short fitsK Eq) (hv : v.Lawful short fitsV Eq) :
    (hashMap len k v).Lawful short
      (fun m => m.entries.length < 2 ^ 64 ∧ ∀ e ∈ m.entries, fitsK e.1 ∧ fitsV e.2) SameMap := by
  refine convert_lawful (seq_exact hlen (pair_exact hk hv)) ?_ ?_
  · rintro m ⟨hl, hm⟩
    refine ⟨by simpa using hl, ?_⟩
    intro _ hx
    obtain ⟨e, he, rfl⟩ := List.mem_map.1 hx
    exact hm e he
  · rintro m _ _ rfl
    exact ⟨_, lookup_insertAll_entries m, rfl⟩

end Codec

end Galette.Lib
