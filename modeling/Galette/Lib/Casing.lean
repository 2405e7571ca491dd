import Mathlib.Data.List.Basic
import Mathlib.Data.List.Infix

/-!
# Case conversion of identifiers

Two ways to turn a name into an upper-case one: `toAsciiUppercase` changes the ASCII letters and
nothing else, `toScreamingSnake` (as the `convert_case` crate does it) first splits the name into
words and joins the words with one underscore. The name is split at delimiters, which are dropped,
from a lower-case to an upper-case letter, before the last of several upper-case letters that a
lower-case one follows, and between letters and digits; empty words are dropped.

The main result says which names the two agree on (`toScreamingSnake_eq_iff`).
-/

namespace Galette.Lib

/-- The case mappings of the characters. Only what is used of the Unicode tables is stated: on ASCII
they are the familiar ones, and an upper-cased character is its own upper case. -/
structure CaseTable where
  toUppercase : Char → List Char
  toLowercase : Char → List Char
  upper_ascii : ∀ c : Char, c.toNat < 128 → toUppercase c = [c.toUpper]
  lower_ascii : ∀ c : Char, c.toNat < 128 → toLowercase c = [c.toLower]
  upper_upper : ∀ c, ∀ d ∈ toUppercase c, toUppercase d = [d]

/-- The letters `a` to `z` become `A` to `Z`. -/
def toAsciiUppercase (s : String) : String := String.ofList (s.toList.map Char.toUpper)

namespace CaseTable

variable (T : CaseTable)

def isUpper (c : Char) : Bool := T.toUppercase c ≠ T.toLowercase c && T.toUppercase c = [c]

def isLower (c : Char) : Bool := T.toUppercase c ≠ T.toLowercase c && T.toLowercase c = [c]

/-- The characters that separate words and are dropped. -/
def isDelim (c : Char) : Bool := c = '_' || c = '-' || c = ' '

/-- Whether a word ends between `a` and `b`, where `next` is the character after `b`. -/
def boundary (a b : Char) (next : Option Char) : Bool :=
  T.isLower a && T.isUpper b || T.isUpper a && T.isUpper b && next.any T.isLower ||
  T.isUpper a && b.isDigit || a.isDigit && T.isUpper b ||
  a.isDigit && T.isLower b || T.isLower a && b.isDigit

/-- Put a character in front of the first word. -/
def consHead (c : Char) : List (List Char) → List (List Char)
  | [] => [[c]]
  | w :: ws => (c :: w) :: ws

/-- The words of a name, with an empty word for every delimiter that has none before it. -/
def split : List Char → List (List Char)
  | [] => [[]]
  | [c] => if isDelim c then [[], []] else [[c]]
  | c :: d :: cs =>
    if isDelim c then [] :: split (d :: cs)
    else if T.boundary c d cs.head? then [c] :: split (d :: cs)
    else consHead c (split (d :: cs))

/-- The words of a name. -/
def words (cs : List Char) : List (List Char) := (T.split cs).filter fun w => !w.isEmpty

/-- `"someName_2"` becomes `"SOME_NAME_2"`. -/
def toScreamingSnake (s : String) : String :=
  String.ofList (List.intercalate ['_'] ((T.words s.toList).map fun w => w.flatMap T.toUppercase))

/-- The names that are already one word after the other, joined by single underscores. -/
structure Plain (cs : List Char) : Prop where
  /-- No character has an upper case beyond ASCII. -/
  upper : ∀ c ∈ cs, T.toUppercase c = [c.toUpper]
  /-- The only delimiter is the underscore. -/
  delim : ∀ c ∈ cs, isDelim c → c = '_'
  first : cs.head? ≠ some '_'
  last : cs.getLast? ≠ some '_'
  /-- No two underscores in a row, and no word ends without one. -/
  inner : ∀ pre a b post, cs = pre ++ a :: b :: post →
    ¬ (a = '_' ∧ b = '_') ∧ T.boundary a b post.head? = false

/-! ## Upper-casing characters -/

theorem toUpper_toNat {c : Char} (h : 'a'.val ≤ c.val ∧ c.val ≤ 'z'.val) :
    97 ≤ c.toNat ∧ c.toNat ≤ 122 ∧ c.toUpper.toNat = c.toNat - 32 := by
  have h1 : 97 ≤ c.val.toNat := UInt32.le_iff_toNat_le.1 h.1
  have h2 : c.val.toNat ≤ 122 := UInt32.le_iff_toNat_le.1 h.2
  have hv : c.toUpper.val = c.val + ('A'.val - 'a'.val) := by
    unfold Char.toUpper
    rw [dif_pos h]
  have ha : ('A'.val - 'a'.val).toNat = 4294967264 := by decide
  refine ⟨h1, h2, ?_⟩
  show c.toUpper.val.toNat = c.val.toNat - 32
  rw [hv, UInt32.toNat_add, ha]
  omega

/-- Upper-casing leaves a character alone or turns a lower-case into an upper-case letter. -/
theorem toUpper_cases (c : Char) :
    c.toUpper = c ∨ 97 ≤ c.toNat ∧ c.toNat ≤ 122 ∧ c.toUpper.toNat = c.toNat - 32 := by
  by_cases h : 'a'.val ≤ c.val ∧ c.val ≤ 'z'.val
  · exact Or.inr (toUpper_toNat h)
  · left
    unfold Char.toUpper
    rw [dif_neg h]

theorem isDelim_toNat {c : Char} (h : isDelim c = true) :
    c.toNat = 95 ∨ c.toNat = 45 ∨ c.toNat = 32 := by
  simp only [isDelim, Bool.or_eq_true, decide_eq_true_eq] at h
  rcases h with (rfl | rfl) | rfl <;> decide

theorem isDelim_toUpper (c : Char) : isDelim c.toUpper = isDelim c := by
  rcases toUpper_cases c with h | ⟨h1, h2, h3⟩
  · rw [h]
  · have ha : isDelim c = false := by
      by_contra hc
      have := isDelim_toNat (by simpa using hc)
      omega
    have hb : isDelim c.toUpper = false := by
      by_contra hc
      have := isDelim_toNat (by simpa using hc)
      omega
    rw [ha, hb]

theorem toUpper_of_isDelim {c : Char} (h : isDelim c = true) : c.toUpper = c := by
  rcases toUpper_cases c with h' | ⟨h1, h2, _⟩
  · exact h'
  · have := isDelim_toNat h
    omega

/-! ## Splitting -/

theorem split_delim {c : Char} (h : isDelim c = true) (cs : List Char) :
    T.split (c :: cs) = [] :: T.split cs := by
  cases cs with
  | nil => simp [split, h]
  | cons d cs => simp [split, h]

/-- The first word of a name that starts with a letter or digit starts with it. -/
theorem split_head {c : Char} (h : isDelim c = false) (cs : List Char) :
    ∃ w ws, T.split (c :: cs) = (c :: w) :: ws := by
  cases cs with
  | nil => exact ⟨[], [], by simp [split, h]⟩
  | cons d cs =>
    by_cases hb : T.boundary c d cs.head? = true
    · exact ⟨[], T.split (d :: cs), by simp [split, h, hb]⟩
    · cases hs : T.split (d :: cs) with
      | nil => exact ⟨[], [], by simp [split, h, hb, hs, consHead]⟩
      | cons w ws => exact ⟨w, ws, by simp [split, h, hb, hs, consHead]⟩

theorem mem_split {cs w : List Char} (hw : w ∈ T.split cs) :
    ∀ c ∈ w, c ∈ cs ∧ isDelim c = false := by
  induction cs using split.induct (T := T) generalizing w with
  | case1 =>
    obtain rfl : w = [] := by simpa [split] using hw
    simp
  | case2 c hd =>
    obtain rfl : w = [] := by simpa [split, hd] using hw
    simp
  | case3 c hd =>
    obtain rfl : w = [c] := by simpa [split, hd] using hw
    simpa using hd
  | case4 c d cs hd ih =>
    rw [split_delim T hd] at hw
    rcases List.mem_cons.1 hw with rfl | hw
    · simp
    · exact fun x hx => ⟨List.mem_cons_of_mem _ (ih hw x hx).1, (ih hw x hx).2⟩
  | case5 c d cs hd hb ih =>
    have hs : T.split (c :: d :: cs) = [c] :: T.split (d :: cs) := by simp [split, hd, hb]
    rw [hs] at hw
    rcases List.mem_cons.1 hw with rfl | hw
    · simpa using hd
    · exact fun x hx => ⟨List.mem_cons_of_mem _ (ih hw x hx).1, (ih hw x hx).2⟩
  | case6 c d cs hd hb ih =>
    have hs : T.split (c :: d :: cs) = consHead c (T.split (d :: cs)) := by simp [split, hd, hb]
    rw [hs] at hw
    have hcons : ∀ ws : List (List Char), (∀ w ∈ ws, ∀ x ∈ w, x ∈ d :: cs ∧ isDelim x = false) →
        ∀ w ∈ consHead c ws, ∀ x ∈ w, x ∈ c :: d :: cs ∧ isDelim x = false := by
      intro ws hws w hw x hx
      cases ws with
      | nil =>
        obtain rfl : w = [c] := by simpa [consHead] using hw
        obtain rfl : x = c := by simpa using hx
        simpa using hd
      | cons v vs =>
        rcases List.mem_cons.1 hw with rfl | hw
        · rcases List.mem_cons.1 hx with rfl | hx
          · simpa using hd
          · have := hws v (List.mem_cons_self ..) x hx
            exact ⟨List.mem_cons_of_mem _ this.1, this.2⟩
        · have := hws w (List.mem_cons_of_mem _ hw) x hx
          exact ⟨List.mem_cons_of_mem _ this.1, this.2⟩
    exact hcons _ (fun w hw => ih hw) w hw

theorem words_single {c : Char} (h : isDelim c = false) : T.words [c] = [[c]] := by
  simp [words, split, h]

/-- A delimiter ends the word before it, whatever kinds of characters meet there. -/
theorem words_before_delim {c d : Char} (hc : isDelim c = false) (hd : isDelim d = true)
    (cs : List Char) : T.words (c :: d :: cs) = [c] :: T.words cs := by
  by_cases hb : T.boundary c d cs.head? = true
  · simp [words, split, hc, hb, split_delim T hd]
  · simp [words, split, hc, hb, split_delim T hd, consHead]

theorem words_boundary {c d : Char} (hc : isDelim c = false) {cs : List Char}
    (hb : T.boundary c d cs.head? = true) : T.words (c :: d :: cs) = [c] :: T.words (d :: cs) := by
  simp [words, split, hc, hb]

/-- Inside a word the next character joins the word of the one after it. -/
theorem words_inside {c d : Char} (hc : isDelim c = false) (hd : isDelim d = false) {cs : List Char}
    (hb : T.boundary c d cs.head? = false) :
    ∃ w ws, T.words (d :: cs) = w :: ws ∧ T.words (c :: d :: cs) = (c :: w) :: ws := by
  obtain ⟨w, ws, hs⟩ := T.split_head hd cs
  refine ⟨d :: w, ws.filter fun w => !w.isEmpty, ?_, ?_⟩
  · simp [words, hs]
  · simp [words, split, hc, hb, hs, consHead]

theorem words_ne_nil {c : Char} (hc : isDelim c = false) (cs : List Char) :
    T.words (c :: cs) ≠ [] := by
  obtain ⟨w, ws, hs⟩ := T.split_head hc cs
  simp [words, hs]

/-! ## Joining -/

/-- The characters of `toScreamingSnake`. -/
def snake (cs : List Char) : List Char :=
  List.intercalate ['_'] ((T.words cs).map fun w => w.flatMap T.toUppercase)

theorem toScreamingSnake_toList (s : String) :
    (T.toScreamingSnake s).toList = T.snake s.toList := by
  simp [toScreamingSnake, snake]

theorem snake_nil : T.snake [] = [] := by simp [snake, words, split]

theorem snake_single {c : Char} (h : isDelim c = false) : T.snake [c] = T.toUppercase c := by
  simp [snake, words_single T h]

/-- Joining a first word to the others. -/
theorem intercalate_cons (w : List Char) (ws : List (List Char)) :
    List.intercalate ['_'] (w :: ws) =
      w ++ if ws = [] then [] else '_' :: List.intercalate ['_'] ws := by
  cases ws with
  | nil => simp
  | cons v vs => simp [List.intercalate_cons_cons]

theorem snake_before_delim {c d : Char} (hc : isDelim c = false) (hd : isDelim d = true)
    (cs : List Char) : T.snake (c :: d :: cs) =
      T.toUppercase c ++ if T.words cs = [] then [] else '_' :: T.snake cs := by
  simp [snake, words_before_delim T hc hd, intercalate_cons]

theorem snake_boundary {c d : Char} (hc : isDelim c = false) (hd : isDelim d = false)
    {cs : List Char} (hb : T.boundary c d cs.head? = true) :
    T.snake (c :: d :: cs) = T.toUppercase c ++ '_' :: T.snake (d :: cs) := by
  simp [snake, words_boundary T hc hb, intercalate_cons, words_ne_nil T hd]

theorem snake_inside {c d : Char} (hc : isDelim c = false) (hd : isDelim d = false)
    {cs : List Char} (hb : T.boundary c d cs.head? = false) :
    T.snake (c :: d :: cs) = T.toUppercase c ++ T.snake (d :: cs) := by
  obtain ⟨w, ws, h1, h2⟩ := T.words_inside hc hd hb
  simp [snake, h1, h2, intercalate_cons]

theorem mem_intercalate {x : Char} {ws : List (List Char)}
    (h : x ∈ List.intercalate ['_'] ws) : x = '_' ∨ ∃ w ∈ ws, x ∈ w := by
  induction ws with
  | nil => simp at h
  | cons w ws ih =>
    rw [intercalate_cons] at h
    rcases List.mem_append.1 h with h | h
    · exact Or.inr ⟨w, List.mem_cons_self .., h⟩
    · split at h
      · simp at h
      · rcases List.mem_cons.1 h with h | h
        · exact Or.inl h
        · rcases ih h with h | ⟨v, hv, hx⟩
          · exact Or.inl h
          · exact Or.inr ⟨v, List.mem_cons_of_mem _ hv, hx⟩

/-- Every character of the result is its own upper case. -/
theorem upper_of_mem_snake {cs : List Char} {x : Char} (h : x ∈ T.snake cs) :
    T.toUppercase x = [x] := by
  rcases mem_intercalate h with rfl | ⟨w, hw, hx⟩
  · rw [T.upper_ascii _ (by decide)]
    decide
  · obtain ⟨v, _, rfl⟩ := List.mem_map.1 hw
    obtain ⟨c, _, hxc⟩ := List.mem_flatMap.1 hx
    exact T.upper_upper c x hxc

/-- The result does not start with an underscore. -/
theorem snake_head {cs : List Char} (hup : ∀ c ∈ cs, T.toUppercase c = [c.toUpper]) {x : Char}
    {rest : List Char} (h : T.snake cs = x :: rest) : isDelim x = false := by
  have hsub : ∀ w ∈ T.words cs, w ≠ [] ∧ ∀ c ∈ w, c ∈ cs ∧ isDelim c = false := by
    intro w hw
    obtain ⟨h1, h2⟩ := List.mem_filter.1 hw
    exact ⟨by simpa using h2, T.mem_split h1⟩
  cases hws : T.words cs with
  | nil => simp [snake, hws] at h
  | cons w ws =>
    obtain ⟨hne, hw⟩ := hsub w (by rw [hws]; exact List.mem_cons_self ..)
    obtain ⟨c, w, rfl⟩ := List.exists_cons_of_ne_nil hne
    obtain ⟨hcs, hcd⟩ := hw c (List.mem_cons_self ..)
    simp only [snake, hws, List.map_cons, List.flatMap_cons, hup c hcs, intercalate_cons,
      List.cons_append] at h
    rw [← (List.cons.inj h).1, isDelim_toUpper, hcd]

/-! ## Names on which both agree -/

variable {T}

theorem Plain.tail {c d : Char} {cs : List Char} (h : T.Plain (c :: d :: cs)) (hd : d ≠ '_') :
    T.Plain (d :: cs) where
  upper x hx := h.upper x (List.mem_cons_of_mem _ hx)
  delim x hx := h.delim x (List.mem_cons_of_mem _ hx)
  first := by simpa using hd
  last := by simpa using h.last
  inner pre a b post he := h.inner (c :: pre) a b post (by simp [he])

theorem Plain.tail_tail {c d : Char} {cs : List Char} (h : T.Plain (c :: '_' :: d :: cs)) :
    T.Plain (d :: cs) where
  upper x hx := h.upper x (by simp [List.mem_cons.1 hx])
  delim x hx := h.delim x (by simp [List.mem_cons.1 hx])
  first := by
    have := (h.inner [c] '_' d cs rfl).1
    simpa using this
  last := by simpa using h.last
  inner pre a b post he := h.inner (c :: '_' :: pre) a b post (by simp [he])

/-- The pairs of neighbours of a name are its first pair and those of its tail. -/
theorem inner_cons {P : Char → Char → List Char → Prop} {c d : Char} {cs : List Char}
    (h0 : P c d cs) (h : ∀ pre a b post, d :: cs = pre ++ a :: b :: post → P a b post) :
    ∀ pre a b post, c :: d :: cs = pre ++ a :: b :: post → P a b post := by
  intro pre a b post he
  cases pre with
  | nil =>
    obtain ⟨rfl, rfl, rfl⟩ := by simpa using he
    exact h0
  | cons x pre =>
    simp only [List.cons_append, List.cons.injEq] at he
    exact h pre a b post he.2

theorem boundary_underscore (a : Char) (next : Option Char) :
    T.boundary a '_' next = false ∧ T.boundary '_' a next = false := by
  have hu : T.isUpper '_' = false := by
    simp [isUpper, T.upper_ascii '_' (by decide), T.lower_ascii '_' (by decide)]
  have hl : T.isLower '_' = false := by
    simp [isLower, T.upper_ascii '_' (by decide), T.lower_ascii '_' (by decide)]
  have hd : '_'.isDigit = false := by decide
  simp [boundary, hu, hl, hd]

theorem snake_of_plain (cs : List Char) (h : T.Plain cs) : T.snake cs = cs.map Char.toUpper := by
  induction hn : cs.length using Nat.strong_induction_on generalizing cs with
  | _ n ih =>
    subst hn
    cases cs with
    | nil => exact T.snake_nil
    | cons c cs =>
      have hcu : T.toUppercase c = [c.toUpper] := h.upper c (List.mem_cons_self ..)
      have hc : isDelim c = false := by
        by_contra hcon
        have := h.delim c (List.mem_cons_self ..) (by simpa using hcon)
        exact h.first (by simp [this])
      cases cs with
      | nil => simp [T.snake_single hc, hcu]
      | cons d ds =>
        by_cases hd : isDelim d = true
        · obtain rfl : d = '_' := h.delim d (by simp) hd
          cases ds with
          | nil => exact absurd (by simp) h.last
          | cons e es =>
            have hpl := h.tail_tail
            have he : isDelim e = false := by
              by_contra hcon
              have := hpl.delim e (List.mem_cons_self ..) (by simpa using hcon)
              exact hpl.first (by simp [this])
            rw [T.snake_before_delim hc hd, if_neg (T.words_ne_nil he es), hcu,
              ih (e :: es).length (by simp) (e :: es) hpl rfl]
            simp [toUpper_of_isDelim hd]
        · have hd' : isDelim d = false := by simpa using hd
          have hne : d ≠ '_' := by
            rintro rfl
            exact hd (by decide)
          rw [T.snake_inside hc hd' (h.inner [] c d ds rfl).2, hcu,
            ih (d :: ds).length (by simp) (d :: ds) (h.tail hne) rfl]
          simp

theorem ne_underscore {c : Char} (h : isDelim c = false) : c ≠ '_' := by
  rintro rfl
  simp [isDelim] at h

theorem Plain.single {c : Char} (hu : T.toUppercase c = [c.toUpper]) (hc : isDelim c = false) :
    T.Plain [c] where
  upper x hx := by
    rw [List.mem_singleton.1 hx]
    exact hu
  delim x hx hxd := by
    rw [List.mem_singleton.1 hx, hc] at hxd
    cases hxd
  first := by simpa using ne_underscore hc
  last := by simpa using ne_underscore hc
  inner pre a b post he := by
    have hlen := congrArg List.length he
    simp at hlen
    omega

/-- One more character in the first word. -/
theorem Plain.cons {c d : Char} {cs : List Char} (hu : T.toUppercase c = [c.toUpper])
    (hc : isDelim c = false) (hb : T.boundary c d cs.head? = false) (h : T.Plain (d :: cs)) :
    T.Plain (c :: d :: cs) where
  upper x hx := by
    rcases List.mem_cons.1 hx with rfl | hx
    · exact hu
    · exact h.upper x hx
  delim x hx hxd := by
    rcases List.mem_cons.1 hx with rfl | hx
    · simp [hc] at hxd
    · exact h.delim x hx hxd
  first := by simpa using ne_underscore hc
  last := by simpa using h.last
  inner := inner_cons (P := fun a b post => ¬ (a = '_' ∧ b = '_') ∧
    T.boundary a b post.head? = false) ⟨by simp [ne_underscore hc], hb⟩ h.inner

/-- One more word in front. -/
theorem Plain.cons_underscore {c d : Char} {cs : List Char} (hu : T.toUppercase c = [c.toUpper])
    (hc : isDelim c = false) (h : T.Plain (d :: cs)) : T.Plain (c :: '_' :: d :: cs) where
  upper x hx := by
    rcases List.mem_cons.1 hx with rfl | hx
    · exact hu
    · rcases List.mem_cons.1 hx with rfl | hx
      · exact T.upper_ascii _ (by decide)
      · exact h.upper x hx
  delim x hx hxd := by
    rcases List.mem_cons.1 hx with rfl | hx
    · simp [hc] at hxd
    · rcases List.mem_cons.1 hx with rfl | hx
      · rfl
      · exact h.delim x hx hxd
  first := by simpa using ne_underscore hc
  last := by simpa using h.last
  inner := by
    have hd : d ≠ '_' := by simpa using h.first
    exact inner_cons (P := fun a b post => ¬ (a = '_' ∧ b = '_') ∧
      T.boundary a b post.head? = false)
      ⟨by simp [ne_underscore hc], (boundary_underscore c _).1⟩
      (inner_cons ⟨by simp [hd], (boundary_underscore d _).2⟩ h.inner)

theorem plain_of_snake (cs : List Char) (hup : ∀ c ∈ cs, T.toUppercase c = [c.toUpper])
    (h : T.snake cs = cs.map Char.toUpper) : T.Plain cs := by
  induction hn : cs.length using Nat.strong_induction_on generalizing cs with
  | _ n ih =>
    subst hn
    cases cs with
    | nil => exact ⟨by simp, by simp, by simp, by simp, by simp⟩
    | cons c cs =>
      have hcu : T.toUppercase c = [c.toUpper] := hup c (List.mem_cons_self ..)
      have hc : isDelim c = false := by
        rw [← isDelim_toUpper]
        exact T.snake_head hup (by simpa using h)
      cases cs with
      | nil => exact .single hcu hc
      | cons d ds =>
        by_cases hd : isDelim d = true
        · rw [T.snake_before_delim hc hd, hcu] at h
          by_cases hw : T.words ds = []
          · simp [hw] at h
          · rw [if_neg hw] at h
            simp only [List.cons_append, List.nil_append, List.map_cons, List.cons.injEq,
              true_and] at h
            obtain ⟨hu, hrest⟩ := h
            obtain rfl : d = '_' := by rw [← toUpper_of_isDelim hd, ← hu]
            have hpl := ih ds.length (by simp only [List.length_cons]; omega) ds
              (fun x hx => hup x (by simp [hx])) hrest rfl
            cases ds with
            | nil => simp [words, split] at hw
            | cons e es => exact .cons_underscore hcu hc hpl
        · have hd' : isDelim d = false := by simpa using hd
          by_cases hb : T.boundary c d ds.head? = true
          · -- a word would end here: the name has `d` where the result has an underscore
            rw [T.snake_boundary hc hd' hb, hcu] at h
            simp only [List.cons_append, List.nil_append, List.map_cons, List.cons.injEq,
              true_and] at h
            have := isDelim_toUpper d
            rw [← h.1, hd'] at this
            exact absurd this (by decide)
          · have hb' : T.boundary c d ds.head? = false := by simpa using hb
            rw [T.snake_inside hc hd' hb', hcu] at h
            simp only [List.cons_append, List.nil_append, List.map_cons, List.cons.injEq,
              true_and] at h
            exact .cons hcu hc hb' (ih (d :: ds).length (by simp) (d :: ds)
              (fun x hx => hup x (List.mem_cons_of_mem _ hx)) (by simpa using h) rfl)

/-- **The two conversions agree on the plain names and on no others.** -/
theorem toScreamingSnake_eq_iff (T : CaseTable) (s : String) :
    T.toScreamingSnake s = toAsciiUppercase s ↔ T.Plain s.toList := by
  have hlist : T.toScreamingSnake s = toAsciiUppercase s ↔
      T.snake s.toList = s.toList.map Char.toUpper := by
    rw [← String.toList_inj, toScreamingSnake_toList, toAsciiUppercase, String.toList_ofList]
  rw [hlist]
  constructor
  · intro h
    refine plain_of_snake _ (fun c hc => ?_) h
    -- `c.toUpper` occurs in the result, so it is its own upper case
    have hmem : c.toUpper ∈ T.snake s.toList := by
      rw [h]
      exact List.mem_map.2 ⟨c, hc, rfl⟩
    rcases toUpper_cases c with hu | ⟨_, hle, _⟩
    · have := T.upper_of_mem_snake hmem
      rw [hu] at this ⊢
      exact this
    · exact T.upper_ascii c (by omega)
  · exact snake_of_plain _

end CaseTable

end Galette.Lib
