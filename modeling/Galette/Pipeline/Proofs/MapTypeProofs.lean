import Galette.NfMacros.Maps
import Galette.Pipeline.Proofs.MapProofs

/-!
# Proofs: the types of the maps

The attribute numbers the aliases by the order in which the fields are declared, the compiler by the
order of the names. A map is declared over the types of its field exactly if the field that stands
in its place has the same types.
-/

namespace Galette.Pipeline

open Galette.Lib Galette.Chainsmith Galette.NfMacros

/-! ## Aliases -/

/-- The aliases are told apart by their kind and their number. -/
theorem aliasName_inj {p q : String} (hp : p ∈ ["NfKeyTy", "NfValTy"])
    (hq : q ∈ ["NfKeyTy", "NfValTy"]) {i j : Nat} (h : p ++ toString i = q ++ toString j) :
    p = q ∧ i = j := by
  have hlen : p.toList.length = q.toList.length := by
    have hseven : ∀ s ∈ ["NfKeyTy", "NfValTy"], s.toList.length = 7 := by decide
    rw [hseven p hp, hseven q hq]
  have happend : p.toList ++ (toString i).toList = q.toList ++ (toString j).toList := by
    rw [← String.toList_append, h, String.toList_append]
  have hpq : p = q := String.toList_inj.1 (List.append_inj_left happend hlen)
  subst hpq
  have hdigits : Nat.toDigits 10 i = Nat.toDigits 10 j := by
    rw [← Nat.toList_repr, ← Nat.toList_repr]
    exact List.append_cancel_left happend
  have hval := congrArg (fun l => Nat.ofDigitChars 10 l 0) hdigits
  simp only [Nat.ofDigitChars_ten_toDigits] at hval
  exact ⟨rfl, hval⟩

variable {Ty : Type}

/-- A field with the pair of its key and value type. -/
def pairField (f : String × Ty × Ty) : String × FieldType Ty := (f.1, .tuple [f.2.1, f.2.2])

theorem lookup_redecls_pair {p : String} (hp : p ∈ ["NfKeyTy", "NfValTy"]) (k j : Nat)
    (key val : Ty) : (redecls k [key, val]).lookup (p ++ toString j) =
      if j = k then some (if p = "NfKeyTy" then key else val) else none := by
  have hname : ∀ q ∈ ["NfKeyTy", "NfValTy"],
      (p ++ toString j == q ++ toString k) = decide (p = q ∧ j = k) := by
    intro q hq
    rw [Bool.eq_iff_iff, beq_iff_eq, decide_eq_true_eq]
    refine ⟨aliasName_inj hp hq, ?_⟩
    rintro ⟨rfl, rfl⟩
    rfl
  simp only [redecls, List.take_succ_cons, List.take_nil, List.zip_cons_cons, List.zip_nil_left,
    List.map_cons, List.map_nil, List.lookup_cons, List.lookup_nil, hname "NfKeyTy" (by decide),
    hname "NfValTy" (by decide)]
  by_cases hj : j = k
  · rcases List.mem_cons.1 hp with rfl | hp
    · simp [hj]
    · obtain rfl := List.mem_singleton.1 hp
      simp [hj]
  · simp [hj]

/-- The types behind the aliases of some fields, numbered from `k` on. -/
theorem lookup_redecls {p : String} (hp : p ∈ ["NfKeyTy", "NfValTy"])
    (fields : List (String × Ty × Ty)) (k i : Nat) :
    ((fields.zipIdx k).flatMap fun e => redecls e.2 [e.1.2.1, e.1.2.2]).lookup
        (p ++ toString (k + i)) =
      fields[i]?.map fun f => if p = "NfKeyTy" then f.2.1 else f.2.2 := by
  induction fields generalizing k i with
  | nil => rfl
  | cons f fields ih =>
    rw [List.zipIdx_cons, List.flatMap_cons, List.lookup_append, lookup_redecls_pair hp]
    cases i with
    | zero => simp
    | succ i =>
      rw [if_neg (by omega), Option.none_or, show k + (i + 1) = k + 1 + i by omega, ih]
      rfl

/-- The loop over the fields, if all of them have pairs of types. -/
theorem foldE_pairs (fields : List (String × Ty × Ty)) (k : Nat)
    (xs : List (String × String × List Ty)) :
    foldE (fun xs e => (innerTypes e.1).bind fun types =>
        .ok (xs ++ [(e.1.1, fieldParam e.2, types)])) xs ((fields.map pairField).zipIdx k) =
      .ok (xs ++ (fields.zipIdx k).map fun e => (e.1.1, fieldParam e.2, [e.1.2.1, e.1.2.2])) := by
  induction fields generalizing k xs with
  | nil => simp
  | cons f fields ih =>
    rw [List.map_cons, List.zipIdx_cons, foldE_cons, List.zipIdx_cons, List.map_cons]
    refine (ih (k + 1) (xs ++ [(f.1, fieldParam k, [f.2.1, f.2.2])])).trans ?_
    rw [List.append_assoc, List.singleton_append]

/-- The fields are numbered twice, with the same numbers. -/
theorem flatMap_zipIdx (fields : List (String × Ty × Ty)) (k : Nat) :
    ((((fields.zipIdx k).map fun e => (e.1.1, fieldParam e.2, [e.1.2.1, e.1.2.2])).zipIdx k).flatMap
        fun e => redecls e.2 e.1.2.2) =
      (fields.zipIdx k).flatMap fun e => redecls e.2 [e.1.2.1, e.1.2.2] := by
  induction fields generalizing k with
  | nil => rfl
  | cons f fields ih =>
    rw [List.zipIdx_cons, List.map_cons, List.zipIdx_cons, List.flatMap_cons, List.flatMap_cons, ih]

/-- The aliases with number `i` are the types of the `i`th field. -/
def AliasesOf (exp : Expansion Ty) (fields : List (String × Ty × Ty)) : Prop :=
  ∀ i : Nat, exp.aliasTy ("NfKeyTy" ++ toString i) = fields[i]?.map (fun f => f.2.1) ∧
    exp.aliasTy ("NfValTy" ++ toString i) = fields[i]?.map fun f => f.2.2

/-- The attribute on a struct whose fields have pairs of types. -/
theorem maps_pairs (fields : List (String × Ty × Ty)) :
    ∃ exp, maps (.named (fields.map pairField)) = .ok exp ∧ AliasesOf exp fields := by
  rw [maps, foldE_pairs]
  refine ⟨_, rfl, fun i => ?_⟩
  have hkey := lookup_redecls (p := "NfKeyTy") (by decide) fields 0 i
  have hval := lookup_redecls (p := "NfValTy") (by decide) fields 0 i
  simp only [Nat.zero_add] at hkey hval
  simp only [Expansion.aliasTy, List.nil_append, flatMap_zipIdx]
  exact ⟨hkey, hval⟩

/-! ## Statics -/

variable {T : CaseTable} {chain : Chain} {name : String} {info : Function} {analysis : FnAnalysis}

/-- The statics of the wrapper are numbered in the order of the names. -/
theorem xdpMaps_getElem? {defs : List (String × MapDef)}
    (h : xdpMaps T chain name info analysis = .ok defs) :
    ∀ (i : Nat) n map, info.maps.entries[i]? = some (n, map) →
      ∃ data, mapData chain n map = .ok data ∧
        defs[i]? =
          some (n, data.type.defineXdp (T.toScreamingSnake n) i data.size (canonName name)) := by
  unfold xdpMaps at h
  split at h
  · have key := foldE_inv (fun done defs => defs.length = done.length ∧
      ∀ (i : Nat) n map j, done[i]? = some ((n, map), j) → ∃ data, mapData chain n map = .ok data ∧
        defs[i]? = some (n, data.type.defineXdp (T.toScreamingSnake n) i data.size (canonName name)))
      h ⟨rfl, by simp⟩ ?_
    · refine fun i n map hi => key.2 i n map i ?_
      rw [List.getElem?_zipIdx, hi]
      simp
    · rintro done ⟨⟨n, map⟩, j⟩ rest defs defs' hl ⟨hlen, hget⟩ hstep
      obtain ⟨data, hdata, hstep⟩ := Except.bind_eq_ok.1 hstep
      obtain rfl := Except.ok.inj hstep
      refine ⟨by simp [hlen], fun i n' map' j' hi => ?_⟩
      rcases getElem?_snoc hi with ⟨hlt, hi⟩ | ⟨rfl, hlast⟩
      · obtain ⟨data', hdata', hdefs⟩ := hget i n' map' j' hi
        refine ⟨data', hdata', ?_⟩
        rw [List.getElem?_append_left (by omega)]
        exact hdefs
      · obtain ⟨⟨rfl, rfl⟩, rfl⟩ : (n' = n ∧ map' = map) ∧ j' = j := by simpa using hlast
        have hpos : j' = done.length := (zipIdx_pos hl).1
        refine ⟨data, hdata, ?_⟩
        rw [← hlen, List.getElem?_concat_length, hpos, hlen]
  · cases h

theorem writeXdpProgram_maps {src : XdpSource}
    (h : writeXdpProgram T chain name info analysis = .ok src) :
    xdpMaps T chain name info analysis = .ok src.maps := by
  obtain ⟨defs, hdefs, h⟩ := Except.bind_eq_ok.1 h
  obtain ⟨_, _, h⟩ := Except.bind_eq_ok.1 h
  obtain rfl := Except.ok.inj h
  exact hdefs

/-- A static with number `i` is declared over the types of the `i`th field. -/
theorem declaredOver_iff {exp : Expansion Ty} {fields : List (String × Ty × Ty)}
    (halias : AliasesOf exp fields) (type : MapType) (defName : String) (i size : Nat)
    (canonName : String) (key val : Ty) :
    DeclaredOver exp (type.defineXdp defName i size canonName) key val ↔
      ∃ other key', fields[i]? = some (other, key', val) ∧ (type = .hashMap → key' = key) := by
  obtain ⟨hkey, hval⟩ := halias i
  cases type with
  | array =>
    have hargs : DeclaredOver exp (MapType.array.defineXdp defName i size canonName) key val ↔
        fields[i]?.map (fun f => f.2.2) = some val := by
      rw [← hval]
      simp [DeclaredOver, MapType.defineXdp, typeArgs]
    rw [hargs]
    simp
  | hashMap =>
    have hargs : DeclaredOver exp (MapType.hashMap.defineXdp defName i size canonName) key val ↔
        fields[i]?.map (fun f => f.2.1) = some key ∧
          fields[i]?.map (fun f => f.2.2) = some val := by
      rw [← hkey, ← hval]
      simp [DeclaredOver, MapType.defineXdp, typeArgs]
    rw [hargs]
    cases fields[i]? <;> simp [Prod.ext_iff, and_comm]

/-- The statics of all fields. -/
theorem declaredOver_all_iff {exp : Expansion Ty} {fields : List (String × Ty × Ty)}
    {defs : List (String × MapDef)} (halias : AliasesOf exp fields)
    (hnames : (fields.map Prod.fst).Perm info.maps.keys)
    (hdefs : xdpMaps T chain name info analysis = .ok defs) :
    (∀ f ∈ fields, ∃ d, (f.1, d) ∈ defs ∧ DeclaredOver exp d f.2.1 f.2.2) ↔
      InPlace chain info fields := by
  have hget := xdpMaps_getElem? hdefs
  have hkeys : (defs.map Prod.fst).Nodup := by
    rw [(xdpMaps_ok hdefs).1]
    exact info.maps.keys_nodup
  constructor
  · intro h i n map data key val hi hdata hf
    obtain ⟨d, hd, hover⟩ := h (n, key, val) hf
    obtain ⟨data', hdata', hdef⟩ := hget i n map hi
    obtain rfl := Except.ok.inj (hdata.symm.trans hdata')
    have heq := List.inj_on_of_nodup_map hkeys hd (List.mem_of_getElem? hdef) rfl
    obtain rfl := (Prod.mk.inj heq).2
    exact (declaredOver_iff halias _ _ _ _ _ _ _).1 hover
  · intro h f hf
    have hkey : f.1 ∈ info.maps.keys := hnames.mem_iff.1 (List.mem_map_of_mem hf)
    obtain ⟨⟨n, map⟩, hentry, hn⟩ := List.mem_map.1 hkey
    obtain ⟨i, hi⟩ := List.getElem?_of_mem hentry
    obtain ⟨data, hdata, hdef⟩ := hget i n map hi
    obtain rfl : n = f.1 := hn
    exact ⟨_, List.mem_of_getElem? hdef,
      (declaredOver_iff halias _ _ _ _ _ _ _).2 (h i f.1 map data f.2.1 f.2.2 hi hdata hf)⟩

/-- **The types of the maps.** For a struct of pairs and a function with maps under exactly the
names of its fields, in whatever order the fields are declared: every map is declared over the types
of its field exactly if the fields in the places of the names have the same types. -/
theorem declaredOver_iff_inPlace {fields : List (String × Ty × Ty)} {src : XdpSource}
    (hnames : (fields.map Prod.fst).Perm info.maps.keys)
    (hwrite : writeXdpProgram T chain name info analysis = .ok src) :
    ∃ exp, maps (.named (fields.map pairField)) = .ok exp ∧
      ((∀ f ∈ fields, ∃ d, (f.1, d) ∈ src.maps ∧ DeclaredOver exp d f.2.1 f.2.2) ↔
        InPlace chain info fields) := by
  obtain ⟨exp, hexp, halias⟩ := maps_pairs fields
  exact ⟨exp, hexp, declaredOver_all_iff halias hnames (writeXdpProgram_maps hwrite)⟩

/-- Fields that are declared in the order of their names are in place. -/
theorem inPlace_of_sorted {fields : List (String × Ty × Ty)}
    (hnames : fields.map Prod.fst = info.maps.keys) : InPlace chain info fields := by
  intro i n map data key val hi _ hf
  have hn : (fields.map Prod.fst)[i]? = some n := by
    rw [hnames, BTreeMap.keys, List.getElem?_map, hi]
    rfl
  rw [List.getElem?_map] at hn
  obtain ⟨f, hi', rfl⟩ := Option.map_eq_some_iff.1 hn
  have hnodup : (fields.map Prod.fst).Nodup := hnames ▸ info.maps.keys_nodup
  have heq := List.inj_on_of_nodup_map hnodup (List.mem_of_getElem? hi') hf rfl
  exact ⟨f.1, key, hi'.trans (congrArg some heq), fun _ => rfl⟩

/-- A function with two maps. -/
def twoMaps : Function where
  path := none
  disableXdp := false
  slice := none
  maps := ⟨[("a", .owned ⟨.hashMap, 16⟩), ("b", .owned ⟨.array, 8⟩)], by decide⟩

def twoMapsChain : Chain where
  functions := BTreeMap.singleton "nf" twoMaps
  links := [⟨"rx", ["nf"]⟩, ⟨"nf", ["drop"]⟩]
  maps := BTreeMap.empty

theorem twoMaps_written : ∃ src, writeXdpProgram asciiCase twoMapsChain "nf" twoMaps
    ⟨.enum "Action" ["Drop"], some "Maps"⟩ = .ok src :=
  ⟨_, rfl⟩

/-- With the fields in the order of their names the maps have the types of their fields. -/
theorem twoMaps_declaredOver : ∃ src exp,
    writeXdpProgram asciiCase twoMapsChain "nf" twoMaps ⟨.enum "Action" ["Drop"], some "Maps"⟩ =
      .ok src ∧
    maps (.named ([("a", "u32", "u64"), ("b", "u32", "bool")].map pairField)) = .ok exp ∧
    ∀ f ∈ [("a", "u32", "u64"), ("b", "u32", "bool")], ∃ d, (f.1, d) ∈ src.maps ∧
      DeclaredOver exp d f.2.1 f.2.2 := by
  obtain ⟨src, hsrc⟩ := twoMaps_written
  have hnames : ([("a", "u32", "u64"), ("b", "u32", "bool")].map Prod.fst) = twoMaps.maps.keys :=
    rfl
  obtain ⟨exp, hexp, hiff⟩ := declaredOver_iff_inPlace (.of_eq hnames) hsrc
  exact ⟨src, exp, hsrc, hexp, hiff.2 (inPlace_of_sorted hnames)⟩

/-- With the fields in the other order, the map `a` has the type of the field `b`. -/
theorem not_declaredOver_of_order : ¬ ∀ (fields : List (String × String × String)) (T : CaseTable)
    (chain : Chain) (name : String) (info : Function) (analysis : FnAnalysis) (src : XdpSource)
    (exp : Expansion String), (fields.map Prod.fst).Perm info.maps.keys →
    writeXdpProgram T chain name info analysis = .ok src →
    maps (.named (fields.map pairField)) = .ok exp →
    ∀ f ∈ fields, ∃ d, (f.1, d) ∈ src.maps ∧ DeclaredOver exp d f.2.1 f.2.2 := by
  intro h
  obtain ⟨src, hsrc⟩ := twoMaps_written
  have hnames : ([("b", "u32", "bool"), ("a", "u32", "u64")].map Prod.fst).Perm twoMaps.maps.keys :=
    List.Perm.swap "a" "b" []
  obtain ⟨exp, hexp, halias⟩ := maps_pairs [("b", "u32", "bool"), ("a", "u32", "u64")]
  have hplace := (declaredOver_all_iff halias hnames (writeXdpProgram_maps hsrc)).1
    (h _ _ _ _ _ _ src exp hnames hsrc hexp)
  obtain ⟨other, key', hfirst, _⟩ := hplace 0 "a" _ _ "u32" "u64" rfl rfl (by simp)
  have hval : "bool" = "u64" := congrArg (fun f => f.2.2) (Option.some.inj hfirst)
  exact absurd hval (by decide)

end Galette.Pipeline
