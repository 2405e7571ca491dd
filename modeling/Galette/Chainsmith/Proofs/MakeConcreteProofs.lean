import Galette.Chainsmith.Description
import Mathlib.Data.List.Induction

/-!
# Proofs: name resolution

The loop of `make_concrete` changes the states and the root flags of the concrete links and nothing
else, so every target is resolved against the same functions. What the loop leaves behind is
described by `Concrete`: a function is a `Tail` if one of its links goes to `tx` alone, and
otherwise has the actions of its *last* link.
-/

namespace Galette.Chainsmith

open Galette.Lib Galette.Protocol

/-! ## Resolution -/

/-- The part of a concrete link that the loop leaves alone. -/
def fixedPart (l : XdpLink) : Uuid × Bool × List String := (l.uuid, l.disableXdp, l.mapNames)

/-- Two maps of concrete links with the same functions. -/
def SameFns (m m' : HashMap String XdpLink) : Prop :=
  ∀ name, (m.lookup name).map fixedPart = (m'.lookup name).map fixedPart

theorem SameFns.refl (m : HashMap String XdpLink) : SameFns m m := fun _ => rfl

theorem SameFns.symm {m m' : HashMap String XdpLink} (h : SameFns m m') : SameFns m' m :=
  fun name => (h name).symm

theorem SameFns.trans {m₁ m₂ m₃ : HashMap String XdpLink} (h : SameFns m₁ m₂) (h' : SameFns m₂ m₃) :
    SameFns m₁ m₃ :=
  fun name => (h name).trans (h' name)

theorem SameFns.isSome {m m' : HashMap String XdpLink} (h : SameFns m m') (name : String) :
    (m.lookup name).isSome = (m'.lookup name).isSome := by
  have := congrArg Option.isSome (h name)
  simpa using this

theorem resolveTarget_congr {m m' : HashMap String XdpLink} (h : SameFns m m') (link : Link)
    (name : String) : resolveTarget m link name = resolveTarget m' link name := by
  have hname := h (stripUpcall name).2
  unfold resolveTarget
  cases hm : m.lookup (stripUpcall name).2 with
  | none =>
    rw [hm] at hname
    have hm' : m'.lookup (stripUpcall name).2 = none := by simpa using hname.symm
    simp only [hm']
  | some l =>
    rw [hm] at hname
    obtain ⟨l', hm', hl'⟩ := Option.map_eq_some_iff.1 hname.symm
    obtain ⟨hu, hd, _⟩ : l'.uuid = l.uuid ∧ l'.disableXdp = l.disableXdp ∧
        l'.mapNames = l.mapNames := by simpa [fixedPart] using hl'
    simp only [hm', hu, hd]

theorem resolveTargets_congr {m m' : HashMap String XdpLink} (h : SameFns m m') (link : Link)
    (names : List String) : resolveTargets m link names = resolveTargets m' link names := by
  induction names with
  | nil => rfl
  | cons name names ih => simp only [resolveTargets, resolveTarget_congr h, ih]

/-- The targets of a list are resolved one by one. -/
theorem resolveTargets_eq_ok {m : HashMap String XdpLink} {link : Link} {names : List String}
    {acts : List LinkAction} : resolveTargets m link names = .ok acts ↔
      List.Forall₂ (fun name a => resolveTarget m link name = .ok a) names acts := by
  induction names generalizing acts with
  | nil =>
    constructor
    · intro h
      obtain rfl := Except.ok.inj h
      exact .nil
    · rintro ⟨⟩
      rfl
  | cons name names ih =>
    constructor
    · intro h
      obtain ⟨a, ha, h⟩ := Except.bind_eq_ok.1 h
      obtain ⟨as, has, h⟩ := Except.bind_eq_ok.1 h
      obtain rfl := Except.ok.inj h
      exact .cons ha (ih.1 has)
    · rintro ⟨⟩
      rename_i a as ha has
      simp [resolveTargets, ha, ih.2 has, Except.bind]

/-! ## The loop over the links -/

/-- The state of a function after one more link. -/
def stateStep (fns : HashMap String XdpLink) (s : XdpLinkState) (link : Link) : XdpLinkState :=
  if link.«to» = ["tx"] then .tail
  else
    match resolveTargets fns link link.«to» with
    | .ok dests => setDests dests s
    | .error _ => s

/-- The state of a function after all its links. -/
def stateAfter (fns : HashMap String XdpLink) (links : List Link) (name : String) : XdpLinkState :=
  (linksOf links name).foldl (stateStep fns) (.body [])

/-- The concrete link of a function after some links. -/
def linkAfter (fns : HashMap String XdpLink) (links : List Link) (name : String) (l : XdpLink) :
    XdpLink :=
  { l with state := stateAfter fns links name, root := name ∈ rxDests links }

theorem rxDests_append (links : List Link) (link : Link) :
    rxDests (links ++ [link]) =
      rxDests links ++ if link.«from» = "rx" then link.«to» else [] := by
  unfold rxDests
  rw [List.filter_append, List.flatMap_append]
  by_cases h : link.«from» = "rx" <;> simp [h]

theorem stateAfter_append (fns : HashMap String XdpLink) (links : List Link) (link : Link)
    (name : String) : stateAfter fns (links ++ [link]) name =
      if link.«from» = name ∧ link.«from» ≠ "rx" then stateStep fns (stateAfter fns links name) link
      else stateAfter fns links name := by
  unfold stateAfter linksOf
  rw [List.filter_append, List.foldl_append]
  by_cases h : link.«from» = name ∧ link.«from» ≠ "rx"
  · simp [h.1, h.1 ▸ h.2]
  · have hf : ([link].filter fun l => l.«from» = name && l.«from» ≠ "rx") = [] := by
      simpa using h
    rw [if_neg h, hf]
    rfl

/-- The loop over the destinations of one link from `rx`. -/
theorem rxDest_loop {link : Link} {acc acc' : HashMap String XdpLink × Nat} {dests : List String}
    (h : foldE (rxDest link) acc dests = .ok acc') :
    (∀ name, acc'.1.lookup name =
      (acc.1.lookup name).map fun l => { l with root := l.root || decide (name ∈ dests) }) ∧
    acc'.2 = acc.2 + dests.length ∧ ∀ d ∈ dests, (acc.1.lookup d).isSome = true := by
  refine foldE_inv (fun done b => (∀ name, b.1.lookup name =
      (acc.1.lookup name).map fun l => { l with root := l.root || decide (name ∈ done) }) ∧
    b.2 = acc.2 + done.length ∧ ∀ d ∈ done, (acc.1.lookup d).isSome = true) h ?_ ?_
  · refine ⟨fun name => ?_, rfl, by simp⟩
    cases acc.1.lookup name <;> simp
  · rintro done d rest b b' _ ⟨h1, h2, h3⟩ hb
    unfold rxDest at hb
    have hd := h1 d
    cases hl : acc.1.lookup d with
    | none =>
      rw [hl] at hd
      simp only [hd, Option.map_none] at hb
      cases hb
    | some l =>
      rw [hl] at hd
      simp only [hd, Option.map_some] at hb
      obtain rfl := Except.ok.inj hb
      refine ⟨fun name => ?_, by simp [h2]; omega, ?_⟩
      · rw [HashMap.lookup_modify]
        split
        · rename_i hn
          subst hn
          simp [hd, hl]
        · rename_i hn
          rw [h1]
          simp [hn]
      · intro d' hd'
        rcases List.mem_append.1 hd' with hd' | hd'
        · exact h3 d' hd'
        · obtain rfl : d' = d := by simpa using hd'
          simp [hl]

/-- One link from a function. -/
theorem bodyLink_ok {link : Link} {fns fns' : HashMap String XdpLink}
    (h : bodyLink link fns = .ok fns') :
    (∀ name, fns'.lookup name = (fns.lookup name).map fun l =>
      if name = link.«from» then { l with state := stateStep fns l.state link } else l) ∧
    (fns.lookup link.«from»).isSome = true ∧
    (link.«to» ≠ ["tx"] → ∃ acts, resolveTargets fns link link.«to» = .ok acts) := by
  unfold bodyLink at h
  obtain ⟨⟨tail, dests⟩, hr, h⟩ := Except.bind_eq_ok.1 h
  have hres : link.«to» = ["tx"] ∧ tail = true ∨
      link.«to» ≠ ["tx"] ∧ tail = false ∧ resolveTargets fns link link.«to» = .ok dests := by
    split at hr
    · rename_i htx
      obtain ⟨rfl, _⟩ := Prod.mk.inj (Except.ok.inj hr)
      exact Or.inl ⟨htx, rfl⟩
    · rename_i htx
      obtain ⟨acts, hacts, hr⟩ := Except.bind_eq_ok.1 hr
      obtain ⟨rfl, rfl⟩ := Prod.mk.inj (Except.ok.inj hr)
      exact Or.inr ⟨htx, rfl, hacts⟩
  cases hl : fns.lookup link.«from» with
  | none => simp [hl] at h
  | some l =>
    simp only [hl] at h
    obtain rfl := Except.ok.inj h
    refine ⟨fun name => ?_, by simp, ?_⟩
    · rw [HashMap.lookup_modify]
      split
      · rename_i hn
        subst hn
        rcases hres with ⟨htx, rfl⟩ | ⟨htx, rfl, hd⟩
        · simp [hl, stateStep, htx]
        · simp [hl, stateStep, htx, hd]
      · simp
    · intro hne
      rcases hres with ⟨htx, _⟩ | ⟨_, _, hd⟩
      · exact absurd htx hne
      · exact ⟨dests, hd⟩

/-- The state of the loop once the links in `done` are processed, from the functions `init`. -/
structure LinkInv (init : HashMap String XdpLink) (done : List Link)
    (acc : HashMap String XdpLink × Nat) : Prop where
  lookups : ∀ name, acc.1.lookup name = (init.lookup name).map (linkAfter init done name)
  count : acc.2 = (rxDests done).length
  le_one : acc.2 ≤ 1
  dests : ∀ d ∈ rxDests done, (init.lookup d).isSome = true
  sources : ∀ l ∈ done, l.«from» ≠ "rx" → (init.lookup l.«from»).isSome = true
  resolved : ∀ l ∈ done, l.«from» ≠ "rx" → l.«to» ≠ ["tx"] →
    ∃ acts, resolveTargets init l l.«to» = .ok acts

theorem LinkInv.sameFns {init : HashMap String XdpLink} {done : List Link}
    {acc : HashMap String XdpLink × Nat} (h : LinkInv init done acc) : SameFns acc.1 init := by
  intro name
  rw [h.lookups name]
  cases init.lookup name <;> rfl

theorem stateStep_congr {m m' : HashMap String XdpLink} (h : SameFns m m') (s : XdpLinkState)
    (link : Link) : stateStep m s link = stateStep m' s link := by
  unfold stateStep
  rw [resolveTargets_congr h]

/-- What one link of the description does. -/
theorem processLink_cases {acc acc' : HashMap String XdpLink × Nat} {link : Link}
    (h : processLink acc link = .ok acc') : acc'.2 ≤ 1 ∧
      (link.«from» = "rx" ∧ foldE (rxDest link) acc link.«to» = .ok acc' ∨
        link.«from» ≠ "rx" ∧ bodyLink link acc.1 = .ok acc'.1 ∧ acc'.2 = acc.2) := by
  unfold processLink at h
  obtain ⟨r, hr, h⟩ := Except.bind_eq_ok.1 h
  split at h
  · cases h
  · rename_i hle
    obtain rfl := Except.ok.inj h
    refine ⟨by omega, ?_⟩
    split at hr
    · rename_i hrx
      exact Or.inl ⟨hrx, hr⟩
    · rename_i hrx
      obtain ⟨fns, hf, hr⟩ := Except.bind_eq_ok.1 hr
      obtain rfl := Except.ok.inj hr
      exact Or.inr ⟨hrx, hf, rfl⟩

/-- One more link. -/
theorem processLink_inv {init : HashMap String XdpLink} {done : List Link}
    {acc acc' : HashMap String XdpLink × Nat} {link : Link} (hI : LinkInv init done acc)
    (h : processLink acc link = .ok acc') : LinkInv init (done ++ [link]) acc' := by
  have hsome := hI.sameFns.isSome
  obtain ⟨hle, ⟨hrx, hloop⟩ | ⟨hrx, hbody, hcount⟩⟩ := processLink_cases h
  · obtain ⟨h1, h2, h3⟩ := rxDest_loop hloop
    refine ⟨fun name => ?_, ?_, hle, ?_, ?_, ?_⟩
    · rw [h1, hI.lookups]
      cases init.lookup name with
      | none => rfl
      | some l => simp [linkAfter, rxDests_append, stateAfter_append, hrx]
    · rw [h2, hI.count, rxDests_append]
      simp [hrx]
    · intro d hd
      rw [rxDests_append, if_pos hrx] at hd
      rcases List.mem_append.1 hd with hd | hd
      · exact hI.dests d hd
      · rw [← hsome]
        exact h3 d hd
    · intro l hl hne
      rcases List.mem_append.1 hl with hl | hl
      · exact hI.sources l hl hne
      · obtain rfl : l = link := by simpa using hl
        exact absurd hrx hne
    · intro l hl hne
      rcases List.mem_append.1 hl with hl | hl
      · exact hI.resolved l hl hne
      · obtain rfl : l = link := by simpa using hl
        exact absurd hrx hne
  · obtain ⟨h1, h2, h3⟩ := bodyLink_ok hbody
    have hdests : rxDests (done ++ [link]) = rxDests done := by
      rw [rxDests_append, if_neg hrx, List.append_nil]
    refine ⟨fun name => ?_, by rw [hcount, hI.count, hdests], hle, by rw [hdests]; exact hI.dests,
      ?_, ?_⟩
    · rw [h1, hI.lookups]
      cases init.lookup name with
      | none => rfl
      | some l =>
        by_cases hn : name = link.«from»
        · subst hn
          simp [linkAfter, hdests, stateAfter_append, hrx, stateStep_congr hI.sameFns]
        · have hn' : ¬ link.«from» = name := fun hc => hn hc.symm
          simp [linkAfter, hdests, stateAfter_append, hn, hn']
    · intro l hl hne
      rcases List.mem_append.1 hl with hl | hl
      · exact hI.sources l hl hne
      · obtain rfl : l = link := by simpa using hl
        rw [← hsome]
        exact h2
    · intro l hl hne htx
      rcases List.mem_append.1 hl with hl | hl
      · exact hI.resolved l hl hne htx
      · obtain rfl : l = link := by simpa using hl
        obtain ⟨acts, hacts⟩ := h3 htx
        exact ⟨acts, by rw [← resolveTargets_congr hI.sameFns]; exact hacts⟩

/-! ## The functions before the loop -/

variable {chain : Chain} {fnMap : HashMap String Uuid}

/-- The concrete link of a function before the loop. -/
def freshLink (f : Function) (uuid : Uuid) : XdpLink where
  uuid := uuid
  state := .body []
  root := false
  disableXdp := f.disableXdp
  mapNames := f.maps.keys

theorem initialFns_ok {init : HashMap String XdpLink} (h : initialFns chain fnMap = .ok init) :
    ∀ name, init.lookup name = (fnMap.lookup name).bind fun u =>
      (chain.functions.get? name).map fun f => freshLink f u := by
  have key := foldE_inv (fun done m => (∀ e ∈ done, ∃ f, chain.functions.get? e.1 = some f ∧
      m.lookup e.1 = some (freshLink f e.2)) ∧
    ∀ name, (∀ e ∈ done, e.1 ≠ name) → m.lookup name = none) h (by simp) ?_
  · obtain ⟨h1, h2⟩ := key
    intro name
    cases hu : fnMap.lookup name with
    | none =>
      apply h2
      rintro e he rfl
      rw [show fnMap.lookup e.1 = some e.2 from AList.mem_lookup_iff.2 he] at hu
      cases hu
    | some u =>
      obtain ⟨f, hf, hm⟩ := h1 ⟨name, u⟩ (AList.mem_lookup_iff.1 hu)
      have hf' : chain.functions.get? name = some f := hf
      simpa [hf'] using hm
  · rintro done e rest m m' hl ⟨h1, h2⟩ hm
    obtain ⟨l, hlink, hm⟩ := Except.bind_eq_ok.1 hm
    obtain rfl := Except.ok.inj hm
    have hne := HashMap.key_ne_of_entries hl
    unfold initialLink at hlink
    cases hf : chain.functions.get? e.1 with
    | none => simp [hf] at hlink
    | some f =>
      simp only [hf] at hlink
      obtain rfl := Except.ok.inj hlink
      refine ⟨fun d hd => ?_, fun name hname => ?_⟩
      · rcases List.mem_append.1 hd with hd | hd
        · obtain ⟨g, hg, hlk⟩ := h1 d hd
          exact ⟨g, hg, by rw [AList.lookup_insert_ne (hne d hd)]; exact hlk⟩
        · obtain rfl : d = e := by simpa using hd
          exact ⟨f, hf, by simp [freshLink]⟩
      · rw [AList.lookup_insert_ne (fun hc => hname e (by simp) hc.symm)]
        exact h2 name fun d hd => hname d (List.mem_append_left _ hd)

/-- With a uuid for functions of the chain only, nothing panics. -/
theorem initialFns_total (h : ∀ name u, fnMap.lookup name = some u →
    ∃ f, chain.functions.get? name = some f) : ∃ init, initialFns chain fnMap = .ok init := by
  have key := foldE_total (l := fnMap.entries) (b := (∅ : HashMap String XdpLink))
    (f := fun m e => (initialLink chain e.1 e.2).bind fun l => .ok (AList.insert e.1 l m))
    (fun _ _ => True) trivial ?_
  · obtain ⟨init, hi, _⟩ := key
    exact ⟨init, hi⟩
  · intro done e rest m hl _
    have hmem : e ∈ fnMap.entries := by rw [hl]; simp
    obtain ⟨f, hf⟩ := h e.1 e.2 (AList.mem_lookup_iff.2 hmem)
    simp [initialLink, hf, Except.bind]

/-! ## The state of a function -/

theorem stateStep_tail (fns : HashMap String XdpLink) (link : Link) :
    stateStep fns .tail link = .tail := by
  unfold stateStep
  split
  · rfl
  · split <;> rfl

theorem foldl_stateStep_tail (fns : HashMap String XdpLink) (links : List Link) :
    links.foldl (stateStep fns) .tail = .tail := by
  induction links with
  | nil => rfl
  | cons link links ih => rw [List.foldl_cons, stateStep_tail, ih]

/-- One link to `tx` alone makes a function a `Tail`, whatever its other links are. -/
theorem stateAfter_of_tx {fns : HashMap String XdpLink} {links : List Link} {name : String}
    {link : Link} (hl : link ∈ linksOf links name) (htx : link.«to» = ["tx"]) :
    stateAfter fns links name = .tail := by
  obtain ⟨l₁, l₂, he⟩ := List.append_of_mem hl
  unfold stateAfter
  rw [he, List.foldl_append, List.foldl_cons]
  simp only [stateStep, htx, if_true]
  exact foldl_stateStep_tail fns l₂

/-- Without such a link a function stays a `Body`. -/
theorem stateAfter_body (fns : HashMap String XdpLink) {links : List Link} {name : String}
    (htx : ∀ l ∈ linksOf links name, l.«to» ≠ ["tx"]) :
    ∃ acts, stateAfter fns links name = .body acts := by
  unfold stateAfter
  generalize hb : linksOf links name = ls at htx
  clear hb
  induction ls using List.reverseRecOn with
  | nil => exact ⟨[], rfl⟩
  | append_singleton ls l ih =>
    obtain ⟨acts, ih⟩ := ih fun l' hl' => htx l' (List.mem_append_left _ hl')
    rw [List.foldl_append, ih]
    simp only [List.foldl_cons, List.foldl_nil, stateStep, if_neg (htx l (by simp))]
    split
    · exact ⟨_, rfl⟩
    · exact ⟨acts, rfl⟩

/-- The table of a `Body` has the actions of the last link. -/
theorem stateAfter_of_last {fns : HashMap String XdpLink} {links ls : List Link} {name : String}
    {link : Link} {acts : List LinkAction} (hl : linksOf links name = ls ++ [link])
    (htx : ∀ l ∈ linksOf links name, l.«to» ≠ ["tx"])
    (hacts : resolveTargets fns link link.«to» = .ok acts) :
    stateAfter fns links name = .body acts := by
  unfold stateAfter
  have hb : ∃ bs, ls.foldl (stateStep fns) (.body []) = .body bs := by
    have htx' : ∀ l ∈ linksOf ls name, l.«to» ≠ ["tx"] := by
      intro l hm
      apply htx l
      rw [hl]
      exact List.mem_append_left _ (List.mem_of_mem_filter hm)
    have hself : linksOf ls name = ls := by
      apply List.filter_eq_self.2
      intro l hm
      have : l ∈ linksOf links name := by rw [hl]; exact List.mem_append_left _ hm
      exact (List.mem_filter.1 this).2
    have := stateAfter_body fns htx'
    rwa [stateAfter, hself] at this
  obtain ⟨bs, hb⟩ := hb
  rw [hl, List.foldl_append, hb]
  have hne := htx link (by rw [hl]; simp)
  simp [stateStep, hne, hacts, setDests]

theorem stateAfter_congr {m m' : HashMap String XdpLink} (h : SameFns m m') (links : List Link)
    (name : String) : stateAfter m links name = stateAfter m' links name := by
  unfold stateAfter
  congr 1
  funext s link
  exact stateStep_congr h s link

/-! ## Concrete chains -/

/-- The concrete links that `make_concrete` makes for a chain. -/
structure Concrete (chain : Chain) (fnMap : HashMap String Uuid) (fns : HashMap String XdpLink) :
    Prop where
  functions : ∀ name u, fnMap.lookup name = some u → ∃ f, chain.functions.get? name = some f
  entry : ∀ name, fns.lookup name = (fnMap.lookup name).bind fun u =>
    (chain.functions.get? name).map fun f => linkAfter fns chain.links name (freshLink f u)
  rx : ∃ root, rxDests chain.links = [root] ∧ (fns.lookup root).isSome = true
  sources : ∀ l ∈ chain.links, l.«from» ≠ "rx" → (fns.lookup l.«from»).isSome = true
  resolved : ∀ l ∈ chain.links, l.«from» ≠ "rx" → l.«to» ≠ ["tx"] →
    ∃ acts, resolveTargets fns l l.«to» = .ok acts

/-- Every uuid of a successful run belongs to a function of the chain. -/
theorem functions_of_initialFns {init : HashMap String XdpLink}
    (h : initialFns chain fnMap = .ok init) {name : String} {u : Uuid}
    (hu : fnMap.lookup name = some u) : ∃ f, chain.functions.get? name = some f := by
  have key := foldE_inv (fun done _ => ∀ e ∈ done, ∃ f, chain.functions.get? e.1 = some f) h
    (by simp) ?_
  · exact key ⟨name, u⟩ (AList.mem_lookup_iff.1 hu)
  · intro done e rest m m' _ h1 hm d hd
    rcases List.mem_append.1 hd with hd | hd
    · exact h1 d hd
    · obtain rfl : d = e := by simpa using hd
      obtain ⟨l, hl, _⟩ := Except.bind_eq_ok.1 hm
      unfold initialLink at hl
      cases hf : chain.functions.get? d.1 with
      | none => simp [hf] at hl
      | some f => exact ⟨f, rfl⟩

/-- Before the loop no link is processed. -/
theorem linkInv_nil {init : HashMap String XdpLink} (h : initialFns chain fnMap = .ok init) :
    LinkInv init [] (init, 0) := by
  refine ⟨fun name => ?_, rfl, by simp, by simp [rxDests], by simp, by simp⟩
  cases hl : init.lookup name with
  | none => rfl
  | some l =>
    rw [initialFns_ok h] at hl
    obtain ⟨u, hu, hl⟩ := Option.bind_eq_some_iff.1 hl
    obtain ⟨f, hf, rfl⟩ := Option.map_eq_some_iff.1 hl
    simp [linkAfter, freshLink, stateAfter, linksOf, rxDests]

/-- **What `make_concrete` makes.** -/
theorem concreteFns_ok {fns : HashMap String XdpLink} (h : concreteFns chain fnMap = .ok fns) :
    Concrete chain fnMap fns := by
  obtain ⟨init, hinit, h⟩ := Except.bind_eq_ok.1 h
  have hproc : processLinks chain init = .ok fns := by
    cases hp : processLinks chain init with
    | error e => simp [hp, Except.mapError] at h
    | ok r => simpa [hp, Except.mapError] using h
  obtain ⟨⟨fns', n⟩, hfold, hend⟩ := Except.bind_eq_ok.1 hproc
  have hfresh := initialFns_ok hinit
  have hI : LinkInv init chain.links (fns', n) :=
    foldE_inv (LinkInv init) hfold (linkInv_nil hinit) fun _ _ _ _ _ _ hP hb => processLink_inv hP hb
  split at hend
  · cases hend
  · rename_i hn
    obtain rfl := Except.ok.inj hend
    have hsame : SameFns fns' init := hI.sameFns
    have hone : (rxDests chain.links).length = 1 := by
      have h1 : n = (rxDests chain.links).length := hI.count
      have h2 : n ≤ 1 := hI.le_one
      have h3 : ¬ n = 0 := hn
      omega
    obtain ⟨root, hroot⟩ := List.length_eq_one_iff.1 hone
    refine ⟨fun name u hu => functions_of_initialFns hinit hu, fun name => ?_, ?_, ?_, ?_⟩
    · rw [hI.lookups, hfresh]
      cases fnMap.lookup name with
      | none => rfl
      | some u =>
        cases chain.functions.get? name with
        | none => rfl
        | some f => simp [linkAfter, stateAfter_congr hsame]
    · refine ⟨root, hroot, ?_⟩
      rw [hsame.isSome]
      exact hI.dests root (by rw [hroot]; simp)
    · intro l hl hne
      rw [hsame.isSome]
      exact hI.sources l hl hne
    · intro l hl hne htx
      rw [resolveTargets_congr hsame]
      exact hI.resolved l hl hne htx

/-- The concrete links behind a successful `make_concrete`. -/
theorem makeConcrete_ok {links : List XdpLink}
    (h : makeConcrete chain fnMap = .ok links) :
    ∃ fns, concreteFns chain fnMap = .ok fns ∧ links = HashMap.values fns := by
  unfold makeConcrete at h
  cases hc : concreteFns chain fnMap with
  | error e => simp [hc, Except.map] at h
  | ok fns =>
    rw [hc] at h
    exact ⟨fns, rfl, (Except.ok.inj h).symm⟩

/-- The concrete link of a function. -/
theorem Concrete.link_of_lookup {fns : HashMap String XdpLink} (h : Concrete chain fnMap fns)
    {name : String} {l : XdpLink} (hl : fns.lookup name = some l) :
    ∃ u f, fnMap.lookup name = some u ∧ chain.functions.get? name = some f ∧
      l = linkAfter fns chain.links name (freshLink f u) := by
  rw [h.entry] at hl
  obtain ⟨u, hu, hl⟩ := Option.bind_eq_some_iff.1 hl
  obtain ⟨f, hf, rfl⟩ := Option.map_eq_some_iff.1 hl
  exact ⟨u, f, hu, hf, rfl⟩

/-- The uuids of a build are found again among its links. -/
theorem Concrete.exists_link {fns : HashMap String XdpLink} (h : Concrete chain fnMap fns)
    {links : List XdpLink} (hperm : links.Perm (HashMap.values fns)) {name : String} {u : Uuid}
    (hu : fnMap.lookup name = some u) :
    ∃ l ∈ links, l.uuid = u ∧ fns.lookup name = some l := by
  obtain ⟨f, hf⟩ := h.functions name u hu
  have hl : fns.lookup name = some (linkAfter fns chain.links name (freshLink f u)) := by
    rw [h.entry, hu, hf]
    rfl
  exact ⟨_, hperm.mem_iff.2 (HashMap.mem_values.2 ⟨name, hl⟩), rfl, hl⟩

/-- Which link is the root. -/
theorem Concrete.root_iff {fns : HashMap String XdpLink} (h : Concrete chain fnMap fns)
    {root : String} (hrx : rxDests chain.links = [root]) {name : String} {l : XdpLink}
    (hl : fns.lookup name = some l) : l.root = true ↔ name = root := by
  obtain ⟨u, f, _, _, rfl⟩ := h.link_of_lookup hl
  simp [linkAfter, hrx]

/-! ## Targets -/

/-- The action of a target, by the names and the flags of the description. -/
def targetAction (chain : Chain) (fnMap : HashMap String Uuid) (name : String) :
    Option LinkAction :=
  match fnMap.lookup (stripUpcall name).2 with
  | some u => (chain.functions.get? (stripUpcall name).2).map fun f =>
    if (stripUpcall name).1 || f.disableXdp then .upcall u else .tailcall u
  | none => specialAction name

theorem resolveTarget_none {m : HashMap String XdpLink} {link : Link} {name : String}
    {a : LinkAction} (h : m.lookup (stripUpcall name).2 = none) :
    resolveTarget m link name = .ok a ↔ specialAction name = some a := by
  unfold resolveTarget specialAction
  simp only [h]
  split <;> simp

/-- A target is resolved to its action. -/
theorem Concrete.resolveTarget_iff {fns : HashMap String XdpLink} (h : Concrete chain fnMap fns)
    {link : Link} {name : String} {a : LinkAction} :
    resolveTarget fns link name = .ok a ↔ targetAction chain fnMap name = some a := by
  have he := h.entry (stripUpcall name).2
  unfold targetAction
  cases hu : fnMap.lookup (stripUpcall name).2 with
  | none =>
    rw [hu] at he
    exact resolveTarget_none he
  | some u =>
    obtain ⟨f, hf⟩ := h.functions _ u hu
    rw [hu, hf] at he
    simp [resolveTarget, he, hf, linkAfter, freshLink]

/-- The targets of a list are resolved to their actions. -/
theorem Concrete.resolveTargets_iff {fns : HashMap String XdpLink} (h : Concrete chain fnMap fns)
    {link : Link} {names : List String} {acts : List LinkAction} :
    resolveTargets fns link names = .ok acts ↔
      names.map (targetAction chain fnMap) = acts.map some := by
  rw [resolveTargets_eq_ok]
  simp only [h.resolveTarget_iff]
  induction names generalizing acts with
  | nil => cases acts <;> simp
  | cons name names ih =>
    cases acts with
    | nil => simp
    | cons a acts => simp [ih]

/-- The state of a function without a link to `tx` alone: the actions of its last link. -/
theorem Concrete.body_state {fns : HashMap String XdpLink} (h : Concrete chain fnMap fns)
    {name : String}
    (htx : ∀ l ∈ linksOf chain.links name, l.«to» ≠ ["tx"]) :
    ∃ acts, stateAfter fns chain.links name = .body acts ∧
      (lastTargets chain name).map (targetAction chain fnMap) = acts.map some := by
  unfold lastTargets
  rcases List.eq_nil_or_concat (linksOf chain.links name) with hnil | ⟨ls, last, hls⟩
  · exact ⟨[], by simp [stateAfter, hnil], by simp [hnil]⟩
  · rw [List.concat_eq_append] at hls
    have hlast : last ∈ linksOf chain.links name := by rw [hls]; simp
    obtain ⟨hmem, hfrom⟩ := List.mem_filter.1 hlast
    have hne : last.«from» ≠ "rx" := by
      intro hc
      simp [hc] at hfrom
    obtain ⟨acts, hacts⟩ := h.resolved last hmem hne (htx last hlast)
    exact ⟨acts, stateAfter_of_last hls htx hacts, by simpa [hls] using h.resolveTargets_iff.1 hacts⟩

/-- The action of a target that continues with a function. -/
theorem targetAction_nextNf {name : String} {a : LinkAction}
    (h : targetAction chain fnMap name = some a) {u : Uuid} (hu : a.nextNf = some u) :
    ∃ n f, fnMap.lookup n = some u ∧ chain.functions.get? n = some f ∧
      (a = .tailcall u → f.disableXdp = false) := by
  unfold targetAction at h
  cases hn : fnMap.lookup (stripUpcall name).2 with
  | none =>
    simp only [hn] at h
    unfold specialAction at h
    split at h <;> first | (obtain rfl := Option.some.inj h; cases hu) | cases h
  | some v =>
    simp only [hn] at h
    obtain ⟨f, hf, rfl⟩ := Option.map_eq_some_iff.1 h
    refine ⟨_, f, ?_, hf, ?_⟩
    · split at hu <;> (obtain rfl := Option.some.inj hu; exact hn)
    · intro hcall
      split at hcall
      · cases hcall
      · rename_i hcond
        simp at hcond
        exact hcond.2

/-- Every action of a function's table is the action of some target. -/
theorem Concrete.mem_acts {fns : HashMap String XdpLink} (h : Concrete chain fnMap fns)
    {name : String} {els : List LinkAction} (hs : stateAfter fns chain.links name = .body els)
    {a : LinkAction} (ha : a ∈ els) : ∃ target, targetAction chain fnMap target = some a := by
  have htx : ∀ l ∈ linksOf chain.links name, l.«to» ≠ ["tx"] := by
    intro l hl hto
    rw [stateAfter_of_tx hl hto] at hs
    cases hs
  obtain ⟨acts, hacts, hmap⟩ := h.body_state htx
  obtain rfl : acts = els := XdpLinkState.body.inj (hacts.symm.trans hs)
  have hmem : some a ∈ (lastTargets chain name).map (targetAction chain fnMap) := by
    rw [hmap]
    exact List.mem_map.2 ⟨a, ha, rfl⟩
  obtain ⟨target, _, ht⟩ := List.mem_map.1 hmem
  exact ⟨target, ht⟩

/-- The state of a function, by what the description says about it. -/
theorem Concrete.state_none {fns : HashMap String XdpLink} {name : String}
    (hf : followers chain name = none) : stateAfter fns chain.links name = .tail := by
  unfold followers at hf
  split at hf
  · rename_i hany
    obtain ⟨l, hl, hto⟩ := List.any_eq_true.1 hany
    exact stateAfter_of_tx hl (by simpa using hto)
  · cases hf

theorem Concrete.state_some {fns : HashMap String XdpLink} (h : Concrete chain fnMap fns)
    {name : String} {targets : List String} (hf : followers chain name = some targets) :
    ∃ acts, stateAfter fns chain.links name = .body acts ∧
      targets.map (targetAction chain fnMap) = acts.map some := by
  unfold followers at hf
  split at hf
  · cases hf
  · rename_i hany
    obtain rfl := Option.some.inj hf
    refine h.body_state fun l hl hto => hany ?_
    exact List.any_eq_true.2 ⟨l, hl, by simpa using hto⟩

end Galette.Chainsmith
