import Ramen.Graph.Shown

/-!
# What the graph model shows, over every run

`GraphModel` exists to show the configuration under `sites/`. This module states that as an
abstract machine and proves that the graph model refines it over every run of key events:

* `namesSite`, `namesProgram`, `namesFunction`, `namesProperty`, `namesSiteProperty` — what a
  key names, read off the branches of `updateKey` and `deleteKey`;
* one lemma per key event and per kind of shown data (`propertyAt_updateKey`,
  `masterAt_deleteKey`, ...);
* `ConfView` — the sites, programs and functions named so far by the key of an `updateKey`,
  whether each site is master, and for each function property the value of the last
  `updateKey` of a key naming it whose value has the property's type, or nothing after a
  `deleteKey` of such a key;
* **`graph_shows_conf_view`** — after every run from the empty model the tree shows the view
  (`Shows`).

The parent links, the queue of pending parents and the order of the items play no part in
the view: the theorem says that all of that machinery leaves the shown data alone.
-/

namespace Ramen

/-! ## What a key names -/

/-- Whether key `k` names site `s`: every valid key finds or creates its site. -/
def namesSite (k : Key) (s : String) : Bool :=
  (parsedKey k).valid && (parsedKey k).site == s

/-- Whether key `k` names program `p` of site `s`. -/
def namesProgram (k : Key) (s p : String) : Bool :=
  let pk := parsedKey k
  pk.valid && decide (0 < pk.program.length) && pk.site == s && pk.program == p

/-- Whether key `k` names property `q` of site `s`: the branch of `updateKey` and `deleteKey`
for a key with no program. -/
def namesSiteProperty (k : Key) (s q : String) : Bool :=
  let pk := parsedKey k
  pk.valid && !decide (0 < pk.program.length) && pk.site == s && pk.property == q

/-- Whether key `k` names the function at `c`: the branch of `updateKey` that finds or
creates a function item. -/
def namesFunction (k : Key) (c : FunctionPath) : Bool :=
  let pk := parsedKey k
  pk.valid && decide (0 < pk.program.length) && decide (0 < pk.function.length) &&
    (⟨pk.site, pk.program, pk.function⟩ : FunctionPath) == c

/-- Whether key `k` names property `p` of the function at `c`. -/
def namesProperty (k : Key) (c : FunctionPath) (p : String) : Bool :=
  namesFunction k c && (parsedKey k).property == p

/-! ## Key events -/

/-- The branches of `updateKey`, by the code's tests on the parsed key: an invalid key, a site
property, a program property, a function property. -/
theorem updateKey_cases (m : GraphModel) (k : Key) (v : ConfValue) :
    ((parsedKey k).valid = false ∧ updateKey m k v = m) ∨
    ((parsedKey k).valid = true ∧ ¬ 0 < (parsedKey k).program.length ∧
      updateKey m k v = setSiteProperty (findOrInsertSite m (parsedKey k).site)
        (parsedKey k).site (parsedKey k).property v) ∨
    ((parsedKey k).valid = true ∧ 0 < (parsedKey k).program.length ∧
      ¬ 0 < (parsedKey k).function.length ∧
      updateKey m k v = findOrInsertProgram (findOrInsertSite m (parsedKey k).site)
        (parsedKey k).site (parsedKey k).program) ∨
    ((parsedKey k).valid = true ∧ 0 < (parsedKey k).program.length ∧
      0 < (parsedKey k).function.length ∧
      updateKey m k v = setFunctionProperty
        (findOrInsertFunction (findOrInsertProgram (findOrInsertSite m (parsedKey k).site)
          (parsedKey k).site (parsedKey k).program)
          ⟨(parsedKey k).site, (parsedKey k).program, (parsedKey k).function⟩)
        ⟨(parsedKey k).site, (parsedKey k).program, (parsedKey k).function⟩
        (parsedKey k).property v) := by
  unfold updateKey setProgramProperty
  dsimp only
  by_cases hv : (parsedKey k).valid = true
  · by_cases hprog : 0 < (parsedKey k).program.length
    · by_cases hfun : 0 < (parsedKey k).function.length
      · exact .inr (.inr (.inr ⟨hv, hprog, hfun, by rw [if_pos hv, if_pos hprog, if_pos hfun]⟩))
      · exact .inr (.inr (.inl ⟨hv, hprog, hfun, by rw [if_pos hv, if_pos hprog, if_neg hfun]⟩))
    · exact .inr (.inl ⟨hv, hprog, by rw [if_pos hv, if_neg hprog]⟩)
  · exact .inl ⟨by simpa using hv, by rw [if_neg hv]⟩

/-- The branches of `deleteKey`: it changes nothing unless it finds the site, and then the
function, of its key. -/
theorem deleteKey_spec (m : GraphModel) (k : Key) :
    (deleteKey m k = m ∧ ((parsedKey k).valid = false ∨ findSite m (parsedKey k).site = none ∨
      (0 < (parsedKey k).program.length ∧ (¬ 0 < (parsedKey k).function.length ∨
        m.item ⟨(parsedKey k).site, (parsedKey k).program, (parsedKey k).function⟩ = none)))) ∨
    ((parsedKey k).valid = true ∧ ¬ 0 < (parsedKey k).program.length ∧
      deleteKey m k = delSiteProperty m (parsedKey k).site (parsedKey k).property) ∨
    ∃ fi, (parsedKey k).valid = true ∧ 0 < (parsedKey k).program.length ∧
      0 < (parsedKey k).function.length ∧
      m.item ⟨(parsedKey k).site, (parsedKey k).program, (parsedKey k).function⟩ = some fi ∧
      deleteKey m k = delFunctionProperty m
        ⟨(parsedKey k).site, (parsedKey k).program, (parsedKey k).function⟩ fi
        (parsedKey k).property := by
  unfold deleteKey delProgramProperty
  dsimp only
  by_cases hv : (parsedKey k).valid = true
  swap
  · exact .inl ⟨by rw [if_neg hv], .inl (by simpa using hv)⟩
  rw [if_pos hv]
  cases hs : findSite m (parsedKey k).site with
  | none => exact .inl ⟨rfl, .inr (.inl rfl)⟩
  | some si =>
    dsimp only
    by_cases hprog : 0 < (parsedKey k).program.length
    swap
    · exact .inr (.inl ⟨hv, hprog, by rw [if_neg hprog]⟩)
    rw [if_pos hprog]
    cases hq : findProgram m (parsedKey k).site (parsedKey k).program with
    | none => exact .inl ⟨rfl, .inr (.inr ⟨hprog, .inr (by simp [GraphModel.item, find, hq])⟩)⟩
    | some pi =>
      dsimp only
      by_cases hfun : 0 < (parsedKey k).function.length
      swap
      · exact .inl ⟨by rw [if_neg hfun], .inr (.inr ⟨hprog, .inl hfun⟩)⟩
      rw [if_pos hfun]
      cases hf : find m (parsedKey k).site (parsedKey k).program (parsedKey k).function with
      | none => exact .inl ⟨rfl, .inr (.inr ⟨hprog, .inr hf⟩)⟩
      | some fi => exact .inr (.inr ⟨fi, hv, hprog, hfun, hf, rfl⟩)

/-- `updateKey` sets the property its key names, if the value has the property's type, and
changes no other property. -/
theorem propertyAt_updateKey (m : GraphModel) (k : Key) (v : ConfValue) (c : FunctionPath)
    (p : String) :
    (updateKey m k v).propertyAt c p =
      if namesProperty k c p && accepts p v then some v else m.propertyAt c p := by
  rcases updateKey_cases m k v with ⟨hv, h⟩ | ⟨hv, hprog, h⟩ | ⟨hv, hprog, hfun, h⟩ |
      ⟨hv, hprog, hfun, h⟩ <;> rw [h]
  · simp [namesProperty, namesFunction, hv]
  · rw [propertyAt_setSiteProperty, propertyAt_findOrInsertSite]
    simp [namesProperty, namesFunction, hprog]
  · rw [propertyAt_findOrInsertProgram_site]
    simp [namesProperty, namesFunction, hfun]
  · have hp := findProgram_findOrInsertProgram (parsedKey k).program
      (findSite_findOrInsertSite m (parsedKey k).site)
    obtain ⟨fi, hfi, -⟩ := item_findOrInsertFunction _
      ⟨(parsedKey k).site, (parsedKey k).program, (parsedKey k).function⟩ hp
    rw [propertyAt_setFunctionProperty (by rw [hfi]; rfl), propertyAt_findOrInsertFunction
      (c := ⟨(parsedKey k).site, (parsedKey k).program, (parsedKey k).function⟩) hp,
      propertyAt_findOrInsertProgram_site]
    simp [namesProperty, namesFunction, hv, hprog, hfun, and_assoc]

/-- `deleteKey` clears the property its key names, and no other. -/
theorem propertyAt_deleteKey (m : GraphModel) (k : Key) (c : FunctionPath) (p : String) :
    (deleteKey m k).propertyAt c p = if namesProperty k c p then none else m.propertyAt c p := by
  rcases deleteKey_spec m k with ⟨h, hc⟩ | ⟨hv, hprog, h⟩ | ⟨fi, hv, hprog, hfun, hfi, h⟩ <;>
    rw [h]
  · -- nothing found: a function the key names is not in the tree
    split_ifs with hn
    · simp only [namesProperty, namesFunction, Bool.and_eq_true, beq_iff_eq,
        decide_eq_true_eq] at hn
      obtain ⟨⟨⟨⟨hv, -⟩, hfun⟩, rfl⟩, -⟩ := hn
      have hnone : m.item ⟨(parsedKey k).site, (parsedKey k).program, (parsedKey k).function⟩ =
          none := by
        rcases hc with hv' | hs | ⟨-, hfun' | hi⟩
        · simp [hv] at hv'
        · simp [GraphModel.item, find, findProgram, hs]
        · exact absurd hfun hfun'
        · exact hi
      simp [GraphModel.propertyAt, hnone]
    · rfl
  · rw [propertyAt_delSiteProperty]
    simp [namesProperty, namesFunction, hprog]
  · rw [propertyAt_delFunctionProperty hfi]
    simp [namesProperty, namesFunction, hv, hprog, hfun, and_assoc]

/-- `updateKey` creates the site its key names, and sets `is_master` on it if the key is
that property and the value a boolean. -/
theorem masterAt_updateKey (m : GraphModel) (k : Key) (v : ConfValue) (s : String) :
    (updateKey m k v).masterAt s =
      if namesSite k s then
        some (if namesSiteProperty k s "is_master" then masterAfter ((m.masterAt s).getD false) v
          else (m.masterAt s).getD false)
      else m.masterAt s := by
  rcases updateKey_cases m k v with ⟨hv, h⟩ | ⟨hv, hprog, h⟩ | ⟨hv, hprog, hfun, h⟩ |
      ⟨hv, hprog, hfun, h⟩ <;> rw [h]
  · simp [namesSite, hv]
  · rw [masterAt_setSiteProperty, masterAt_findOrInsertSite]
    by_cases hs : (parsedKey k).site = s
    · simp only [namesSite, namesSiteProperty, hv, hprog, hs, true_and, and_true, if_true,
        beq_self_eq_true, decide_False, Bool.not_false, Bool.and_true, beq_iff_eq, Bool.true_and]
      split_ifs <;> rfl
    · simp [namesSite, namesSiteProperty, hs]
  · rw [masterAt_findOrInsertProgram, masterAt_findOrInsertSite]
    simp [namesSite, namesSiteProperty, hv, hprog]
  · rw [(masterAt_hasProgram_of_skeleton ((skeleton_setFunctionProperty _ _ _ _).trans
      (skeleton_findOrInsertFunction _ _))).1, masterAt_findOrInsertProgram,
      masterAt_findOrInsertSite]
    simp [namesSite, namesSiteProperty, hv, hprog]

/-- `updateKey` creates the program its key names, and no other. -/
theorem hasProgram_updateKey (m : GraphModel) (k : Key) (v : ConfValue) (s p : String) :
    (updateKey m k v).hasProgram s p = (m.hasProgram s p || namesProgram k s p) := by
  rcases updateKey_cases m k v with ⟨hv, h⟩ | ⟨hv, hprog, h⟩ | ⟨hv, hprog, hfun, h⟩ |
      ⟨hv, hprog, hfun, h⟩ <;> rw [h]
  · simp [namesProgram, hv]
  · rw [hasProgram_setSiteProperty, hasProgram_findOrInsertSite]
    simp [namesProgram, hprog]
  all_goals
    try rw [(masterAt_hasProgram_of_skeleton ((skeleton_setFunctionProperty _ _ _ _).trans
      (skeleton_findOrInsertFunction _ _))).2]
    rw [hasProgram_findOrInsertProgram _ (findSite_findOrInsertSite m _),
      hasProgram_findOrInsertSite]
    simp [namesProgram, hv, hprog]

/-- `deleteKey` clears `is_master` on the site its key names, if it is that property. -/
theorem masterAt_deleteKey (m : GraphModel) (k : Key) (s : String) :
    (deleteKey m k).masterAt s =
      if namesSiteProperty k s "is_master" then (m.masterAt s).map (fun _ => false)
      else m.masterAt s := by
  rcases deleteKey_spec m k with ⟨h, hc⟩ | ⟨hv, hprog, h⟩ | ⟨fi, hv, hprog, hfun, hfi, h⟩ <;>
    rw [h]
  · -- nothing found: a site property the key names is on a site that is not in the tree
    split_ifs with hn
    · simp only [namesSiteProperty, Bool.and_eq_true, beq_iff_eq, Bool.not_eq_true',
        decide_eq_false_iff_not] at hn
      rcases hc with hv | hs | ⟨hprog, -⟩
      · simp [hv] at hn
      · rw [GraphModel.masterAt, ← hn.1.2, hs]
        rfl
      · exact absurd hprog hn.1.1.2
    · rfl
  · rw [masterAt_delSiteProperty]
    by_cases hsy : (parsedKey k).site = s <;> simp [namesSiteProperty, hv, hprog, hsy]
  · rw [(masterAt_hasProgram_of_skeleton (skeleton_delFunctionProperty _ _ _ _)).1]
    simp [namesSiteProperty, hprog]

/-- `deleteKey` removes no program. -/
theorem hasProgram_deleteKey (m : GraphModel) (k : Key) :
    (deleteKey m k).hasProgram = m.hasProgram := by
  rcases deleteKey_cases m k with hs | ⟨c, fi, q, hs⟩ | ⟨s, q, hs⟩ <;> rw [hs]
  · exact (masterAt_hasProgram_of_skeleton (skeleton_delFunctionProperty _ _ _ _)).2
  · exact hasProgram_delSiteProperty _ _ _

/-- The function loop of `updateKey` adds the function, and no other. -/
theorem present_findOrInsertFunction_eq {m : GraphModel} {c : FunctionPath}
    (hp : (findProgram m c.site c.program).isSome) (t : FunctionPath) :
    Present (findOrInsertFunction m c) t = (c == t || Present m t) := by
  unfold findOrInsertFunction
  split_ifs with hc
  · by_cases hct : c = t
    · subst hct
      simpa [Present] using hc
    · simp [hct]
  · rw [present_retryAddParents, present_insertFunction (Option.not_isSome_iff_eq_none.mp hc) hp]

theorem present_findOrInsertProgram_site (m : GraphModel) (s p : String) :
    Present (findOrInsertProgram (findOrInsertSite m s) s p) = Present m :=
  funext fun t => by simp only [Present, item_findOrInsertProgram, item_findOrInsertSite]

/-- `updateKey` adds the function its key names, and no other. -/
theorem present_updateKey_eq (m : GraphModel) (k : Key) (v : ConfValue) (c : FunctionPath) :
    Present (updateKey m k v) c = (Present m c || namesFunction k c) := by
  rcases updateKey_cases m k v with ⟨hv, h⟩ | ⟨hv, hprog, h⟩ | ⟨hv, hprog, hfun, h⟩ |
      ⟨hv, hprog, hfun, h⟩ <;> rw [h]
  · simp [namesFunction, hv]
  · rw [present_setSiteProperty]
    simp [namesFunction, hprog, Present, item_findOrInsertSite]
  · rw [present_findOrInsertProgram_site]
    simp [namesFunction, hfun]
  · have hp := findProgram_findOrInsertProgram (parsedKey k).program
      (findSite_findOrInsertSite m (parsedKey k).site)
    rw [present_setFunctionProperty, present_findOrInsertFunction_eq
      (c := ⟨(parsedKey k).site, (parsedKey k).program, (parsedKey k).function⟩) hp,
      present_findOrInsertProgram_site]
    simp [namesFunction, hv, hprog, hfun, Bool.or_comm]

/-! ## The view, and the refinement -/

/-- What the configuration has said so far: the sites, programs and functions the keys of
`updateKey`s named, whether each site is master, and the value of each function property. -/
structure ConfView where
  siteNamed : String → Bool
  isMaster : String → Bool
  programNamed : String → String → Bool
  named : FunctionPath → Bool
  property : FunctionPath → String → Option ConfValue

/-- The view before any key event. -/
def ConfView.empty : ConfView :=
  ⟨fun _ => false, fun _ => false, fun _ _ => false, fun _ => false, fun _ _ => none⟩

/-- The view after one key event. An update names its site, program and function, sets
`is_master` if its key is that property and the value a boolean, and sets the function
property its key names if the value has the property's type. A deletion clears `is_master`
or the function property its key names. -/
def ConfView.step (V : ConfView) : KeyEvent → ConfView
  | .updateKey k v =>
    ⟨fun s => V.siteNamed s || namesSite k s,
      fun s => if namesSiteProperty k s "is_master" then masterAfter (V.isMaster s) v
        else V.isMaster s,
      fun s p => V.programNamed s p || namesProgram k s p,
      fun c => V.named c || namesFunction k c,
      fun c p => if namesProperty k c p && accepts p v then some v else V.property c p⟩
  | .deleteKey k =>
    ⟨V.siteNamed, fun s => if namesSiteProperty k s "is_master" then false else V.isMaster s,
      V.programNamed, V.named, fun c p => if namesProperty k c p then none else V.property c p⟩

/-- The view after a sequence of key events. -/
def ConfView.run (V : ConfView) (es : List KeyEvent) : ConfView := es.foldl ConfView.step V

/-- The graph model shows the view: its sites, programs and function items are the named
ones, with the view's `is_master` and function properties. A site the keys never named is
not master in the view, as a new site item is not. -/
structure Shows (m : GraphModel) (V : ConfView) : Prop where
  site : ∀ s, m.masterAt s = if V.siteNamed s then some (V.isMaster s) else none
  unnamed : ∀ s, V.siteNamed s = false → V.isMaster s = false
  program : ∀ s p, m.hasProgram s p = V.programNamed s p
  present : ∀ c, Present m c = V.named c
  property : ∀ c p, m.propertyAt c p = V.property c p

theorem Shows_empty : Shows {} ConfView.empty where
  site _ := rfl
  unnamed _ _ := rfl
  program _ _ := rfl
  present _ := rfl
  property _ _ := rfl

/-- A key that names a site property names the site. -/
theorem namesSite_of_namesSiteProperty {k : Key} {s q : String}
    (h : namesSiteProperty k s q = true) : namesSite k s = true := by
  simp only [namesSiteProperty, namesSite, Bool.and_eq_true] at h ⊢
  exact ⟨h.1.1.1, h.1.2⟩

theorem Shows.step_updateKey {m : GraphModel} {V : ConfView} (h : Shows m V) (k : Key)
    (v : ConfValue) : Shows (updateKey m k v) (V.step (.updateKey k v)) := by
  refine ⟨fun s => ?_, fun s hs => ?_, fun s p => ?_, fun c => ?_, fun c p => ?_⟩
  · rw [masterAt_updateKey, h.site]
    simp only [ConfView.step]
    cases hn : namesSite k s
    · have hp : namesSiteProperty k s "is_master" = false := by
        cases hp : namesSiteProperty k s "is_master"
        · rfl
        · exact absurd (namesSite_of_namesSiteProperty hp) (by simp [hn])
      simp [hp]
    · cases hs : V.siteNamed s
      · simp [h.unnamed s hs]
      · simp
  · simp only [ConfView.step, Bool.or_eq_false_iff] at hs ⊢
    have hp : namesSiteProperty k s "is_master" = false := by
      cases hp : namesSiteProperty k s "is_master"
      · rfl
      · exact absurd (namesSite_of_namesSiteProperty hp) (by simp [hs.2])
    simp [hp, h.unnamed s hs.1]
  · rw [hasProgram_updateKey, h.program]
    rfl
  · rw [present_updateKey_eq, h.present]
    rfl
  · rw [propertyAt_updateKey, h.property]
    rfl

theorem Shows.step_deleteKey {m : GraphModel} {V : ConfView} (h : Shows m V) (k : Key) :
    Shows (deleteKey m k) (V.step (.deleteKey k)) := by
  refine ⟨fun s => ?_, fun s hs => ?_, fun s p => ?_, fun c => ?_, fun c p => ?_⟩
  · rw [masterAt_deleteKey, h.site]
    simp only [ConfView.step]
    split_ifs <;> simp
  · simp only [ConfView.step] at hs ⊢
    simp [h.unnamed s hs]
  · rw [hasProgram_deleteKey, h.program]
    rfl
  · rw [present_deleteKey, h.present]
    rfl
  · rw [propertyAt_deleteKey, h.property]
    rfl

theorem Shows.run {m : GraphModel} {V : ConfView} (h : Shows m V) (es : List KeyEvent) :
    Shows (m.run es) (V.run es) := by
  induction es generalizing m V with
  | nil => exact h
  | cons e es ih =>
    cases e with
    | updateKey k v => exact ih (h.step_updateKey k v)
    | deleteKey k => exact ih (h.step_deleteKey k)

/-- **The graph model shows the configuration.** After every run of key events from the empty
model, the sites, programs and function items of the tree are exactly those the key of some
`updateKey` named; a site is master when the last `updateKey` of its `is_master` key with a
boolean value set it so and no `deleteKey` of that key came after; and each property of each
function is the value of the last `updateKey` of a key naming it whose value has the
property's type, or nothing if a `deleteKey` of such a key came after. -/
theorem graph_shows_conf_view (es : List KeyEvent) :
    Shows (GraphModel.run {} es) (ConfView.empty.run es) :=
  Shows_empty.run es

end Ramen
