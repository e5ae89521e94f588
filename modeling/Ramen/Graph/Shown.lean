import Ramen.Graph.Sound

/-!
# The data the graph model shows

What the views read off the tree, and what each tree update does to it:

* `Function.property` — a property of a function item, as the configuration value it was set
  from; `GraphModel.propertyAt` reads it at a path;
* `GraphModel.masterAt` and `GraphModel.hasProgram` — whether a site is master, and which
  programs exist; both read only the `skeleton` of site and program data;
* **`propertyAt_setFunctionProperty`** and **`propertyAt_delFunctionProperty`** — the two
  property handlers set or clear exactly the property they are given, on the function they
  are given, and `setFunctionProperty` stores only values of the property's type (`accepts`);
* the parent links and the queue of pending parents (`linkParent`, `retryAddParents`,
  `removeParents`) change no property, and nothing below the program level changes the
  skeleton.
-/

namespace Ramen

/-! ## The shown data of a function -/

/-- The value of property `p` of a function, as the configuration value it was set from. -/
def Function.property (f : Function) (p : String) : Option ConfValue :=
  if p = "worker" then f.worker.map .worker
  else if p = "stats/runtime" then f.runtimeStats.map .runtimeStats
  else if p = "archives/times" then f.archivedTimes.map .timeRange
  else if p = "archives/num_files" then f.numArcFiles.map (.ramenValueValue ∘ .vI64)
  else if p = "archives/current_size" then f.numArcBytes.map (.ramenValueValue ∘ .vI64)
  else if p = "archives/alloc_size" then f.allocArcBytes.map (.ramenValueValue ∘ .vI64)
  else none

/-- Whether `setFunctionProperty` stores value `v` for property `p`: the type tests of its
`dynamic_pointer_cast`s. -/
def accepts (p : String) : ConfValue → Bool
  | .worker _ => p == "worker"
  | .runtimeStats _ => p == "stats/runtime"
  | .timeRange _ => p == "archives/times"
  | .ramenValueValue (.vI64 _) =>
    p == "archives/num_files" || p == "archives/current_size" || p == "archives/alloc_size"
  | _ => false

/-- Property `p` of the function item at `c`, if there is one. -/
def GraphModel.propertyAt (m : GraphModel) (c : FunctionPath) (p : String) :
    Option ConfValue :=
  (m.item c).bind (·.shared.property p)

/-- A new function has no property. -/
@[simp] theorem property_new (name : String) (p : String) :
    ({ name := name } : Function).property p = none := by
  simp only [Function.property, Option.map_none', ite_self]

/-- A property at a path reads only the function's shared data. -/
theorem propertyAt_eq_bind_shared (m : GraphModel) (c : FunctionPath) (p : String) :
    m.propertyAt c p = ((m.item c).map (·.shared)).bind (·.property p) := by
  unfold GraphModel.propertyAt
  cases m.item c <;> rfl

/-- An update that keeps the shared data of every function item keeps every property. -/
theorem propertyAt_of_shared {m m' : GraphModel}
    (h : ∀ c, (m'.item c).map (·.shared) = (m.item c).map (·.shared)) :
    m'.propertyAt = m.propertyAt :=
  funext fun c => funext fun p => by
    rw [propertyAt_eq_bind_shared, h, ← propertyAt_eq_bind_shared]

/-- Retrying the pending parents changes no property. -/
theorem propertyAt_retryAddParents (m : GraphModel) :
    (retryAddParents m).propertyAt = m.propertyAt :=
  propertyAt_of_shared fun c => by rw [item_retryAddParents, Option.map_map]; rfl

/-- Linking a function's parents changes no property. -/
theorem propertyAt_foldl_linkParent (c : FunctionPath) (refs : List ParentRef)
    (m : GraphModel) : (refs.foldl (linkParent c) m).propertyAt = m.propertyAt :=
  propertyAt_of_shared fun c' => by
    rw [item_foldl_linkParent]
    split_ifs <;> simp [Option.map_map, Function.comp_def]

/-- An update of the shared data at `c` changes properties at `c` only, to those of the updated
function. -/
theorem propertyAt_modifyShared (m : GraphModel) (c : FunctionPath) (g : Function → Function)
    (hg : ∀ f, (g f).name = f.name) (c' : FunctionPath) (p : String) :
    (modifyShared m c g).propertyAt c' p =
      if c = c' then ((m.item c').map (·.shared)).bind (fun f => (g f).property p)
      else m.propertyAt c' p := by
  simp only [GraphModel.propertyAt, item_modifyShared m c g hg]
  split_ifs <;> cases m.item c' <;> rfl

/-- Removing a function's parents keeps every function's shared data. -/
theorem item_shared_removeParents (m : GraphModel) (c c' : FunctionPath) :
    ((removeParents m c).item c').map (·.shared) = (m.item c').map (·.shared) := by
  rw [item_removeParents]
  split_ifs <;> simp [Option.map_map, Function.comp_def]

/-- An update of the shared data of the function at `c` that changes property `q` to `r` and
no other property, on a model whose shared data are those of `m`. -/
theorem propertyAt_modifyShared_one {m₀ m : GraphModel}
    (h₀ : ∀ c, (m₀.item c).map (·.shared) = (m.item c).map (·.shared)) {c : FunctionPath}
    (hc : (m.item c).isSome) (g : Function → Function) (hg : ∀ f, (g f).name = f.name)
    {q : String} {r : Option ConfValue} (hq : ∀ f, (g f).property q = r)
    (hp : ∀ f p, p ≠ q → (g f).property p = f.property p) (c' : FunctionPath) (p : String) :
    (modifyShared m₀ c g).propertyAt c' p = if c = c' ∧ q = p then r else m.propertyAt c' p := by
  rw [propertyAt_modifyShared m₀ c g hg, h₀, propertyAt_of_shared h₀]
  obtain ⟨fi, hfi⟩ := Option.isSome_iff_exists.mp hc
  by_cases hcc : c = c'
  · subst hcc
    by_cases hpq : q = p
    · subst hpq
      simp [hfi, hq]
    · simp [hfi, hpq, hp _ p (Ne.symm hpq), GraphModel.propertyAt]
  · simp [hcc]

/-- A value of the wrong type for the property leaves the model alone. -/
theorem setFunctionProperty_of_not_accepts (m : GraphModel) (c : FunctionPath) {q : String}
    {v : ConfValue} (h : accepts q v = false) : setFunctionProperty m c q v = m := by
  unfold setFunctionProperty
  rcases v with _ | _ | _ | (_ | _ | _) | _ <;>
    simp_all [accepts, ConfValue.vI64]

/-- The values `setFunctionProperty` stores: one type per property. -/
theorem accepts_iff {p : String} {v : ConfValue} :
    accepts p v = true ↔
      (p = "worker" ∧ ∃ w, v = .worker w) ∨ (p = "stats/runtime" ∧ ∃ st, v = .runtimeStats st) ∨
      (p = "archives/times" ∧ ∃ t, v = .timeRange t) ∨
      ((p = "archives/num_files" ∨ p = "archives/current_size" ∨ p = "archives/alloc_size") ∧
        ∃ n, v = .ramenValueValue (.vI64 n)) := by
  rcases v with _ | _ | _ | (_ | _ | _) | _ <;> simp [accepts, or_assoc] <;>
    exact fun _ => ⟨⟨⟩, trivial⟩

/-- **`setFunctionProperty` sets one property.** On a function of the tree, a value of the
property's type becomes the property and nothing else changes; any other value changes
nothing. -/
theorem propertyAt_setFunctionProperty {m : GraphModel} {c : FunctionPath}
    (hc : (m.item c).isSome) (q : String) (v : ConfValue) (c' : FunctionPath) (p : String) :
    (setFunctionProperty m c q v).propertyAt c' p =
      if c = c' ∧ q = p ∧ accepts p v = true then some v else m.propertyAt c' p := by
  cases hacc : accepts q v
  · rw [setFunctionProperty_of_not_accepts m c hacc, if_neg]
    rintro ⟨-, rfl, h⟩
    simp [hacc] at h
  have hacc' : (c = c' ∧ q = p ∧ accepts p v = true) ↔ (c = c' ∧ q = p) :=
    ⟨fun h => ⟨h.1, h.2.1⟩, fun ⟨h1, h2⟩ => ⟨h1, h2, h2 ▸ hacc⟩⟩
  simp only [hacc']
  rcases accepts_iff.mp hacc with ⟨rfl, w, rfl⟩ | ⟨rfl, st, rfl⟩ | ⟨rfl, t, rfl⟩ |
      ⟨rfl | rfl | rfl, n, rfl⟩ <;>
    simp only [setFunctionProperty, ConfValue.vI64, String.reduceEq, ↓reduceIte,
      propertyAt_foldl_linkParent] <;>
    exact propertyAt_modifyShared_one (fun _ => rfl) hc _ (by intro; rfl)
      (fun f => by simp [Function.property]) (fun f p hp => by simp [Function.property, hp]) c' p

/-- A property that is none of the six is never set. -/
theorem property_of_not_mem {q : String} (hq : q ∉ functionProperties) (f : Function) :
    f.property q = none := by
  simp only [functionProperties, archiveProperties, List.map_cons, List.map_nil, List.mem_cons,
    List.not_mem_nil, or_false, not_or, String.reduceAppend] at hq
  simp [Function.property, hq]

/-- **`delFunctionProperty` clears one property** of a function of the tree, and nothing
else. -/
theorem propertyAt_delFunctionProperty {m : GraphModel} {c : FunctionPath} {fi : FunctionItem}
    (hfi : m.item c = some fi) (q : String) (c' : FunctionPath) (p : String) :
    (delFunctionProperty m c fi q).propertyAt c' p =
      if c = c' ∧ q = p then none else m.propertyAt c' p := by
  have hc : (m.item c).isSome := by rw [hfi]; rfl
  by_cases hq : q ∈ functionProperties
  · simp only [functionProperties, archiveProperties, List.map_cons, List.map_nil,
      List.mem_cons, List.not_mem_nil, or_false, String.reduceAppend] at hq
    rcases hq with rfl | rfl | rfl | rfl | rfl | rfl
    · simp only [delFunctionProperty, ↓reduceIte]
      by_cases hw : fi.shared.worker.isSome
      · rw [if_pos hw]
        exact propertyAt_modifyShared_one (item_shared_removeParents m c) hc _ (by intro; rfl)
          (fun f => by simp [Function.property]) (fun f p hp => by simp [Function.property, hp])
          c' p
      · -- no worker: the property is already clear
        rw [if_neg hw]
        split_ifs with hcp
        · obtain ⟨rfl, rfl⟩ := hcp
          simp [GraphModel.propertyAt, hfi, Function.property, Option.not_isSome_iff_eq_none.mp hw]
        · rfl
    all_goals
      simp only [delFunctionProperty, String.reduceEq, ↓reduceIte]
      exact propertyAt_modifyShared_one (fun _ => rfl) hc _ (by intro; rfl)
        (fun f => by simp [Function.property]) (fun f p hp => by simp [Function.property, hp]) c' p
  · have hm : delFunctionProperty m c fi q = m := by
      simp only [functionProperties, archiveProperties, List.map_cons, List.map_nil,
        List.mem_cons, List.not_mem_nil, or_false, not_or, String.reduceAppend] at hq
      simp [delFunctionProperty, hq]
    rw [hm]
    split_ifs with hcp
    · obtain ⟨rfl, rfl⟩ := hcp
      simp [GraphModel.propertyAt, property_of_not_mem hq]
    · rfl

/-! ## Sites and programs -/

/-- Whether the site of a name is master, if the tree has that site. -/
def GraphModel.masterAt (m : GraphModel) (s : String) : Option Bool :=
  (findSite m s).map (·.shared.isMaster)

/-- Whether the tree has the program of the given names. -/
def GraphModel.hasProgram (m : GraphModel) (s p : String) : Bool :=
  (findProgram m s p).isSome

/-- The sites and programs of the tree, by their shared data. -/
def GraphModel.skeleton (m : GraphModel) : List (Site × List Program) :=
  m.sites.map fun si => (si.shared, si.programs.map (·.shared))

/-- Whether a site is master is read off the skeleton. -/
theorem masterAt_eq_skeleton (m : GraphModel) (s : String) :
    m.masterAt s = (m.skeleton.find? (·.1.name == s)).map (·.1.isMaster) := by
  simp only [GraphModel.masterAt, findSite, GraphModel.skeleton, List.find?_map, Option.map_map]
  rfl

/-- Which programs exist is read off the skeleton. -/
theorem hasProgram_eq_skeleton (m : GraphModel) (s p : String) :
    m.hasProgram s p =
      ((m.skeleton.find? (·.1.name == s)).bind (·.2.find? (·.name == p))).isSome := by
  simp only [GraphModel.hasProgram, findProgram, findSite, GraphModel.skeleton, List.find?_map]
  cases h : m.sites.find? (·.shared.name == s) <;>
    simp [h, Function.comp_def, List.find?_map]

/-- An update that keeps the shared data of the sites and programs keeps which sites are
master and which programs exist. -/
theorem masterAt_hasProgram_of_skeleton {m m' : GraphModel} (h : m'.skeleton = m.skeleton) :
    m'.masterAt = m.masterAt ∧ m'.hasProgram = m.hasProgram :=
  ⟨funext fun s => by rw [masterAt_eq_skeleton, h, ← masterAt_eq_skeleton],
    funext fun s => funext fun p => by rw [hasProgram_eq_skeleton, h, ← hasProgram_eq_skeleton]⟩

/-- A program update that keeps its shared data keeps the skeleton. -/
theorem skeleton_modifyProgram (m : GraphModel) (s p : String) (g : ProgramItem → ProgramItem)
    (hg : ∀ pi, (g pi).shared = pi.shared) : (modifyProgram m s p g).skeleton = m.skeleton := by
  unfold GraphModel.skeleton modifyProgram modifySite
  refine map_updateFirst _ _ (fun si => ?_) _ _
  simp only [Prod.mk.injEq, true_and]
  exact map_updateFirst g _ hg _ _

/-- No function update changes the skeleton. -/
theorem skeleton_modifyFunction (m : GraphModel) (c : FunctionPath)
    (g : FunctionItem → FunctionItem) : (modifyFunction m c g).skeleton = m.skeleton :=
  skeleton_modifyProgram _ _ _ _ fun _ => rfl

/-- Linking a function's parents keeps the skeleton. -/
theorem skeleton_foldl_linkParent (c : FunctionPath) (refs : List ParentRef) (m : GraphModel) :
    (refs.foldl (linkParent c) m).skeleton = m.skeleton := by
  induction refs generalizing m with
  | nil => rfl
  | cons ref refs ih =>
    rw [List.foldl_cons, ih]
    unfold linkParent
    dsimp only
    split
    · exact skeleton_modifyFunction _ _ _
    · rfl

/-- Retrying the pending parents keeps the skeleton. -/
theorem skeleton_retryAddParents (m : GraphModel) : (retryAddParents m).skeleton = m.skeleton := by
  suffices ∀ es m, (retryAddParentsLoop m es).1.skeleton = m.skeleton from this _ _
  intro es
  induction es with
  | nil => exact fun _ => rfl
  | cons e es ih =>
    intro m
    unfold retryAddParentsLoop
    split
    · rw [ih, addFunctionParent, skeleton_modifyFunction]
    · exact ih m

/-- Setting a function property keeps the skeleton. -/
theorem skeleton_setFunctionProperty (m : GraphModel) (c : FunctionPath) (q : String)
    (v : ConfValue) : (setFunctionProperty m c q v).skeleton = m.skeleton := by
  rcases setFunctionProperty_cases m c q v with hs | ⟨cf, -, -, hs⟩ | ⟨g, -, hs⟩ <;> rw [hs]
  · rw [skeleton_foldl_linkParent]
    exact skeleton_modifyFunction _ _ _
  · exact skeleton_modifyFunction _ _ _

/-- Deleting a function property keeps the skeleton. -/
theorem skeleton_delFunctionProperty (m : GraphModel) (c : FunctionPath) (fi : FunctionItem)
    (q : String) : (delFunctionProperty m c fi q).skeleton = m.skeleton := by
  rcases delFunctionProperty_cases m c fi q with hs | hs | ⟨g, -, hs⟩ <;> rw [hs]
  · exact (skeleton_modifyFunction _ _ _).trans (skeleton_modifyFunction _ _ _)
  · exact skeleton_modifyFunction _ _ _

/-- Finding or creating a function item keeps the skeleton. -/
theorem skeleton_findOrInsertFunction (m : GraphModel) (c : FunctionPath) :
    (findOrInsertFunction m c).skeleton = m.skeleton := by
  unfold findOrInsertFunction
  split_ifs
  · rfl
  · rw [skeleton_retryAddParents]
    exact skeleton_modifyProgram _ _ _ _ fun _ => rfl

/-- The site loop of `updateKey` makes the site exist, a new site not being master. -/
theorem masterAt_findOrInsertSite (m : GraphModel) (s y : String) :
    (findOrInsertSite m s).masterAt y =
      if s = y then some ((m.masterAt y).getD false) else m.masterAt y := by
  unfold findOrInsertSite GraphModel.masterAt
  split_ifs with hs hsy hsy
  · subst hsy
    obtain ⟨si, hsi⟩ := Option.isSome_iff_exists.mp hs
    simp [hsi]
  · rfl
  · subst hsy
    have h := Option.not_isSome_iff_eq_none.mp hs
    simp only [findSite] at h
    simp [findSite, insertSite, List.find?_append, h]
  · simp [findSite, insertSite, List.find?_append, hsy]

/-- The site loop of `updateKey` creates no program. -/
theorem hasProgram_findOrInsertSite (m : GraphModel) (s : String) :
    (findOrInsertSite m s).hasProgram = m.hasProgram := by
  funext y p
  unfold findOrInsertSite GraphModel.hasProgram
  split_ifs with hs
  · rfl
  · simp only [findProgram, findSite, insertSite, List.find?_append]
    cases h : m.sites.find? (·.shared.name == y)
    · by_cases hsy : s = y
      · simp [hsy]
      · simp [hsy]
    · rfl

/-- A site update that keeps the site's shared data keeps which sites are master. -/
theorem masterAt_modifySite (m : GraphModel) (s : String) (g : SiteItem → SiteItem)
    (hg : ∀ si, (g si).shared = si.shared) : (modifySite m s g).masterAt = m.masterAt :=
  funext fun y => by
    simp only [GraphModel.masterAt, findSite_modifySite m s g (fun si => by rw [hg])]
    split_ifs <;> simp [Option.map_map, Function.comp_def, hg]

/-- The program loop of `updateKey` keeps which sites are master. -/
theorem masterAt_findOrInsertProgram (m : GraphModel) (s p : String) :
    (findOrInsertProgram m s p).masterAt = m.masterAt := by
  unfold findOrInsertProgram
  split_ifs
  · rfl
  · exact masterAt_modifySite _ _ _ (by intro; rfl)

/-- The program loop of `updateKey`, in a site that exists, makes the program exist. -/
theorem hasProgram_findOrInsertProgram {m : GraphModel} {s : String} (p : String)
    (hs : (findSite m s).isSome) (y z : String) :
    (findOrInsertProgram m s p).hasProgram y z = (m.hasProgram y z || (s == y && p == z)) := by
  unfold findOrInsertProgram GraphModel.hasProgram
  split_ifs with hp
  · by_cases hyz : s = y ∧ p = z
    · obtain ⟨rfl, rfl⟩ := hyz
      simp [hp]
    · have h : (s == y && p == z) = false := by simpa using hyz
      rw [h, Bool.or_false]
  · obtain ⟨si, hsi⟩ := Option.isSome_iff_exists.mp hs
    have hp' : si.programs.find? (·.shared.name == p) = none := by
      simpa [findProgram, hsi] using hp
    have hfs := findSite_modifySite m s
      (fun si => { si with programs := si.programs ++ [{ shared := { name := p } }] })
      (fun _ => rfl)
    simp only [findProgram, insertProgram, hfs]
    by_cases hsy : s = y
    · subst hsy
      by_cases hpz : p = z
      · subst hpz
        simp [hsi, List.find?_append, hp']
      · simp [hsi, List.find?_append, hpz]
    · simp [hsy]

/-- The site property `is_master` after a value: `setSiteProperty` stores a boolean and
ignores any other value. -/
def masterAfter (cur : Bool) : ConfValue → Bool
  | .ramenValueValue (.vBool b) => b
  | _ => cur

/-- The site update of `setSiteProperty` and `delSiteProperty`. -/
theorem masterAt_modifySite_master (m : GraphModel) (s : String) (b : Bool) (y : String) :
    (modifySite m s fun si => { si with shared := { si.shared with isMaster := b } }).masterAt y =
      if s = y then (m.masterAt y).map (fun _ => b) else m.masterAt y := by
  simp only [GraphModel.masterAt,
    findSite_modifySite m s (fun si => { si with shared := { si.shared with isMaster := b } })
      (fun _ => rfl)]
  split_ifs <;> simp [Option.map_map, Function.comp_def]

/-- A site update that keeps the site's name and programs keeps which programs exist. -/
theorem hasProgram_modifySite (m : GraphModel) (s : String) (g : SiteItem → SiteItem)
    (hg : ∀ si, (g si).shared.name = si.shared.name) (hp : ∀ si, (g si).programs = si.programs) :
    (modifySite m s g).hasProgram = m.hasProgram :=
  funext fun y => funext fun z => by
    simp only [GraphModel.hasProgram, findProgram, findSite_modifySite m s g hg]
    split_ifs <;> cases findSite m y <;> simp [hp]

/-- Setting a site property changes `is_master` of that site only, as `masterAfter` says. -/
theorem masterAt_setSiteProperty (m : GraphModel) (s q : String) (v : ConfValue) (y : String) :
    (setSiteProperty m s q v).masterAt y =
      if s = y ∧ q = "is_master" then (m.masterAt y).map (masterAfter · v) else m.masterAt y := by
  unfold setSiteProperty
  by_cases hq : q = "is_master"
  swap
  · simp [hq]
  subst hq
  rcases v with _ | _ | _ | (_ | b | _) | _ <;>
    simp [masterAt_modifySite_master, masterAfter]

/-- Deleting `is_master` of a site makes it not master, and deleting any other site property changes
nothing. -/
theorem masterAt_delSiteProperty (m : GraphModel) (s q : String) (y : String) :
    (delSiteProperty m s q).masterAt y =
      if s = y ∧ q = "is_master" then (m.masterAt y).map (fun _ => false) else m.masterAt y := by
  unfold delSiteProperty
  by_cases hq : q = "is_master"
  · simp [hq, masterAt_modifySite_master]
  · simp [hq]

/-- Setting a site property keeps which programs exist. -/
theorem hasProgram_setSiteProperty (m : GraphModel) (s q : String) (v : ConfValue) :
    (setSiteProperty m s q v).hasProgram = m.hasProgram := by
  unfold setSiteProperty
  split_ifs
  · split
    · exact hasProgram_modifySite _ _ _ (by intro; rfl) (by intro; rfl)
    · rfl
  · rfl

/-- Deleting a site property keeps which programs exist. -/
theorem hasProgram_delSiteProperty (m : GraphModel) (s q : String) :
    (delSiteProperty m s q).hasProgram = m.hasProgram := by
  unfold delSiteProperty
  split_ifs
  · exact hasProgram_modifySite _ _ _ (by intro; rfl) (by intro; rfl)
  · rfl

/-! ## The site and program loops, and the site properties -/

/-- Setting a site property changes no function item. -/
theorem item_setSiteProperty (m : GraphModel) (s p : String) (v : ConfValue) (c : FunctionPath) :
    (setSiteProperty m s p v).item c = m.item c := by
  unfold setSiteProperty
  split_ifs
  · split
    · exact item_modifySite m s _ (by intro; rfl) (by intro; rfl) c
    · rfl
  · rfl

/-- Deleting a site property changes no function item. -/
theorem item_delSiteProperty (m : GraphModel) (s p : String) (c : FunctionPath) :
    (delSiteProperty m s p).item c = m.item c := by
  unfold delSiteProperty
  split_ifs
  · exact item_modifySite m s _ (by intro; rfl) (by intro; rfl) c
  · rfl

/-- Setting a site property changes no function property. -/
theorem propertyAt_setSiteProperty (m : GraphModel) (s p : String) (v : ConfValue) :
    (setSiteProperty m s p v).propertyAt = m.propertyAt :=
  propertyAt_of_shared fun c => by rw [item_setSiteProperty]

/-- Deleting a site property changes no function property. -/
theorem propertyAt_delSiteProperty (m : GraphModel) (s p : String) :
    (delSiteProperty m s p).propertyAt = m.propertyAt :=
  propertyAt_of_shared fun c => by rw [item_delSiteProperty]

/-- The site loop of `updateKey` changes no function property. -/
theorem propertyAt_findOrInsertSite (m : GraphModel) (s : String) :
    (findOrInsertSite m s).propertyAt = m.propertyAt :=
  propertyAt_of_shared fun c => by rw [item_findOrInsertSite]

/-- The site and program loops of `updateKey` change no function property. -/
theorem propertyAt_findOrInsertProgram_site (m : GraphModel) (s p : String) :
    (findOrInsertProgram (findOrInsertSite m s) s p).propertyAt = m.propertyAt :=
  propertyAt_of_shared fun c => by rw [item_findOrInsertProgram, item_findOrInsertSite]

/-- A created function has no property yet. -/
theorem propertyAt_findOrInsertFunction {m : GraphModel} {c : FunctionPath}
    (hp : (findProgram m c.site c.program).isSome) :
    (findOrInsertFunction m c).propertyAt = m.propertyAt := by
  unfold findOrInsertFunction
  split_ifs with hc
  · rfl
  · have hc : m.item c = none := Option.not_isSome_iff_eq_none.mp hc
    rw [propertyAt_retryAddParents]
    funext c' p
    simp only [GraphModel.propertyAt, item_insertFunction m c hc hp]
    split_ifs with hcc
    · subst hcc
      simp [hc]
    · rfl

end Ramen
