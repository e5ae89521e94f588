import Ramen.Graph.Parents

/-!
# Parent links never dangle

What holds after every run of key events, a worker set over another included:

* `present_run_mono` — no key event removes a function item: `deleteKey` only clears
  properties, and nothing else deletes an item;
* `LinksSound` — every parent link names a function of the tree, and every entry of
  `pendingAddParents` is for a function of the tree and waits for one that is not there,
  because `retryAddParents` resolves every entry whose parent has appeared;
* `links_sound` — so after every run from the empty model no parent pointer dangles and no
  entry waits for a parent that exists.

Unlike `parent_links_agree` this needs no assumption on the run: the stale links a second
worker value leaves still name functions of the tree.
-/

namespace Ramen

/-! ## Functions are never removed -/

/-- An update of a function's shared part that keeps its name keeps every function present. -/
theorem present_modifyShared (m : GraphModel) (c : FunctionPath) (g : Function → Function)
    (hg : ∀ f, (g f).name = f.name) : Present (modifyShared m c g) = Present m :=
  funext fun t => by
    simp only [Present, item_modifyShared m c g hg]
    split_ifs <;> simp

/-- Replacing a function's worker keeps every function present. -/
theorem present_modifyShared_worker (m : GraphModel) (c : FunctionPath) (w : Option Worker) :
    Present (modifyShared m c ({ · with worker := w })) = Present m :=
  present_modifyShared m c _ (by intro; rfl)

/-- Retrying the pending parents adds and removes no function. -/
theorem present_retryAddParents (m : GraphModel) : Present (retryAddParents m) = Present m :=
  present_retryAddParentsLoop _ _

/-- Linking a function's parents adds and removes no function. -/
theorem present_foldl_linkParent (c : FunctionPath) (refs : List ParentRef) (m : GraphModel) :
    Present (refs.foldl (linkParent c) m) = Present m := by
  induction refs generalizing m with
  | nil => rfl
  | cons ref refs ih => rw [List.foldl_cons, ih, present_linkParent]

/-- Setting a function property adds and removes no function. -/
theorem present_setFunctionProperty (m : GraphModel) (c : FunctionPath) (p : String)
    (v : ConfValue) : Present (setFunctionProperty m c p v) = Present m := by
  rcases setFunctionProperty_cases m c p v with hs | ⟨cf, -, -, hs⟩ | ⟨g, hg, hs⟩ <;>
    rw [hs]
  · rw [present_foldl_linkParent, present_modifyShared_worker]
  · exact present_modifyShared m c g fun f => (hg f).1

/-- Deleting a worker, its parent links included, removes no function. -/
theorem present_delWorker (m : GraphModel) (c : FunctionPath) :
    Present (modifyShared (removeParents m c) c ({ · with worker := none })) = Present m := by
  refine (present_modifyShared_worker _ c none).trans (funext fun t => ?_)
  simp only [Present, item_removeParents]
  split_ifs <;> simp

/-- Deleting a function property adds and removes no function. -/
theorem present_delFunctionProperty (m : GraphModel) (c : FunctionPath) (fi : FunctionItem)
    (p : String) : Present (delFunctionProperty m c fi p) = Present m := by
  rcases delFunctionProperty_cases m c fi p with hs | hs | ⟨g, hg, hs⟩ <;> rw [hs]
  · exact present_delWorker m c
  · exact present_modifyShared m c g fun f => (hg f).1

/-- An update of a site that keeps its name and programs keeps every function present. -/
theorem present_modifySite (m : GraphModel) (s : String) (g : SiteItem → SiteItem)
    (hg : ∀ si, (g si).shared.name = si.shared.name)
    (hp : ∀ si, (g si).programs = si.programs) : Present (modifySite m s g) = Present m :=
  funext fun t => by simp only [Present, item_modifySite m s g hg hp]

/-- Setting a site property adds and removes no function. -/
theorem present_setSiteProperty (m : GraphModel) (s p : String) (v : ConfValue) :
    Present (setSiteProperty m s p v) = Present m := by
  unfold setSiteProperty
  split_ifs
  · split
    · exact present_modifySite m s _ (by intro; rfl) (by intro; rfl)
    · rfl
  · rfl

/-- Deleting a site property adds and removes no function. -/
theorem present_delSiteProperty (m : GraphModel) (s p : String) :
    Present (delSiteProperty m s p) = Present m := by
  unfold delSiteProperty
  split_ifs
  · exact present_modifySite m s _ (by intro; rfl) (by intro; rfl)
  · rfl

/-- Finding or creating a function item, under a program that exists, removes no function. -/
theorem present_findOrInsertFunction {m : GraphModel} {c : FunctionPath}
    (hp : (findProgram m c.site c.program).isSome) {t : FunctionPath} (ht : Present m t) :
    Present (findOrInsertFunction m c) t := by
  unfold findOrInsertFunction
  split_ifs with hc
  · exact ht
  · rw [present_retryAddParents,
      present_insertFunction (Option.not_isSome_iff_eq_none.mp hc) hp, ht, Bool.or_true]

/-- An update of any key removes no function. -/
theorem present_updateKey {m : GraphModel} (k : Key) (v : ConfValue) {t : FunctionPath}
    (ht : Present m t) : Present (updateKey m k v) t := by
  have hs : ∀ s, Present (findOrInsertSite m s) = Present m := fun s =>
    funext fun t => by simp only [Present, item_findOrInsertSite]
  have hq : ∀ s p, Present (findOrInsertProgram (findOrInsertSite m s) s p) = Present m :=
    fun s p => funext fun t => by
      simp only [Present, item_findOrInsertProgram, item_findOrInsertSite]
  unfold updateKey setProgramProperty
  dsimp only
  split_ifs
  · have hp := findProgram_findOrInsertProgram (parsedKey k).program
      (findSite_findOrInsertSite m (parsedKey k).site)
    rw [present_setFunctionProperty]
    exact present_findOrInsertFunction (c := ⟨_, _, (parsedKey k).function⟩) hp
      ((hq _ _).symm ▸ ht)
  · rw [hq]; exact ht
  · rw [present_setSiteProperty, hs]; exact ht
  · exact ht

/-- Deleting any key adds and removes no function. -/
theorem present_deleteKey (m : GraphModel) (k : Key) : Present (deleteKey m k) = Present m := by
  rcases deleteKey_cases m k with hs | ⟨c, fi, p, hs⟩ | ⟨s, p, hs⟩ <;> rw [hs]
  · exact present_delFunctionProperty m c fi p
  · exact present_delSiteProperty m s p

/-- **No key event removes a function item.** -/
theorem present_run_mono {m : GraphModel} (es : List KeyEvent) {t : FunctionPath}
    (ht : Present m t) : Present (m.run es) t := by
  induction es generalizing m with
  | nil => exact ht
  | cons e es ih =>
    refine ih ?_
    cases e with
    | updateKey k v => exact present_updateKey k v ht
    | deleteKey k => rw [GraphModel.step, present_deleteKey]; exact ht

/-! ## The invariant -/

/-- Parent links are sound: every parent link names a function of the tree, and every
pending entry is for a function of the tree and waits for a parent that is not there. -/
structure LinksSound (m : GraphModel) : Prop where
  parents : ∀ c fi, m.item c = some fi → ∀ t ∈ fi.parents, Present m t
  pending : ∀ e ∈ m.pendingAddParents, Present m e.child ∧ Present m e.target = false

/-- The empty model has no links and no pending entry. -/
theorem LinksSound_empty : LinksSound {} where
  parents c fi h := by simp [GraphModel.item, find, findProgram, findSite] at h
  pending e h := by simp at h

/-- An update that keeps every function's parents, the presence of every function and the
queue keeps the invariant. -/
theorem LinksSound.of_item {m m' : GraphModel} (h : LinksSound m)
    (g : FunctionPath → FunctionItem → FunctionItem)
    (hg : ∀ c fi, (g c fi).parents = fi.parents)
    (hitem : ∀ c, m'.item c = (m.item c).map (g c))
    (hq : m'.pendingAddParents = m.pendingAddParents) : LinksSound m' := by
  have hpres : Present m' = Present m := funext fun t => by simp [Present, hitem]
  refine ⟨fun c fi' hfi' t ht => ?_, fun e he => ?_⟩
  · rw [hitem] at hfi'
    obtain ⟨fi, hfi, rfl⟩ := Option.map_eq_some'.mp hfi'
    rw [hpres]
    exact h.parents c fi hfi t ((hg c fi) ▸ ht)
  · rw [hpres]
    exact h.pending e (hq ▸ he)

/-- An update of a function's shared part that keeps its name keeps the invariant. -/
theorem LinksSound_modifyShared {m : GraphModel} (h : LinksSound m) (c : FunctionPath)
    (g : Function → Function) (hn : ∀ f, (g f).name = f.name) :
    LinksSound (modifyShared m c g) :=
  h.of_item (fun c' fi => if c = c' then { fi with shared := g fi.shared } else fi)
    (fun c' fi => by by_cases hcc : c = c' <;> simp [hcc])
    (fun c' => by rw [item_modifyShared m c g hn]; by_cases hcc : c = c' <;> simp [hcc])
    rfl

/-- **Setting a worker keeps the invariant**, over a previous worker too: the loop links only
parents that are present and queues only those that are not. -/
theorem LinksSound_setWorker {m : GraphModel} (h : LinksSound m) {c : FunctionPath}
    {fi : FunctionItem} (hc : m.item c = some fi) (cf : Worker) :
    LinksSound
      (cf.parentRefs.foldl (linkParent c) (modifyShared m c ({ · with worker := cf }))) := by
  have h₁ : LinksSound (modifyShared m c ({ · with worker := cf })) :=
    LinksSound_modifyShared h c _ (by intro; rfl)
  have hp₁ := present_modifyShared_worker m c cf
  refine ⟨fun c' fi' hfi' t ht => ?_, fun e he => ?_⟩
  · rw [present_foldl_linkParent]
    rw [item_foldl_linkParent] at hfi'
    split_ifs at hfi' with hcc
    · obtain ⟨fi₁, hfi₁, rfl⟩ := Option.map_eq_some'.mp hfi'
      rcases List.mem_append.mp ht with ht | ht
      · exact h₁.parents c' fi₁ hfi₁ t ht
      · exact (List.mem_filter.mp ht).2
    · exact h₁.parents c' fi' hfi' t ht
  · rw [present_foldl_linkParent]
    rw [pending_foldl_linkParent] at he
    rcases List.mem_append.mp he with he | he
    · exact h₁.pending e he
    · obtain ⟨t, ht, rfl⟩ := List.mem_map.mp he
      have ht := List.mem_filter.mp ht
      refine ⟨?_, by simpa using ht.2⟩
      rw [hp₁]
      simp [Present, hc]

/-- Deleting a worker keeps the invariant. -/
theorem LinksSound_delWorker {m : GraphModel} (h : LinksSound m) (c : FunctionPath) :
    LinksSound (modifyShared (removeParents m c) c ({ · with worker := none })) := by
  have hpres := present_delWorker m c
  refine ⟨fun c' fi' hfi' t ht => ?_, fun e he => ?_⟩
  · rw [item_modifyShared_worker, item_removeParents] at hfi'
    rw [hpres]
    split_ifs at hfi' with hcc
    · rw [Option.map_map] at hfi'
      obtain ⟨fi, -, rfl⟩ := Option.map_eq_some'.mp hfi'
      simp at ht
    · exact h.parents c' fi' hfi' t ht
  · rw [hpres]
    exact h.pending e (List.mem_filter.mp he).1

/-- Creating a function item and retrying the queue keeps the invariant. -/
theorem LinksSound_insertFunction {m : GraphModel} (h : LinksSound m) {c : FunctionPath}
    (hc : m.item c = none) (hp : (findProgram m c.site c.program).isSome) :
    LinksSound (retryAddParents (insertFunction m c)) := by
  set m₁ := insertFunction m c
  have hP : ∀ t, Present m t → Present m₁ t := fun t ht => by
    simp [m₁, present_insertFunction hc hp, ht]
  have hpres := present_retryAddParents m₁
  refine ⟨fun c' fi' hfi' t ht => ?_, fun e he => ?_⟩
  · rw [item_retryAddParents, item_insertFunction m c hc hp] at hfi'
    rw [hpres]
    split_ifs at hfi' with hcc
    · obtain rfl := (Option.some.inj hfi').symm
      simp only [List.nil_append, List.mem_map, List.mem_filter, Bool.and_eq_true] at ht
      obtain ⟨e, ⟨-, he, -⟩, rfl⟩ := ht
      exact he
    · obtain ⟨fi, hfi, rfl⟩ := Option.map_eq_some'.mp hfi'
      rcases List.mem_append.mp ht with ht | ht
      · exact hP t (h.parents c' fi hfi t ht)
      · obtain ⟨e, he, rfl⟩ := List.mem_map.mp ht
        exact ((Bool.and_eq_true _ _).mp (List.mem_filter.mp he).2).1
  · rw [hpres]
    have he : e ∈ m.pendingAddParents ∧ Present m₁ e.target = false := by
      simpa [retryAddParents, kept_retryAddParentsLoop] using he
    exact ⟨hP _ (h.pending e he.1).1, he.2⟩

/-! ## Key events -/

/-- Setting a property of a function of the tree keeps the invariant. -/
theorem LinksSound_setFunctionProperty {m : GraphModel} (h : LinksSound m) {c : FunctionPath}
    {fi : FunctionItem} (hc : m.item c = some fi) (p : String) (v : ConfValue) :
    LinksSound (setFunctionProperty m c p v) := by
  rcases setFunctionProperty_cases m c p v with hs | ⟨cf, -, -, hs⟩ | ⟨g, hg, hs⟩ <;>
    rw [hs]
  · exact h
  · exact LinksSound_setWorker h hc cf
  · exact LinksSound_modifyShared h c g fun f => (hg f).1

/-- Deleting a function property keeps the invariant. -/
theorem LinksSound_delFunctionProperty {m : GraphModel} (h : LinksSound m) (c : FunctionPath)
    (fi : FunctionItem) (p : String) : LinksSound (delFunctionProperty m c fi p) := by
  rcases delFunctionProperty_cases m c fi p with hs | hs | ⟨g, hg, hs⟩ <;> rw [hs]
  · exact h
  · exact LinksSound_delWorker h c
  · exact LinksSound_modifyShared h c g fun f => (hg f).1

/-- An update of a site that keeps its name and programs keeps the invariant. -/
theorem LinksSound_modifySite {m : GraphModel} (h : LinksSound m) (s : String)
    (g : SiteItem → SiteItem) (hg : ∀ si, (g si).shared.name = si.shared.name)
    (hp : ∀ si, (g si).programs = si.programs) : LinksSound (modifySite m s g) :=
  h.of_item (fun _ => id) (fun _ _ => rfl) (fun c => by simp [item_modifySite m s g hg hp]) rfl

/-- `updateKey` keeps the invariant, whatever the value. -/
theorem LinksSound_updateKey {m : GraphModel} (h : LinksSound m) (k : Key) (v : ConfValue) :
    LinksSound (updateKey m k v) := by
  have hs : ∀ s, LinksSound (findOrInsertSite m s) := fun s =>
    h.of_item (fun _ => id) (fun _ _ => rfl) (fun c => by simp [item_findOrInsertSite])
      (by unfold findOrInsertSite; split_ifs <;> rfl)
  have hq : ∀ s p, LinksSound (findOrInsertProgram (findOrInsertSite m s) s p) := fun s p =>
    (hs s).of_item (fun _ => id) (fun _ _ => rfl) (fun c => by simp [item_findOrInsertProgram])
      (by unfold findOrInsertProgram; split_ifs <;> rfl)
  unfold updateKey setProgramProperty setSiteProperty
  dsimp only
  split_ifs
  · have hp := findProgram_findOrInsertProgram (parsedKey k).program
      (findSite_findOrInsertSite m (parsedKey k).site)
    obtain ⟨fi, hfi, -⟩ := item_findOrInsertFunction _
      ⟨(parsedKey k).site, (parsedKey k).program, (parsedKey k).function⟩ hp
    refine LinksSound_setFunctionProperty ?_ hfi _ _
    unfold findOrInsertFunction
    split_ifs with hc
    · exact hq _ _
    · exact LinksSound_insertFunction (hq _ _) (Option.not_isSome_iff_eq_none.mp hc) hp
  · exact hq _ _
  · split
    · exact LinksSound_modifySite (hs _) _ _ (by intro; rfl) (by intro; rfl)
    · exact hs _
  · exact hs _
  · exact h

/-- Deleting any key keeps the invariant. -/
theorem LinksSound_deleteKey {m : GraphModel} (h : LinksSound m) (k : Key) :
    LinksSound (deleteKey m k) := by
  rcases deleteKey_cases m k with hs | ⟨c, fi, p, hs⟩ | ⟨s, p, hs⟩ <;> rw [hs]
  · exact h
  · exact LinksSound_delFunctionProperty h c fi p
  · unfold delSiteProperty
    split_ifs
    · exact LinksSound_modifySite h _ _ (by intro; rfl) (by intro; rfl)
    · exact h

/-- Every run of key events keeps the invariant. -/
theorem LinksSound_run {m : GraphModel} (h : LinksSound m) (es : List KeyEvent) :
    LinksSound (m.run es) := by
  induction es generalizing m with
  | nil => exact h
  | cons e es ih =>
    cases e with
    | updateKey k v => exact ih (LinksSound_updateKey h k v)
    | deleteKey k => exact ih (LinksSound_deleteKey h k)

/-- **Parent links never dangle.** After every run of key events from the empty model, with
workers set, changed and deleted in any order: a function of the tree stays in the tree
whatever events follow; every parent link of every function item names a function of the
tree; and every pending entry is for a function of the tree and waits for a parent that is
not in the tree. -/
theorem links_sound (es : List KeyEvent) :
    let m := GraphModel.run {} es
    (∀ es' t, Present m t → Present (m.run es') t) ∧
    (∀ si ∈ m.sites, ∀ pi ∈ si.programs, ∀ fi ∈ pi.functions, ∀ t ∈ fi.parents,
      Present m t) ∧
    ∀ e ∈ m.pendingAddParents, Present m e.child ∧ Present m e.target = false := by
  intro m
  have hl := LinksSound_run LinksSound_empty es
  have hn := WellNamed_run WellNamed_empty es
  exact ⟨fun es' _ ht => present_run_mono es' ht,
    fun si hsi pi hpi fi hfi => hl.parents _ fi (hn.item_of_mem hsi hpi hfi), hl.pending⟩

end Ramen
