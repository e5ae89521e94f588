import Ramen.Graph.Frame

/-!
# Parent links of the graph model

What `parents` and `pendingAddParents` should hold, and when they do.

The current worker of a function designates one parent per parent reference
(`workerTargets`). A designated parent already in the tree belongs in the function's
`parents`; one that is not yet there belongs in `pendingAddParents`. `LinksAgree` says so
for one function item, counting each parent as often as references designate it, and
`ParentLinks` for the whole model.

* `ParentLinks_updateKey`, `ParentLinks_deleteKey` — every key event keeps the invariant,
  except an `updateKey` that sets a worker on a function that already has one
  (`resetsWorker`): `setFunctionProperty` then links the new worker's parents without
  removing the old ones.
* `parent_links_agree` — so over every run from the empty model that never does that,
  every function item of the tree has the links its worker designates, in whatever order
  workers and parents arrived.

Each preservation lemma is built from the frame lemmas of `Ramen.Graph.Frame`: an event
changes `find` only at the function it names, and the presence of a function only by
creating it.
-/

namespace Ramen

/-! ## The invariant -/

/-- Whether a function item of the given path is in the tree. -/
def Present (m : GraphModel) (t : FunctionPath) : Bool := (m.item t).isSome

/-- The parents the current worker of the function item `fi` at `c` designates, one per
parent reference; none without a worker. -/
def workerTargets (c : FunctionPath) (fi : FunctionItem) : List FunctionPath :=
  match fi.shared.worker with
  | some w => w.parentRefs.map (parentTarget c)
  | none => []

/-- The parents `pendingAddParents` holds for the function at `c`. -/
def pendingFor (m : GraphModel) (c : FunctionPath) : List FunctionPath :=
  (m.pendingAddParents.filter (·.child == c)).map PendingAddParent.target

/-- The links of the function item `fi` at `c` are those of its current worker: its
`parents` are the designated parents in the tree and its pending entries the others, each
as often as it is designated. -/
def LinksAgree (m : GraphModel) (c : FunctionPath) (fi : FunctionItem) : Prop :=
  fi.parents.Perm ((workerTargets c fi).filter (Present m)) ∧
    (pendingFor m c).Perm ((workerTargets c fi).filter (!Present m ·))

/-- The parent-link invariant: every function item's links agree with its worker, and
every pending entry is for a function of the tree. -/
structure ParentLinks (m : GraphModel) : Prop where
  agree : ∀ c fi, m.item c = some fi → LinksAgree m c fi
  childPresent : ∀ e ∈ m.pendingAddParents, Present m e.child

/-- The empty model has no function item and no pending entry. -/
theorem ParentLinks_empty : ParentLinks {} where
  agree c fi h := by simp [GraphModel.item, find, findProgram, findSite] at h
  childPresent e h := by simp at h

/-! ## Lists of designated parents -/

section Filters

variable {α : Type} (T : List α) {p q : α → Bool}

/-- The parents that were present, then those that just appeared, are those present now. -/
theorem perm_filter_append_of_imp (hpq : ∀ a, p a → q a) :
    (T.filter p ++ (T.filter (!p ·)).filter q).Perm (T.filter q) := by
  have hp : T.filter p = (T.filter q).filter p := by
    rw [List.filter_filter]
    exact List.filter_congr fun a _ => by cases h : p a <;> simp [h, hpq a]
  have hnp : (T.filter (!p ·)).filter q = (T.filter q).filter (!p ·) := by
    rw [List.filter_filter, List.filter_filter]
    exact List.filter_congr fun a _ => Bool.and_comm _ _
  rw [hp, hnp]
  exact List.filter_append_perm p (T.filter q)

/-- The parents still missing were missing before. -/
theorem filter_not_filter_not_of_imp (hpq : ∀ a, p a → q a) :
    (T.filter (!p ·)).filter (!q ·) = T.filter (!q ·) := by
  rw [List.filter_filter]
  exact List.filter_congr fun a _ => by cases h : q a <;> cases h' : p a <;> simp_all

end Filters

/-- The targets of the entries for `c` that pass `q` are the targets for `c`, filtered by `q`. -/
theorem map_target_filter_child (L : List PendingAddParent) (q : FunctionPath → Bool)
    (c : FunctionPath) :
    (L.filter fun e => q e.target && e.child == c).map PendingAddParent.target =
      ((L.filter (·.child == c)).map PendingAddParent.target).filter q := by
  rw [List.filter_map, List.filter_filter]
  rfl

/-! ## Moving the invariant along updates -/

/-- An update that changes function items only outside their parents and worker, and
leaves the queue alone, keeps the invariant. -/
theorem ParentLinks.of_item {m m' : GraphModel} (h : ParentLinks m)
    (g : FunctionPath → FunctionItem → FunctionItem)
    (hg : ∀ c fi, (g c fi).parents = fi.parents ∧ (g c fi).shared.worker = fi.shared.worker)
    (hitem : ∀ c, m'.item c = (m.item c).map (g c))
    (hq : m'.pendingAddParents = m.pendingAddParents) : ParentLinks m' := by
  have hpres : Present m' = Present m := funext fun t => by simp [Present, hitem]
  have hpend : pendingFor m' = pendingFor m := funext fun c => by simp [pendingFor, hq]
  refine ⟨fun c fi' hfi' => ?_, fun e he => ?_⟩
  · rw [hitem] at hfi'
    obtain ⟨fi, hfi, rfl⟩ := Option.map_eq_some'.mp hfi'
    have ht : workerTargets c (g c fi) = workerTargets c fi := by
      simp [workerTargets, (hg c fi).2]
    rw [LinksAgree, hpres, hpend, ht, (hg c fi).1]
    exact h.agree c fi hfi
  · rw [hpres]
    exact h.childPresent e (hq ▸ he)

/-- An update that changes no function item and leaves the queue alone keeps the invariant. -/
theorem ParentLinks.of_item_eq {m m' : GraphModel} (h : ParentLinks m)
    (hitem : ∀ c, m'.item c = m.item c) (hq : m'.pendingAddParents = m.pendingAddParents) :
    ParentLinks m' :=
  h.of_item (fun _ => id) (fun _ _ => ⟨rfl, rfl⟩) (fun c => by simp [hitem]) hq

/-- Setting a function property other than the worker keeps the invariant. -/
theorem ParentLinks_modifyShared {m : GraphModel} (h : ParentLinks m) (c : FunctionPath)
    (g : Function → Function) (hn : ∀ f, (g f).name = f.name)
    (hw : ∀ f, (g f).worker = f.worker) : ParentLinks (modifyShared m c g) :=
  h.of_item (fun c' fi => if c = c' then { fi with shared := g fi.shared } else fi)
    (fun c' fi => by by_cases hcc : c = c' <;> simp [hcc, hw])
    (fun c' => by rw [item_modifyShared m c g hn]; by_cases hcc : c = c' <;> simp [hcc])
    rfl

/-! ## Setting a worker -/

/-- `addFunctionParent` appends the parent to the child's links and changes no other item. -/
theorem item_addFunctionParent (m : GraphModel) (parent child c : FunctionPath) :
    (addFunctionParent m parent child).item c =
      if child = c then (m.item c).map fun fi => { fi with parents := fi.parents ++ [parent] }
      else m.item c :=
  item_modifyFunction _ _ _ (by intro; rfl) _

/-- `addFunctionParent` leaves the queue alone. -/
@[simp] theorem pending_addFunctionParent (m : GraphModel) (parent child : FunctionPath) :
    (addFunctionParent m parent child).pendingAddParents = m.pendingAddParents := rfl

/-- `delayAddFunctionParent` changes only the queue. -/
@[simp] theorem item_delayAddFunctionParent (m : GraphModel) (child : FunctionPath)
    (site program function : String) (c : FunctionPath) :
    (delayAddFunctionParent m child site program function).item c = m.item c := rfl

/-- `removeParents` clears the child's links and changes no other item. -/
theorem item_removeParents (m : GraphModel) (child c : FunctionPath) :
    (removeParents m child).item c =
      if child = c then (m.item c).map fun fi => { fi with parents := [] } else m.item c :=
  item_modifyFunction _ _ _ (by intro; rfl) _

/-- Replacing a function's worker changes that function item only. -/
theorem item_modifyShared_worker (m : GraphModel) (c : FunctionPath) (w : Option Worker)
    (c' : FunctionPath) :
    (modifyShared m c ({ · with worker := w })).item c' =
      if c = c' then (m.item c').map fun fi => { fi with shared := { fi.shared with worker := w } }
      else m.item c' :=
  item_modifyShared m c _ (by intro; rfl) c'

/-- The designated parents do not depend on the links. -/
@[simp] theorem workerTargets_parents (c : FunctionPath) (fi : FunctionItem)
    (ps : List FunctionPath) : workerTargets c { fi with parents := ps } = workerTargets c fi :=
  rfl

/-- Adding a parent link adds and removes no function. -/
theorem present_addFunctionParent (m : GraphModel) (parent child : FunctionPath) :
    Present (addFunctionParent m parent child) = Present m :=
  funext fun t => by
    simp only [Present, item_addFunctionParent]
    split_ifs <;> simp

/-- One step of the parent loop adds and removes no function. -/
theorem present_linkParent (c : FunctionPath) (m : GraphModel) (ref : ParentRef) :
    Present (linkParent c m ref) = Present m := by
  unfold linkParent delayAddFunctionParent
  dsimp only
  split
  · exact present_addFunctionParent m _ c
  · rfl

/-- The loop over the parent references appends the present parents to the function's
`parents`. -/
theorem item_foldl_linkParent (c : FunctionPath) (refs : List ParentRef) (m : GraphModel)
    (c' : FunctionPath) :
    (refs.foldl (linkParent c) m).item c' =
      if c = c' then
        (m.item c').map fun fi =>
          { fi with parents := fi.parents ++ (refs.map (parentTarget c)).filter (Present m) }
      else m.item c' := by
  induction refs generalizing m with
  | nil => split_ifs <;> simp
  | cons ref refs ih =>
    rw [List.foldl_cons, ih, present_linkParent]
    unfold linkParent
    dsimp only
    split_ifs with hc hp
    · subst hc
      have ht : Present m (parentTarget c ref) = true := hp
      rw [item_addFunctionParent, if_pos rfl]
      cases m.item c <;> simp [ht]
    · subst hc
      have ht : Present m (parentTarget c ref) = false := by simpa [Present] using hp
      rw [item_delayAddFunctionParent]
      cases m.item c <;> simp [ht]
    · rw [item_addFunctionParent, if_neg hc]
    · rfl

/-- The loop over the parent references queues the missing parents. -/
theorem pending_foldl_linkParent (c : FunctionPath) (refs : List ParentRef) (m : GraphModel) :
    (refs.foldl (linkParent c) m).pendingAddParents =
      m.pendingAddParents ++ ((refs.map (parentTarget c)).filter (!Present m ·)).map
        fun t => ⟨c, t.site, t.program, t.function⟩ := by
  induction refs generalizing m with
  | nil => simp
  | cons ref refs ih =>
    rw [List.foldl_cons, ih, present_linkParent, List.map_cons]
    unfold linkParent
    dsimp only
    split_ifs with hp
    · have ht : Present m (parentTarget c ref) = true := hp
      rw [pending_addFunctionParent, List.filter_cons_of_neg (by simp [ht])]
    · have ht : Present m (parentTarget c ref) = false := by simpa [Present] using hp
      rw [List.filter_cons_of_pos (by simp [ht]), List.map_cons]
      simp [delayAddFunctionParent]

/-- **Setting the worker of a function without one keeps the invariant.** -/
theorem ParentLinks_setWorker {m : GraphModel} (h : ParentLinks m) {c : FunctionPath}
    {fi : FunctionItem} (hc : m.item c = some fi) (hw : fi.shared.worker = none)
    (cf : Worker) :
    ParentLinks
      (cf.parentRefs.foldl (linkParent c) (modifyShared m c ({ · with worker := cf }))) := by
  set m₁ := modifyShared m c ({ · with worker := cf })
  have hi₁ := item_modifyShared_worker m c cf
  have hp₁ : Present m₁ = Present m := funext fun t => by
    simp only [Present, hi₁]; split_ifs <;> simp
  have hq₁ : m₁.pendingAddParents = m.pendingAddParents := rfl
  have hnil : workerTargets c fi = [] := by simp [workerTargets, hw]
  obtain ⟨hpar, hpen⟩ := h.agree c fi hc
  rw [hnil, List.filter_nil, List.perm_nil] at hpar hpen
  have hpres : Present (cf.parentRefs.foldl (linkParent c) m₁) = Present m := funext fun t => by
    simp only [Present, item_foldl_linkParent, hi₁]
    split_ifs <;> simp
  refine ⟨fun c' fi' hfi' => ?_, fun e he => ?_⟩
  · rw [item_foldl_linkParent, hi₁] at hfi'
    unfold LinksAgree pendingFor
    rw [hpres, pending_foldl_linkParent, hq₁, hp₁, List.filter_append, List.map_append]
    by_cases hcc : c = c'
    · subst hcc
      rw [if_pos rfl, if_pos rfl, hc] at hfi'
      obtain rfl := (Option.some.inj hfi').symm
      unfold pendingFor at hpen
      simp [workerTargets, hpar, hpen, hp₁, List.filter_map, Function.comp_def,
        PendingAddParent.target]
    · rw [if_neg hcc, if_neg hcc] at hfi'
      have hcb : (c == c') = false := beq_eq_false_iff_ne.mpr hcc
      simpa [List.filter_map, Function.comp_def, hcb, LinksAgree, pendingFor] using
        h.agree c' fi' hfi'
  · rw [pending_foldl_linkParent, hq₁, hp₁] at he
    rw [hpres]
    rcases List.mem_append.mp he with he | he
    · exact h.childPresent e he
    · obtain ⟨t, -, rfl⟩ := List.mem_map.mp he
      simp [Present, hc]

/-! ## Deleting a worker -/

/-- **Deleting the worker of a function keeps the invariant.** -/
theorem ParentLinks_delWorker {m : GraphModel} (h : ParentLinks m) (c : FunctionPath) :
    ParentLinks (modifyShared (removeParents m c) c ({ · with worker := none })) := by
  set m₁ := modifyShared (removeParents m c) c ({ · with worker := none })
  have hi₁ : ∀ c', m₁.item c' =
      if c = c' then
        (m.item c').map fun fi => { parents := [], shared := { fi.shared with worker := none } }
      else m.item c' := fun c' => by
    rw [item_modifyShared_worker, item_removeParents]
    split_ifs <;> simp [Option.map_map, Function.comp_def]
  have hp₁ : Present m₁ = Present m := funext fun t => by
    simp only [Present, hi₁]; split_ifs <;> simp
  have hq₁ : m₁.pendingAddParents = m.pendingAddParents.filter (·.child != c) := rfl
  refine ⟨fun c' fi' hfi' => ?_, fun e he => ?_⟩
  · rw [hi₁] at hfi'
    unfold LinksAgree pendingFor
    rw [hp₁, hq₁, List.filter_filter]
    by_cases hcc : c = c'
    · subst hcc
      rw [if_pos rfl] at hfi'
      obtain ⟨fi, -, rfl⟩ := Option.map_eq_some'.mp hfi'
      simp [workerTargets, List.filter_eq_nil_iff]
    · rw [if_neg hcc] at hfi'
      have hf : (m.pendingAddParents.filter fun e => (e.child == c') && (e.child != c)) =
          m.pendingAddParents.filter (·.child == c') :=
        List.filter_congr fun e _ => by
          by_cases he : e.child = c' <;> simp [he, Ne.symm hcc]
      rw [hf]
      exact h.agree c' fi' hfi'
  · rw [hq₁, List.mem_filter] at he
    rw [hp₁]
    exact h.childPresent e he.1

/-! ## Creating a function -/

/-- The retry loop adds and removes no function. -/
theorem present_retryAddParentsLoop (es : List PendingAddParent) (m : GraphModel) :
    Present (retryAddParentsLoop m es).1 = Present m := by
  induction es generalizing m with
  | nil => rfl
  | cons e es ih =>
    unfold retryAddParentsLoop
    split
    · rw [ih, present_addFunctionParent]
    · exact ih m

/-- The retry links every entry whose parent is present. -/
theorem item_retryAddParentsLoop (es : List PendingAddParent) (m : GraphModel)
    (c : FunctionPath) :
    (retryAddParentsLoop m es).1.item c =
      (m.item c).map fun fi =>
        { fi with parents := (fi.parents ++ List.map PendingAddParent.target
            (es.filter fun e => Present m e.target && e.child == c)) } := by
  induction es generalizing m with
  | nil =>
    simp only [retryAddParentsLoop, List.filter_nil, List.map_nil, List.append_nil]
    cases m.item c <;> rfl
  | cons e es ih =>
    unfold retryAddParentsLoop
    split
    · next hp =>
      rw [ih, present_addFunctionParent, item_addFunctionParent]
      have hp : Present m e.target = true := hp
      split_ifs with hc
      · subst hc
        cases m.item e.child <;> simp [hp]
      · have hc : (e.child == c) = false := beq_eq_false_iff_ne.mpr hc
        cases m.item c <;> simp [hp, hc]
    · next hp =>
      have hp : Present m e.target = false := by simpa [Present] using hp
      rw [ih]
      simp [hp]

/-- The retry appends to each function's links the targets of its entries whose parent is
present. -/
theorem item_retryAddParents (m : GraphModel) (c : FunctionPath) :
    (retryAddParents m).item c =
      (m.item c).map fun fi =>
        { fi with parents := (fi.parents ++ List.map PendingAddParent.target
            (m.pendingAddParents.filter fun e => Present m e.target && e.child == c)) } :=
  item_retryAddParentsLoop _ _ _

/-- The retry keeps the entries whose parent is missing. -/
theorem kept_retryAddParentsLoop (es : List PendingAddParent) (m : GraphModel) :
    (retryAddParentsLoop m es).2 = es.filter fun e => !Present m e.target := by
  induction es generalizing m with
  | nil => rfl
  | cons e es ih =>
    unfold retryAddParentsLoop
    split
    · next hp =>
      have hp : Present m e.target = true := hp
      rw [ih, present_addFunctionParent, List.filter_cons_of_neg (by simp [hp])]
    · next hp =>
      have hp : Present m e.target = false := by simpa [Present] using hp
      dsimp only
      rw [ih, List.filter_cons_of_pos (by simp [hp])]

/-- A created function is present, besides those that were. -/
theorem present_insertFunction {m : GraphModel} {c : FunctionPath} (hc : m.item c = none)
    (hp : (findProgram m c.site c.program).isSome) (t : FunctionPath) :
    Present (insertFunction m c) t = (c == t || Present m t) := by
  simp only [Present, item_insertFunction m c hc hp]
  by_cases h : c = t <;> simp [h]

/-- **Creating a function item and retrying the queue keeps the invariant.** -/
theorem ParentLinks_insertFunction {m : GraphModel} (h : ParentLinks m) {c : FunctionPath}
    (hc : m.item c = none) (hp : (findProgram m c.site c.program).isSome) :
    ParentLinks (retryAddParents (insertFunction m c)) := by
  set m₁ := insertFunction m c
  have hi₁ : ∀ c', m₁.item c' =
      if c = c' then some { shared := { name := c.function } } else m.item c' :=
    item_insertFunction m c hc hp
  have hP : ∀ t, Present m t → Present m₁ t := fun t ht => by
    simp [m₁, present_insertFunction hc hp, ht]
  have hq₁ : m₁.pendingAddParents = m.pendingAddParents := rfl
  have hchild : ∀ e ∈ m.pendingAddParents, (e.child == c) = false := fun e he => by
    have := h.childPresent e he
    refine beq_eq_false_iff_ne.mpr fun hec => ?_
    simp [Present, hec, hc] at this
  have hpres : Present (retryAddParents m₁) = Present m₁ := present_retryAddParentsLoop _ _
  have hkept : (retryAddParents m₁).pendingAddParents =
      m.pendingAddParents.filter fun e => !Present m₁ e.target := by
    simp only [retryAddParents, kept_retryAddParentsLoop, hq₁]
  have hitem := item_retryAddParents m₁
  refine ⟨fun c' fi' hfi' => ?_, fun e he => ?_⟩
  · rw [hitem, hi₁] at hfi'
    unfold LinksAgree
    rw [hpres, pendingFor, hkept, List.filter_filter]
    by_cases hcc : c = c'
    · subst hcc
      rw [if_pos rfl] at hfi'
      obtain rfl := (Option.some.inj hfi').symm
      have hR : (m.pendingAddParents.filter fun e => Present m₁ e.target && e.child == c) = [] :=
        List.filter_eq_nil_iff.mpr fun e he => by simp [hchild e he]
      have hK : (m.pendingAddParents.filter fun e => (e.child == c) && !Present m₁ e.target) =
          [] :=
        List.filter_eq_nil_iff.mpr fun e he => by simp [hchild e he]
      simp [workerTargets, hR, hK, hq₁]
    · rw [if_neg hcc] at hfi'
      obtain ⟨fi, hfi, rfl⟩ := Option.map_eq_some'.mp hfi'
      obtain ⟨hpar, hpen⟩ := h.agree c' fi hfi
      unfold pendingFor at hpen
      rw [workerTargets_parents]
      constructor
      · rw [map_target_filter_child]
        exact (hpar.append (hpen.filter _)).trans (perm_filter_append_of_imp _ hP)
      · have hf : (m.pendingAddParents.filter fun e =>
            (e.child == c') && !Present m₁ e.target) =
            m.pendingAddParents.filter fun e => !Present m₁ e.target && e.child == c' :=
          List.filter_congr fun e _ => Bool.and_comm _ _
        have hmt := map_target_filter_child m.pendingAddParents (!Present m₁ ·) c'
        beta_reduce at hmt
        rw [hf, hmt, ← filter_not_filter_not_of_imp (workerTargets c' fi) hP]
        exact hpen.filter _
  · rw [hkept, List.mem_filter] at he
    rw [hpres]
    exact hP _ (h.childPresent e he.1)

/-! ## Key events -/

/-- **`setFunctionProperty` keeps the invariant**, unless it sets a worker on a function
that has one. -/
theorem ParentLinks_setFunctionProperty {m : GraphModel} (h : ParentLinks m) {c : FunctionPath}
    {fi : FunctionItem} (hc : m.item c = some fi) (p : String) (v : ConfValue)
    (hw : ∀ cf, p = "worker" → v = .worker cf → fi.shared.worker = none) :
    ParentLinks (setFunctionProperty m c p v) := by
  rcases setFunctionProperty_cases m c p v with hs | ⟨cf, hp, hv, hs⟩ | ⟨g, hg, hs⟩ <;>
    rw [hs]
  · exact h
  · exact ParentLinks_setWorker h hc (hw cf hp hv) cf
  · exact ParentLinks_modifyShared h c g (fun f => (hg f).1) fun f => (hg f).2

/-- Deleting a function property keeps the invariant. -/
theorem ParentLinks_delFunctionProperty {m : GraphModel} (h : ParentLinks m) (c : FunctionPath)
    (fi : FunctionItem) (p : String) : ParentLinks (delFunctionProperty m c fi p) := by
  rcases delFunctionProperty_cases m c fi p with hs | hs | ⟨g, hg, hs⟩ <;> rw [hs]
  · exact h
  · exact ParentLinks_delWorker h c
  · exact ParentLinks_modifyShared h c g (fun f => (hg f).1) fun f => (hg f).2

/-- A site update that keeps the site's name and programs keeps the invariant. -/
theorem ParentLinks_modifySite {m : GraphModel} (h : ParentLinks m) (s : String)
    (g : SiteItem → SiteItem) (hg : ∀ si, (g si).shared.name = si.shared.name)
    (hp : ∀ si, (g si).programs = si.programs) : ParentLinks (modifySite m s g) :=
  h.of_item_eq (item_modifySite m s g hg hp) rfl

/-- Setting a site property keeps the invariant. -/
theorem ParentLinks_setSiteProperty {m : GraphModel} (h : ParentLinks m) (s p : String)
    (v : ConfValue) : ParentLinks (setSiteProperty m s p v) := by
  unfold setSiteProperty
  split_ifs
  · split
    · exact ParentLinks_modifySite h s _ (by intro; rfl) (by intro; rfl)
    · exact h
  · exact h

/-- Deleting a site property keeps the invariant. -/
theorem ParentLinks_delSiteProperty {m : GraphModel} (h : ParentLinks m) (s p : String) :
    ParentLinks (delSiteProperty m s p) := by
  unfold delSiteProperty
  split_ifs
  · exact ParentLinks_modifySite h s _ (by intro; rfl) (by intro; rfl)
  · exact h

/-- The site loop of `updateKey` changes no function item. -/
theorem item_findOrInsertSite (m : GraphModel) (s : String) (c : FunctionPath) :
    (findOrInsertSite m s).item c = m.item c := by
  unfold findOrInsertSite
  split_ifs with hs
  · rfl
  · exact item_insertSite m s (Option.not_isSome_iff_eq_none.mp hs) c

/-- The program loop of `updateKey` changes no function item. -/
theorem item_findOrInsertProgram (m : GraphModel) (s p : String) (c : FunctionPath) :
    (findOrInsertProgram m s p).item c = m.item c := by
  unfold findOrInsertProgram
  split_ifs with hp
  · rfl
  · exact item_insertProgram m s p (Option.not_isSome_iff_eq_none.mp hp) c

/-- The site loop of `updateKey` keeps the invariant. -/
theorem ParentLinks_findOrInsertSite {m : GraphModel} (h : ParentLinks m) (s : String) :
    ParentLinks (findOrInsertSite m s) :=
  h.of_item_eq (item_findOrInsertSite m s) (by unfold findOrInsertSite; split_ifs <;> rfl)

/-- The program loop of `updateKey` keeps the invariant. -/
theorem ParentLinks_findOrInsertProgram {m : GraphModel} (h : ParentLinks m) (s p : String) :
    ParentLinks (findOrInsertProgram m s p) :=
  h.of_item_eq (item_findOrInsertProgram m s p) (by unfold findOrInsertProgram; split_ifs <;> rfl)

/-- After the site loop of `updateKey` the site exists. -/
theorem findSite_findOrInsertSite (m : GraphModel) (s : String) :
    (findSite (findOrInsertSite m s) s).isSome := by
  unfold findOrInsertSite
  split_ifs with hs
  · exact hs
  · simp [findSite, insertSite, List.find?_append, Option.not_isSome_iff_eq_none.mp hs]

/-- After the program loop of `updateKey`, in a site that exists, the program exists. -/
theorem findProgram_findOrInsertProgram {m : GraphModel} {s : String} (p : String)
    (hs : (findSite m s).isSome) : (findProgram (findOrInsertProgram m s p) s p).isSome := by
  unfold findOrInsertProgram
  split_ifs with hp
  · exact hp
  · obtain ⟨si, hsi⟩ := Option.isSome_iff_exists.mp hs
    have hp : si.programs.find? (·.shared.name == p) = none := by
      simpa [findProgram, hsi] using hp
    unfold findProgram insertProgram
    rw [findSite_modifySite _ _
      (fun si => { si with programs := si.programs ++ [{ shared := { name := p } }] })
      fun _ => rfl]
    simp [hsi, List.find?_append, hp]

/-- After the function loop of `updateKey`, the function is in the tree, with the worker
it had before, if any. -/
theorem item_findOrInsertFunction (m : GraphModel) (c : FunctionPath)
    (hp : (findProgram m c.site c.program).isSome) :
    ∃ fi, (findOrInsertFunction m c).item c = some fi ∧
      fi.shared.worker = (m.item c).bind (·.shared.worker) := by
  unfold findOrInsertFunction
  split_ifs with hc
  · obtain ⟨fi, hfi⟩ := Option.isSome_iff_exists.mp hc
    exact ⟨fi, hfi, by simp [GraphModel.item, hfi]⟩
  · have hc : m.item c = none := Option.not_isSome_iff_eq_none.mp hc
    rw [item_retryAddParents, item_insertFunction m c hc hp, if_pos rfl, hc]
    exact ⟨_, rfl, rfl⟩

/-- The function loop of `updateKey`, in a program that exists, keeps the invariant. -/
theorem ParentLinks_findOrInsertFunction {m : GraphModel} (h : ParentLinks m) (c : FunctionPath)
    (hp : (findProgram m c.site c.program).isSome) : ParentLinks (findOrInsertFunction m c) := by
  unfold findOrInsertFunction
  split_ifs with hc
  · exact h
  · exact ParentLinks_insertFunction h (Option.not_isSome_iff_eq_none.mp hc) hp

/-- Whether a key event sets a worker on a function that already has one. -/
def resetsWorker (m : GraphModel) : KeyEvent → Bool
  | .updateKey k (.worker _) =>
    let pk := parsedKey k
    pk.valid && pk.property == "worker" && 0 < pk.program.length && 0 < pk.function.length &&
      ((find m pk.site pk.program pk.function).bind (·.shared.worker)).isSome
  | _ => false

/-- **`updateKey` keeps the invariant**, unless it sets a worker over another. -/
theorem ParentLinks_updateKey {m : GraphModel} (h : ParentLinks m) (k : Key) (v : ConfValue)
    (hr : resetsWorker m (.updateKey k v) = false) : ParentLinks (updateKey m k v) := by
  unfold updateKey setProgramProperty
  dsimp only
  split_ifs with hv hprog hfun
  · have h₂ := ParentLinks_findOrInsertProgram
      (ParentLinks_findOrInsertSite h (parsedKey k).site) (parsedKey k).site (parsedKey k).program
    have hp := findProgram_findOrInsertProgram (parsedKey k).program
      (findSite_findOrInsertSite m (parsedKey k).site)
    obtain ⟨fi, hfi, hw⟩ := item_findOrInsertFunction _
      ⟨(parsedKey k).site, (parsedKey k).program, (parsedKey k).function⟩ hp
    refine ParentLinks_setFunctionProperty (ParentLinks_findOrInsertFunction h₂ _ hp) hfi _ _
      fun cf hp hv' => ?_
    rw [hw, item_findOrInsertProgram, item_findOrInsertSite]
    subst hv'
    simpa [resetsWorker, hv, hp, hprog, hfun, GraphModel.item] using hr
  · exact ParentLinks_findOrInsertProgram (ParentLinks_findOrInsertSite h _) _ _
  · exact ParentLinks_setSiteProperty (ParentLinks_findOrInsertSite h _) _ _ _
  · exact h

/-- **`deleteKey` keeps the invariant.** -/
theorem ParentLinks_deleteKey {m : GraphModel} (h : ParentLinks m) (k : Key) :
    ParentLinks (deleteKey m k) := by
  unfold deleteKey delProgramProperty
  dsimp only
  repeat' split
  all_goals
    first
    | exact h
    | exact ParentLinks_delFunctionProperty h _ _ _
    | exact ParentLinks_delSiteProperty h _ _

/-- Whether a run never sets a worker on a function that already has one. -/
def noWorkerReset : GraphModel → List KeyEvent → Bool
  | _, [] => true
  | m, e :: es => !resetsWorker m e && noWorkerReset (m.step e) es

/-- **The invariant holds along every run that never sets a worker over another.** -/
theorem ParentLinks_run {m : GraphModel} (h : ParentLinks m) (es : List KeyEvent)
    (hr : noWorkerReset m es = true) : ParentLinks (m.run es) := by
  induction es generalizing m with
  | nil => exact h
  | cons e es ih =>
    simp only [noWorkerReset, Bool.and_eq_true, Bool.not_eq_true'] at hr
    rw [GraphModel.run_cons]
    refine ih ?_ hr.2
    cases e with
    | updateKey k v => exact ParentLinks_updateKey h k v hr.1
    | deleteKey k => exact ParentLinks_deleteKey h k

/-- **Parent links follow the current workers.** After every run of key events from the
empty model that never sets a worker on a function that has one, no two sites, programs of a
site or functions of a program share a name; every function item of the tree holds in
`parents` the parents its current worker designates that are in the tree, and
`pendingAddParents` holds for it the others, each as often as parent references designate it;
no pending entry is for a function outside the tree. -/
theorem parent_links_agree (es : List KeyEvent) (hr : noWorkerReset {} es = true) :
    let m := GraphModel.run {} es
    m.WellNamed ∧
    (∀ si ∈ m.sites, ∀ pi ∈ si.programs, ∀ fi ∈ pi.functions,
      LinksAgree m ⟨si.shared.name, pi.shared.name, fi.shared.name⟩ fi) ∧
    ∀ e ∈ m.pendingAddParents, Present m e.child := by
  intro m
  have hl := ParentLinks_run ParentLinks_empty es hr
  have hn := WellNamed_run WellNamed_empty es
  exact ⟨hn, fun si hsi pi hpi fi hfi => hl.agree _ fi (hn.item_of_mem hsi hpi hfi),
    hl.childPresent⟩

/-- A worker set with a missing parent, deleted and set again: the run resets no worker, and the
links of the final model agree. -/
theorem parent_links_agree_sample :
    noWorkerReset {} [
      .updateKey (functionKey "S" "P" "F" "worker")
        (.worker ⟨[⟨"S", "P", "G"⟩, ⟨"T", "Q", "H"⟩]⟩),
      .updateKey (functionKey "S" "P" "G" "stats/runtime") (.runtimeStats {}),
      .deleteKey (functionKey "S" "P" "F" "worker"),
      .updateKey (functionKey "S" "P" "F" "worker") (.worker ⟨[⟨"S", "P", "G"⟩]⟩)] = true ∧
    let m := GraphModel.run {} [
      .updateKey (functionKey "S" "P" "F" "worker")
        (.worker ⟨[⟨"S", "P", "G"⟩, ⟨"T", "Q", "H"⟩]⟩),
      .updateKey (functionKey "S" "P" "G" "stats/runtime") (.runtimeStats {}),
      .deleteKey (functionKey "S" "P" "F" "worker"),
      .updateKey (functionKey "S" "P" "F" "worker") (.worker ⟨[⟨"S", "P", "G"⟩]⟩)]
    m.WellNamed ∧
    (∀ si ∈ m.sites, ∀ pi ∈ si.programs, ∀ fi ∈ pi.functions,
      LinksAgree m ⟨si.shared.name, pi.shared.name, fi.shared.name⟩ fi) ∧
    ∀ e ∈ m.pendingAddParents, Present m e.child :=
  ⟨by decide, parent_links_agree _ (by decide)⟩

/-- A second worker value for a function appends its parents to those of the first: the
function keeps a parent link and a pending entry that its current worker, which has no
parent reference, does not designate. -/
theorem updateKey_worker_twice :
    let c : FunctionPath := ⟨"S", "P", "F"⟩
    let m := GraphModel.run {} [
      .updateKey (functionKey "S" "P" "G" "stats/runtime") (.runtimeStats {}),
      .updateKey (functionKey "S" "P" "F" "worker")
        (.worker ⟨[⟨"S", "P", "G"⟩, ⟨"S", "P", "H"⟩]⟩),
      .updateKey (functionKey "S" "P" "F" "worker") (.worker ⟨[]⟩)]
    (m.item c).map (workerTargets c) = some [] ∧
      (m.item c).map (·.parents) = some [⟨"S", "P", "G"⟩] ∧
      pendingFor m c = [⟨"S", "P", "H"⟩] := by
  decide

end Ramen
