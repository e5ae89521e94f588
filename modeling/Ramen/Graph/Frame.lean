import Ramen.Graph.Model
import Mathlib.Data.List.Nodup

/-!
# Frame lemmas of the graph model

What each update of the tree does to `find`, and the first invariant of the tree:

* `item_modifyFunction` — updating one function item changes what `find` returns at its
  path and nowhere else; site and program updates that keep names and children change
  nothing `find` sees (`item_modifySite`);
* `item_insertSite`, `item_insertProgram`, `item_insertFunction` — a site or a program
  created by `updateKey` holds no function yet, and a created function is found at its
  path;
* `WellNamed` — no two sites, no two programs of a site and no two functions of a program
  share a name, because `updateKey` creates an item only when the name loop finds none. So
  every function item of the tree is the one `find` returns for its names
  (`item_of_mem`), and statements about `find` cover every item.
-/

namespace Ramen

/-- The function item at a path, as `find` looks it up. -/
def GraphModel.item (m : GraphModel) (c : FunctionPath) : Option FunctionItem :=
  find m c.site c.program c.function

/-- The pending queue is not part of the tree `find` reads. -/
@[simp] theorem GraphModel.item_pending (m : GraphModel) (ps : List PendingAddParent)
    (c : FunctionPath) : { m with pendingAddParents := ps }.item c = m.item c := rfl

/-! ## Updating the first item of a name -/

section UpdateFirst

variable {α : Type} (key : α → String) (g : α → α)

/-- After updating the first item named `x` by a name-keeping `g`, the loop for `y` finds the
updated item if `x = y`, and the same item otherwise. -/
theorem find?_updateFirst (hg : ∀ a, key (g a) = key a) (x y : String) (l : List α) :
    (updateFirst (key · == x) g l).find? (key · == y) =
      if x = y then (l.find? (key · == y)).map g else l.find? (key · == y) := by
  induction l with
  | nil => simp [updateFirst]
  | cons a l ih =>
    by_cases ha : key a = x
    · by_cases hy : x = y
      · simp [updateFirst, ha, hg, hy]
      · simp [updateFirst, ha, hg, hy]
    · have hx : (key a == x) = false := by simpa using ha
      by_cases hy : key a = y
      · have hxy : x ≠ y := fun h => ha (hy.trans h.symm)
        simp [updateFirst, hx, hy, hxy, Ne.symm hxy]
      · simp [updateFirst, hx, hy, ih]

/-- Updating the first match keeps every view that the update keeps. -/
theorem map_updateFirst {β : Type} (f : α → β) (hg : ∀ a, f (g a) = f a) (p : α → Bool)
    (l : List α) : (updateFirst p g l).map f = l.map f := by
  induction l with
  | nil => rfl
  | cons a l ih => by_cases ha : p a <;> simp [updateFirst, ha, hg, ih]

/-- An element after the update is an old one, or the update of the first match. -/
theorem mem_updateFirst {p : α → Bool} {l : List α} {b : α} (hb : b ∈ updateFirst p g l) :
    b ∈ l ∨ ∃ a, l.find? p = some a ∧ b = g a := by
  induction l with
  | nil => simp [updateFirst] at hb
  | cons a l ih =>
    by_cases ha : p a
    · rw [updateFirst, if_pos ha, List.mem_cons] at hb
      rcases hb with rfl | hb
      · exact Or.inr ⟨a, by simp [ha], rfl⟩
      · exact Or.inl (List.mem_cons_of_mem a hb)
    · rw [updateFirst, if_neg ha, List.mem_cons] at hb
      rcases hb with rfl | hb
      · exact Or.inl (List.mem_cons_self b l)
      · rcases ih hb with hb | ⟨a', ha', rfl⟩
        · exact Or.inl (List.mem_cons_of_mem a hb)
        · exact Or.inr ⟨a', by simp [ha, ha'], rfl⟩

/-- With names unique, the name loop finds every element by its name. -/
theorem find?_of_nodup {l : List α} (hl : (l.map key).Nodup) {a : α} (ha : a ∈ l) :
    l.find? (key · == key a) = some a := by
  induction l with
  | nil => simp at ha
  | cons b l ih =>
    simp only [List.map_cons, List.nodup_cons, List.mem_map] at hl
    rcases List.mem_cons.mp ha with rfl | ha
    · simp
    · have hb : key b ≠ key a := fun h => hl.1 ⟨a, ha, h.symm⟩
      simp [hb, ih hl.2 ha]

end UpdateFirst

/-! ## `find` after an update -/

/-- `findSite` after a site update that keeps the name: the updated site at its name, the old one
elsewhere. -/
theorem findSite_modifySite (m : GraphModel) (s : String) (g : SiteItem → SiteItem)
    (hg : ∀ si, (g si).shared.name = si.shared.name) (y : String) :
    findSite (modifySite m s g) y = if s = y then (findSite m y).map g else findSite m y :=
  find?_updateFirst (fun si : SiteItem => si.shared.name) g hg s y m.sites

/-- `findProgram` after a program update that keeps the name: the updated program at its names, the
old one elsewhere. -/
theorem findProgram_modifyProgram (m : GraphModel) (s p : String)
    (g : ProgramItem → ProgramItem) (hg : ∀ pi, (g pi).shared.name = pi.shared.name)
    (y z : String) :
    findProgram (modifyProgram m s p g) y z =
      if s = y ∧ p = z then (findProgram m y z).map g else findProgram m y z := by
  unfold findProgram modifyProgram
  rw [findSite_modifySite _ _
    (fun si => { si with programs := updateFirst (·.shared.name == p) g si.programs })
    fun _ => rfl]
  by_cases hs : s = y
  · subst hs
    cases findSite m s with
    | none => simp
    | some si =>
      simp only [if_true, true_and, Option.map_some', Option.some_bind]
      rw [find?_updateFirst (·.shared.name) g hg]
  · simp [hs]

/-- **Updating a function item changes `find` at its path only.** -/
theorem item_modifyFunction (m : GraphModel) (c : FunctionPath) (g : FunctionItem → FunctionItem)
    (hg : ∀ fi, (g fi).shared.name = fi.shared.name) (c' : FunctionPath) :
    (modifyFunction m c g).item c' = if c = c' then (m.item c').map g else m.item c' := by
  unfold GraphModel.item find modifyFunction
  rw [findProgram_modifyProgram _ _ _
    (fun pi => { pi with functions := updateFirst (·.shared.name == c.function) g pi.functions })
    fun _ => rfl]
  by_cases hc : c.site = c'.site ∧ c.program = c'.program
  · rw [if_pos hc]
    cases findProgram m c'.site c'.program with
    | none => simp
    | some pi =>
      simp only [Option.map_some', Option.some_bind]
      rw [find?_updateFirst (·.shared.name) g hg]
      by_cases hf : c.function = c'.function
      · simp [hf, show c = c' by cases c; cases c'; simp_all]
      · simp [hf, show c ≠ c' by rintro rfl; exact hf rfl]
  · rw [if_neg hc, if_neg (by rintro rfl; exact hc ⟨rfl, rfl⟩)]

/-- Updating a function's shared part, its name kept, changes `find` at its path only. -/
theorem item_modifyShared (m : GraphModel) (c : FunctionPath) (g : Function → Function)
    (hg : ∀ f, (g f).name = f.name) (c' : FunctionPath) :
    (modifyShared m c g).item c' =
      if c = c' then (m.item c').map (fun fi => { fi with shared := g fi.shared }) else m.item c' :=
  item_modifyFunction m c _ (fun fi => hg fi.shared) c'

/-- A site update that keeps the site's name and programs changes nothing `find` sees. -/
theorem item_modifySite (m : GraphModel) (s : String) (g : SiteItem → SiteItem)
    (hg : ∀ si, (g si).shared.name = si.shared.name) (hp : ∀ si, (g si).programs = si.programs)
    (c : FunctionPath) : (modifySite m s g).item c = m.item c := by
  unfold GraphModel.item find findProgram
  rw [findSite_modifySite _ _ _ hg]
  split_ifs
  · cases findSite m c.site <;> simp [hp]
  · rfl

/-- A site created by `updateKey` holds no function. -/
theorem item_insertSite (m : GraphModel) (s : String) (h : findSite m s = none)
    (c : FunctionPath) : (insertSite m s).item c = m.item c := by
  unfold GraphModel.item find findProgram findSite insertSite
  rw [List.find?_append]
  by_cases hs : c.site = s
  · subst hs
    simp only [findSite] at h
    simp [h]
  · cases hc : m.sites.find? (·.shared.name == c.site) <;> simp [hs, Ne.symm hs]

/-- A program created by `updateKey` holds no function. -/
theorem item_insertProgram (m : GraphModel) (s p : String) (h : findProgram m s p = none)
    (c : FunctionPath) : (insertProgram m s p).item c = m.item c := by
  unfold GraphModel.item find findProgram insertProgram
  rw [findSite_modifySite _ _
    (fun si => { si with programs := si.programs ++ [{ shared := { name := p } }] }) fun _ => rfl]
  by_cases hs : s = c.site
  · subst hs
    unfold findProgram at h
    cases hsi : findSite m c.site with
    | none => simp
    | some si =>
      rw [hsi, Option.some_bind] at h
      simp only [if_true, Option.map_some', Option.some_bind, List.find?_append]
      by_cases hp : p = c.program
      · subst hp
        simp [h]
      · cases si.programs.find? (·.shared.name == c.program) <;> simp [Ne.symm hp]
  · rw [if_neg hs]

/-- A function created by `updateKey` in an existing program is found at its path. -/
theorem item_insertFunction (m : GraphModel) (c : FunctionPath) (h : m.item c = none)
    (hp : (findProgram m c.site c.program).isSome) (c' : FunctionPath) :
    (insertFunction m c).item c' =
      if c = c' then some { shared := { name := c.function } } else m.item c' := by
  unfold GraphModel.item find insertFunction
  rw [findProgram_modifyProgram _ _ _
    (fun pi => { pi with functions := pi.functions ++ [{ shared := { name := c.function } }] })
    fun _ => rfl]
  unfold GraphModel.item find at h
  obtain ⟨pi, hpi⟩ := Option.isSome_iff_exists.mp hp
  rw [hpi, Option.some_bind] at h
  by_cases hc : c = c'
  · subst hc
    simp [hpi, h]
  · rw [if_neg hc]
    by_cases hsp : c.site = c'.site ∧ c.program = c'.program
    · have hf : c.function ≠ c'.function := fun hf => hc (by cases c; cases c'; simp_all)
      rw [if_pos hsp, ← hsp.1, ← hsp.2, hpi]
      simp [hf]
    · rw [if_neg hsp]

/-! ## Names are unique -/

/-- The programs of a site, and the functions of each of its programs, have unique
names. -/
def SiteItem.WellNamed (si : SiteItem) : Prop :=
  (si.programs.map (·.shared.name)).Nodup ∧
    ∀ pi ∈ si.programs, (pi.functions.map (·.shared.name)).Nodup

/-- No two items of the tree with one parent share a name. -/
structure GraphModel.WellNamed (m : GraphModel) : Prop where
  sites : (m.sites.map (·.shared.name)).Nodup
  site : ∀ si ∈ m.sites, si.WellNamed

/-- **Every function item of the tree is the one `find` returns for its names.** -/
theorem GraphModel.WellNamed.item_of_mem {m : GraphModel} (h : m.WellNamed) {si : SiteItem}
    (hsi : si ∈ m.sites) {pi : ProgramItem} (hpi : pi ∈ si.programs) {fi : FunctionItem}
    (hfi : fi ∈ pi.functions) :
    m.item ⟨si.shared.name, pi.shared.name, fi.shared.name⟩ = some fi := by
  have hs := h.site si hsi
  simp [GraphModel.item, find, findProgram, findSite, find?_of_nodup _ h.sites hsi,
    find?_of_nodup _ hs.1 hpi, find?_of_nodup _ (hs.2 pi hpi) hfi]

/-- A site update that keeps the site's name, and leaves the updated site well named, keeps names
unique. -/
theorem WellNamed_modifySite {m : GraphModel} (h : m.WellNamed) (s : String)
    (g : SiteItem → SiteItem) (hg : ∀ si, (g si).shared.name = si.shared.name)
    (hw : ∀ si, findSite m s = some si → (g si).WellNamed) : (modifySite m s g).WellNamed where
  sites := by
    simp only [modifySite]
    rw [map_updateFirst g (·.shared.name) hg]
    exact h.sites
  site := by
    intro si hsi
    rcases mem_updateFirst g hsi with hsi | ⟨a, ha, rfl⟩
    · exact h.site si hsi
    · exact hw a ha

/-- A program update that keeps the program's name and leaves its function names unique keeps names
unique. -/
theorem WellNamed_modifyProgram {m : GraphModel} (h : m.WellNamed) (s p : String)
    (g : ProgramItem → ProgramItem) (hg : ∀ pi, (g pi).shared.name = pi.shared.name)
    (hw : ∀ pi, findProgram m s p = some pi →
      ((g pi).functions.map fun fi => fi.shared.name).Nodup) :
    (modifyProgram m s p g).WellNamed := by
  refine WellNamed_modifySite h s _ (fun _ => rfl) fun si hsi => ⟨?_, ?_⟩
  · rw [map_updateFirst g (·.shared.name) hg]
    exact (h.site si (List.mem_of_find?_eq_some hsi)).1
  · intro pi hpi
    rcases mem_updateFirst g hpi with hpi | ⟨a, ha, rfl⟩
    · exact (h.site si (List.mem_of_find?_eq_some hsi)).2 pi hpi
    · exact hw a (by simp [findProgram, hsi, ha])

/-- A function update that keeps the function's name keeps names unique. -/
theorem WellNamed_modifyFunction {m : GraphModel} (h : m.WellNamed) (c : FunctionPath)
    (g : FunctionItem → FunctionItem) (hg : ∀ fi, (g fi).shared.name = fi.shared.name) :
    (modifyFunction m c g).WellNamed :=
  WellNamed_modifyProgram h _ _ _ (fun _ => rfl) fun pi hpi => by
    rw [map_updateFirst g (·.shared.name) hg]
    obtain ⟨si, hsi, hpi⟩ := Option.bind_eq_some.mp hpi
    exact (h.site si (List.mem_of_find?_eq_some hsi)).2 pi (List.mem_of_find?_eq_some hpi)

/-- The empty tree has unique names. -/
theorem WellNamed_empty : GraphModel.WellNamed {} := ⟨List.nodup_nil, by simp⟩

/-- Replacing the pending queue keeps names unique. -/
theorem GraphModel.WellNamed.pending {m : GraphModel} (h : m.WellNamed)
    (ps : List PendingAddParent) : { m with pendingAddParents := ps }.WellNamed :=
  ⟨h.sites, h.site⟩

/-- An update of a function's shared part that keeps its name keeps names unique. -/
theorem WellNamed_modifyShared {m : GraphModel} (h : m.WellNamed) (c : FunctionPath)
    (g : Function → Function) (hg : ∀ f, (g f).name = f.name) :
    (modifyShared m c g).WellNamed :=
  WellNamed_modifyFunction h c _ fun fi => hg fi.shared

/-- Appending a site whose name the loop did not find keeps names unique. -/
theorem WellNamed_insertSite {m : GraphModel} (h : m.WellNamed) (s : String)
    (hs : findSite m s = none) : (insertSite m s).WellNamed where
  sites := by
    have hs : s ∉ m.sites.map (·.shared.name) := by simpa [findSite] using hs
    simpa [insertSite, List.nodup_append, hs] using h.sites
  site := by
    intro si hsi
    rcases List.mem_append.mp hsi with hsi | hsi
    · exact h.site si hsi
    · rw [List.mem_singleton.mp hsi]
      exact ⟨List.nodup_nil, by simp⟩

/-- Appending a program whose name the loop did not find keeps names unique. -/
theorem WellNamed_insertProgram {m : GraphModel} (h : m.WellNamed) (s p : String)
    (hp : findProgram m s p = none) : (insertProgram m s p).WellNamed :=
  WellNamed_modifySite h s _ (by intro; rfl) fun si hsi => by
    have hw := h.site si (List.mem_of_find?_eq_some hsi)
    have hp : p ∉ si.programs.map (·.shared.name) := by simpa [findProgram, hsi] using hp
    refine ⟨by simpa [List.nodup_append, hp] using hw.1, fun pi hpi => ?_⟩
    rcases List.mem_append.mp hpi with hpi | hpi
    · exact hw.2 pi hpi
    · simp [List.mem_singleton.mp hpi]

/-- Appending a function whose name the loop did not find keeps names unique. -/
theorem WellNamed_insertFunction {m : GraphModel} (h : m.WellNamed) (c : FunctionPath)
    (hc : m.item c = none) : (insertFunction m c).WellNamed :=
  WellNamed_modifyProgram h _ _ _ (by intro; rfl) fun pi hpi => by
    obtain ⟨si, hsi, hpi'⟩ := Option.bind_eq_some.mp hpi
    have hf : c.function ∉ pi.functions.map (·.shared.name) := by
      simpa [GraphModel.item, find, hpi] using hc
    simpa [List.nodup_append, hf] using
      (h.site si (List.mem_of_find?_eq_some hsi)).2 pi (List.mem_of_find?_eq_some hpi')

/-! ## Every key event keeps names unique -/

/-- Linking a function's parents keeps names unique. -/
theorem WellNamed_foldl_linkParent (c : FunctionPath) (refs : List ParentRef) {m : GraphModel}
    (h : m.WellNamed) : (refs.foldl (linkParent c) m).WellNamed := by
  induction refs generalizing m with
  | nil => exact h
  | cons ref refs ih =>
    apply ih
    unfold linkParent addFunctionParent delayAddFunctionParent
    dsimp only
    split
    · exact WellNamed_modifyFunction h c _ (by intro; rfl)
    · exact h.pending _

/-- Retrying the pending parents keeps names unique. -/
theorem WellNamed_retryAddParentsLoop (es : List PendingAddParent) {m : GraphModel}
    (h : m.WellNamed) : (retryAddParentsLoop m es).1.WellNamed := by
  induction es generalizing m with
  | nil => exact h
  | cons e es ih =>
    unfold retryAddParentsLoop
    split
    · exact ih (WellNamed_modifyFunction h _ _ (by intro; rfl))
    · exact ih h

/-- Every branch of `setFunctionProperty` leaves the model alone, sets the worker and links
its parents, or updates the function's other shared data. -/
theorem setFunctionProperty_cases (m : GraphModel) (c : FunctionPath) (p : String)
    (v : ConfValue) :
    setFunctionProperty m c p v = m ∨
      (∃ cf, p = "worker" ∧ v = .worker cf ∧ setFunctionProperty m c p v =
        cf.parentRefs.foldl (linkParent c) (modifyShared m c ({ · with worker := cf }))) ∨
      ∃ g : Function → Function, (∀ f, (g f).name = f.name ∧ (g f).worker = f.worker) ∧
        setFunctionProperty m c p v = modifyShared m c g := by
  generalize hr : setFunctionProperty m c p v = r
  unfold setFunctionProperty at hr
  repeat' split at hr
  all_goals
    subst hr
    first
    | exact Or.inl rfl
    | exact Or.inr (Or.inl ⟨_, by assumption, rfl, rfl⟩)
    | exact Or.inr (Or.inr ⟨_, by intro; exact ⟨rfl, rfl⟩, rfl⟩)

/-- Every branch of `delFunctionProperty` leaves the model alone, removes the parents and the
worker of a function that has one, or clears other shared data. -/
theorem delFunctionProperty_cases (m : GraphModel) (c : FunctionPath) (fi : FunctionItem)
    (p : String) :
    delFunctionProperty m c fi p = m ∨
      delFunctionProperty m c fi p =
        modifyShared (removeParents m c) c ({ · with worker := none }) ∨
      ∃ g : Function → Function, (∀ f, (g f).name = f.name ∧ (g f).worker = f.worker) ∧
        delFunctionProperty m c fi p = modifyShared m c g := by
  generalize hr : delFunctionProperty m c fi p = r
  unfold delFunctionProperty at hr
  repeat' split at hr
  all_goals
    subst hr
    first
    | exact Or.inl rfl
    | exact Or.inr (Or.inl rfl)
    | exact Or.inr (Or.inr ⟨_, by intro; exact ⟨rfl, rfl⟩, rfl⟩)

/-- `deleteKey` leaves the model alone, clears a function property or clears a site
property. -/
theorem deleteKey_cases (m : GraphModel) (k : Key) :
    deleteKey m k = m ∨ (∃ c fi p, deleteKey m k = delFunctionProperty m c fi p) ∨
      ∃ s p, deleteKey m k = delSiteProperty m s p := by
  generalize hr : deleteKey m k = r
  unfold deleteKey delProgramProperty at hr
  dsimp only at hr
  repeat' split at hr
  all_goals
    subst hr
    first
    | exact Or.inl rfl
    | exact Or.inr (Or.inl ⟨_, _, _, rfl⟩)
    | exact Or.inr (Or.inr ⟨_, _, rfl⟩)

/-- Setting a function property keeps names unique. -/
theorem WellNamed_setFunctionProperty {m : GraphModel} (h : m.WellNamed) (c : FunctionPath)
    (p : String) (v : ConfValue) : (setFunctionProperty m c p v).WellNamed := by
  rcases setFunctionProperty_cases m c p v with hs | ⟨cf, -, -, hs⟩ | ⟨g, hg, hs⟩ <;>
    rw [hs]
  · exact h
  · exact WellNamed_foldl_linkParent c _ (WellNamed_modifyShared h c _ (by intro; rfl))
  · exact WellNamed_modifyShared h c g fun f => (hg f).1

/-- Deleting a function property keeps names unique. -/
theorem WellNamed_delFunctionProperty {m : GraphModel} (h : m.WellNamed) (c : FunctionPath)
    (fi : FunctionItem) (p : String) : (delFunctionProperty m c fi p).WellNamed := by
  rcases delFunctionProperty_cases m c fi p with hs | hs | ⟨g, hg, hs⟩ <;> rw [hs]
  · exact h
  · exact WellNamed_modifyShared ((WellNamed_modifyFunction h c _ (by intro; rfl)).pending _) c _
      (by intro; rfl)
  · exact WellNamed_modifyShared h c g fun f => (hg f).1

/-- A site update that keeps the site's name and programs keeps names unique. -/
theorem WellNamed_modifySite_programs {m : GraphModel} (h : m.WellNamed) (s : String)
    (g : SiteItem → SiteItem) (hg : ∀ si, (g si).shared.name = si.shared.name)
    (hp : ∀ si, (g si).programs = si.programs) : (modifySite m s g).WellNamed :=
  WellNamed_modifySite h s g hg fun si hsi => by
    unfold SiteItem.WellNamed
    rw [hp]
    exact h.site si (List.mem_of_find?_eq_some hsi)

/-- An update of any key keeps names unique, the items it creates included. -/
theorem WellNamed_updateKey {m : GraphModel} (h : m.WellNamed) (k : Key) (v : ConfValue) :
    (updateKey m k v).WellNamed := by
  have hs : ∀ s, (findOrInsertSite m s).WellNamed := fun s => by
    unfold findOrInsertSite
    split_ifs with hs
    · exact h
    · exact WellNamed_insertSite h s (Option.not_isSome_iff_eq_none.mp hs)
  have hp : ∀ s p, (findOrInsertProgram (findOrInsertSite m s) s p).WellNamed := fun s p => by
    unfold findOrInsertProgram
    split_ifs with hp
    · exact hs s
    · exact WellNamed_insertProgram (hs s) s p (Option.not_isSome_iff_eq_none.mp hp)
  unfold updateKey setSiteProperty setProgramProperty
  dsimp only
  split_ifs
  · apply WellNamed_setFunctionProperty
    unfold findOrInsertFunction
    split_ifs with hc
    · exact hp _ _
    · unfold retryAddParents
      exact (WellNamed_retryAddParentsLoop _
        (WellNamed_insertFunction (hp _ _) _ (Option.not_isSome_iff_eq_none.mp hc))).pending _
  · exact hp _ _
  · split
    · exact WellNamed_modifySite_programs (hs _) _ _ (by intro; rfl) (by intro; rfl)
    · exact hs _
  · exact hs _
  · exact h

/-- Deleting any key keeps names unique. -/
theorem WellNamed_deleteKey {m : GraphModel} (h : m.WellNamed) (k : Key) :
    (deleteKey m k).WellNamed := by
  unfold deleteKey delSiteProperty delProgramProperty
  dsimp only
  repeat' split
  all_goals
    first
    | exact h
    | exact WellNamed_delFunctionProperty h _ _ _
    | exact WellNamed_modifySite_programs h _ _ (by intro; rfl) (by intro; rfl)

/-- **Names stay unique over every run of key events.** -/
theorem WellNamed_run {m : GraphModel} (h : m.WellNamed) (es : List KeyEvent) :
    (m.run es).WellNamed := by
  induction es generalizing m with
  | nil => exact h
  | cons e es ih =>
    cases e with
    | updateKey k v => exact ih (WellNamed_updateKey h k v)
    | deleteKey k => exact ih (WellNamed_deleteKey h k)

end Ramen
