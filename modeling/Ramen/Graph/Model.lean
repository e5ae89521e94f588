import Ramen.Graph.Key

/-!
# The graph model

`GraphModel` (`rmadmin/GraphModel.cpp`) mirrors the configuration tree of sites, programs
and functions, one item per node, and links each function to its *parents*, the functions
its worker reads from:

* `updateKey` and `deleteKey` are called on every set, change and deletion of a key under
  `sites/`; they find or create the site, program and function items the key names, then
  set or clear one property;
* setting a function's `worker` walks the worker's `parent_refs`, links the function to
  every parent already in the tree (`addFunctionParent`) and queues the others in the
  process-wide list `pendingAddParents` (`delayAddFunctionParent`);
* each new function item retries the whole queue (`retryAddParents`);
* deleting the `worker` removes the function's parents and its queued entries
  (`removeParents`).

The model keeps the items' names, the function properties the model sets, the parent links
and the queue. Tree items are plain values: the code's item pointers become paths of names
(`FunctionPath`), and an update of an item found by a name loop becomes `updateFirst` on
the same name. The signals the code emits, the row and position bookkeeping of `reorder`
and the item fields only the views read are left out.
-/

namespace Ramen

/-! ## Configuration values -/

/-- An entry of `conf::Worker::parent_refs`: the function a worker reads from. -/
structure ParentRef where
  site : String
  program : String
  function : String
deriving DecidableEq, Repr

/-- `conf::Worker`, defined outside the sources at hand: the graph model reads only its
`parent_refs`. -/
structure Worker where
  parentRefs : List ParentRef
deriving DecidableEq, Repr

/-- `conf::RuntimeStats`: the graph model stores it and reads none of its fields. -/
structure RuntimeStats where
deriving DecidableEq, Repr

/-- `conf::TimeRange`: the graph model stores it and reads none of its fields. -/
structure TimeRange where
deriving DecidableEq, Repr

/-- The payload of a `conf::RamenValueValue`, with the two cases the graph model casts to. -/
inductive RamenValue
  | vI64 (v : Int)
  | vBool (v : Bool)
  | other
deriving DecidableEq, Repr

/-- `conf::Value`, with the subclasses the graph model casts to. -/
inductive ConfValue
  | worker (w : Worker)
  | runtimeStats (stats : RuntimeStats)
  | timeRange (times : TimeRange)
  | ramenValueValue (v : RamenValue)
  | other
deriving DecidableEq, Repr

/-- The integer of a `RamenValueValue` holding a `VI64`: the double `dynamic_pointer_cast` of
the archive branches of `setFunctionProperty`. -/
def ConfValue.vI64 : ConfValue → Option Int
  | .ramenValueValue (.vI64 v) => some v
  | _ => none

/-! ## Items -/

/-- A function item, by the names of its site, program and function. Names are unique in
the tree, so this is what the code's `FunctionItem` pointers identify. -/
structure FunctionPath where
  site : String
  program : String
  function : String
deriving DecidableEq, Repr

/-- `Site`, the data a `SiteItem` shares; its class is outside the sources at hand, and
`isMaster` starts out `false`, the value `delSiteProperty` restores. -/
structure Site where
  name : String
  isMaster : Bool := false
deriving DecidableEq, Repr

/-- `Program`, the data a `ProgramItem` shares. -/
structure Program where
  name : String
deriving DecidableEq, Repr

/-- `Function`, the data a `FunctionItem` shares: its name and the properties
`setFunctionProperty` sets. -/
structure Function where
  name : String
  worker : Option Worker := none
  runtimeStats : Option RuntimeStats := none
  archivedTimes : Option TimeRange := none
  numArcFiles : Option Int := none
  numArcBytes : Option Int := none
  allocArcBytes : Option Int := none
deriving DecidableEq, Repr

/-- `FunctionItem`, with its shared data and its `parents`. -/
structure FunctionItem where
  shared : Function
  parents : List FunctionPath := []
deriving DecidableEq, Repr

/-- `ProgramItem`, with its function items. -/
structure ProgramItem where
  shared : Program
  functions : List FunctionItem := []
deriving DecidableEq, Repr

/-- `SiteItem`, with its program items. -/
structure SiteItem where
  shared : Site
  programs : List ProgramItem := []
deriving DecidableEq, Repr

/-- `struct PendingAddParent`: a function waiting for the parent of the given names. -/
structure PendingAddParent where
  child : FunctionPath
  site : String
  program : String
  function : String
deriving DecidableEq, Repr

/-- The parent a pending entry waits for. -/
def PendingAddParent.target (e : PendingAddParent) : FunctionPath :=
  ⟨e.site, e.program, e.function⟩

/-- The graph model: the tree of site items, and the process-wide `pendingAddParents`. -/
structure GraphModel where
  sites : List SiteItem := []
  pendingAddParents : List PendingAddParent := []
deriving DecidableEq, Repr

/-! ## Finding and updating items -/

/-- Applies `g` to the first element that satisfies `p`: an item loop that stops at the
first item of a name, followed by an update of that item. -/
def updateFirst {α : Type} (p : α → Bool) (g : α → α) : List α → List α
  | [] => []
  | a :: l => if p a then g a :: l else a :: updateFirst p g l

/-- The first site item of a name. -/
def findSite (m : GraphModel) (site : String) : Option SiteItem :=
  m.sites.find? (·.shared.name == site)

/-- The first program item of a name in the first site item of a name. -/
def findProgram (m : GraphModel) (site program : String) : Option ProgramItem :=
  (findSite m site).bind (·.programs.find? (·.shared.name == program))

/-- `GraphModel::find`: the function item of the given names, looked up in the first site
and the first program of their names. -/
def find (m : GraphModel) (site program function : String) : Option FunctionItem :=
  (findProgram m site program).bind (·.functions.find? (·.shared.name == function))

/-- Updates the first site item of a name. -/
def modifySite (m : GraphModel) (site : String) (g : SiteItem → SiteItem) : GraphModel :=
  { m with sites := updateFirst (·.shared.name == site) g m.sites }

/-- Updates the program item `findProgram` finds. -/
def modifyProgram (m : GraphModel) (site program : String) (g : ProgramItem → ProgramItem) :
    GraphModel :=
  modifySite m site fun si =>
    { si with programs := updateFirst (·.shared.name == program) g si.programs }

/-- Updates the function item `find` finds. -/
def modifyFunction (m : GraphModel) (c : FunctionPath) (g : FunctionItem → FunctionItem) :
    GraphModel :=
  modifyProgram m c.site c.program fun pi =>
    { pi with functions := updateFirst (·.shared.name == c.function) g pi.functions }

/-- Updates the shared data of a function item. -/
def modifyShared (m : GraphModel) (c : FunctionPath) (g : Function → Function) : GraphModel :=
  modifyFunction m c fun fi => { fi with shared := g fi.shared }

/-- A new site item, appended to the sites by `updateKey`. -/
def insertSite (m : GraphModel) (site : String) : GraphModel :=
  { m with sites := m.sites ++ [{ shared := { name := site } }] }

/-- A new program item, appended to the programs of its site by `updateKey`. -/
def insertProgram (m : GraphModel) (site program : String) : GraphModel :=
  modifySite m site fun si =>
    { si with programs := si.programs ++ [{ shared := { name := program } }] }

/-- A new function item, appended to the functions of its program by `updateKey`. -/
def insertFunction (m : GraphModel) (c : FunctionPath) : GraphModel :=
  modifyProgram m c.site c.program fun pi =>
    { pi with functions := pi.functions ++ [{ shared := { name := c.function } }] }

/-! ## Parent links -/

/-- `GraphModel::addFunctionParent`. -/
def addFunctionParent (m : GraphModel) (parent child : FunctionPath) : GraphModel :=
  modifyFunction m child fun fi => { fi with parents := fi.parents ++ [parent] }

/-- `GraphModel::removeParents`: clears the parents of `child` and drops its pending
entries. -/
def removeParents (m : GraphModel) (child : FunctionPath) : GraphModel :=
  let m := modifyFunction m child fun fi => { fi with parents := [] }
  { m with pendingAddParents := m.pendingAddParents.filter (·.child != child) }

/-- `GraphModel::delayAddFunctionParent`. -/
def delayAddFunctionParent (m : GraphModel) (child : FunctionPath)
    (site program function : String) : GraphModel :=
  { m with pendingAddParents := m.pendingAddParents ++ [⟨child, site, program, function⟩] }

/-- The loop of `retryAddParents` over the entries still to visit: an entry whose parent is
found is linked and erased, the others are kept. Returns the model and the kept entries. -/
def retryAddParentsLoop (m : GraphModel) :
    List PendingAddParent → GraphModel × List PendingAddParent
  | [] => (m, [])
  | e :: es =>
    if (find m e.site e.program e.function).isSome then
      retryAddParentsLoop (addFunctionParent m e.target e.child) es
    else
      let r := retryAddParentsLoop m es
      (r.1, e :: r.2)

/-- `GraphModel::retryAddParents`. -/
def retryAddParents (m : GraphModel) : GraphModel :=
  let r := retryAddParentsLoop m m.pendingAddParents
  { r.1 with pendingAddParents := r.2 }

/-! ## Properties -/

/-- The parent a reference of the worker of function `c` designates: the function named
by the reference if it is on `c`'s site, else the function of `c`'s names on the
reference's site, the top half of `c` running there. -/
def parentTarget (c : FunctionPath) (ref : ParentRef) : FunctionPath :=
  if ref.site = c.site then ⟨ref.site, ref.program, ref.function⟩
  else ⟨ref.site, c.program, c.function⟩

/-- One turn of the loop of `setFunctionProperty` over `cf->parent_refs`. -/
def linkParent (c : FunctionPath) (m : GraphModel) (ref : ParentRef) : GraphModel :=
  let t := parentTarget c ref
  if (find m t.site t.program t.function).isSome then addFunctionParent m t c
  else delayAddFunctionParent m c t.site t.program t.function

/-- `GraphModel::setFunctionProperty` on the function item at `c`. A value of the wrong
type leaves the item alone. -/
def setFunctionProperty (m : GraphModel) (c : FunctionPath) (p : String) (v : ConfValue) :
    GraphModel :=
  if p = "worker" then
    match v with
    | .worker cf => cf.parentRefs.foldl (linkParent c) (modifyShared m c ({ · with worker := cf }))
    | _ => m
  else if p = "stats/runtime" then
    match v with
    | .runtimeStats stats => modifyShared m c ({ · with runtimeStats := stats })
    | _ => m
  else if p = "archives/times" then
    match v with
    | .timeRange times => modifyShared m c ({ · with archivedTimes := times })
    | _ => m
  else if p = "archives/num_files" then
    match v.vI64 with
    | some n => modifyShared m c ({ · with numArcFiles := n })
    | none => m
  else if p = "archives/current_size" then
    match v.vI64 with
    | some n => modifyShared m c ({ · with numArcBytes := n })
    | none => m
  else if p = "archives/alloc_size" then
    match v.vI64 with
    | some n => modifyShared m c ({ · with allocArcBytes := n })
    | none => m
  else m

/-- `GraphModel::delFunctionProperty` on the function item `fi` at `c`. Of its tests of the
current value only the worker's matters to the state: the others decide which signals
fire. -/
def delFunctionProperty (m : GraphModel) (c : FunctionPath) (fi : FunctionItem) (p : String) :
    GraphModel :=
  if p = "worker" then
    if fi.shared.worker.isSome then modifyShared (removeParents m c) c ({ · with worker := none })
    else m
  else if p = "stats/runtime" then modifyShared m c ({ · with runtimeStats := none })
  else if p = "archives/times" then modifyShared m c ({ · with archivedTimes := none })
  else if p = "archives/num_files" then modifyShared m c ({ · with numArcFiles := none })
  else if p = "archives/current_size" then modifyShared m c ({ · with numArcBytes := none })
  else if p = "archives/alloc_size" then modifyShared m c ({ · with allocArcBytes := none })
  else m

/-- `GraphModel::setProgramProperty`: programs have no property yet. -/
def setProgramProperty (m : GraphModel) (_program _p : String) (_v : ConfValue) : GraphModel :=
  m

/-- `GraphModel::delProgramProperty`. -/
def delProgramProperty (m : GraphModel) (_program _p : String) : GraphModel := m

/-- `GraphModel::setSiteProperty`. -/
def setSiteProperty (m : GraphModel) (site p : String) (v : ConfValue) : GraphModel :=
  if p = "is_master" then
    match v with
    | .ramenValueValue (.vBool b) =>
      modifySite m site fun si => { si with shared := { si.shared with isMaster := b } }
    | _ => m
  else m

/-- `GraphModel::delSiteProperty`. -/
def delSiteProperty (m : GraphModel) (site p : String) : GraphModel :=
  if p = "is_master" then
    modifySite m site fun si => { si with shared := { si.shared with isMaster := false } }
  else m

/-! ## Key events -/

/-- The site loop of `updateKey`: the site item of the name, created if missing. -/
def findOrInsertSite (m : GraphModel) (site : String) : GraphModel :=
  if (findSite m site).isSome then m else insertSite m site

/-- The program loop of `updateKey`. -/
def findOrInsertProgram (m : GraphModel) (site program : String) : GraphModel :=
  if (findProgram m site program).isSome then m else insertProgram m site program

/-- The function loop of `updateKey`: a created function item retries the pending
parents. -/
def findOrInsertFunction (m : GraphModel) (c : FunctionPath) : GraphModel :=
  if (find m c.site c.program c.function).isSome then m else retryAddParents (insertFunction m c)

/-- `GraphModel::updateKey`: finds or creates the items the key names, then sets the
property. -/
def updateKey (m : GraphModel) (k : Key) (v : ConfValue) : GraphModel :=
  let pk := parsedKey k
  if pk.valid then
    let m := findOrInsertSite m pk.site
    if 0 < pk.program.length then
      let m := findOrInsertProgram m pk.site pk.program
      if 0 < pk.function.length then
        let c : FunctionPath := ⟨pk.site, pk.program, pk.function⟩
        setFunctionProperty (findOrInsertFunction m c) c pk.property v
      else setProgramProperty m pk.program pk.property v
    else setSiteProperty m pk.site pk.property v
  else m

/-- `GraphModel::deleteKey`: clears the property of the items the key names, if they
exist. -/
def deleteKey (m : GraphModel) (k : Key) : GraphModel :=
  let pk := parsedKey k
  if pk.valid then
    match findSite m pk.site with
    | none => m
    | some _ =>
      if 0 < pk.program.length then
        match findProgram m pk.site pk.program with
        | none => m
        | some _ =>
          if 0 < pk.function.length then
            match find m pk.site pk.program pk.function with
            | none => m
            | some fi => delFunctionProperty m ⟨pk.site, pk.program, pk.function⟩ fi pk.property
          else delProgramProperty m pk.program pk.property
      else delSiteProperty m pk.site pk.property
  else m

/-- A change of the configuration the graph model is connected to: `valueCreated` and
`valueChanged` call `updateKey`, `valueDeleted` calls `deleteKey`. -/
inductive KeyEvent
  | updateKey (k : Key) (v : ConfValue)
  | deleteKey (k : Key)
deriving DecidableEq, Repr

/-- The graph model after one key event. -/
def GraphModel.step (m : GraphModel) : KeyEvent → GraphModel
  | .updateKey k v => updateKey m k v
  | .deleteKey k => deleteKey m k

/-- The graph model after a sequence of key events. -/
def GraphModel.run (m : GraphModel) (es : List KeyEvent) : GraphModel := es.foldl step m

@[simp] theorem GraphModel.run_nil (m : GraphModel) : m.run [] = m := rfl

@[simp] theorem GraphModel.run_cons (m : GraphModel) (e : KeyEvent) (es : List KeyEvent) :
    m.run (e :: es) = (m.step e).run es := rfl

end Ramen
