import Mathlib.Data.List.Basic

/-!
# Configuration keys of the graph model

`GraphModel` (`rmadmin/GraphModel.cpp`) listens to every configuration key under `sites/`
and reads it with one regular expression (class `ParsedKey`):

    ^sites/(?<site>[^/]+)/
     (workers/(?<program>.+)/(?<function>[^/]+)/
       (?<function_property>worker|stats/runtime|
          archives/(times|num_files|current_size|alloc_size)|
          instances/(?<signature>[^/]+)/(?<instance_property>[^/]+))
     |(?<site_property>is_master))$

The model reads a key as its `/`-separated segments. `[^/]+` is one non-empty segment,
and the program `.+` is the rest of the key before the function segment: as `.+` is greedy,
the regular expression takes the longest program, that is the shortest property suffix
(one, two or three segments) that is a function property. `.` does not match a newline,
so neither does the program; `[^/]+` does. `$` matches at the end of the key and also before
a final newline, so a literal property may be followed by one.

The instance alternative nests inside `function_property`, so that group captures
`instances/<signature>/<instance_property>` whole: the constructor never reaches the branch
that reads `signature`, and that member stays null (`parsedKey_signature`).

The round trip `parsedKey_functionKey` says that a key built from a site, a program, a
function and one of the function properties is read back as those four parts.
-/

namespace Ramen

/-- `conf::Key`: a configuration key, a `/`-separated path. -/
structure Key where
  s : String
deriving DecidableEq, Repr

/-- The `/`-separated segments of a key, empty segments included. -/
def segments : List Char → List String
  | [] => [""]
  | c :: cs =>
    if c = '/' then "" :: segments cs
    else
      match segments cs with
      | s :: ss => ⟨c :: s.data⟩ :: ss
      | [] => [⟨[c]⟩]

/-- `class ParsedKey`: the captures of the key regular expression. A capture that did not
match is the null `QString`, here the empty string. -/
structure ParsedKey where
  valid : Bool
  site : String
  program : String
  function : String
  property : String
  signature : String
deriving DecidableEq, Repr

/-- The four archive properties of a function. -/
def archiveProperties : List String := ["times", "num_files", "current_size", "alloc_size"]

/-- A segment that is `p` as the last part of a key: `p` itself, or `p` and the key's final
newline, before which `$` also matches. -/
def atEnd (seg p : String) : Bool := seg == p || seg == p ++ "\n"

/-- The `function_property` group, on the segments it spans: one of the literal properties,
captured without the final newline `$` leaves out, or an instance property, captured whole. -/
def functionProperty : List String → Option String
  | [p] => if atEnd p "worker" then some "worker" else none
  | ["stats", p] => if atEnd p "runtime" then some "stats/runtime" else none
  | ["archives", p] => (archiveProperties.find? (atEnd p)).map ("archives/" ++ ·)
  | ["instances", signature, p] =>
    if signature ≠ "" ∧ p ≠ "" then some ("instances/" ++ signature ++ "/" ++ p) else none
  | _ => none

/-- The `workers/...` branch on the segments after `workers`: program, function and property.
The property suffix is tried shortest first, which is the greedy program. -/
def workerPath (rest : List String) : Option (String × String × String) :=
  [1, 2, 3].findSome? fun n =>
    let program := "/".intercalate (rest.take (rest.length - n - 1))
    let function := rest.getD (rest.length - n - 1) ""
    if n + 2 ≤ rest.length ∧ program ≠ "" ∧ '\n' ∉ program.data ∧ function ≠ "" then
      (functionProperty (rest.drop (rest.length - n))).map fun p => (program, function, p)
    else none

/-- The key of no match. -/
def ParsedKey.invalid : ParsedKey := ⟨false, "", "", "", "", ""⟩

/-- `ParsedKey::ParsedKey`. -/
def parsedKey (k : Key) : ParsedKey :=
  match segments k.s.data with
  | "sites" :: site :: rest =>
    if site = "" then .invalid
    else
      match rest with
      | [p] => if atEnd p "is_master" then ⟨true, site, "", "", "is_master", ""⟩ else .invalid
      | "workers" :: rest =>
        match workerPath rest with
        | some (program, function, p) => ⟨true, site, program, function, p, ""⟩
        | none => .invalid
      | _ => .invalid
  | _ => .invalid

example : parsedKey ⟨"sites/S/workers/P/F/instances/x/pid"⟩ =
    ⟨true, "S", "P", "F", "instances/x/pid", ""⟩ := by
  decide

example : parsedKey ⟨"sites/S/is_master\n"⟩ = ⟨true, "S", "", "", "is_master", ""⟩ := by
  decide

/-- The `signature` member is never set: every match captures `function_property` or
`site_property`. -/
theorem parsedKey_signature (k : Key) : (parsedKey k).signature = "" := by
  unfold parsedKey
  repeat' split
  all_goals rfl

/-! ## Segments of a composed key -/

theorem segments_ne_nil (cs : List Char) : segments cs ≠ [] := by
  cases cs with
  | nil => simp [segments]
  | cons c cs =>
    unfold segments
    split_ifs
    · simp
    · split <;> simp

/-- A `/` splits the segments of a key in two. -/
theorem segments_append_slash (xs ys : List Char) :
    segments (xs ++ '/' :: ys) = segments xs ++ segments ys := by
  induction xs with
  | nil => simp [segments]
  | cons c xs ih =>
    rw [List.cons_append, segments, segments, ih]
    split_ifs
    · rfl
    · obtain ⟨s, ss, hs⟩ := List.exists_cons_of_ne_nil (segments_ne_nil xs)
      rw [hs]
      rfl

/-- A string without `/` is one segment. -/
theorem segments_of_not_mem (xs : List Char) (h : '/' ∉ xs) : segments xs = [⟨xs⟩] := by
  induction xs with
  | nil => rfl
  | cons c xs ih =>
    have hc : c ≠ '/' := fun hc => h (hc ▸ List.mem_cons_self c xs)
    simp [segments, hc, ih (fun hm => h (List.mem_cons_of_mem c hm))]

/-- The key of a function property: `sites/S/workers/P/F/<property>`. -/
def functionKey (site program function property : String) : Key :=
  ⟨"sites/" ++ site ++ "/workers/" ++ program ++ "/" ++ function ++ "/" ++ property⟩

/-- The function properties that `setFunctionProperty` acts on. -/
def functionProperties : List String :=
  "worker" :: "stats/runtime" :: archiveProperties.map ("archives/" ++ ·)

/-- A single segment: non-empty and without `/`. -/
def IsSegment (s : String) : Prop := s ≠ "" ∧ '/' ∉ s.data

theorem segments_functionKey (site program function property : String)
    (hs : '/' ∉ site.data) (hp : '/' ∉ program.data) (hf : '/' ∉ function.data) :
    segments (functionKey site program function property).s.data =
      ["sites", site, "workers", program, function] ++ segments property.data := by
  have key : (functionKey site program function property).s.data =
      "sites".data ++ '/' :: (site.data ++ '/' :: ("workers".data ++ '/' ::
        (program.data ++ '/' :: (function.data ++ '/' :: property.data)))) := by
    simp [functionKey]
  rw [key]
  simp only [segments_append_slash, segments_of_not_mem _ hs, segments_of_not_mem _ hp,
    segments_of_not_mem _ hf]
  rfl

/-- **Function keys round-trip.** A key built from a site, a program and a function that are
single segments (the program without a newline) and from one of the function properties is
read back as those parts. -/
theorem parsedKey_functionKey (site program function property : String)
    (hs : IsSegment site) (hp : IsSegment program) (hn : '\n' ∉ program.data)
    (hf : IsSegment function) (hprop : property ∈ functionProperties) :
    parsedKey (functionKey site program function property) =
      ⟨true, site, program, function, property, ""⟩ := by
  unfold parsedKey
  rw [segments_functionKey _ _ _ _ hs.2 hp.2 hf.2]
  simp only [functionProperties, archiveProperties, List.map_cons, List.map_nil,
    List.mem_cons, List.not_mem_nil, or_false] at hprop
  rcases hprop with rfl | rfl | rfl | rfl | rfl | rfl <;>
    simp [workerPath, functionProperty, archiveProperties, atEnd, hs.1, hp.1, hn, hf.1, segments,
      List.findSome?, String.intercalate, String.intercalate.go]

theorem parsedKey_functionKey_archive :
    IsSegment "eu" ∧ IsSegment "web" ∧ '\n' ∉ "web".data ∧ IsSegment "top" ∧
      "archives/num_files" ∈ functionProperties ∧
      parsedKey (functionKey "eu" "web" "top" "archives/num_files") =
        ⟨true, "eu", "web", "top", "archives/num_files", ""⟩ :=
  have hs : IsSegment "eu" := ⟨by decide, by decide⟩
  have hp : IsSegment "web" := ⟨by decide, by decide⟩
  have hf : IsSegment "top" := ⟨by decide, by decide⟩
  have hn : '\n' ∉ "web".data := by decide
  have hprop : "archives/num_files" ∈ functionProperties := by decide
  ⟨hs, hp, hn, hf, hprop, parsedKey_functionKey _ _ _ _ hs hp hn hf hprop⟩

end Ramen
