import MissionIndex.Proofs.Registry.Declarations

/-!
# The inventory of a registry

What is built from a tree can be told from the declarations of the tree alone. A declaration is a
class three levels below the registry, and its name, its script and its file follow from the three
classes on the way. The table has the names of all declarations, and for each of them the last
declaration with that name; the reports are those of all declarations without a script, by file. No
declaration gets lost on the way, although names can coincide in many ways: between tags, between
categories, and by the case of letters only.
-/

namespace MissionIndex.Registry

open Config

/-- A function in a registry: the class of its tag, that of its category, and its own. -/
structure Declaration where
  tagClass : ConfigClass
  category : ConfigClass
  function : ConfigClass

def declarations (tree : ConfigClass) : List Declaration :=
  match tree.child? registryName with
  | none => []
  | some registry =>
    registry.body.classes.flatMap fun (_, tagClass) ↦
      tagClass.body.classes.flatMap fun (_, category) ↦
        category.body.classes.map fun (_, function) ↦ ⟨tagClass, category, function⟩

namespace Declaration

variable (settings : Settings) (disk : Disk) (root : String) (d : Declaration)

/-- The name by which scripts call the function. The prefix is the `tag` of the category, or else
that of the tag, or else the name of the tag. -/
def name : String :=
  (d.category.text? "tag").getD ((d.tagClass.text? "tag").getD d.tagClass.name) ++ "_fnc_" ++
  d.function.name

/-- The path of the script, seen from the folder of the root file. It is the `file` of the function,
or else a name made of the name of the function, in the `file` of the category or else in the folder
of functions. -/
def script : String :=
  Path.locate settings.mappings (Path.parent (disk.absolute root))
    ((d.function.text? "file").getD
      (Path.append
        ((d.category.text? "file").getD (Path.append settings.functionsFolder d.category.name))
        ("fn_" ++ d.function.name ++ (d.function.text? "ext").getD settings.defaultExtension)))

def key : String := Text.lower d.name

def record : FunctionRecord where
  name := d.name
  script := d.script settings disk root
  root := root
  declaration := some d.function.location

def isMissing : Bool := !disk.isFile (d.script settings disk root)

/-- The URI of the file that the function is declared in, which is the root file if its place names
none. -/
def uri? : Option String :=
  (Uri.ofPath disk.workingDirectory
    (if d.function.location.file.isEmpty then root else d.function.location.file)).toOption

/-- The report that the script of the function is missing, which stands at its class. -/
def report : Diagnostic :=
  .error d.function.location.range
    ("Failed to find " ++ d.script settings disk root ++ " for function " ++ d.name ++ ".")

def inContext : Context × ConfigClass :=
    (contextOf settings (tagOf d.tagClass) d.category, d.function)

theorem entryOf_inContext :
    (Scope.ofRoot settings disk root).entryOf (d.inContext settings)
      = (d.key, d.record settings disk root) := rfl

theorem noteOn?_inContext : (Scope.ofRoot settings disk root).noteOn? (d.inContext settings)
    = if d.isMissing settings disk root then (d.uri? disk root).map (·, d.report settings disk root)
      else none := by
  have hnote : (Scope.ofRoot settings disk root).noteOn? (d.inContext settings)
      = if disk.isFile (d.script settings disk root) then none
        else (d.uri? disk root).map (·, d.report settings disk root) := rfl
  rw [hnote, isMissing]
  cases disk.isFile (d.script settings disk root) with
  | true => rfl
  | false => rfl

end Declaration

theorem declared_eq (settings : Settings) (tree : ConfigClass) :
    declared settings tree = (declarations tree).map (·.inContext settings) := by
  rw [declared, declarations]
  cases tree.child? registryName with
  | none => rfl
  | some registry =>
    simp only [List.map_flatMap, List.map_map]
    rfl

/-- Building fails only where a report is due in a file without a URI. -/
theorem exists_build_iff (settings : Settings) (disk : Disk) (root : String) (tree : ConfigClass) :
    (∃ b, build settings disk root tree = .ok b) ↔
      ∀ d ∈ declarations tree, d.isMissing settings disk root = true →
      (d.uri? disk root).isSome = true := by
  rw [build_eq_foldlM, Scope.exists_foldlM_addFunction_iff, declared_eq, List.forall_mem_map]
  refine forall₂_congr fun d _ ↦ ?_
  have hmissing : d.isMissing settings disk root = true ↔ disk.isFile (d.script settings disk root)
      = false := by
    rw [Declaration.isMissing, Bool.not_eq_true']
  have huri : (d.uri? disk root).isSome = true ↔ ∃ uri, Uri.ofPath disk.workingDirectory
      ((Scope.ofRoot settings disk root).fileOf d.function.location) = .ok uri := by
    have hfile : d.uri? disk root = (Uri.ofPath disk.workingDirectory
        ((Scope.ofRoot settings disk root).fileOf d.function.location)).toOption := rfl
    rw [hfile]
    cases Uri.ofPath disk.workingDirectory
        ((Scope.ofRoot settings disk root).fileOf d.function.location) with
    | error e => simp [Except.toOption]
    | ok uri => simp [Except.toOption]
  rw [hmissing, huri]
  rfl

/-- **The table and the reports of a build account for every declaration.** Building succeeds
exactly where every report has a URI to go to. The keys of the table are then those of the
declarations, in the order in which they first occur, and each has the record of its last
declaration. The reports are one for each declaration without a script, grouped by the URIs of the
files they are declared in, and in the order of the declarations. -/
theorem build_accounts_for_declarations (settings : Settings) (disk : Disk) (root : String)
    (tree : ConfigClass) :
    let ds := declarations tree
    let missing := ds.filter (·.isMissing settings disk root)
    ((∃ b, build settings disk root tree = .ok b) ↔
      ∀ d ∈ missing, (d.uri? disk root).isSome = true) ∧
      ∀ b, build settings disk root tree = .ok b →
        b.functions.map Prod.fst = (ds.map (·.key)).eraseDups ∧
        (∀ before d after, ds = before ++ d :: after → (∀ later ∈ after, later.key ≠ d.key) →
          b.functions.lookup d.key = some (d.record settings disk root)) ∧
        b.diagnostics = (missing.filterMap (·.uri? disk root)).eraseDups.map fun uri ↦
          (uri, (missing.filter (·.uri? disk root == some uri)).map
            (·.report settings disk root)) := by
  intro ds missing
  refine ⟨?_, fun b hb ↦ ⟨?_, fun before d after hds hlast ↦ ?_, ?_⟩⟩
  · rw [exists_build_iff]
    simp only [missing, ds, List.mem_filter, and_imp]
  · rw [(build_eq_ok hb).1, Ordered.map_fst_ofEntries, declared_eq, List.map_map, List.map_map]
    rfl
  · have hentries : (declared settings tree).map (Scope.ofRoot settings disk root).entryOf
        = ds.map fun d ↦ (d.key, d.record settings disk root) := by
      rw [declared_eq, List.map_map]
      exact List.map_congr_left fun d _ ↦ d.entryOf_inContext settings disk root
    rw [(build_eq_ok hb).1, hentries, hds, List.map_append, List.map_cons]
    refine Ordered.lookup_ofEntries _ fun hkey ↦ ?_
    rw [List.map_map] at hkey
    obtain ⟨later, hlater, he⟩ := List.mem_map.mp hkey
    exact hlast later hlater he
  · have hnotes : (declared settings tree).filterMap (Scope.ofRoot settings disk root).noteOn?
        = missing.filterMap fun d ↦ (d.uri? disk root).map (·, d.report settings disk root) := by
      rw [declared_eq, List.filterMap_map, List.filterMap_filter]
      exact congrArg (List.filterMap · ds) (funext fun d ↦ d.noteOn?_inContext settings disk root)
    rw [diagnostics_of_build hb, hnotes, Ordered.grouped_filterMap]

end MissionIndex.Registry
