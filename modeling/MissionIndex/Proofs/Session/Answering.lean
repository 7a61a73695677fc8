import MissionIndex.Proofs.Session.Ownership
import MissionIndex.Proofs.Session.Passing
import MissionIndex.Query.Answers

/-!
# Answers about functions

A completion offers the functions of all root files, and what an editor does with an offer is to ask
about its name again. The answers go by the lower-case name and take the first root file that has
it. They agree since every table is *keyed*: each record stands under its own lower-case name, and
names the root file whose table it is in. A build makes tables so, and nothing that happens to a
session afterwards changes a name or a root file.

## Scripts on a host

A function may name its script itself, and the path that it gives may name a host and nothing below.
Such a path has no URI, so the place where the function is defined cannot be told
(`definition_fails_of_host`). All other offers have an answer to each question (`offers_answered`).
-/

namespace MissionIndex

open Config

/-! ## Keyed tables -/

/-- A table of a root file whose records stand under their own names. -/
def FunctionTable.Keyed (root : String) (table : FunctionTable) : Prop :=
  ∀ e ∈ table, e.1 = e.2.key ∧ e.2.root = root

theorem FunctionTable.keyed_bare_iff {root : String} {table : FunctionTable} :
    table.bare.Keyed root ↔ table.Keyed root := List.forall_mem_map

theorem Registry.keyed_build {settings : Settings} {disk : Disk} {root : String}
    {tree : ConfigClass} {b : Build} (h : build settings disk root tree = .ok b) :
    b.functions.Keyed root := by
  rw [(build_eq_ok h).1]
  refine List.foldlRecOn (motive := fun table : FunctionTable ↦ table.Keyed root) _ _
    (List.forall_mem_nil _) ?_
  intro table htable e he e' he'
  rcases Ordered.mem_of_mem_put he' with rfl | he'
  · obtain ⟨d, -, rfl⟩ := List.mem_map.mp he
    exact ⟨rfl, rfl⟩
  · exact htable e' he'

theorem Traffic.Sound.keyed {v : Traffic} (h : v.Sound) {root : String} {table : FunctionTable}
    (htable : (root, table) ∈ v.session.tables) : table.Keyed root := by
  obtain ⟨⟨root, indexed⟩, hindexed, he⟩ := List.mem_map.mp htable
  cases he
  have hlookup : (tablesOf v.history).lookup root = some indexed := by
    rw [h.accords.functions] at hindexed
    exact Ordered.lookup_of_mem (nodup_tablesOf v.history) hindexed
  obtain ⟨built, after, ⟨before, task, reader, hsplit, hbuilt, hnumber, -⟩, hshelf⟩ :=
    h.accords.genuine.exists_lastBuilt hlookup
  obtain ⟨table, htable, hof⟩ := h.accords.genuine.exists_isOf hsplit hbuilt
  rw [hnumber, hshelf] at htable
  obtain rfl := Option.some.inj htable
  obtain ⟨tree, build, -, hbuild, rfl⟩ := Session.built?_eq_some_iff.mp hbuilt
  rw [← FunctionTable.keyed_bare_iff, hof.bare]
  exact Registry.keyed_build hbuild

/-! ## Offers -/

namespace Query

theorem exists_of_mem_complete {tables : FunctionTables} {properties : Documentation.Table}
    {uri front : String} {item : CompletionItem}
    (hitem : item ∈ complete tables properties uri front) (hkind : item.kind = .function) :
    ∃ e ∈ tables, ∃ entry ∈ e.2, item = .ofRecord entry.1 entry.2 := by
  rcases List.mem_append.mp hitem with hitem | hitem
  · split at hitem
    · obtain ⟨e, he, hitem⟩ := List.mem_flatMap.mp hitem
      obtain ⟨entry, hentry, rfl⟩ := List.mem_map.mp hitem
      exact ⟨e, he, entry, List.mem_of_mem_filter hentry, rfl⟩
    · cases hitem
  · split at hitem
    · obtain ⟨property, -, rfl⟩ := List.mem_map.mp hitem
      cases hkind
    · cases hitem

/-- In keyed tables, the name of a record is found: it is that of a record of the first table that
has it. -/
theorem exists_find?_of_keyed {tables : FunctionTables} (hkeyed : ∀ e ∈ tables, e.2.Keyed e.1)
    {e : String × FunctionTable} (he : e ∈ tables) {entry : String × FunctionRecord}
    (hentry : entry ∈ e.2) :
    ∃ before root table after r, tables = before ++ (root, table) :: after ∧
      table.lookup (Text.lower entry.2.name) = some r ∧
      (∀ e ∈ before, e.2.lookup (Text.lower entry.2.name) = none) ∧
      tables.find? entry.2.name = some r ∧ Text.lower r.name = Text.lower entry.2.name ∧
      r.root = root := by
  have hkey : Text.lower entry.2.name ∈ e.2.map Prod.fst := by
    rw [← FunctionRecord.key, ← (hkeyed e he entry hentry).1]
    exact List.mem_map_of_mem hentry
  have hsome : (tables.find? entry.2.name).isSome = true :=
    List.findSome?_isSome_iff.mpr ⟨e, he, Ordered.isSome_lookup_iff.mpr hkey⟩
  obtain ⟨r, hr⟩ := Option.isSome_iff_exists.mp hsome
  obtain ⟨before, ⟨root, table⟩, after, hsplit, hlookup, hbefore⟩ :=
    List.findSome?_eq_some_iff.mp hr
  have hmem : (root, table) ∈ tables := by
    rw [hsplit]
    exact List.mem_append_right _ List.mem_cons_self
  obtain ⟨hname, hroot⟩ := hkeyed _ hmem _ (Ordered.mem_of_lookup hlookup)
  exact ⟨before, root, table, after, r, hsplit, hlookup, hbefore, hr, hname.symm, hroot⟩

end Query

namespace Traffic

/-- **Every function that is offered can be asked about.** However operations overlap, each record
of a table stands under its lower-case name and names the root file of the table. So for each
function offered in a script there is a first table that has its lower-case name. The record there
is the one that is shown for the name, and the one place where the function is defined is in the
script of this record, unless the script names a host and nothing below it: then the question
fails. -/
theorem offers_answered (disk : Disk) (settings : Settings) (documents : Documents)
    (turns : List Turn) :
    let s := ((fresh disk settings documents).follow turns).session
    (∀ root table, (root, table) ∈ s.tables → ∀ key r, (key, r) ∈ table → key = Text.lower r.name ∧
      r.root = root) ∧
      ∀ properties uri front, Query.isScriptDocument uri = true →
        ∀ item ∈ Query.complete s.tables properties uri front, item.kind = .function →
          ∃ before root table after r, s.tables = before ++ (root, table) :: after ∧
            table.lookup (Text.lower item.label) = some r ∧
            (∀ e ∈ before, e.2.lookup (Text.lower item.label) = none) ∧
            Text.lower r.name = Text.lower item.label ∧ r.root = root ∧
            Query.hover? s.tables properties uri item.label = some (Query.renderFunction r) ∧
            (¬ Uri.NamesHost (s.disk.absolute r.script) → ∃ place, s.uriOf r.script = .ok place ∧
              Query.definition s.disk.workingDirectory s.tables item.label
                = .ok [(place, Query.scriptStart)]) ∧
            (Uri.NamesHost (s.disk.absolute r.script) →
              Query.definition s.disk.workingDirectory s.tables item.label
                = .error ⟨r.script⟩) := by
  intro s
  have hkeyed : ∀ e ∈ s.tables, e.2.Keyed e.1 := fun e he ↦
    ((Sound.fresh disk settings documents).follow turns).keyed he
  refine ⟨fun root table htable key r hr ↦ hkeyed _ htable _ hr, ?_⟩
  intro properties uri front huri item hitem hkind
  obtain ⟨e, he, entry, hentry, rfl⟩ := Query.exists_of_mem_complete hitem hkind
  obtain ⟨before, root, table, after, r, hsplit, hlookup, hbefore, hfind, hname, hroot⟩ :=
    Query.exists_find?_of_keyed hkeyed he hentry
  have hlabel : (Query.CompletionItem.ofRecord entry.1 entry.2).label = entry.2.name := rfl
  rw [hlabel]
  refine ⟨before, root, table, after, r, hsplit, hlookup, hbefore, hname, hroot, ?_, fun hhost ↦ ?_,
    fun hhost ↦ ?_⟩
  · rw [Query.hover?, if_pos huri, hfind, Option.map_some, Option.some_or]
  · obtain ⟨place, hplace⟩ := s.exists_uriOf_iff.mpr hhost
    refine ⟨place, hplace, ?_⟩
    rw [Session.uriOf] at hplace
    simp only [Query.definition, hfind, hplace]
    rfl
  · have hnone := Uri.ofAbsolute?_eq_none_iff.mpr hhost
    have hresolve : Path.resolve s.disk.workingDirectory r.script = s.disk.absolute r.script := rfl
    simp only [Query.definition, hfind, Uri.ofPath, hresolve, hnone]
    rfl

/-- Two missions that declare functions whose names differ in case. -/
def alike : Disk where
  files :=
    [(["m", "description.ext"], .bytes (Text.encodeUtf8
        "class CfgFunctions\x7bclass T\x7bclass C\x7bclass f\x7b\x7d;\x7d;\x7d;\x7d;".toList)),
      (["n", "description.ext"], .bytes (Text.encodeUtf8
        "class CfgFunctions\x7bclass t\x7bclass C\x7bclass F\x7b\x7d;\x7d;\x7d;\x7d;".toList))]

/-- The name that the second mission offers is answered with the function of the first. -/
theorem offers_answered_alike :
    let s :=
      ((fresh alike {} []).follow [.pass "/m/description.ext", .pass "/n/description.ext"]).session
    let offers := Query.complete s.tables [] "file:///n/a.sqf" "t"
    offers.map (·.label) = ["t_fnc_F"] ∧ ∀ item ∈ offers, ∃ r : FunctionRecord, ∃ place,
      r.name = "T_fnc_f" ∧ r.script = "/m/functions/C/fn_f.sqf" ∧ s.uriOf r.script = .ok place ∧
        Query.hover? s.tables [] "file:///n/a.sqf" item.label = some (Query.renderFunction r) ∧
        Query.definition s.disk.workingDirectory s.tables item.label
          = .ok [(place, Query.scriptStart)] := by
  intro s offers
  obtain ⟨hlabels, hkinds, hfirst⟩ : offers.map (·.label) = ["t_fnc_F"] ∧
    (∀ item ∈ offers, item.kind = .function) ∧
      (s.tables.find? "t_fnc_F").map (fun r ↦ (r.name, r.script))
      = some ("T_fnc_f", "/m/functions/C/fn_f.sqf") := by
    decide +kernel
  refine ⟨hlabels, fun item hitem ↦ ?_⟩
  have hlabel : item.label = "t_fnc_F" := by
    have hmem : item.label ∈ offers.map (·.label) := List.mem_map_of_mem hitem
    rw [hlabels] at hmem
    exact List.mem_singleton.mp hmem
  obtain ⟨before, root, table, after, r, hsplit, hlookup, hbefore, -, -, hhover, hplace, -⟩ :=
    (offers_answered alike {} [] [.pass "/m/description.ext", .pass "/n/description.ext"]).2 []
    "file:///n/a.sqf" "t"
      (by decide +kernel) item hitem (hkinds item hitem)
  have hfind : s.tables.find? item.label = some r :=
    List.findSome?_eq_some_iff.mpr ⟨before, (root, table), after, hsplit, hlookup, hbefore⟩
  rw [← hlabel, hfind] at hfirst
  obtain ⟨hname, hscript⟩ := Prod.mk.inj (Option.some.inj hfirst)
  have hhost : ¬ Uri.NamesHost (s.disk.absolute r.script) := by
    rw [hscript, ← Uri.ofAbsolute?_eq_none_iff]
    decide +kernel
  obtain ⟨place, huri, hdefinition⟩ := hplace hhost
  exact ⟨r, place, hname, hscript, huri, hhover, hdefinition⟩

/-- A mission with a function whose script is a host. -/
def hosted : Disk where
  files := [(["m", "description.ext"], .bytes (Text.encodeUtf8
    ("class CfgFunctions\x7bclass T\x7bclass C\x7b".toList
      ++ "class f\x7bfile=\"//host\";\x7d;\x7d;\x7d;\x7d;".toList)))]

/-- Where the function is defined cannot be told, though it is offered and shown. -/
theorem definition_fails_of_host :
    let s := ((fresh hosted {} []).follow [.pass "/m/description.ext"]).session
    (Query.complete s.tables [] "file:///m/a.sqf" "T_fnc_").map (fun item ↦ (item.label, item.kind))
        = [("T_fnc_f", .function)] ∧
      (Query.hover? s.tables [] "file:///m/a.sqf" "T_fnc_f").isSome = true ∧
      Query.definition s.disk.workingDirectory s.tables "T_fnc_f" = .error ⟨"//host"⟩ := by
  refine ⟨by decide +kernel, by decide +kernel, by decide +kernel⟩

end Traffic

end MissionIndex
