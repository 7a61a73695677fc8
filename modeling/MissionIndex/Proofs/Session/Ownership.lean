import MissionIndex.Proofs.Session.Shelf
import MissionIndex.Proofs.Workspace.Discovery

/-!
# To which pass a table belongs

However operations overlap, the table of a root file is the one of the last pass that could read the
root file, unless the root file has been forgotten since. Every table that a pass has built stays
its own: no other pass adds or removes a record or writes anything into one, and what the pass
itself writes down is what it has read from the script of the very record.

This holds since a session is what its history has made of it, and since every task knows of each
duty that it is left with where it comes from (`Traffic.Sound`). One turn keeps both, so any number
of turns does.
-/

namespace MissionIndex

/-! ## Sessions and their histories -/

/-- A session is what its history has made of it. -/
structure Session.Accords (s : Session) (history : List Mark) : Prop where
  files : s.files = filesOf history
  functions : s.functions = tablesOf history
  passes : s.passes = (shelfOf history).length
  genuine : Genuine history

/-- What holds of a stretch that a task goes through after a history. -/
structure Stretch.Sound (stretch : Stretch) (history : List Mark) (task : Nat) : Prop where
  accords : stretch.session.Accords (history ++ stretch.marks)
  owed : ∀ duty ∈ stretch.duties, duty.Owed (history ++ stretch.marks) task

namespace Session

variable {s s' : Session} {history : List Mark}

theorem Accords.snoc (h : s.Accords history) {m : Mark} (hfits : m.Fits history)
    (hfiles : s'.files = m.onFiles s.files) (hfunctions : s'.functions = m.onTables s.functions)
    (hpasses : s'.passes = (m.onShelf (shelfOf history)).length) : s'.Accords (history ++ [m]) where
  files := by rw [filesOf_snoc, hfiles, h.files]
  functions := by rw [tablesOf_snoc, hfunctions, h.functions]
  passes := by rw [shelfOf_snoc, hpasses]
  genuine := .snoc h.genuine hfits

theorem Accords.idle (h : s.Accords history) {duties : List Duty} {task : Nat}
    (hfiles : s'.files = s.files) (hfunctions : s'.functions = s.functions)
    (hpasses : s'.passes = s.passes) (howed : ∀ duty ∈ duties, duty.Owed history task) :
    Stretch.Sound { session := s', duties } history task where
  accords := by
    rw [List.append_nil]
    exact ⟨hfiles.trans h.files, hfunctions.trans h.functions, hpasses.trans h.passes, h.genuine⟩
  owed := by
    rw [List.append_nil]
    exact howed

theorem Accords.setUp (h : s.Accords history) (task : Nat) (root : String) :
    (s.setUp task root).Sound history task := by
  have hfits : (Mark.pass task s root).Fits history := h.passes
  cases hbuilt : s.built? root with
  | none =>
    obtain ⟨published, htakeUp⟩ := takeUp_of_built?_eq_none hbuilt
    refine ⟨?_, ?_⟩
    · refine h.snoc hfits ?_ ?_ ?_
      · rw [Session.setUp, htakeUp]
        rfl
      · rw [Session.setUp, htakeUp, Mark.onTables, hbuilt]
      · rw [Session.setUp, htakeUp, Mark.onShelf, hbuilt, Option.toList_none, List.append_nil]
        exact h.passes
    · rw [Session.setUp, htakeUp]
      exact List.forall_mem_nil _
  | some table =>
    obtain ⟨published, scripts, htakeUp⟩ := takeUp_of_built? hbuilt
    refine ⟨?_, ?_⟩
    · refine h.snoc hfits ?_ ?_ ?_
      · rw [Session.setUp, htakeUp]
        rfl
      · rw [Session.setUp, htakeUp, Mark.onTables, hbuilt]
      · rw [Session.setUp, htakeUp, Mark.onShelf, hbuilt, Option.toList_some, List.length_append]
        exact congrArg (· + 1) h.passes
    · rw [Session.setUp, htakeUp]
      intro duty hduty
      rw [List.map_map] at hduty
      obtain ⟨⟨key, r⟩, he, rfl⟩ := List.mem_map.mp hduty
      exact ⟨[], history, s, table, r, rfl, hbuilt, rfl,
        Ordered.lookup_of_mem (nodup_of_built? hbuilt) he, rfl⟩

theorem Accords.giveUp (h : s.Accords history) (task : Nat) (path : String) :
    (s.giveUp path).Sound history task := by
  refine ⟨h.snoc trivial (s.files_forget path) ?_ ?_, List.forall_mem_nil _⟩
  · rw [Session.giveUp, forget, publishAt_eq]
    rfl
  · rw [Session.giveUp, forget, publishAt_eq]
    exact h.passes

theorem Accords.setOut (h : s.Accords history) (task : Nat) (operation : Operation) :
    (s.setOut task operation).Sound history task := by
  cases operation with
  | index folder =>
    refine h.idle rfl rfl rfl fun duty hduty ↦ ?_
    rcases List.mem_append.mp hduty with hduty | hduty
    · obtain ⟨root, -, rfl⟩ := List.mem_map.mp hduty
      trivial
    · obtain rfl := List.mem_singleton.mp hduty
      exact Workspace.nodup_discover s.disk s.settings folder
  | reindex uri =>
    rw [Session.setOut]
    cases s.opening (s.pathOf uri) with
    | pass =>
      have hadd : (s.addFile (s.pathOf uri)).Accords (history ++ [.list (s.pathOf uri)]) := by
        refine h.snoc trivial ?_ (s.addFile_spec _).2.1 ?_
        · rw [addFile, Mark.onFiles]
          split <;> rfl
        · rw [addFile, Mark.onShelf]
          split <;> exact h.passes
      obtain ⟨haccords, howed⟩ := hadd.setUp task (s.pathOf uri)
      rw [List.append_assoc] at haccords howed
      exact ⟨haccords, howed⟩
    | forget => exact h.giveUp task (s.pathOf uri)
    | all =>
      refine ⟨h.snoc h.files rfl rfl h.passes, fun duty hduty ↦ ?_⟩
      obtain ⟨root, -, rfl⟩ := List.mem_map.mp hduty
      trivial
    | nothing => exact h.idle rfl rfl rfl (List.forall_mem_nil _)
  | edit uri e => exact h.idle rfl rfl rfl (List.forall_mem_nil _)
  | change files folders => exact h.idle rfl rfl rfl (List.forall_mem_nil _)
  | configure settings => exact h.idle rfl rfl rfl (List.forall_mem_nil _)

theorem Accords.discharge (h : s.Accords history) {task : Nat} {duty : Duty}
    (hduty : duty.Owed history task) :
    (s.discharge task duty).Sound history task := by
  match duty, hduty with
  | .job (.pass root), _ =>
    rw [Session.discharge]
    split
    · exact h.setUp task root
    · exact h.idle rfl rfl rfl (List.forall_mem_nil _)
  | .job (.look begun key script), hfound =>
    refine h.idle rfl rfl rfl fun duty hduty ↦ ?_
    split at hduty
    · obtain rfl := List.mem_singleton.mp hduty
      exact hfound
    · cases hduty
  | .read begun key script, ⟨after, hfound⟩ =>
    refine ⟨h.snoc trivial rfl rfl h.passes, fun duty hduty ↦ ?_⟩
    obtain ⟨info, hinfo, rfl⟩ := Option.map_eq_some_iff.mp (Option.mem_toList.mp hduty)
    exact ⟨_, script, s.disk, hfound.append _, List.mem_append_right _ (List.mem_singleton_self _),
      hinfo⟩
  | .note begun key info, hnote =>
    refine ⟨h.snoc ⟨task, hnote⟩ rfl rfl ?_, List.forall_mem_nil _⟩
    rw [Mark.onShelf, List.length_modify]
    exact h.passes
  | .gather files, hnodup => exact ⟨h.snoc hnodup rfl rfl h.passes, List.forall_mem_nil _⟩

end Session

namespace Traffic

/-- The session is what its history has made of it, and every task knows what it has to know of the
duties that it is left with. -/
structure Sound (v : Traffic) : Prop where
  accords : v.session.Accords v.history
  owed : ∀ (task : Nat) (duties : List Duty), v.tasks[task]? = some duties →
    ∀ duty ∈ duties, duty.Owed v.history task

namespace Sound

variable {v : Traffic}

theorem fresh (disk : Disk) (settings : Settings) (documents : Documents) :
    (Traffic.fresh disk settings documents).Sound := ⟨⟨rfl, rfl, rfl, .nil⟩, nofun⟩

theorem proceed (h : v.Sound) {task : Nat} {stretch : Stretch} {rest : List Duty}
    (hstretch : stretch.Sound v.history task) (hrest : ∀ duty ∈ rest, duty.Owed v.history task) :
    (v.proceed task stretch rest).Sound := by
  refine ⟨hstretch.accords, fun other duties hduties duty hduty ↦ ?_⟩
  rw [Traffic.proceed, List.getElem?_set] at hduties
  split at hduties
  · next htask =>
    subst htask
    split at hduties
    · obtain rfl := Option.some.inj hduties
      rcases List.mem_append.mp hduty with hduty | hduty
      · exact hstretch.owed duty hduty
      · exact (hrest duty hduty).append _
    · cases hduties
  · exact (h.owed other duties hduties duty hduty).append _

theorem begin (h : v.Sound) {stretch : Nat → Stretch}
    (hstretch : ∀ task, (stretch task).Sound v.history task) :
    (v.begin stretch).Sound := by
  have hopen : Sound { v with tasks := v.tasks ++ [[]] } := by
    refine ⟨h.accords, fun task duties hduties duty hduty ↦ ?_⟩
    rcases getElem?_of_snoc_nil hduties with hduties | rfl
    · exact h.owed task duties hduties duty hduty
    · cases hduty
  exact hopen.proceed (hstretch _) (List.forall_mem_nil _)

theorem take (h : v.Sound) (turn : Turn) : (v.take turn).Sound := by
  cases turn with
  | operate operation => exact h.begin fun task ↦ h.accords.setOut task operation
  | pass root => exact h.begin fun task ↦ h.accords.setUp task root
  | forget path => exact h.begin fun task ↦ h.accords.giveUp task path
  | work task =>
    rw [Traffic.take]
    split
    · next duty rest hduties =>
      have howed := h.owed task _ hduties
      exact h.proceed (h.accords.discharge (howed duty List.mem_cons_self)) fun other hother ↦
        howed other (List.mem_cons_of_mem duty hother)
    · exact h

theorem follow (h : v.Sound) (turns : List Turn) : (v.follow turns).Sound :=
  List.foldlRecOn turns _ h fun _ h turn _ ↦ h.take turn

end Sound

/-! ## Whose table it is -/

theorem not_writes_of_mem_setOut (s : Session) (task : Nat) (operation : Operation) :
    ∀ m ∈ (s.setOut task operation).marks, ¬ m.Writes := by
  cases operation with
  | reindex uri =>
    rw [Session.setOut]
    cases s.opening (s.pathOf uri) with
    | pass => exact List.forall_mem_cons.mpr ⟨not_false, List.forall_mem_singleton.mpr not_false⟩
    | forget => exact List.forall_mem_singleton.mpr not_false
    | all => exact List.forall_mem_singleton.mpr not_false
    | nothing => exact List.forall_mem_nil _
  | index folder | edit uri e | change files folders | configure settings =>
      exact List.forall_mem_nil _

/-- Nothing is written down where a duty is discharged that is not to do so. -/
theorem not_writes_of_mem_discharge (s : Session) (task : Nat) {duty : Duty}
    (hduty : ∀ begun key info, duty ≠ .note begun key info) :
    ∀ m ∈ (s.discharge task duty).marks, ¬ m.Writes := by
  match duty, hduty with
  | .job (.pass root), _ =>
    rw [Session.discharge]
    split
    · exact List.forall_mem_singleton.mpr not_false
    · exact List.forall_mem_nil _
  | .job (.look begun key script), _ => exact List.forall_mem_nil _
  | .read begun key script, _ => exact List.forall_mem_singleton.mpr not_false
  | .note begun key info, hduty => exact absurd rfl (hduty begun key info)
  | .gather files, _ => exact List.forall_mem_singleton.mpr not_false

/-- A table on the shelf changes only where a task writes into the table of a pass of its own. -/
theorem Sound.shelfOf_take {v : Traffic} (h : v.Sound) (turn : Turn) {number : Nat}
    {table : FunctionTable} (htable : (shelfOf v.history)[number]? = some table) :
    (shelfOf (v.take turn).history)[number]? = some table ∨
      ∃ task begun key info rest, turn = .work task ∧
      v.tasks[task]? = some (.note begun key info :: rest) ∧
        begun.number = number ∧ (∃ script after, Found v.history task begun key script after) ∧
        (shelfOf (v.take turn).history)[number]?
          = some (Ordered.modify key (·.withInfo info) table) := by
  cases turn with
  | operate operation =>
      exact .inl (getElem?_shelfOf_append (not_writes_of_mem_setOut v.session _ operation) htable)
  | pass root =>
    have hmarks : ∀ m ∈ [Mark.pass v.tasks.length v.session root], ¬ m.Writes :=
      List.forall_mem_singleton.mpr not_false
    exact .inl (getElem?_shelfOf_append hmarks htable)
  | forget path =>
    have hmarks : ∀ m ∈ [Mark.forget path], ¬ m.Writes := List.forall_mem_singleton.mpr not_false
    exact .inl (getElem?_shelfOf_append hmarks htable)
  | work task =>
    rw [Traffic.take]
    split
    · next duty rest hduties =>
      by_cases hduty : ∃ begun key info, duty = .note begun key info
      · obtain ⟨begun, key, info, rfl⟩ := hduty
        have hhistory : (v.proceed task (v.session.discharge task (.note begun key info))
          rest).history
            = v.history ++ [.note begun key info] := rfl
        rw [hhistory, shelfOf_snoc, getElem?_onShelf_note, htable]
        by_cases hnumber : begun.number = number
        · obtain ⟨after, script, disk, hfound, -⟩ := h.owed task _ hduties _ List.mem_cons_self
          rw [if_pos hnumber]
          exact .inr ⟨task, begun, key, info, rest, rfl, hduties, hnumber,
            ⟨script, after, hfound⟩, rfl⟩
        · rw [if_neg hnumber]
          exact .inl rfl
      · have hmarks := not_writes_of_mem_discharge v.session task fun begun key info he ↦
          hduty ⟨begun, key, info, he⟩
        exact .inl (getElem?_shelfOf_append hmarks htable)
    · exact .inl htable

/-- **Every table belongs to one pass.** In whatever order passes begin, read and write down what
they have read, and root files are forgotten:

- a root file has a table just if the last that has been done to it is that a pass has built one;
- the table is the one of that pass: complete, and with nothing beyond what has been built but what
  the pass has read from the script of the record that says it;
- the same is known of every table that a pass has built, also when it has been replaced or dropped;
- such a table changes only when its own pass writes down what the header of one script says. -/
theorem tables_belong_to_passes (disk : Disk) (settings : Settings) (documents : Documents)
    (turns : List Turn) :
    let v := (fresh disk settings documents).follow turns
    (∀ root, (∃ indexed, v.session.functions.lookup root = some indexed) ↔
        ∃ number built after, LastBuilt v.history root number built after) ∧
      (∀ root indexed, v.session.functions.lookup root = some indexed →
        (shelfOf v.history)[indexed.pass]? = some indexed.table ∧
        ∃ built after, LastBuilt v.history root indexed.pass built after ∧
          indexed.table.IsOf built indexed.pass after) ∧
      (∀ number table, (shelfOf v.history)[number]? = some table →
        ∃ before task reader root built after, v.history = before ++
          .pass task reader root :: after ∧
          reader.built? root = some built ∧ reader.passes = number ∧
          table.IsOf built number after) ∧
      ∀ turn number table, (shelfOf v.history)[number]? = some table →
        (shelfOf (v.take turn).history)[number]? = some table ∨
          ∃ task begun key info rest, turn = .work task ∧
          v.tasks[task]? = some (.note begun key info :: rest) ∧
            begun.number = number ∧ (∃ script after, Found v.history task begun key script after) ∧
            (shelfOf (v.take turn).history)[number]?
              = some (Ordered.modify key (·.withInfo info) table) := by
  have hsound := (Sound.fresh disk settings documents).follow turns
  have hgenuine := hsound.accords.genuine
  intro v
  have hfunctions : v.session.functions = tablesOf v.history := hsound.accords.functions
  rw [hfunctions]
  refine ⟨fun root ↦ ⟨?_, ?_⟩, ?_, ?_, ?_⟩
  · rintro ⟨indexed, hlookup⟩
    obtain ⟨built, after, hlast, -⟩ := hgenuine.exists_lastBuilt hlookup
    exact ⟨indexed.pass, built, after, hlast⟩
  · rintro ⟨number, built, after, hlast⟩
    exact hlast.exists_lookup
  · intro root indexed hlookup
    obtain ⟨built, after, hlast, hshelf⟩ := hgenuine.exists_lastBuilt hlookup
    obtain ⟨before, task, reader, hsplit, hbuilt, hnumber, -⟩ := id hlast
    obtain ⟨table, htable, hof⟩ := hgenuine.exists_isOf hsplit hbuilt
    rw [hnumber] at htable hof
    obtain rfl : indexed.table = table := Option.some.inj (hshelf.symm.trans htable)
    exact ⟨hshelf, built, after, hlast, hof⟩
  · intro number table htable
    obtain ⟨before, task, reader, root, built, after, hsplit, hbuilt, rfl⟩ :=
      hgenuine.exists_pass (List.getElem?_eq_some_iff.mp htable).1
    obtain ⟨table', htable', hof⟩ := hgenuine.exists_isOf hsplit hbuilt
    obtain rfl : table = table' := Option.some.inj (htable.symm.trans htable')
    exact ⟨before, task, reader, root, built, after, hsplit, hbuilt, rfl, hof⟩
  · exact fun turn number table htable ↦ hsound.shelfOf_take turn htable

/-- A mission with one function, whose script has a header. -/
def documented : Traffic :=
  fresh
    { files :=
        [(["m", "description.ext"], .bytes (Text.encodeUtf8
            "class CfgFunctions\x7bclass T\x7bclass C\x7bclass f\x7b\x7d;\x7d;\x7d;\x7d;".toList)),
          (["m", "functions", "C", "fn_f.sqf"], .bytes (Text.encodeUtf8 "/* Author: A */".toList))]
          } {} []

/-- A pass has read a header when another pass puts its table in place. What the first writes down
then goes into its own table, and not into the other one. -/
example :
    let v := documented.follow [.pass "/m/description.ext", .work 0, .work 0,
      .pass "/m/description.ext", .work 0]
    (v.session.tables.map fun e ↦ e.2.map fun f ↦ (f.1, f.2.info.isSome)) = [[("t_fnc_f", false)]] ∧
      (shelfOf v.history).map (·.map fun f ↦ (f.1, f.2.info.isSome))
        = [[("t_fnc_f", true)], [("t_fnc_f", false)]] := by
  decide +kernel

end Traffic

end MissionIndex
