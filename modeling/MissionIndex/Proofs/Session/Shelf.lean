import MissionIndex.Proofs.Registry.Declarations
import MissionIndex.Proofs.Session.Traffic

/-!
# Histories and the tables that passes hold

A pass that has put its table in place goes on reading the headers of scripts, and by the time it
writes something down a later pass may have put another table there, or the root file may have been
forgotten. It still holds its own table then and writes into that. So all tables that passes have
built stay on a *shelf*, where the number of a pass says which is its own, and what can be looked up
in a session is some of them.

The root files, the tables and the shelf are all that the marks of a history make them one after
another. What is known of the marks themselves is that each *fits* what has been done before it: a
pass takes the next free number, and what is written down has been read, in the same pass, from the
script of the record it is about.
-/

namespace MissionIndex

open Config

/-! ## Tables as they are built -/

/-- A record before its script has been looked into. -/
def FunctionRecord.bare (r : FunctionRecord) : FunctionRecord := { r with info := none }

theorem FunctionTable.lookup_bare (table : FunctionTable) (key : String) :
    table.bare.lookup key = (table.lookup key).map FunctionRecord.bare :=
  Ordered.lookup_map_snd FunctionRecord.bare table key

theorem FunctionTable.info_of_bare {table : FunctionTable} (h : table.bare = table) {key : String}
    {r : FunctionRecord} (hr : table.lookup key = some r) : r.info = none := by
  have hbare := table.lookup_bare key
  rw [h, hr, Option.map_some] at hbare
  rw [Option.some.inj hbare]
  rfl

theorem Registry.bare_build {settings : Settings} {disk : Disk} {root : String}
    {tree : ConfigClass} {b : Build} (h : build settings disk root tree = .ok b) :
    b.functions.bare = b.functions := by
  have hnone : ∀ e ∈ b.functions, e.2.info = none := by
    rw [(build_eq_ok h).1]
    refine List.foldlRecOn (motive := fun table : FunctionTable ↦ ∀ e ∈ table, e.2.info = none) _ _
      (List.forall_mem_nil _) ?_
    intro table htable e he e' he'
    rcases Ordered.mem_of_mem_put he' with rfl | he'
    · obtain ⟨d, -, rfl⟩ := List.mem_map.mp he
      rfl
    · exact htable e' he'
  refine (List.map_congr_left fun e he ↦ ?_).trans (List.map_id _)
  obtain ⟨key, r⟩ := e
  exact congrArg (fun info ↦ (key, { r with info })) (hnone _ he).symm

namespace Session

variable {s : Session} {root : String} {table : FunctionTable}

/-- The table that a build gives for a root file now, if it can be parsed. -/
def built? (s : Session) (root : String) : Option FunctionTable :=
  match (s.sources.parse root).result with
  | .error _ => none
  | .ok tree =>
    match Registry.build s.settings s.disk root tree with
    | .error _ => none
    | .ok build => some build.functions

theorem built?_eq_some_iff : s.built? root = some table ↔
    ∃ tree build, (s.sources.parse root).result = .ok tree ∧
      Registry.build s.settings s.disk root tree = .ok build ∧ build.functions = table := by
  cases hresult : (s.sources.parse root).result with
  | error stop => simp [built?, hresult]
  | ok tree =>
    cases hbuild : Registry.build s.settings s.disk root tree with
    | error e => simp [built?, hresult, hbuild]
    | ok build => simp [built?, hresult, hbuild]

theorem bare_of_built? (h : s.built? root = some table) : table.bare = table := by
  obtain ⟨tree, build, -, hbuild, rfl⟩ := built?_eq_some_iff.mp h
  exact Registry.bare_build hbuild

theorem nodup_of_built? (h : s.built? root = some table) : (table.map Prod.fst).Nodup := by
  obtain ⟨tree, build, -, hbuild, rfl⟩ := built?_eq_some_iff.mp h
  rw [(Registry.build_eq_ok hbuild).1]
  exact Ordered.nodup_map_fst_ofEntries _

/-- A pass that can read its root file puts the table in place and has the scripts to look into. -/
theorem takeUp_of_built? (h : s.built? root = some table) :
    ∃ published scripts, s.takeUp root
      = ({ s with
            published
            passes := s.passes + 1
            functions := Ordered.put root ⟨s.passes, table⟩ s.functions },
          table.map fun e ↦ .look { root, number := s.passes, scripts } e.1 e.2.script) := by
  obtain ⟨tree, build, hparse, hbuild, rfl⟩ := built?_eq_some_iff.mp h
  refine ⟨s.published ++ s.batch root, build.functions.map fun e ↦ (e.1, e.2.script), ?_⟩
  rw [takeUp, beginPass_of_ok hparse hbuild]
  dsimp only
  rw [List.map_map]
  rfl

theorem takeUp_of_built?_eq_none (h : s.built? root = none) :
    ∃ published, s.takeUp root = ({ s with published }, []) := by
  cases hresult : (s.sources.parse root).result with
  | error stop =>
    cases stop with
    | fault e => exact ⟨_, by rw [takeUp, beginPass_of_fault hresult]⟩
    | error e => exact ⟨_, by rw [takeUp, beginPass_of_error hresult]⟩
  | ok tree =>
    obtain ⟨build, hbuild, -⟩ := s.build_isOk_of_parse root hresult
    rw [built?_eq_some_iff.mpr ⟨tree, build, hresult, hbuild, rfl⟩] at h
    cases h

end Session

/-! ## What marks make of a session -/

def FunctionRecord.withInfo (info : Header.Info) (r : FunctionRecord) : FunctionRecord :=
  { r with info := some info }

namespace Mark

def onFiles (files : List String) : Mark → List String
  | list path => if files.contains path then files else files ++ [path]
  | forget path => files.erase path
  | gather found => found
  | pass _ _ _ | read _ _ _ | note _ _ _ | takeOn _ _ => files

def onTables (tables : List (String × Indexed)) : Mark → List (String × Indexed)
  | pass _ reader root =>
    match reader.built? root with
    | some table => Ordered.put root ⟨reader.passes, table⟩ tables
    | none => tables
  | note begun key info => Ordered.modify begun.root (Session.document begun.number key info) tables
  | forget path => Ordered.erase path tables
  | list _ | read _ _ _ | takeOn _ _ | gather _ => tables

/-- The tables that passes hold after a mark, in the order of the passes. -/
def onShelf (shelf : List FunctionTable) : Mark → List FunctionTable
  | pass _ reader root => shelf ++ (reader.built? root).toList
  | note begun key info => shelf.modify begun.number (Ordered.modify key (·.withInfo info))
  | list _ | read _ _ _ | forget _ | takeOn _ _ | gather _ => shelf

/-- A mark of something that has been written down. -/
def Writes : Mark → Prop
  | note _ _ _ => True
  | list _ | pass _ _ _ | read _ _ _ | forget _ | takeOn _ _ | gather _ => False

/-- A mark that takes the table of a root file away, or puts another in its place. -/
def Replaces (root : String) : Mark → Prop
  | pass _ reader other => other = root ∧ (reader.built? root).isSome
  | forget path => path = root
  | list _ | read _ _ _ | note _ _ _ | takeOn _ _ | gather _ => False

end Mark

def filesOf (history : List Mark) : List String := history.foldl Mark.onFiles []

def tablesOf (history : List Mark) : List (String × Indexed) := history.foldl Mark.onTables []

/-- All tables that passes hold after a history. -/
def shelfOf (history : List Mark) : List FunctionTable := history.foldl Mark.onShelf []

section Histories

variable (history : List Mark) (m : Mark)

@[simp] theorem filesOf_snoc : filesOf (history ++ [m]) = m.onFiles (filesOf history) := by
  rw [filesOf, List.foldl_append]
  rfl

@[simp] theorem tablesOf_snoc : tablesOf (history ++ [m]) = m.onTables (tablesOf history) := by
  rw [tablesOf, List.foldl_append]
  rfl

@[simp] theorem shelfOf_snoc : shelfOf (history ++ [m]) = m.onShelf (shelfOf history) := by
  rw [shelfOf, List.foldl_append]
  rfl

theorem nodup_tablesOf : ((tablesOf history).map Prod.fst).Nodup := by
  refine List.foldlRecOn (motive := fun tables : List (String × Indexed) ↦
    (tables.map Prod.fst).Nodup) _ _
    List.nodup_nil fun tables htables m _ ↦ ?_
  cases m with
  | pass task reader root =>
    rw [Mark.onTables]
    split
    · exact Ordered.nodup_map_fst_put htables _ _
    · exact htables
  | note begun key info =>
    rw [Mark.onTables, Ordered.map_fst_modify]
    exact htables
  | forget path => exact Ordered.nodup_map_fst_erase htables path
  | list _ | read _ _ _ | takeOn _ _ | gather _ => exact htables

theorem length_shelfOf_le (more : List Mark) :
    (shelfOf history).length ≤ (shelfOf (history ++ more)).length := by
  rw [shelfOf, shelfOf, List.foldl_append]
  refine List.foldlRecOn
    (motive := fun shelf : List FunctionTable ↦ (history.foldl Mark.onShelf []).length
      ≤ shelf.length) _ _
    (Nat.le_refl _) fun shelf hshelf m _ ↦ hshelf.trans ?_
  cases m with
  | pass task reader root =>
    rw [Mark.onShelf, List.length_append]
    exact Nat.le_add_right _ _
  | note begun key info => rw [Mark.onShelf, List.length_modify]
  | list _ | read _ _ _ | forget _ | takeOn _ _ | gather _ => exact Nat.le_refl _

theorem getElem?_onShelf_note (shelf : List FunctionTable) (begun : Pass) (key : String)
    (info : Header.Info) (number : Nat) :
    (Mark.onShelf shelf (.note begun key info))[number]?
      = if begun.number = number then shelf[number]?.map (Ordered.modify key (·.withInfo info))
        else shelf[number]? := by
  rw [Mark.onShelf, List.getElem?_modify]
  split <;> cases shelf[number]? <;> rfl

theorem getElem?_shelfOf_append {history marks : List Mark}
    (hmarks : ∀ m ∈ marks, ¬ m.Writes) {number : Nat} {table : FunctionTable}
    (h : (shelfOf history)[number]? = some table) :
    (shelfOf (history ++ marks))[number]? = some table := by
  rw [shelfOf, List.foldl_append]
  refine List.foldlRecOn (motive := fun shelf : List FunctionTable ↦ shelf[number]?
    = some table) _ _ h ?_
  intro shelf hshelf m hm
  cases m with
  | pass task reader root =>
    rw [Mark.onShelf, List.getElem?_append_left (List.getElem?_eq_some_iff.mp hshelf).1]
    exact hshelf
  | note begun key info => exact absurd trivial (hmarks _ hm)
  | list _ | read _ _ _ | forget _ | takeOn _ _ | gather _ => exact hshelf

/-- A mark of a history that goes on stands in what was there before or in what is new. -/
theorem split_of_append {history marks before after : List Mark} {m : Mark}
    (h : history ++ marks = before ++ m :: after) :
    (∃ middle, history = before ++ m :: middle ∧ after = middle ++ marks) ∨
      ∃ middle, before = history ++ middle ∧ marks = middle ++ m :: after := by
  rcases List.append_eq_append_iff.mp h with ⟨middle, hbefore, hmarks⟩ | ⟨middle, hhistory, hrest⟩
  · exact .inr ⟨middle, hbefore, hmarks⟩
  · cases middle with
    | nil =>
      rw [List.append_nil] at hhistory
      exact .inr ⟨[], by rw [hhistory, List.append_nil], hrest.symm⟩
    | cons m' middle =>
      obtain ⟨rfl, hafter⟩ := List.cons.inj hrest
      exact .inl ⟨middle, hhistory, hafter⟩

theorem split_of_singleton {before after : List Mark} {m m' : Mark}
    (h : [m] = before ++ m' :: after) :
    before = [] ∧ m = m' ∧ after = [] := by
  rcases List.append_eq_singleton_iff.mp h.symm with ⟨hbefore, hrest⟩ | ⟨-, hrest⟩
  · obtain ⟨hm, hafter⟩ := List.cons.inj hrest
    exact ⟨hbefore, hm.symm, hafter⟩
  · cases hrest

theorem split_of_snoc {history before after : List Mark} {m m' : Mark}
    (h : history ++ [m] = before ++ m' :: after) :
    (history = before ∧ m = m' ∧ after = []) ∨
      ∃ earlier, history = before ++ m' :: earlier ∧ after = earlier ++ [m] := by
  rcases split_of_append h with hearlier | ⟨middle, hbefore, hlast⟩
  · exact .inr hearlier
  · obtain ⟨rfl, rfl, rfl⟩ := split_of_singleton hlast
    rw [List.append_nil] at hbefore
    exact .inl ⟨hbefore.symm, rfl, rfl⟩

end Histories

/-! ## Genuine histories -/

/-- A task has begun a pass and found a function with a script there, and `after` has been done
since. -/
def Found (history : List Mark) (task : Nat) (begun : Pass) (key script : String)
    (after : List Mark) : Prop :=
  ∃ before reader table r, history = before ++ .pass task reader begun.root :: after ∧
    reader.built? begun.root = some table ∧ reader.passes = begun.number ∧
    table.lookup key = some r ∧ r.script = script

theorem Found.append {history after : List Mark} {task : Nat} {begun : Pass} {key script : String}
    (h : Found history task begun key script after) (more : List Mark) :
    Found (history ++ more) task begun key script (after ++ more) := by
  obtain ⟨before, reader, table, r, rfl, hr⟩ := h
  refine ⟨before, reader, table, r, ?_, hr⟩
  rw [List.append_assoc, List.cons_append]

def Duty.Owed (history : List Mark) (task : Nat) : Duty → Prop
  | job (.pass _) => True
  | job (.look begun key script) | read begun key script => ∃ after,
      Found history task begun key script after
  | note begun key info => ∃ after script disk, Found history task begun key script after ∧
      .read begun.number script disk ∈ after ∧ Header.ofScript? disk script = some info
  | gather files => files.Nodup

theorem Duty.Owed.append {history : List Mark} {task : Nat} {duty : Duty}
    (h : duty.Owed history task) (more : List Mark) : duty.Owed (history ++ more) task := by
  match duty, h with
  | .job (.pass _), _ => trivial
  | .job (.look _ _ _), ⟨after, hfound⟩ => exact ⟨after ++ more, hfound.append more⟩
  | .read _ _ _, ⟨after, hfound⟩ => exact ⟨after ++ more, hfound.append more⟩
  | .note _ _ _, ⟨after, script, disk, hfound, hread, hinfo⟩ =>
    exact ⟨after ++ more, script, disk, hfound.append more, List.mem_append_left more hread, hinfo⟩
  | .gather _, hnodup => exact hnodup

/-- What is known of a mark from what has been done before it. -/
def Mark.Fits (before : List Mark) : Mark → Prop
  | pass _ reader _ => reader.passes = (shelfOf before).length
  | note begun key info => ∃ task, (Duty.note begun key info).Owed before task
  | takeOn _ roots => roots = filesOf before
  | gather files => files.Nodup
  | list _ | read _ _ _ | forget _ => True

/-- Every mark fits what has been done before it. -/
inductive Genuine : List Mark → Prop
  | nil : Genuine []
  | snoc {history : List Mark} {m : Mark} : Genuine history → m.Fits history →
      Genuine (history ++ [m])

namespace Genuine

variable {history : List Mark}

theorem fits (h : Genuine history) {before after : List Mark} {m : Mark}
    (hsplit : history = before ++ m :: after) :
    m.Fits before := by
  induction h generalizing after with
  | nil => simp at hsplit
  | snoc _ hfits ih =>
    rcases split_of_snoc hsplit with ⟨rfl, rfl, -⟩ | ⟨earlier, hearlier, -⟩
    · exact hfits
    · exact ih hearlier

/-- No two passes have one number. -/
theorem pass_unique (h : Genuine history) {before after before' after' : List Mark}
    {task task' : Nat} {reader reader' : Session} {root root' : String}
    (hsplit : history = before ++ .pass task reader root :: after)
    (hsplit' : history = before' ++ .pass task' reader' root' :: after')
    (hbuilt : (reader.built? root).isSome) (hbuilt' : (reader'.built? root').isSome)
    (hnumber : reader.passes = reader'.passes) :
    before = before' ∧ task = task' ∧ reader = reader' ∧ root = root' ∧ after = after' := by
  have hlength : (shelfOf before).length = (shelfOf before').length :=
    (h.fits hsplit).symm.trans (hnumber.trans (h.fits hsplit'))
  -- A pass that stands before another has put its table on the shelf by then.
  have hearlier : ∀ {early late middle : List Mark} {task : Nat} {reader : Session} {root : String},
      (reader.built? root).isSome → late = early ++ .pass task reader root :: middle →
        (shelfOf early).length < (shelfOf late).length := by
    rintro early late middle task reader root hsome rfl
    obtain ⟨table, htable⟩ := Option.isSome_iff_exists.mp hsome
    have hle := length_shelfOf_le (early ++ [.pass task reader root]) middle
    rw [shelfOf_snoc, Mark.onShelf, htable, Option.toList_some, List.length_append,
      List.append_assoc] at hle
    exact hle
  rcases split_of_append (hsplit.symm.trans hsplit') with ⟨middle, hmiddle, -⟩ | ⟨middle,
    hmiddle, hrest⟩
  · exact absurd hlength.symm (hearlier hbuilt' hmiddle).ne
  · cases middle with
    | nil =>
      obtain ⟨hpass, hafter⟩ := List.cons.inj hrest
      cases hpass
      rw [List.append_nil] at hmiddle
      exact ⟨hmiddle.symm, rfl, rfl, rfl, hafter⟩
    | cons m middle =>
      obtain ⟨rfl, -⟩ := List.cons.inj hrest
      exact absurd hlength (hearlier hbuilt hmiddle).ne

end Genuine

/-! ## Tables on the shelf -/

/-- The last that has been done to the table of a root file is that a pass has built it, and `after`
has been done since. -/
def LastBuilt (history : List Mark) (root : String) (number : Nat) (built : FunctionTable)
    (after : List Mark) : Prop :=
  ∃ before task reader, history = before ++ .pass task reader root :: after ∧
    reader.built? root = some built ∧ reader.passes = number ∧ ∀ m ∈ after, ¬ m.Replaces root

theorem LastBuilt.snoc {history after : List Mark} {root : String} {number : Nat}
    {built : FunctionTable} (h : LastBuilt history root number built after) {m : Mark}
    (hm : ¬ m.Replaces root) :
    LastBuilt (history ++ [m]) root number built (after ++ [m]) := by
  obtain ⟨before, task, reader, rfl, hbuilt, hnumber, hafter⟩ := h
  refine ⟨before, task, reader, by rw [List.append_assoc, List.cons_append], hbuilt, hnumber, ?_⟩
  intro m' hm'
  rcases List.mem_append.mp hm' with hm' | hm'
  · exact hafter m' hm'
  · rwa [List.mem_singleton.mp hm']

/-- A table is the one that a pass has built, and what it says beyond that has been read within the
pass, each time from the script of the record that says it. -/
structure FunctionTable.IsOf (table built : FunctionTable) (number : Nat) (after : List Mark) :
    Prop where
  bare : table.bare = built
  told : ∀ key r info, table.lookup key = some r → r.info = some info →
    ∃ disk, .read number r.script disk ∈ after ∧ Header.ofScript? disk r.script = some info

namespace FunctionTable.IsOf

variable {table built : FunctionTable} {number : Nat} {after : List Mark}

theorem append (h : table.IsOf built number after) (more : List Mark) :
    table.IsOf built number (after ++ more) := by
  refine ⟨h.bare, fun key r info hr hinfo ↦ ?_⟩
  obtain ⟨disk, hread, htold⟩ := h.told key r info hr hinfo
  exact ⟨disk, List.mem_append_left more hread, htold⟩

/-- A pass writes down what it has read from the script of a function that it has found. -/
theorem withInfo (h : table.IsOf built number after) {key : String} {r : FunctionRecord}
    {disk : Disk} {info : Header.Info} (hr : built.lookup key = some r)
    (hread : .read number r.script disk ∈ after)
    (hinfo : Header.ofScript? disk r.script = some info) :
    FunctionTable.IsOf (Ordered.modify key (·.withInfo info) table) built number after := by
  constructor
  · rw [← h.bare]
    exact FunctionTable.bare_modify key info table
  · intro key' r' info' hr' hinfo'
    rw [Ordered.lookup_modify] at hr'
    split at hr'
    · next hkey =>
      subst hkey
      obtain ⟨old, hold, rfl⟩ := Option.map_eq_some_iff.mp hr'
      have hscript : r.script = old.script := by
        rw [← h.bare, FunctionTable.lookup_bare, hold] at hr
        rw [← Option.some.inj hr]
        rfl
      obtain rfl : info = info' := Option.some.inj hinfo'
      rw [hscript] at hread hinfo
      exact ⟨disk, hread, hinfo⟩
    · exact h.told key' r' info' hr' hinfo'

end FunctionTable.IsOf

namespace Genuine

variable {history before after : List Mark} {task : Nat} {reader : Session} {root : String}

/-- On the shelf, a pass has the table that it has built. -/
theorem exists_isOf (h : Genuine history) {built : FunctionTable}
    (hsplit : history = before ++ .pass task reader root :: after)
    (hbuilt : reader.built? root = some built) :
    ∃ table, (shelfOf history)[reader.passes]? = some table ∧
    table.IsOf built reader.passes after := by
  induction h generalizing after with
  | nil => simp at hsplit
  | @snoc history m hgenuine hfits ih =>
    rcases split_of_snoc hsplit with ⟨rfl, rfl, rfl⟩ | ⟨earlier, hearlier, rfl⟩
    · have hbare := Session.bare_of_built? hbuilt
      refine ⟨built, ?_, hbare, fun key r info hr hinfo ↦ ?_⟩
      · have hnumber : reader.passes = (shelfOf history).length := hfits
        rw [shelfOf_snoc, Mark.onShelf, hbuilt, hnumber]
        exact List.getElem?_concat_length
      · rw [FunctionTable.info_of_bare hbare hr] at hinfo
        cases hinfo
    · obtain ⟨table, htable, hof⟩ := ih hearlier
      cases m with
      | pass task' reader' root' =>
        refine ⟨table, ?_, hof.append _⟩
        rw [shelfOf_snoc, Mark.onShelf,
          List.getElem?_append_left (List.getElem?_eq_some_iff.mp htable).1]
        exact htable
      | note begun key info =>
        rw [shelfOf_snoc, getElem?_onShelf_note, htable]
        by_cases hnumber : begun.number = reader.passes
        · -- The only pass with the number is this one, so what is written down has been read in it.
          obtain ⟨task', after', script, disk, hfound, hread, hinfo⟩ := hfits
          obtain ⟨before', reader', built', r, hsplit', hbuilt', hnumber', hr, rfl⟩ := hfound
          obtain ⟨-, -, rfl, rfl, rfl⟩ := hgenuine.pass_unique hearlier hsplit'
            (Option.isSome_iff_exists.mpr ⟨built, hbuilt⟩)
              (Option.isSome_iff_exists.mpr ⟨built', hbuilt'⟩)
            (hnumber.symm.trans hnumber'.symm)
          rw [hbuilt] at hbuilt'
          cases hbuilt'
          rw [hnumber] at hread
          exact ⟨_, if_pos hnumber, (hof.withInfo hr hread hinfo).append _⟩
        · exact ⟨table, if_neg hnumber, hof.append _⟩
      | list _ | read _ _ _ | forget _ | takeOn _ _ | gather _ =>
        exact ⟨table, by rw [shelfOf_snoc]; exact htable, hof.append _⟩

/-- The table of a root file is the one that the last pass over it has on the shelf. -/
theorem exists_lastBuilt (h : Genuine history) {indexed : Indexed}
    (hlookup : (tablesOf history).lookup root = some indexed) :
    ∃ built after, LastBuilt history root indexed.pass built after ∧
      (shelfOf history)[indexed.pass]? = some indexed.table := by
  induction h generalizing indexed with
  | nil => cases hlookup
  | @snoc history m hgenuine hfits ih =>
    rw [tablesOf_snoc] at hlookup
    rw [shelfOf_snoc]
    cases m with
    | pass task reader other =>
      rw [Mark.onTables] at hlookup
      rw [Mark.onShelf]
      cases hbuilt : reader.built? other with
      | none =>
        rw [hbuilt] at hlookup
        obtain ⟨built, after, hlast, hshelf⟩ := ih hlookup
        refine ⟨built, _, hlast.snoc ?_, ?_⟩
        · rintro ⟨rfl, hsome⟩
          rw [hbuilt] at hsome
          cases hsome
        · rw [Option.toList_none, List.append_nil]
          exact hshelf
      | some built =>
        rw [hbuilt] at hlookup
        dsimp only at hlookup
        by_cases hroot : root = other
        · subst hroot
          rw [Ordered.lookup_put_self] at hlookup
          cases hlookup
          refine ⟨built, [], ⟨history, task, reader, rfl, hbuilt, rfl, List.forall_mem_nil _⟩, ?_⟩
          have hnumber : reader.passes = (shelfOf history).length := hfits
          rw [Option.toList_some, hnumber]
          exact List.getElem?_concat_length
        · rw [Ordered.lookup_put_of_ne hroot] at hlookup
          obtain ⟨built', after, hlast, hshelf⟩ := ih hlookup
          refine ⟨built', _, hlast.snoc fun hm ↦ hroot hm.1.symm, ?_⟩
          rw [List.getElem?_append_left (List.getElem?_eq_some_iff.mp hshelf).1]
          exact hshelf
    | note begun key info =>
      rw [Mark.onTables, Ordered.lookup_modify] at hlookup
      rw [getElem?_onShelf_note]
      split at hlookup
      · next hroot =>
        obtain ⟨old, hold, rfl⟩ := Option.map_eq_some_iff.mp hlookup
        obtain ⟨built, after, hlast, hshelf⟩ := ih hold
        rw [Session.document]
        by_cases hnumber : old.pass = begun.number
        · rw [if_pos hnumber, if_pos hnumber.symm]
          refine ⟨built, _, hlast.snoc not_false, ?_⟩
          dsimp only
          rw [hshelf]
          rfl
        · rw [if_neg hnumber, if_neg (Ne.symm hnumber)]
          exact ⟨built, _, hlast.snoc not_false, hshelf⟩
      · next hroot =>
        obtain ⟨built, after, hlast, hshelf⟩ := ih hlookup
        -- The pass that writes something down is over another root file, so it has another number.
        have hnumber : begun.number ≠ indexed.pass := by
          intro hnumber
          obtain ⟨_, _, _, hsplit, hbuilt, hpass, -⟩ := hlast
          obtain ⟨_, _, _, _, ⟨_, _, built', _, hsplit', hbuilt', hpass', -⟩, -⟩ := hfits
          obtain ⟨-, -, -, hother, -⟩ := hgenuine.pass_unique hsplit hsplit'
            (Option.isSome_iff_exists.mpr ⟨built, hbuilt⟩)
              (Option.isSome_iff_exists.mpr ⟨built', hbuilt'⟩)
            (hpass.trans (hnumber.symm.trans hpass'.symm))
          exact hroot hother
        rw [if_neg hnumber]
        exact ⟨built, _, hlast.snoc not_false, hshelf⟩
    | forget path =>
      rw [Mark.onTables] at hlookup
      by_cases hroot : root = path
      · rw [hroot, Ordered.lookup_erase_self (nodup_tablesOf history)] at hlookup
        cases hlookup
      · rw [Ordered.lookup_erase_of_ne hroot] at hlookup
        obtain ⟨built, after, hlast, hshelf⟩ := ih hlookup
        exact ⟨built, _, hlast.snoc fun hm ↦ hroot hm.symm, hshelf⟩
    | list _ | read _ _ _ | takeOn _ _ | gather _ =>
      obtain ⟨built, after, hlast, hshelf⟩ := ih hlookup
      exact ⟨built, _, hlast.snoc not_false, hshelf⟩

/-- Every table on the shelf has been built by a pass. -/
theorem exists_pass (h : Genuine history) {number : Nat}
    (hnumber : number < (shelfOf history).length) :
    ∃ before task reader root built after, history = before ++ .pass task reader root :: after ∧
      reader.built? root = some built ∧ reader.passes = number := by
  induction h with
  | nil => cases hnumber
  | @snoc history m _ hfits ih =>
    by_cases hearlier : number < (shelfOf history).length
    · obtain ⟨before, task, reader, root, built, after, hsplit, hbuilt, hpass⟩ := ih hearlier
      refine ⟨before, task, reader, root, built, after ++ [m], ?_, hbuilt, hpass⟩
      rw [hsplit, List.append_assoc, List.cons_append]
    · rw [shelfOf_snoc] at hnumber
      cases m with
      | pass task reader root =>
        rw [Mark.onShelf, List.length_append] at hnumber
        have hpass : reader.passes = (shelfOf history).length := hfits
        cases hbuilt : reader.built? root with
        | none =>
          rw [hbuilt] at hnumber
          exact absurd hnumber hearlier
        | some built =>
          rw [hbuilt] at hnumber
          refine ⟨history, task, reader, root, built, [], rfl, hbuilt, ?_⟩
          rw [Option.toList_some, List.length_singleton] at hnumber
          omega
      | note begun key info =>
        rw [Mark.onShelf, List.length_modify] at hnumber
        exact absurd hnumber hearlier
      | list _ | read _ _ _ | forget _ | takeOn _ _ | gather _ => exact absurd hnumber hearlier

end Genuine

/-- A table that a pass has built is there until something takes it away or puts another in its
place. -/
theorem LastBuilt.exists_lookup {history after : List Mark} {root : String} {number : Nat}
    {built : FunctionTable} (h : LastBuilt history root number built after) :
    ∃ indexed, (tablesOf history).lookup root = some indexed := by
  obtain ⟨before, task, reader, rfl, hbuilt, -, hafter⟩ := h
  rw [← Option.isSome_iff_exists, Ordered.isSome_lookup_iff, tablesOf, List.foldl_append,
    List.foldl_cons]
  have hput : root ∈ ((Mark.pass task reader root).onTables (before.foldl Mark.onTables [])).map
      Prod.fst := by
    rw [Mark.onTables, hbuilt]
    exact Ordered.mem_map_fst_put.mpr (.inl rfl)
  refine List.foldlRecOn (motive := fun tables : List (String × Indexed) ↦ root
    ∈ tables.map Prod.fst) _ _ hput ?_
  intro tables htables m hm
  have hkept := hafter m hm
  cases m with
  | pass task reader other =>
    rw [Mark.onTables]
    split
    · exact Ordered.mem_map_fst_put.mpr (.inr htables)
    · exact htables
  | note begun key info =>
    rw [Mark.onTables, Ordered.map_fst_modify]
    exact htables
  | forget path =>
    rw [← Ordered.isSome_lookup_iff, Mark.onTables, Ordered.lookup_erase_of_ne fun he ↦
      hkept he.symm]
    exact Ordered.isSome_lookup_iff.mpr htables
  | list _ | read _ _ _ | takeOn _ _ | gather _ => exact htables

end MissionIndex
