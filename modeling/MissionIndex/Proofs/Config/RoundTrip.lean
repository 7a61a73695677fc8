import MissionIndex.Proofs.Config.Inclusion
import MissionIndex.Proofs.Config.Rendering

/-!
# Writing trees

A tree in which no class has a base can be written out as statements, and parsing the rendered
statements gives the tree back: its names, its values, and the order of both.

## The statements of a tree

A tree does not determine its statements. The spelling of a variable is lost in it, and so is the
order in which variables and classes took turns. So `Body.Written` is a relation: any spelling will
do, and any order in which the variables come one after another as in the tree, and the classes too.
Trees whose names can be spelled have such statements (`Body.Writable.exists_written`).
-/

namespace MissionIndex

theorem Ordered.put_append {α : Type} {front table : List (String × α)} {key : String} {value : α}
    (hkey : key ∉ table.map Prod.fst)
    (h : (front.map Prod.fst).Disjoint (((key, value) :: table).map Prod.fst)) :
    ((put key value front).map Prod.fst).Disjoint (table.map Prod.fst) ∧
      put key value front ++ table = front ++ (key, value) :: table := by
  obtain ⟨hnew, hrest⟩ := List.disjoint_cons_right.mp h
  rw [put_of_notMem hnew]
  constructor
  · rw [List.map_append, List.disjoint_append_left]
    exact ⟨hrest, List.singleton_disjoint.mpr hkey⟩
  · rw [List.append_assoc, List.singleton_append]

namespace Config

open Text

/-! ## Trees that can be written -/

/-- A class has a name that can be spelled and that belongs to the key, and no base. -/
structure ConfigClass.IsPlain (c : ConfigClass) (key : String) : Prop where
  isName : IsName c.name
  lower_name : lower c.name = key
  base : c.base = none

/-- A body can be written: no key comes twice, all keys are those of names that can be spelled, and
the classes have no bases and can be written as well. -/
inductive Body.Writable : Body ConfigClass → Prop
  | intro {values : List (String × Value)} {classes : List (String × ConfigClass)} :
      (values.map Prod.fst).Nodup → (classes.map Prod.fst).Nodup →
      (∀ e ∈ values, ∃ name, IsVariable name ∧ lower name = e.1) →
      (∀ e ∈ classes, e.2.IsPlain e.1) →
      (∀ e ∈ classes, e.2.body.Writable) → Body.Writable ⟨values, classes⟩

def Value.assignment (name : String) : Value → Statement
  | .text s => .assign name s
  | .list items => .assignList name false items

/-- Statements that say what a body holds. Variables and classes come in the order of the body, and
may take turns in any way. -/
inductive Body.Written : Body ConfigClass → List Statement → Prop
  | nil : Body.Written {} []
  | value {key name : String} {value : Value} {values : List (String × Value)}
      {classes : List (String × ConfigClass)} {ss : List Statement} : IsVariable name →
        lower name = key →
      key ∉ values.map Prod.fst → Body.Written ⟨values, classes⟩ ss →
      Body.Written ⟨(key, value) :: values, classes⟩ (value.assignment name :: ss)
  | «class» {key : String} {c : ConfigClass} {values : List (String × Value)}
      {classes : List (String × ConfigClass)} {inner ss : List Statement} : c.IsPlain key →
      key ∉ classes.map Prod.fst → c.body.Written inner → Body.Written ⟨values, classes⟩ ss →
      Body.Written ⟨values, (key, c) :: classes⟩ (.define ⟨c.name, c.location⟩ none inner :: ss)

theorem exists_written_classes {classes : List (String × ConfigClass)}
    (hkeys : (classes.map Prod.fst).Nodup) (hplain : ∀ e ∈ classes, e.2.IsPlain e.1)
    (hbodies : ∀ e ∈ classes, ∃ inner, e.2.body.Written inner) :
    ∃ ss, Body.Written ⟨[], classes⟩ ss := by
  induction classes with
  | nil => exact ⟨[], .nil⟩
  | cons e classes ih =>
    rw [List.forall_mem_cons] at hplain hbodies
    obtain ⟨hnew, hkeys⟩ := List.nodup_cons.mp hkeys
    obtain ⟨inner, hinner⟩ := hbodies.1
    obtain ⟨ss, hss⟩ := ih hkeys hplain.2 hbodies.2
    exact ⟨_, .class hplain.1 hnew hinner hss⟩

theorem exists_written_values {values : List (String × Value)}
    {classes : List (String × ConfigClass)} (hkeys : (values.map Prod.fst).Nodup)
    (hnames : ∀ e ∈ values, ∃ name, IsVariable name ∧ lower name = e.1)
    (hclasses : ∃ ss, Body.Written ⟨[], classes⟩ ss) : ∃ ss, Body.Written ⟨values, classes⟩ ss := by
  induction values with
  | nil => exact hclasses
  | cons e values ih =>
    rw [List.forall_mem_cons] at hnames
    obtain ⟨hnew, hkeys⟩ := List.nodup_cons.mp hkeys
    obtain ⟨name, hname, hkey⟩ := hnames.1
    obtain ⟨ss, hss⟩ := ih hkeys hnames.2
    exact ⟨_, .value hname hkey hnew hss⟩

theorem Body.Writable.exists_written {body : Body ConfigClass} (h : body.Writable) :
    ∃ ss, body.Written ss := by
  induction h with
  | intro hvalues hclasses hvariables hplain _ hbodies =>
    exact exists_written_values hvalues hvariables (exists_written_classes hclasses hplain hbodies)

theorem Body.Written.spelled {body : Body ConfigClass} {ss : List Statement} (h : body.Written ss) :
    ∀ s ∈ ss, s.Spelled := by
  induction h with
  | nil => exact List.forall_mem_nil _
  | @value _ name value _ _ _ hname _ _ _ ih =>
    refine List.forall_mem_cons.mpr ⟨?_, ih⟩
    cases value with
    | text s => exact .assign hname
    | list items => exact .assignList hname
  | «class» hplain _ _ _ hinner ih =>
    exact List.forall_mem_cons.mpr ⟨.define hplain.isName (by simp) hinner, ih⟩

/-! ## Executing what was written -/

namespace Body

/-- A body with the entries of another one behind its own. -/
def join (front back : Body ConfigClass) : Body ConfigClass :=
  ⟨front.values ++ back.values, front.classes ++ back.classes⟩

theorem join_empty (body : Body ConfigClass) : body.join {} = body := by
  rw [join, List.append_nil, List.append_nil]

theorem empty_join (body : Body ConfigClass) : Body.join {} body = body := rfl

/-- Two bodies have no keys in common. -/
structure Apart (front back : Body ConfigClass) : Prop where
  values : (front.values.map Prod.fst).Disjoint (back.values.map Prod.fst)
  classes : (front.classes.map Prod.fst).Disjoint (back.classes.map Prod.fst)

theorem empty_apart (body : Body ConfigClass) : Apart {} body :=
  ⟨List.disjoint_nil_left _, List.disjoint_nil_left _⟩

variable {front : Body ConfigClass} {key : String} {values : List (String × Value)}
  {classes : List (String × ConfigClass)}

theorem Apart.setVariable {value : Value} (hkey : key ∉ values.map Prod.fst)
    (h : front.Apart ⟨(key, value) :: values, classes⟩) :
    (front.setVariable key value).Apart ⟨values, classes⟩ ∧
      (front.setVariable key value).join ⟨values, classes⟩
        = front.join ⟨(key, value) :: values, classes⟩ := by
  obtain ⟨hdisjoint, happend⟩ := Ordered.put_append hkey h.values
  exact ⟨⟨hdisjoint, h.classes⟩, congrArg (Body.mk · (front.classes ++ classes)) happend⟩

theorem Apart.setClass {c : ConfigClass} (hkey : key ∉ classes.map Prod.fst)
    (h : front.Apart ⟨values, (key, c) :: classes⟩) :
    (front.setClass key c).Apart ⟨values, classes⟩ ∧
      (front.setClass key c).join ⟨values, classes⟩ = front.join ⟨values, (key, c) :: classes⟩ := by
  obtain ⟨hdisjoint, happend⟩ := Ordered.put_append hkey h.classes
  exact ⟨⟨h.values, hdisjoint⟩, congrArg (Body.mk (front.values ++ values)) happend⟩

end Body

theorem ConfigClass.reopened_of_notMem {c : ConfigClass} {name : Name}
    (h : lower name.text ∉ c.body.classes.map Prod.fst) (around : List Surrounding) :
    c.reopened around name none = { name := name.text, location := name.location } := by
  rw [← Ordered.isSome_lookup_iff, Option.not_isSome_iff_eq_none] at h
  rw [reopened, h]
  rfl

/-- **Executing what was written for a body adds the body** to a class that has none of its keys. -/
theorem Body.Written.effectAll {body : Body ConfigClass} {ss : List Statement} (h : body.Written ss)
    (around : List Surrounding) {c : ConfigClass} (hc : c.body.Apart body) :
    Statement.effectAll around c ss = { c with body := c.body.join body } := by
  induction h generalizing around c with
  | nil =>
    obtain ⟨name, base, location, body⟩ := c
    rw [Statement.effectAll, join_empty]
  | @value key name value values classes ss _ hlower hnew _ ih =>
    have heffect : (value.assignment name).effect around c
        = { c with body := c.body.setVariable key value } := by
      rw [← hlower]
      cases value <;> rfl
    obtain ⟨happart, hjoin⟩ := hc.setVariable hnew
    rw [Statement.effectAll, heffect, ih around happart, hjoin]
  | @«class» key inner values classes innerStatements ss hplain hnew _ _ hinner ih =>
    obtain ⟨name, base, location, body⟩ := inner
    obtain ⟨-, rfl, rfl⟩ := hplain
    have hopened := @ConfigClass.reopened_of_notMem c ⟨name, location⟩
      (fun hmem ↦ hc.classes hmem List.mem_cons_self) around
    have hempty : ({ name, location } : ConfigClass).body.Apart body := empty_apart body
    have heffect : (Statement.define ⟨name, location⟩ none innerStatements).effect around c
        = { c with body := c.body.setClass (lower name) ⟨name, none, location, body⟩ } := by
      rw [Statement.effect, hopened, hinner _ hempty, empty_join]
      rfl
    obtain ⟨happart, hjoin⟩ := hc.setClass hnew
    rw [Statement.effectAll, heffect, ih around happart, hjoin]

theorem Body.Written.rootClass_eq {body : Body ConfigClass} {ss : List Statement}
    (h : body.Written ss) (file : String) :
    rootClass file ss = ⟨"", none, ⟨file, .empty⟩, body⟩ := by
  have hempty : ({ name := "", location := ⟨file, .empty⟩ } : ConfigClass).body.Apart body :=
    empty_apart body
  rw [Config.rootClass_eq, h.effectAll [] hempty, empty_join]

/-! ## Parsing what was rendered -/

/-- What is rendered starts with a name, with `class` or with `delete`, and so with no byte order
mark. -/
theorem head?_renderAll {ss : List Statement} (h : ∀ s ∈ ss, s.Spelled) :
    (Statement.renderAll ss).head? ≠ some byteOrderMark := by
  have hname : ∀ name, IsName name → ∀ rest, (name.toList ++ rest).head? ≠ some byteOrderMark := by
    intro name hname rest
    rw [List.head?_append_of_ne_nil _ hname.isWord.ne_nil]
    exact hname.ne_mark
  cases ss with
  | nil => simp [Statement.renderAll]
  | cons s ss =>
    rw [Statement.renderAll]
    cases h s List.mem_cons_self with
    | assign hvariable =>
      rw [Statement.render, List.append_assoc]
      exact hname _ hvariable.toIsName _
    | assignList hvariable =>
      rw [Statement.render, List.append_assoc]
      exact hname _ hvariable.toIsName _
    | @declare _ base => cases base <;> exact (by decide : some 'c' ≠ some byteOrderMark)
    | @define _ base => cases base <;> exact (by decide : some 'c' ≠ some byteOrderMark)
    | delete => exact (by decide : some 'd' ≠ some byteOrderMark)

/-- **Parsing undoes rendering.** Whatever can be written has statements that say it, and whenever
statements say what is in a body, parsing the rendered statements gives this body: the same names,
values, and order of keys. The working directory is an absolute path, as it always is. -/
theorem Sources.parseText_renderAll {ε : Type} (sources : Sources ε) (path : String)
    (hdisk : Path.isRooted sources.disk.workingDirectory = true) {body : Body ConfigClass}
    (hbody : body.Writable) :
    (∃ ss, body.Written ss) ∧ ∀ ss, body.Written ss →
      ∃ tree, (sources.parseText path (Statement.renderAll ss)).result = .ok tree ∧
        tree.unplaced = ⟨"", none, default, body.unplaced⟩ := by
  refine ⟨hbody.exists_written, fun ss hss ↦ ?_⟩
  -- Nothing comes after the statements.
  have hnil : signsFrom? true [] = some [] := by rw [signsFrom?, lexemesFrom.eq_def, signsOf?]
  have hsigns := signsFrom?_renderAll ss hss.spelled hnil
  rw [List.append_nil, List.append_nil, ← dropMarks_of_head? (head?_renderAll hss.spelled)]
    at hsigns
  obtain ⟨ts, hexpand, hts⟩ := sources.exists_tokens_of_withText path hdisk hsigns
  have hread := readStatements_signsOfAll "" hss.spelled
  rw [← hts] at hread
  obtain ⟨placed, hplaced, htree⟩ := exists_rootClass_of_signs (sources.disk.absolute path) hread
  refine ⟨rootClass (sources.disk.absolute path) placed, ?_, ?_⟩
  · have hfile : (sources.withText path (Statement.renderAll ss)).disk.absolute path
        = sources.disk.absolute path := rfl
    simp only [parseText, parse, hfile, hexpand, hplaced]
  · rw [htree, ← unplaced_rootClass "", hss.rootClass_eq]
    rfl

/-- A tree with what could end a text in it, an array in an array, and names that are close to those
of statements. -/
def precarious : Body ConfigClass where
  values := [("title", .text "say \"hi\"; // /* \x7b\n#include \"a.hpp\"\n\x7d"),
    ("rows", .list [.list [.text "\"", .list []], .text "1"])]
  classes := [("a/b", ⟨"A/b", none, default,
    ⟨[("class", .text "\\x\\")], [("delete", ⟨"delete", none, default, {}⟩)]⟩⟩)]

/-- Statements that say what is in `precarious`, with the class between the variables. -/
def precariousStatements : List Statement :=
  [.assign "Title" "say \"hi\"; // /* \x7b\n#include \"a.hpp\"\n\x7d",
    .define ⟨"A/b", default⟩ none [.assign "CLASS" "\\x\\", .define ⟨"delete", default⟩ none []],
    .assignList "rows" false [.list [.text "\"", .list []], .text "1"]]

theorem precarious_writable : precarious.Writable := by
  have hdelete : Body.Writable {} := by
    refine .intro (by decide) (by decide) ?_ ?_ ?_ <;> exact List.forall_mem_nil _
  have hinner : Body.Writable
      ⟨[("class", .text "\\x\\")], [("delete", ⟨"delete", none, default, {}⟩)]⟩ := by
    refine .intro (by decide) (by decide) ?_ ?_ ?_
    · exact List.forall_mem_singleton.mpr ⟨"CLASS", by decide +kernel, by decide +kernel⟩
    · exact List.forall_mem_singleton.mpr ⟨by decide +kernel, by decide +kernel, rfl⟩
    · exact List.forall_mem_singleton.mpr hdelete
  refine .intro (by decide) (by decide) ?_ ?_ ?_
  · refine List.forall_mem_cons.mpr ⟨⟨"Title", by decide +kernel, by decide +kernel⟩, ?_⟩
    exact List.forall_mem_singleton.mpr ⟨"rows", by decide +kernel, by decide +kernel⟩
  · exact List.forall_mem_singleton.mpr ⟨by decide +kernel, by decide +kernel, rfl⟩
  · exact List.forall_mem_singleton.mpr hinner

theorem precarious_written : precarious.Written precariousStatements := by
  have hinner : Body.Written ⟨[("class", .text "\\x\\")],
    [("delete", ⟨"delete", none, default, {}⟩)]⟩
      [.assign "CLASS" "\\x\\", .define ⟨"delete", default⟩ none []] := by
    refine .value (by decide +kernel) (by decide +kernel) (by decide) ?_
    exact .class ⟨by decide +kernel, by decide +kernel, rfl⟩ (by decide) .nil .nil
  refine .value (by decide +kernel) (by decide +kernel) (by decide) ?_
  refine .class ⟨by decide +kernel, by decide +kernel, rfl⟩ (by decide) hinner ?_
  exact .value (by decide +kernel) (by decide +kernel) (by decide) .nil

/-- Sources without files. -/
def vacant : Sources String where
  disk := {}

theorem parseText_renderAll_precarious :
    Path.isRooted vacant.disk.workingDirectory = true ∧ precarious.Writable ∧
    precarious.Written precariousStatements ∧
    Statement.renderAll precariousStatements
      = ("Title = \"say \"\"hi\"\"; // /* \x7b\n#include \"\"a.hpp\"\"\n\x7d\";\n" ++
          "class A/b \x7b\nCLASS = \"\\x\\\";\nclass delete \x7b\n\x7d;\n\x7d;\n" ++
          "rows[] = \x7b\x7b\"\"\"\", \x7b\x7d\x7d, \"1\"\x7d;\n").toList ∧
    ∃ tree, (vacant.parseText "/m/description.ext"
      (Statement.renderAll precariousStatements)).result = .ok tree ∧
      tree.unplaced = ⟨"", none, default, precarious.unplaced⟩ := by
  have hrooted : Path.isRooted vacant.disk.workingDirectory = true := by decide +kernel
  obtain ⟨-, hparse⟩ := vacant.parseText_renderAll "/m/description.ext" hrooted precarious_writable
  exact ⟨hrooted, precarious_writable, precarious_written, by
    decide +kernel, hparse _ precarious_written⟩

end Config

end MissionIndex
