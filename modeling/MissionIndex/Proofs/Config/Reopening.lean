import MissionIndex.Proofs.Config.Rows
import MissionIndex.Proofs.Config.Surroundings

/-!
# Opening a class again

The definition of a class may be left and opened again later on, which goes on where it has been
left. If nothing comes in between, then it makes no difference at all: the class holds the same
things in the same order as if it had not been left (`reopening_continues`), whatever its statements
do. They may append to lists, delete classes and declare them again, and derive from the class
itself or from classes around it that are still being filled.

What carries this is that a class around an open one is seen as it is at the moment. When the class
is opened again, it already stands in the class around it, and is put in the place where it stands.
So the surroundings are filled the same as before (`Statement.effectAll_define_define`).
-/

namespace MissionIndex.Config

open Text

theorem ConfigClass.location_reopened (around : List Surrounding) (c : ConfigClass) (name : Name)
    (base : Option String) : (c.reopened around name base).location = name.location := by
  rw [reopened]
  split <;> rfl

theorem ConfigClass.reopened_fill {e : Surrounding} {inner : ConfigClass} {name : Name}
    (hkey : lower name.text = e.key) (hlocation : inner.location = name.location)
    (around : List Surrounding) :
    (e.fill inner).reopened around name none = inner := by
  have hlookup : (e.fill inner).body.classes.lookup e.key = some inner := Ordered.lookup_put_self ..
  obtain ⟨text, base, location, body⟩ := inner
  rw [reopened, hkey, hlookup, ← hlocation]
  rfl

/-- A definition that is left and opened again at once is one definition, apart from the place. -/
theorem Statement.effectAll_define_define (around : List Surrounding) (c : ConfigClass)
    {name name' : Name} (hname : lower name'.text = lower name.text)
    (hlocation : name'.location = name.location) (base : Option String) (ss ss' : List Statement) :
    Statement.effectAll around c [.define name base ss, .define name' none ss']
      = Statement.effectAll around c [.define name base (ss ++ ss')] := by
  let e : Surrounding := ⟨c, lower name.text⟩
  let first := Statement.effectAll (e :: around) (c.reopened around name base) ss
  have hlocation' : first.location = name'.location :=
    (Statement.effectAll_name_location ss _ _).2.trans
    ((c.location_reopened around name base).trans hlocation.symm)
  have hfound : (e.fill first).reopened around name' none = first :=
    ConfigClass.reopened_fill hname hlocation' around
  -- It is put where it already stands.
  have hfill : ∀ d, Surrounding.fill ⟨e.fill first, lower name.text⟩ d = e.fill d := by
    intro d
    have hput := Ordered.put_put (lower name.text) first d c.body.classes
    simp only [e, Surrounding.fill, Body.setClass, hput]
  have halike : LookAlike (fun _ ↦ True) (⟨e.fill first, lower name.text⟩ :: around)
      (e :: around) :=
    .of_fill hfill around
  calc Statement.effectAll around c [.define name base ss, .define name' none ss']
      = Surrounding.fill ⟨e.fill first, lower name'.text⟩ (Statement.effectAll
          (⟨e.fill first, lower name'.text⟩ :: around) ((e.fill first).reopened around name' none)
          ss') := rfl
    _ = e.fill (Statement.effectAll (⟨e.fill first, lower name.text⟩ :: around) first ss') := by
        rw [hname, hfound, hfill]
    _ = e.fill (Statement.effectAll (e :: around) first ss') := by
        rw [Statement.effectAll_congr ss' halike fun _ _ _ _ ↦ trivial]
    _ = Statement.effectAll around c [.define name base (ss ++ ss')] := by
        rw [← Statement.effectAll_append]
        rfl

/-! ## In any body -/

/-- A place for statements in a file, with the statements before and after it: outside of all
classes, or in the body of a class whose definition stands in such a place. -/
inductive Site where
  | top (before after : List Token)
  | within (outer : Site) (name : String) (base : Option String) (before after : List Token)

namespace Site

/-- The file with a row in place. -/
def fill (row : List Token) : Site → List Token
  | top before after => before ++ row ++ after
  | within outer name base before after =>
      outer.fill (definition name base (before ++ row ++ after))

/-- What stands around the place can be read. -/
def IsReadable : Site → Prop
  | top before after => (statementsOf? before).isSome ∧ (statementsOf? after).isSome
  | within outer _ _ before after => outer.IsReadable ∧ (statementsOf? before).isSome ∧
      (statementsOf? after).isSome

/-- What a file says depends on what the row in place says, and statements that always do the same
can stand there for each other. -/
theorem exists_frame {site : Site} (h : site.IsReadable) :
    ∃ frame : List Statement → List Statement,
      (∀ row ss, statementsOf? row = some ss → statementsOf? (site.fill row) = some (frame ss)) ∧
      ∀ ss ss', (∀ around c, Statement.effectAll around c ss = Statement.effectAll around c ss') →
        ∀ around c, Statement.effectAll around c (frame ss)
          = Statement.effectAll around c (frame ss') := by
  induction site with
  | top before after =>
    obtain ⟨hbefore, hafter⟩ := h
    obtain ⟨bs, hbs⟩ := Option.isSome_iff_exists.mp hbefore
    obtain ⟨as, has⟩ := Option.isSome_iff_exists.mp hafter
    refine ⟨fun ss ↦ bs ++ ss ++ as, fun row ss hrow ↦ ?_, fun ss ss' hsame around c ↦ ?_⟩
    · exact statementsOf?_append (statementsOf?_append hbs hrow) has
    · exact Statement.effectAll_between hsame bs as around c
  | within outer name base before after ih =>
    obtain ⟨houter, hbefore, hafter⟩ := h
    obtain ⟨bs, hbs⟩ := Option.isSome_iff_exists.mp hbefore
    obtain ⟨as, has⟩ := Option.isSome_iff_exists.mp hafter
    obtain ⟨frame, hframe, hsame⟩ := ih houter
    refine ⟨fun ss ↦ frame [.define ⟨name, default⟩ base (bs ++ ss ++ as)], fun row ss hrow ↦ ?_,
      fun ss ss' hss ↦ hsame _ _ fun around c ↦ ?_⟩
    · have hbody := statementsOf?_append (statementsOf?_append hbs hrow) has
      exact hframe _ _ (statementsOf?_definition hbody name base)
    · simp only [Statement.effectAll, Statement.effect, Statement.effectAll_between hss bs as]

end Site

/-- **A class that is opened again goes on as if it had not been left.** In any body, a definition
of a class followed by another one without a base, under the same name in any spelling, gives the
same tree as one definition with the statements of both: a file with the one and a file with the
other can be parsed, and their trees are the same apart from places. -/
theorem reopening_continues {ε : Type} (sources sources' : Sources ε) {path path' : String}
    {site : Site} (hsite : site.IsReadable) {name name' : String} (hname : lower name' = lower name)
    (base : Option String) {body body' : List Token} (hbody : (statementsOf? body).isSome)
    (hbody' : (statementsOf? body').isSome)
    (hsplit : sources.Expands path
      (site.fill (definition name base body ++ definition name' none body')))
    (hjoined : sources'.Expands path' (site.fill (definition name base (body ++ body')))) :
    ∃ tree tree', (sources.parse path).result = .ok tree ∧
      (sources'.parse path').result = .ok tree' ∧
      tree.unplaced = tree'.unplaced := by
  obtain ⟨ss, hss⟩ := Option.isSome_iff_exists.mp hbody
  obtain ⟨ss', hss'⟩ := Option.isSome_iff_exists.mp hbody'
  obtain ⟨frame, hframe, hsame⟩ := Site.exists_frame hsite
  have hrow : statementsOf? (definition name base body ++ definition name' none body')
      = some [.define ⟨name, default⟩ base ss, .define ⟨name', default⟩ none ss'] :=
    statementsOf?_append (statementsOf?_definition hss name base)
    (statementsOf?_definition hss' name' none)
  have hrow' := statementsOf?_definition (statementsOf?_append hss hss') name base
  have hkey : lower (⟨name', default⟩ : Name).text = lower (⟨name, default⟩ : Name).text := hname
  have hsplit' : ∀ around c,
      Statement.effectAll around c [.define ⟨name, default⟩ base ss,
        .define ⟨name', default⟩ none ss']
        = Statement.effectAll around c [.define ⟨name, default⟩ base (ss ++ ss')] := fun around c ↦
    Statement.effectAll_define_define around c hkey rfl base ss ss'
  obtain ⟨tree, hparse, htree⟩ :=
    sources.exists_tree_of_expands hsplit (treeOf?_eq_of_statementsOf? (hframe _ _ hrow))
  obtain ⟨tree', hparse', htree'⟩ :=
    sources'.exists_tree_of_expands hjoined (treeOf?_eq_of_statementsOf? (hframe _ _ hrow'))
  exact ⟨tree, tree', hparse, hparse', htree.trans ((hsame _ _ hsplit' _ _).trans htree'.symm)⟩

/-- Two files with a class inside of another one. It is derived from a class next to it, and others
are derived from it and from the class around it while they are being filled. In the first file it
is left and opened again. -/
def continued : Sources Empty where
  disk.files :=
    [(["split.hpp"], .bytes (encodeUtf8
        ("class O\x7bclass B\x7b\x7d;class N:B\x7bclass M:N\x7b\x7d;\x7d;".toList
          ++ "class n\x7bclass L:O\x7b\x7d;delete M;\x7d;\x7d;".toList))),
      (["joined.hpp"], .bytes (encodeUtf8
        ("class O\x7bclass B\x7b\x7d;class N:B\x7bclass M:N\x7b\x7d;".toList
          ++ "class L:O\x7b\x7d;delete M;\x7d;\x7d;".toList)))]

theorem reopening_continues_continued :
    ∃ tree tree', (continued.parse "/split.hpp").result = .ok tree ∧
      (continued.parse "/joined.hpp").result = .ok tree' ∧ tree.unplaced = tree'.unplaced := by
  let site : Site := .within (.top [] []) "O" none (definition "B" none []) []
  let body := definition "M" (some "N") []
  let body' := definition "L" (some "O") [] ++
    [wordSign "delete", wordSign "M", markSign .semicolon]
  have hsite : site.IsReadable :=
    ⟨⟨by decide +kernel, by decide +kernel⟩, by decide +kernel, by decide +kernel⟩
  have hname : lower "n" = lower "N" := by decide +kernel
  have hbody : (statementsOf? body).isSome := by decide +kernel
  have hbody' : (statementsOf? body').isSome := by decide +kernel
  have hsplit : continued.Expands "/split.hpp"
      (site.fill (definition "N" (some "B") body ++ definition "n" none body')) :=
    ⟨by decide +kernel, by decide +kernel⟩
  have hjoined : continued.Expands "/joined.hpp"
      (site.fill (definition "N" (some "B") (body ++ body'))) :=
    ⟨by decide +kernel, by decide +kernel⟩
  exact reopening_continues continued continued hsite hname (some "B") hbody hbody' hsplit hjoined

end MissionIndex.Config
