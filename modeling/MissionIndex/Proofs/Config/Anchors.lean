import MissionIndex.Proofs.Config.Inclusion
import MissionIndex.Proofs.Config.Layout

/-!
# Classes stand where their names are written

Every class of a tree has a place, and at this place in the text of its file there is a word: the
name of the class, if not in the same spelling. This is so however the class came to be, by a
definition, by a declaration that a definition took up, or in a copy of its base.

## Why names do not have to be followed through the tree

Places travel, but what is at a place does not change. So the trees are left to `ConfigClass.Keyed`,
which holds for whatever is true of the words of an expansion with their places. What is true of
them here is that each is written in its file at its place (`Sources.Spells`).
-/

namespace MissionIndex.Config

open Text

/-! ## Tokens in the texts of their files -/

/-- A token of a text occupies a part of it, and a word is made of what words are made of. -/
theorem occupies_of_mem_pieces {file : String} {text : List Char} {t : Token}
    (h : .token t ∈ pieces file text) :
    (∃ span, t.Occupies file (dropMarks text) span) ∧ (t.kind = .word → IsWord t.text.toList) := by
  suffices hfrom : ∀ (before text : List Char) (fresh : Bool),
      .token t ∈ piecesFrom file (.after before) (lexemesFrom fresh text) →
        (∃ span, t.Occupies file (before ++ text) span) ∧
        (t.kind = .word → IsWord t.text.toList) from
    hfrom [] (dropMarks text) true h
  intro before text fresh h
  fun_induction lexemesFrom fresh text generalizing before with
  | case1 => cases h
  | case2 fresh c cs ih =>
    cases hcut : cutLexeme fresh c cs with | mk lexeme rest =>
    obtain ⟨hshape, htext⟩ := cutLexeme_eq_iff.mp hcut
    rw [hcut] at ih h
    rw [piecesFrom, Position.advance_after, List.mem_append, Option.mem_toList] at h
    rw [htext]
    rcases h with hpiece | hmore
    · refine ⟨⟨_, occupies_of_pieceAt hshape hpiece⟩, fun hword ↦ ?_⟩
      have hraw := (token_of_pieceAt hpiece).1
      cases hshape with
      | word hne hspan =>
        rw [hraw]
        exact isWord_of_spanWord hne hspan
      | blank | lineComment | blockComment | openComment | openQuote => cases hpiece
      | quoted | mark =>
        cases hpiece
        cases hword
      | directive =>
        rw [pieceAt] at hpiece
        split at hpiece
        · split at hpiece <;> cases hpiece
        · cases hpiece
    · rw [← List.append_assoc]
      exact ih _ hmore

namespace Expansion

variable {ε : Type} {P : Token → Prop}

theorem tokens_andThen {a : Expansion ε} {b : Unit → Expansion ε} (ha : ∀ t ∈ a.tokens, P t)
    (hb : ∀ t ∈ (b ()).tokens, P t) : ∀ t ∈ (a.andThen b).tokens, P t := by
  rw [andThen]
  split
  · exact ha
  · exact List.forall_mem_append.mpr ⟨ha, hb⟩

theorem tokens_ofPieces_of {enter : String → Range → Expansion ε} {ps : List Piece}
    (hps : ∀ t, .token t ∈ ps → P t)
    (henter : ∀ target range, ∀ t ∈ (enter target range).tokens, P t) :
    ∀ t ∈ (ofPieces enter ps).tokens, P t := by
  induction ps with
  | nil => exact nofun
  | cons piece rest ih =>
    have hrest := ih fun t ht ↦ hps t (List.mem_cons_of_mem piece ht)
    cases piece with
    | token t =>
        exact tokens_andThen (List.forall_mem_singleton.mpr (hps t List.mem_cons_self)) hrest
    | «include» target range => exact tokens_andThen (henter target range) hrest
    | fault e => exact nofun

end Expansion

namespace Sources

variable {ε : Type} (sources : Sources ε)

/-- A name is written as a word at its place in the text of its file. -/
structure Spells (name : Name) : Prop where
  slice : ∃ text, sources.text? name.location.file = some text ∧
    name.location.range.slice (dropMarks text) = name.text.toList
  isWord : IsWord name.text.toList

theorem tokens_openFile {enter : String → Range → Expansion ε} {path : String} {P : Token → Prop}
    (hfile : ∀ text t, sources.text? path = some text → .token t ∈ pieces path text → P t)
    (henter : ∀ target range, ∀ t ∈ (enter target range).tokens, P t) (blame : Location) :
    ∀ t ∈ (sources.openFile enter path blame).tokens, P t := by
  rw [openFile]
  cases htext : sources.textOf path blame with
  | error stop => exact List.forall_mem_nil _
  | ok text =>
    have htext' : sources.text? path = some text := by
      rw [text?, sources.textOf_eq_ok htext]
      rfl
    exact Expansion.tokens_andThen (List.forall_mem_nil _)
      (Expansion.tokens_ofPieces_of (fun t ↦ hfile text t htext') henter)

/-- What is true of all tokens of all files is true of what an include contributes. -/
theorem tokens_expandInclude {P : Token → Prop}
    (hfile : ∀ path text t, sources.text? path = some text → .token t ∈ pieces path text → P t)
    (rootFolder : String) (room : Nat) (within : List String) (file target : String)
    (range : Range) :
    ∀ t ∈ (sources.expandInclude rootFolder room within file target range).tokens, P t := by
  induction room generalizing within file target range with
  | zero => exact List.forall_mem_nil _
  | succ room ih =>
    rw [expandInclude]
    split
    · exact List.forall_mem_nil _
    · split
      · exact List.forall_mem_nil _
      · split
        · exact List.forall_mem_nil _
        · exact sources.tokens_openFile (hfile _) (fun target range ↦ ih _ _ target range) _

theorem spells_of_mem_expandRoot {file : String} {t : Token}
    (ht : t ∈ (sources.expandRoot file).tokens) (hword : t.kind = .word) :
    sources.Spells ⟨t.text, t.location⟩ := by
  have hfile : ∀ path text t, sources.text? path = some text → .token t ∈ pieces path text →
      t.kind = .word → sources.Spells ⟨t.text, t.location⟩ := by
    intro path text t htext hmem hword
    obtain ⟨⟨span, hspan⟩, hisWord⟩ := occupies_of_mem_pieces hmem
    have hpath : t.location.file = path := congrArg Location.file hspan.location_eq
    exact ⟨⟨text, hpath ▸ htext, hspan.slice_eq⟩, hisWord hword⟩
  rw [expandRoot_eq] at ht
  exact sources.tokens_openFile (hfile _) (sources.tokens_expandInclude hfile _ _ _ _) _ t ht hword

end Sources

/-! ## Classes in a tree -/

/-- A class is stored under a key in another one, or in a class in that one, at any depth. -/
inductive ConfigClass.Contains : ConfigClass → String → ConfigClass → Prop
  | child {c d : ConfigClass} {key : String} : (key, d) ∈ c.body.classes → c.Contains key d
  | deeper {c e d : ConfigClass} {key key' : String} : (key', e) ∈ c.body.classes →
      e.Contains key d →
      c.Contains key d

theorem ConfigClass.Keyed.anchored_of_contains {P : Name → Prop} {c d : ConfigClass} {key : String}
    (h : c.Keyed P) (hd : c.Contains key d) : d.Anchored P key := by
  induction hd with
  | child hmem => exact h.anchored _ hmem
  | deeper hmem _ ih => exact ih (h.classes _ hmem)

theorem ConfigClass.contains_of_descend? {c d : ConfigClass} {front : List String} {name : String}
    (h : c.descend? (front ++ [name]) = some d) : c.Contains (lower name) d := by
  induction front generalizing c with
  | nil =>
    obtain ⟨child, hchild, hd⟩ := descend?_cons_eq_some.mp h
    obtain rfl := Option.some.inj hd
    exact .child (Ordered.mem_of_lookup hchild)
  | cons first front ih =>
    obtain ⟨child, hchild, hd⟩ := descend?_cons_eq_some.mp h
    exact .deeper (Ordered.mem_of_lookup hchild) (ih hd)

namespace Sources

variable {ε : Type} (sources : Sources ε)

/-- **Every class of a parsed tree stands where its name is written.** Its file was opened, and at
its place in the text of the file there is a word whose lower-case form is the key of the class and
that of its name. An error stands in a file that was opened, too. -/
theorem classes_stand_at_names (path : String) :
    (∀ tree, (sources.parse path).result = .ok tree → ∀ key c, tree.Contains key c →
      c.location.file ∈ (sources.parse path).opened ∧
      ∃ text word, sources.text? c.location.file = some text ∧
        c.location.range.slice (dropMarks text) = word ∧ IsWord word ∧
        lower (String.ofList word) = key ∧ lower c.name = key) ∧
    ∀ e, (sources.parse path).result = .error (.error e) →
    e.location.file ∈ (sources.parse path).opened := by
  refine ⟨fun tree htree key c hc ↦ ?_, fun e he ↦ sources.file_of_parse_eq_error path he⟩
  have haccounts := sources.accounts_expandRoot (sources.disk.absolute path)
  -- Names are spelled in opened files.
  have hkeyed := (sources.keyed_parse path
    (P := fun name ↦ name.location.file ∈ (sources.parse path).opened ∧ sources.Spells name)
    (fun t ht hword ↦ ⟨haccounts.tokens t ht, sources.spells_of_mem_expandRoot ht hword⟩) htree).1
  obtain ⟨hlower, name, ⟨hopened, ⟨text, htext, hslice⟩, hword⟩, hkey, hplace⟩ :=
    hkeyed.anchored_of_contains hc
  rw [← hplace]
  refine ⟨hopened, text, _, htext, hslice, hword, ?_, hlower⟩
  rw [String.ofList_toList]
  exact hkey

end Sources

/-- A class in a derived class that is opened again, in other letters and in another file, behind a
byte order mark and a comment of two lines. -/
def retold : Sources String where
  disk.files :=
    [(["m", "description.ext"], .bytes
        (Text.encodeUtf8
          "class Base \x7b class X \x7b \x7d; \x7d;\nclass B : Base;\n#include \"a.hpp\"".toList)),
      (["m", "a.hpp"], .bytes
        (Text.encodeUtf8
          "\uFEFF/* \n */ class b \x7b\n  class x; class x \x7b y = 1; \x7d; \x7d;".toList))]

theorem classes_stand_at_names_retold :
    (∃ tree c, (retold.parse "/m/description.ext").result = .ok tree ∧ tree.Contains "x" c ∧
      c.name = "X" ∧
      c.location = ⟨"/m/a.hpp", ⟨2, 17⟩, ⟨2, 18⟩⟩ ∧
      c.location.file ∈ (retold.parse "/m/description.ext").opened ∧
      ∃ text word, retold.text? c.location.file = some text ∧
        c.location.range.slice (dropMarks text) = word ∧ IsWord word ∧
        lower (String.ofList word) = "x" ∧ lower c.name = "x") ∧
    ∃ e, (retold.parse "/m/b.hpp").result = .error (.error e) ∧
      e.location.file ∈ (retold.parse "/m/b.hpp").opened := by
  obtain ⟨hclasses, -⟩ := retold.classes_stand_at_names "/m/description.ext"
  obtain ⟨-, herror⟩ := retold.classes_stand_at_names "/m/b.hpp"
  constructor
  · have hx : (retold.parse "/m/description.ext").result.toOption.bind
          (fun tree ↦ (tree.descend? ["B", "x"]).map fun c ↦ (c.name, c.location))
        = some ("X", ⟨"/m/a.hpp", ⟨2, 17⟩, ⟨2, 18⟩⟩) := by
      decide +kernel
    obtain ⟨tree, htree, hx⟩ := Option.bind_eq_some_iff.mp hx
    obtain ⟨c, hc, hsays⟩ := Option.map_eq_some_iff.mp hx
    obtain ⟨hname, hlocation⟩ := Prod.mk.inj hsays
    cases hparse : (retold.parse "/m/description.ext").result with
    | error stop =>
      rw [hparse] at htree
      cases htree
    | ok tree' =>
      rw [hparse] at htree
      obtain rfl := Option.some.inj htree
      have hcontains := @ConfigClass.contains_of_descend? tree' c ["B"] "x" hc
      have hkey : lower "x" = "x" := by decide +kernel
      rw [hkey] at hcontains
      exact ⟨tree', c, rfl, hcontains, hname, hlocation, hclasses tree' hparse "x" c hcontains⟩
  · have hstop : (match (retold.parse "/m/b.hpp").result with
        | .error (.error _) => true
        | _ => false) = true := by
      decide +kernel
    split at hstop
    · next e he => exact ⟨e, he, herror e he⟩
    · cases hstop

end MissionIndex.Config
