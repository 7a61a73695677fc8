import MissionIndex.Proofs.Session.Editing
import MissionIndex.Proofs.Uri

/-!
# Documents and their addresses

A path is written as a URI, and an editor names a document by one. For a plain path the two ways
undo each other, so a request for its URI is about that path and no other (`plain_path_addressed`).

The other way around this is not so. An open document is found by the URI that its path is written
as, and an editor may write the path in another way, as with a sign that need not be encoded. Such a
document is open, but it is not what is read for its path (`heeds_or_ignores`).
-/

namespace MissionIndex

/-! ## Documents after edits -/

/-- The text that a document has after an edit, if it is open then. -/
def Edit.text? : Edit → Option String
  | .openAs text _ _ => some text
  | .update text _ => some text
  | .close => none

namespace Documents

variable {docs : Documents} {uri : String}

/-- The documents that are open after edits. Before them, none is open. -/
def after (edits : List (String × Edit)) : Documents :=
  edits.foldl (fun docs (uri, e) ↦ e.apply uri docs) []

/-- The text that the last edit of a document has left, if it is open after it. -/
def lastText (edits : List (String × Edit)) (uri : String) : Option String :=
  (edits.reverse.lookup uri).bind Edit.text?

theorem nodup_apply (h : (docs.map Prod.fst).Nodup) (uri : String) (e : Edit) :
    ((e.apply uri docs).map Prod.fst).Nodup := by
  cases e with
  | openAs text version language => exact Ordered.nodup_map_fst_put h uri _
  | update text version =>
    rw [Edit.apply, update]
    split <;> exact Ordered.nodup_map_fst_put h uri _
  | close => exact Ordered.nodup_map_fst_erase h uri

theorem map_text_lookup_apply (h : (docs.map Prod.fst).Nodup) (uri : String) (e : Edit)
    (other : String) :
    ((e.apply uri docs).lookup other).map Document.text
      = if other = uri then e.text? else (docs.lookup other).map Document.text := by
  by_cases hother : other = uri
  · rw [if_pos hother, hother]
    cases e with
    | openAs text version language => rw [Edit.apply, openAs, Ordered.lookup_put_self]; rfl
    | update text version =>
      rw [Edit.apply, update]
      split
      · rw [openAs, Ordered.lookup_put_self]; rfl
      · rw [Ordered.lookup_put_self]; rfl
    | close => rw [Edit.apply, close, Ordered.lookup_erase_self h]; rfl
  · rw [if_neg hother, Session.lookup_apply_of_ne hother]

/-- What is open after edits has the text of the last edit that it had. -/
theorem map_text_lookup_after (edits : List (String × Edit)) :
    ((after edits).map Prod.fst).Nodup ∧
      ∀ uri, ((after edits).lookup uri).map Document.text = lastText edits uri := by
  induction edits using List.reverseRecOn with
  | nil => exact ⟨List.nodup_nil, fun _ ↦ rfl⟩
  | append_singleton edits e ih =>
    obtain ⟨uri, e⟩ := e
    have hafter : after (edits ++ [(uri, e)]) = e.apply uri (after edits) := by
      rw [after, List.foldl_append, List.foldl_cons, List.foldl_nil, after]
    rw [hafter]
    refine ⟨nodup_apply ih.1 uri e, fun other ↦ ?_⟩
    rw [map_text_lookup_apply ih.1, ih.2, lastText, lastText, List.reverse_concat, List.lookup_cons]
    by_cases hother : other = uri
    · rw [if_pos hother, beq_iff_eq.mpr hother]
      rfl
    · rw [if_neg hother, beq_eq_false_iff_ne.mpr hother]

theorem textFor_eq {workingDirectory path : String}
    (hpath : Uri.ofPath workingDirectory path = .ok uri) :
    docs.textFor workingDirectory path = .ok ((docs.lookup uri).map Document.text) := by
  rw [textFor, hpath]
  rfl

end Documents

namespace Session

variable (s : Session)

/-! ## Plain paths -/

/-- **A plain path is addressed by its URI.** The URI of such a path leads back to it, no other such
path has it, and a request for the URI is about the path. -/
theorem plain_path_addressed {path : String} (h : Uri.IsPlainPath path) :
    ∃ uri, s.uriOf path = .ok uri ∧ Uri.toPath uri = path ∧
      (∀ other, Uri.IsPlainPath other → s.uriOf other = .ok uri → other = path) ∧
      s.pathOf uri = path ∧
      s.reindex uri = match reactionTo path with
        | .reindexRoot => s.reindexRoot path
        | .reindexAll => s.passOver s.files
        | .nothing => s := by
  have huri : s.uriOf path = .ok (String.ofList (Uri.scheme ++ Uri.encode path.toList)) :=
    h.ofPath_eq _
  have hpath : s.pathOf _ = path := pathOf_eq h huri
  refine ⟨_, huri, h.toPath_ofPath huri, fun other hother hsame ↦ ?_, hpath, ?_⟩
  · rw [← hother.toPath_ofPath hsame, h.toPath_ofPath huri]
  · rw [pathOf] at hpath
    cases hreaction : reactionTo path <;> simp only [reindex, hpath, hreaction]

/-- A path with an escape, the signs in front of a query and of a fragment, a backslash and a letter
outside ASCII. -/
theorem plain_path_addressed_reserved :
    let s : Session := { disk := {} }
    let path := "/m/a%20b?c#d;\\e é/description.ext"
    Uri.IsPlainPath path ∧ ∃ uri, s.uriOf path = .ok uri ∧ Uri.toPath uri = path ∧
      (∀ other, Uri.IsPlainPath other → s.uriOf other = .ok uri → other = path) ∧
      s.pathOf uri = path ∧ s.reindex uri = s.reindexRoot path := by
  intro s path
  have hplain : Uri.IsPlainPath path := by decide +kernel
  have hreaction : reactionTo path = .reindexRoot := by decide +kernel
  obtain ⟨uri, huri, hback, hother, hpath, hreindex⟩ := s.plain_path_addressed hplain
  rw [hreaction] at hreindex
  exact ⟨hplain, uri, huri, hback, hother, hpath, hreindex⟩

/-! ## Open documents -/

/-- The text of an open document is what counts for its path: it is found under the path, it is what
is read there, and if the path is that of a root file, the root file is passed over whether or not
it is on disk. -/
structure Heeds (uri text : String) : Prop where
  found : s.documents.textFor s.disk.workingDirectory (Uri.toPath uri) = .ok (some text)
  read (blame : Location) : s.sources.textOf (s.pathOf uri) blame = .ok text.toList
  passed : reactionTo (s.pathOf uri) = .reindexRoot →
    s.reindex uri = ((s.addFile (s.pathOf uri)).pass (s.pathOf uri)).1

/-- What is found under the path of a document and read there is what it is with the document
closed. -/
structure Ignores (uri : String) : Prop where
  found : s.documents.textFor s.disk.workingDirectory (Uri.toPath uri)
    = (s.documents.close uri).textFor s.disk.workingDirectory (Uri.toPath uri)
  read (blame : Location) :
    s.sources.textOf (s.pathOf uri) blame = (s.edit uri .close).sources.textOf (s.pathOf uri) blame

variable {s} {uri : String}

theorem heeds_of_isCanonical {d : Document} (hopen : s.documents.lookup uri = some d)
    (hrooted : Path.isRooted (Uri.toPath uri) = true)
    (h : Uri.IsCanonical s.disk.workingDirectory uri) :
    s.Heeds uri d.text := by
  have htext : ∀ path, Uri.ofPath s.disk.workingDirectory path = .ok uri →
      s.documents.textFor s.disk.workingDirectory path = .ok (some d.text) := fun path hpath ↦ by
    rw [Documents.textFor_eq hpath, hopen, Option.map_some]
  have hpath : s.documents.textFor s.disk.workingDirectory (s.pathOf uri) = .ok (some d.text) :=
    htext _ ((Uri.ofPath_resolve_eq_ok_iff hrooted _).mpr h)
  refine ⟨htext _ h, fun blame ↦ ?_, fun hreaction ↦ ?_⟩
  · have hbuffer : s.sources.buffer (s.pathOf uri) = .ok (some d.text.toList) := by
      simp only [sources, hpath]
      rfl
    rw [Config.Sources.textOf, hbuffer]
  · rw [pathOf] at hreaction hpath ⊢
    rw [reindex, hreaction]
    simp only [reindexRoot, hpath, ite_self]

theorem ignores_of_not_isCanonical (hrooted : Path.isRooted (Uri.toPath uri) = true)
    (h : ¬ Uri.IsCanonical s.disk.workingDirectory uri) : s.Ignores uri := by
  have hpath : s.uriOf (s.pathOf uri) ≠ .ok uri := mt (Uri.ofPath_resolve_eq_ok_iff hrooted _).mp h
  refine ⟨?_, fun blame ↦ ?_⟩
  · cases huri : Uri.ofPath s.disk.workingDirectory (Uri.toPath uri) with
    | error reason => rw [Documents.textFor, Documents.textFor, huri]; rfl
    | ok other =>
      have hother : other ≠ uri := fun he ↦ h (he ▸ huri)
      rw [Documents.textFor_eq huri, Documents.textFor_eq huri, Documents.close,
        Ordered.lookup_erase_of_ne hother]
  · rw [Config.Sources.textOf, Config.Sources.textOf, s.buffer_edit hpath .close]
    rfl

/-- **An open document is heeded or ignored.** After whatever edits, an open document has the text
that its last edit has left. If the URI of the document is what its path is written as, this text
counts for the path, whatever else is open. Otherwise it makes no difference to the path that the
document is open. -/
theorem heeds_or_ignores {edits : List (String × Edit)} (hs : s.documents = Documents.after edits)
    {d : Document} (hopen : s.documents.lookup uri = some d)
    (hrooted : Path.isRooted (Uri.toPath uri) = true) :
    Documents.lastText edits uri = some d.text ∧
      (Uri.IsCanonical s.disk.workingDirectory uri → s.Heeds uri d.text) ∧
      (¬ Uri.IsCanonical s.disk.workingDirectory uri → s.Ignores uri) := by
  refine ⟨?_, heeds_of_isCanonical hopen hrooted, ignores_of_not_isCanonical hrooted⟩
  rw [← (Documents.map_text_lookup_after edits).2, ← hs, hopen, Option.map_some]

/-- Edits of a root file under the URI that its path is written as, and under two others. -/
def spellings : List (String × Edit) :=
  [("file:///m/%40a/description.ext", .openAs "first" 0 none),
    ("file:///m/@a/description.ext", .openAs "raw" 0 none),
    ("file:///m/%40a/description.ext", .update "second" none),
    ("file:///m/%40%61/description.ext", .openAs "escaped" 0 none),
    ("file:///m/%40%61/description.ext", .close)]

/-- Of two documents that are open for one path, the one that the path is written as is heeded, and
the other one is ignored. -/
theorem heeds_or_ignores_spellings :
    let s : Session := { disk := {}, documents := Documents.after spellings }
    s.Heeds "file:///m/%40a/description.ext" "second" ∧
    s.Ignores "file:///m/@a/description.ext" := by
  intro s
  let second : Document := ⟨"file:///m/%40a/description.ext", "ext", 1, "second"⟩
  let raw : Document := ⟨"file:///m/@a/description.ext", "ext", 0, "raw"⟩
  have hsecond : s.documents.lookup second.uri = some second := by decide +kernel
  have hraw : s.documents.lookup raw.uri = some raw := by decide +kernel
  exact ⟨(heeds_or_ignores rfl hsecond (by decide +kernel)).2.1 (by decide +kernel),
    (heeds_or_ignores rfl hraw (by decide +kernel)).2.2 (by decide +kernel)⟩

/-- A document that is open for a path, with no other one open, and is not found under the path: its
URI has a sign as it is that its path is written with an escape for. -/
theorem open_document_not_found :
    let docs :=
      Documents.after [("file:///w/@mod/description.ext", .openAs "class A\x7b\x7d;" 0 none)]
    docs = [("file:///w/@mod/description.ext",
        ⟨"file:///w/@mod/description.ext", "ext", 0, "class A\x7b\x7d;"⟩)] ∧
      Uri.toPath "file:///w/@mod/description.ext" = "/w/@mod/description.ext" ∧
      docs.textFor "/" "/w/@mod/description.ext" = .ok none := by
  decide +kernel

end Session

end MissionIndex
