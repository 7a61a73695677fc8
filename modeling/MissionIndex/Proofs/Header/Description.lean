import MissionIndex.Proofs.Header.Attempt

/-!
# Descriptions

What describes a function are the free lines of its comment and those under the label `description`.
Put together, with an empty line between sections, they are one text. The full description is this
text with each line trimmed, and the short one is its first paragraph on one line
(`description_paragraphs`).

## Two ways to the first paragraph

The short form is what stands in front of the first line feed that is followed by blanks and another
one, and is cut off before any line is trimmed. The full form is trimmed line by line, and then as a
whole. That the short form still is what comes first in the full one has two reasons: a line is
empty in the full form just when it was blank in the text, and the last trimming takes nothing away,
since no text of a section starts or ends with a blank (`lines_full`).
-/

namespace MissionIndex.Header

open Text

variable {text : List Char} {parts : List (List Char)}

/-! ## Joined texts -/

theorem subset_join (sep : Char) {rows : List (List Char)} :
    ∀ line ∈ rows, line ⊆ join [sep] rows := by
  induction rows with
  | nil => exact List.forall_mem_nil _
  | cons row rows ih =>
    by_cases hrows : rows = []
    · rw [hrows]
      exact List.forall_mem_singleton.mpr (List.Subset.refl row)
    · rw [Path.join_cons hrows]
      exact List.forall_mem_cons.mpr ⟨List.subset_append_left _ _, fun line hline ↦
        List.subset_append_of_subset_right _ (List.subset_cons_of_subset _ (ih line hline))⟩

theorem getLast?_join {last : List Char} (hlast : last ≠ []) (sep : List Char)
    (rows : List (List Char)) :
    (join sep (rows ++ [last])).getLast? = last.getLast? := by
  induction rows with
  | nil => rfl
  | cons row rows ih =>
    have hmore : rows ++ [last] ≠ [] := List.append_ne_nil_of_right_ne_nil _ (List.cons_ne_nil _ _)
    have hjoined : join sep (rows ++ [last]) ≠ [] := fun he ↦ by
      rw [he, List.getLast?_nil, eq_comm, List.getLast?_eq_none_iff] at ih
      exact hlast ih
    rw [List.cons_append, join, List.getLast?_append_of_ne_nil _ hjoined, ih]
    exact hmore

theorem not_isBlank_of_getLast?_join (h : ∀ part ∈ parts, ∀ c ∈ part.getLast?, isBlank c = false)
    (sep : List Char) :
    ∀ c ∈ (join sep (parts.filter (· != []))).getLast?, isBlank c = false := by
  intro c hc
  rcases (parts.filter (· != [])).eq_nil_or_concat' with hkept | ⟨more, part, hkept⟩
  · rw [hkept] at hc
    exact absurd hc (by simp [join])
  · obtain ⟨hpart, hne⟩ := List.mem_filter.mp (hkept ▸ List.mem_concat_self : part
      ∈ parts.filter (· != []))
    refine h part hpart c ?_
    rwa [hkept, getLast?_join (bne_iff_ne.mp hne)] at hc

theorem join_filter_eq_nil_iff (sep : List Char) :
    join sep (parts.filter (· != [])) = [] ↔ ∀ part ∈ parts, part = [] := by
  constructor
  · intro h part hpart
    by_contra hne
    have hmem : part ∈ parts.filter (· != []) := List.mem_filter.mpr ⟨hpart, bne_iff_ne.mpr hne⟩
    obtain ⟨first, rest, hkept⟩ := List.exists_cons_of_ne_nil (List.ne_nil_of_mem hmem)
    obtain ⟨-, hfirst⟩ := List.mem_filter.mp (hkept ▸ List.mem_cons_self : first
      ∈ parts.filter (· != []))
    have hhead := head?_join (bne_iff_ne.mp hfirst) sep rest
    rw [← hkept, h, List.head?_nil, eq_comm, List.head?_eq_none_iff] at hhead
    exact bne_iff_ne.mp hfirst hhead
  · intro h
    rw [List.filter_eq_nil_iff.mpr fun part hpart ↦ by simp [h part hpart]]
    rfl

/-! ## Line by line -/

theorem exists_lines_cons (hne : text ≠ []) (h : ∀ c ∈ text.head?, isBlank c = false) :
    ∃ line rest, lines text = line :: rest ∧ trim line ≠ [] := by
  obtain ⟨c, cs, rfl⟩ := List.exists_cons_of_ne_nil hne
  have hc : isBlank c = false := h c rfl
  have hfeed : c ≠ '\n' := fun he ↦ by rw [he] at hc; exact absurd hc (by decide)
  obtain ⟨line, rest, -, hlines⟩ := Position.lines_cons_of_ne hfeed cs
  exact ⟨c :: line, rest, hlines,
    fun he ↦ Bool.eq_false_iff.mp hc (trim_eq_nil_iff.mp he c List.mem_cons_self)⟩

theorem exists_lines_concat (hne : text ≠ []) (h : ∀ c ∈ text.getLast?, isBlank c = false) :
    ∃ rows line, lines text = rows ++ [line] ∧ trim line ≠ [] := by
  have hline : ∀ line, line ≠ [] → line.getLast? = text.getLast? → trim line ≠ [] := by
    intro line hne hlast he
    obtain ⟨front, c, rfl⟩ := line.eq_nil_or_concat'.resolve_left hne
    rw [List.getLast?_concat] at hlast
    exact Bool.eq_false_iff.mp (h c hlast.symm) (trim_eq_nil_iff.mp he c List.mem_concat_self)
  obtain ⟨last, hfeed, hsplit⟩ := Position.exists_lastLine text
  have hone : splitAt '\n' last = [last] := Path.splitAt_of_notMem hfeed
  rcases hsplit with rfl | ⟨front, rfl⟩
  · exact ⟨[], text, hone, hline text hne rfl⟩
  · refine ⟨lines front, last, by rw [lines, Path.splitAt_append, hone, lines], ?_⟩
    have hlast : last ≠ [] := fun he ↦ by
      rw [he] at h
      exact absurd (h '\n' List.getLast?_concat) (by decide)
    exact hline last hlast (by rw [List.getLast?_append_of_ne_nil _ (List.cons_ne_nil _ _),
      List.getLast?_cons_of_ne_nil hlast])

/-- **The lines of the full description are those of the text, trimmed.** -/
theorem lines_full (hne : text ≠ []) (hhead : ∀ c ∈ text.head?, isBlank c = false)
    (hlast : ∀ c ∈ text.getLast?, isBlank c = false) :
    lines (trim (join ['\n'] ((lines text).map trim))) = (lines text).map trim := by
  have hends : trim (join ['\n'] ((lines text).map trim))
      = join ['\n'] ((lines text).map trim) := by
    refine trim_eq_self ?_ ?_
    · obtain ⟨line, rest, hlines, hline⟩ := exists_lines_cons hne hhead
      rw [hlines, List.map_cons, head?_join hline]
      exact not_isBlank_of_head?_trim line
    · obtain ⟨rows, line, hlines, hline⟩ := exists_lines_concat hne hlast
      rw [hlines, List.map_append, List.map_singleton, getLast?_join hline]
      exact not_isBlank_of_getLast?_trim line
  have hfeed : ∀ line ∈ (lines text).map trim, '\n' ∉ line :=
    List.forall_mem_map.mpr fun line hline hmem ↦
    Path.notMem_of_mem_splitAt hline (mem_of_mem_trim hmem)
  have hrows : (lines text).map trim ≠ [] :=
    fun he ↦ Path.splitAt_ne_nil _ text (List.map_eq_nil_iff.mp he)
  rw [hends]
  exact Path.splitAt_join hrows hfeed

/-! ## Descriptions from texts -/

/-- Of texts that are not all empty, the short description is the first paragraph of the full one,
and none of them is empty. -/
theorem describeParts_of_ne (h : ∀ part ∈ parts, trim part = part)
    (hne : join ['\n', '\n'] (parts.filter (· != [])) ≠ []) :
    let d := describeParts parts
    d.short.toList = join [' '] ((lines d.full.toList).takeWhile (· != [])) ∧ d.short ≠ "" ∧
    d.full ≠ "" ∧
      ∀ line ∈ lines d.full.toList, trim line = line := by
  intro d
  have hhead : ∀ part ∈ parts, ∀ c ∈ part.head?, isBlank c = false := fun part hpart ↦ by
    rw [← h part hpart]
    exact not_isBlank_of_head?_trim part
  have hlast : ∀ part ∈ parts, ∀ c ∈ part.getLast?, isBlank c = false := fun part hpart ↦ by
    rw [← h part hpart]
    exact not_isBlank_of_getLast?_trim part
  have hlines := lines_full hne (not_isBlank_of_head?_join hhead _)
    (not_isBlank_of_getLast?_join hlast _)
  obtain ⟨line, rest, hfirst, hline⟩ := exists_lines_cons hne (not_isBlank_of_head?_join hhead _)
  have hd : d = describeParts parts := rfl
  simp only [describeParts, if_neg hne] at hd
  have hfull : lines d.full.toList = trim line :: rest.map trim := by
    rw [hd, String.toList_ofList, hlines, hfirst, List.map_cons]
  have hshort : d.short.toList = join [' '] ((lines d.full.toList).takeWhile (· != [])) := by
    rw [hd, String.toList_ofList, String.toList_ofList, hlines]
  refine ⟨hshort, fun he ↦ ?_, fun he ↦ ?_, fun row hrow ↦ ?_⟩
  · rw [hfull, List.takeWhile_cons_of_pos (p := (· != [])) (bne_iff_ne.mpr hline), he] at hshort
    have hstart := head?_join hline [' '] ((rest.map trim).takeWhile (· != []))
    rw [← hshort, String.toList_empty, List.head?_nil, eq_comm, List.head?_eq_none_iff] at hstart
    exact hline hstart
  · rw [he] at hfull
    exact hline (List.cons.inj hfull).1.symm
  · rw [hd, String.toList_ofList, hlines] at hrow
    obtain ⟨line, -, rfl⟩ := List.mem_map.mp hrow
    exact trim_trim line

theorem describeParts_spec (h : ∀ part ∈ parts, trim part = part) :
    let d := describeParts parts
    d.short.toList = join [' '] ((lines d.full.toList).takeWhile (· != [])) ∧
    (d.short = "" ↔ d.full = "") ∧
      (d.full = "" ↔ ∀ part ∈ parts, part = []) ∧ ∀ line ∈ lines d.full.toList, trim line
        = line := by
  intro d
  by_cases hne : join ['\n', '\n'] (parts.filter (· != [])) = []
  · have hd : d = {} := if_pos hne
    rw [hd]
    exact ⟨by decide, Iff.rfl, iff_of_true rfl ((join_filter_eq_nil_iff _).mp hne), by decide⟩
  · obtain ⟨hshort, hshort', hfull, hlines⟩ := describeParts_of_ne h hne
    exact ⟨hshort, iff_of_false hshort' hfull,
      iff_of_false hfull (mt (join_filter_eq_nil_iff _).mpr hne), hlines⟩

/-! ## Descriptions from sections -/

def descriptive (comment : List Char) : List Section :=
  (sections (cleanLines comment)).filter Section.isDescriptive

theorem Draft.parts_foldl_read (d : Draft) (ss : List Section) :
    (ss.foldl read d).parts
      = d.parts ++ (((ss.filter Section.isDescriptive).map Section.content).filter (· != [])) := by
  induction ss generalizing d with
  | nil => exact (List.append_nil _).symm
  | cons s ss ih =>
    rw [List.foldl_cons, ih, parts_read, List.filter_cons]
    split
    · rw [List.map_cons, List.filter_cons, addText]
      by_cases hempty : s.content = []
      · rw [if_pos hempty, if_neg (by simp [hempty])]
      · rw [if_neg hempty, if_pos (bne_iff_ne.mpr hempty), List.append_assoc, List.singleton_append]
    · rfl

theorem description_readComment (comment : List Char) :
    (readComment comment).description
      = describeParts ((descriptive comment).map Section.content) := by
  have hparts := Draft.parts_foldl_read {} (sections (cleanLines comment))
  rw [List.nil_append] at hparts
  rw [readComment, Draft.finish, hparts, describeParts, describeParts, List.filter_filter]
  simp only [Bool.and_self]
  rfl

theorem Section.content_eq_nil_iff {s : Section} :
    s.content = [] ↔ ∀ line ∈ s.lines, ∀ c ∈ line, isBlank c = true := by
  rw [content, trim_eq_nil_iff]
  exact ⟨fun h line hline c hc ↦ h c (subset_join _ line hline hc), isBlank_of_mem_join⟩

/-- **The short description is the first paragraph of the full one.** Cut off at the first blank
line in what the sections say, it is made up of the lines of the full description in front of the
first empty one. There is no description in either form just where all sections that describe the
function are blank, and no line of it has blanks at its ends. -/
theorem description_paragraphs (comment : List Char) :
    let d := (readComment comment).description
    tryDescribe ((descriptive comment).map Section.content) = .ok d ∧
      d.short.toList = join [' '] ((lines d.full.toList).takeWhile (· != [])) ∧
      (d.short = "" ↔ d.full = "") ∧
      (d.full = "" ↔ ∀ s ∈ descriptive comment, ∀ line ∈ s.lines, ∀ c ∈ line, isBlank c = true) ∧
      ∀ line ∈ lines d.full.toList, trim line = line := by
  intro d
  have hd : d = describeParts ((descriptive comment).map Section.content) :=
    description_readComment comment
  have htrimmed : ∀ part ∈ (descriptive comment).map Section.content, trim part = part :=
    List.forall_mem_map.mpr fun s _ ↦ trim_trim _
  obtain ⟨hshort, hempty, hfull, hlines⟩ := describeParts_spec htrimmed
  rw [← hd] at hshort hempty hfull hlines
  refine ⟨?_, hshort, hempty, hfull.trans ?_, hlines⟩
  · rw [hd]
    exact tryDescribe_eq (List.forall_mem_map.mpr fun s _ ↦ not_isBlank_of_head?_trim _)
  · rw [List.forall_mem_map]
    exact forall₂_congr fun s _ ↦ Section.content_eq_nil_iff

end MissionIndex.Header
