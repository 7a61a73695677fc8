import MissionIndex.Proofs.Header.Sections

/-!
# Where the lines of a comment go

Cutting a comment into sections loses no line and takes none twice: what each line has for the
sections is found in them, in the order of the lines. A line has itself; a heading has its label,
and the text behind the colon if there is any. A line stands under the last heading above it, unless
this is one that says all it has to say on its own line (`sections_account`).

While lines are taken in, the sections fall into those that are complete and the one that further
lines continue. Two of them can become complete at once, and free sections without lines are left
out in the end. So what is counted are the lines and the labels of all sections together (`Taken`):
they grow by what the next line has, whichever way it goes.
-/

namespace MissionIndex.Header

variable {current last : Section} {rows : List (List Char)} {done : List Section} {line : List Char}

/-! ## What a line has for the sections -/

def labelOf? (line : List Char) : Option (List Char) := (sectionStart? line).map Prod.fst

/-- The lines that a line adds to the sections: itself, or, as a heading, the text behind its colon,
if there is any. -/
def share (line : List Char) : List (List Char) :=
  match sectionStart? line with
  | none => [line]
  | some (_, inline) => if inline = [] then [] else [inline]

/-- The label that a line stands under behind other lines: that of the last heading, unless it is
one whose section ends with its own line. -/
def labelBehind (rows : List (List Char)) : Option (List Char) :=
  (rows.filterMap labelOf?).getLast?.filter (!isInlineLabel ·)

theorem filterMap_labelOf?_concat_of_line (rows : List (List Char))
    (h : sectionStart? line = none) :
    (rows ++ [line]).filterMap labelOf? = rows.filterMap labelOf? := by
  have hlabel : labelOf? line = none := congrArg (Option.map Prod.fst) h
  rw [List.filterMap_append, List.filterMap_cons_none hlabel, List.filterMap_nil, List.append_nil]

theorem filterMap_labelOf?_concat_of_heading (rows : List (List Char)) {label inline : List Char}
    (h : sectionStart? line = some (label, inline)) :
    (rows ++ [line]).filterMap labelOf? = rows.filterMap labelOf? ++ [label] := by
  have hlabel : labelOf? line = some label := congrArg (Option.map Prod.fst) h
  rw [List.filterMap_append, List.filterMap_cons_some hlabel, List.filterMap_nil]

theorem labelBehind_concat_of_line (rows : List (List Char)) (h : sectionStart? line = none) :
    labelBehind (rows ++ [line]) = labelBehind rows := by
  rw [labelBehind, filterMap_labelOf?_concat_of_line rows h, labelBehind]

theorem labelBehind_concat_of_heading (rows : List (List Char)) {label inline : List Char}
    (h : sectionStart? line = some (label, inline)) :
    labelBehind (rows ++ [line]) = if isInlineLabel label then none else some label := by
  rw [labelBehind, filterMap_labelOf?_concat_of_heading rows h, List.getLast?_concat,
    Option.filter_some]
  cases isInlineLabel label <;> rfl

/-! ## Taking in a line -/

theorem sectionsFrom_of_line (h : sectionStart? line = none) (rest : List (List Char)) :
    sectionsFrom current (line :: rest)
      = sectionsFrom ⟨current.label, current.lines ++ [line]⟩ rest := by
  rw [sectionsFrom, h]

theorem sectionsFrom_of_heading {label inline : List Char}
    (h : sectionStart? line = some (label, inline)) (rest : List (List Char)) :
    sectionsFrom current (line :: rest)
      = if isInlineLabel label then current :: ⟨some label, share line⟩ ::
        sectionsFrom ⟨none, []⟩ rest
        else current :: sectionsFrom ⟨some label, share line⟩ rest := by
  rw [sectionsFrom, share, h]

theorem exists_sectionsFrom_eq (current : Section) (rows : List (List Char)) :
    ∃ below back, sectionsFrom current rows = ⟨current.label, current.lines ++ below⟩ :: back := by
  induction rows generalizing current with
  | nil => exact ⟨[], [], by rw [sectionsFrom, List.append_nil]⟩
  | cons line rest ih =>
    cases hstart : sectionStart? line with
    | none =>
      obtain ⟨below, back, hrest⟩ := ih ⟨current.label, current.lines ++ [line]⟩
      exact ⟨line :: below, back, by rw [sectionsFrom_of_line hstart, hrest, List.append_assoc,
        List.singleton_append]⟩
    | some heading =>
      refine ⟨[], ?_⟩
      rw [sectionsFrom_of_heading hstart, List.append_nil]
      split <;> exact ⟨_, rfl⟩

theorem filterMap_label_singleton (s : Section) : [s].filterMap Section.label = s.label.toList := by
  cases hlabel : s.label with
  | none => rw [List.filterMap_cons_none hlabel, List.filterMap_nil, Option.toList_none]
  | some label => rw [List.filterMap_cons_some hlabel, List.filterMap_nil, Option.toList_some]

/-- Behind the lines taken in so far, some sections are complete and further lines continue another
one. Together they have the lines and labels that these lines have for them. -/
structure Taken (rows : List (List Char)) (done : List Section) (last : Section) : Prop where
  sectionsFrom_append : ∀ rest, sectionsFrom ⟨none, []⟩ (rows ++ rest) = done ++
    sectionsFrom last rest
  lines_eq : done.flatMap Section.lines ++ last.lines = rows.flatMap share
  labels_eq : done.filterMap Section.label ++ last.label.toList = rows.filterMap labelOf?
  label_eq : last.label = labelBehind rows

theorem taken_nil : Taken [] [] ⟨none, []⟩ where
  sectionsFrom_append _ := rfl
  lines_eq := rfl
  labels_eq := rfl
  label_eq := rfl

theorem Taken.concat_line (h : Taken rows done last) (hline : sectionStart? line = none) :
    Taken (rows ++ [line]) done ⟨last.label, last.lines ++ [line]⟩ where
  sectionsFrom_append rest := by
    rw [List.append_assoc, h.sectionsFrom_append, List.singleton_append, sectionsFrom_of_line hline]
  lines_eq := by
    have hshare : share line = [line] := by rw [share, hline]
    rw [← List.append_assoc, h.lines_eq, List.flatMap_append, List.flatMap_singleton, hshare]
  labels_eq := by
    rw [filterMap_labelOf?_concat_of_line rows hline]
    exact h.labels_eq
  label_eq := by
    rw [labelBehind_concat_of_line rows hline]
    exact h.label_eq

/-- A heading completes the section above it, and also its own if that ends with the line. -/
theorem Taken.concat_heading (h : Taken rows done last) {label inline : List Char}
    (hline : sectionStart? line = some (label, inline)) :
    ∃ done' last', Taken (rows ++ [line]) done' last' := by
  have hlines : (done ++ [last]).flatMap Section.lines ++ share line
      = (rows ++ [line]).flatMap share := by
    rw [List.flatMap_append, List.flatMap_singleton, h.lines_eq, List.flatMap_append,
      List.flatMap_singleton]
  have hlabels : (done ++ [last]).filterMap Section.label ++ [label]
      = (rows ++ [line]).filterMap labelOf? := by
    rw [List.filterMap_append, filterMap_label_singleton, h.labels_eq,
      filterMap_labelOf?_concat_of_heading rows hline]
  by_cases hinline : isInlineLabel label = true
  · refine ⟨done ++ [last] ++ [⟨some label, share line⟩], ⟨none, []⟩, fun rest ↦ ?_, ?_, ?_, ?_⟩
    · rw [List.append_assoc, h.sectionsFrom_append, List.singleton_append,
        sectionsFrom_of_heading hline, if_pos hinline, List.append_assoc, List.append_assoc]
      rfl
    · rw [List.flatMap_append, List.flatMap_singleton, List.append_nil, hlines]
    · rw [List.filterMap_append, filterMap_label_singleton, Option.toList_none, List.append_nil]
      exact hlabels
    · rw [labelBehind_concat_of_heading rows hline, if_pos hinline]
  · refine ⟨done ++ [last], ⟨some label, share line⟩, fun rest ↦ ?_, hlines, hlabels, ?_⟩
    · rw [List.append_assoc, h.sectionsFrom_append, List.singleton_append,
        sectionsFrom_of_heading hline, if_neg hinline, List.append_assoc]
      rfl
    · rw [labelBehind_concat_of_heading rows hline, if_neg hinline]

theorem exists_taken (rows : List (List Char)) : ∃ done last, Taken rows done last := by
  induction rows using List.reverseRecOn with
  | nil => exact ⟨_, _, taken_nil⟩
  | append_singleton rows line ih =>
    obtain ⟨done, last, h⟩ := ih
    cases hline : sectionStart? line with
    | none => exact ⟨_, _, h.concat_line hline⟩
    | some heading => exact h.concat_heading hline

/-! ## Leaving out what is empty -/

theorem Section.eq_of_not_isPresent {s : Section} (h : s.isPresent = false) : s = ⟨none, []⟩ := by
  obtain ⟨label, lines⟩ := s
  cases label <;> cases lines <;> simp [isPresent] at h ⊢

theorem flatMap_lines_filter (ss : List Section) :
    (ss.filter Section.isPresent).flatMap Section.lines = ss.flatMap Section.lines := by
  induction ss with
  | nil => rfl
  | cons s ss ih =>
    rw [List.filter_cons, List.flatMap_cons, ← ih]
    split
    · rw [List.flatMap_cons]
    · next h => rw [Section.eq_of_not_isPresent (Bool.eq_false_iff.mpr h), List.nil_append]

theorem filterMap_label_filter (ss : List Section) :
    (ss.filter Section.isPresent).filterMap Section.label = ss.filterMap Section.label := by
  rw [List.filterMap_filter]
  refine List.filterMap_congr fun s _ ↦ ?_
  split
  · rfl
  · next h => rw [Section.eq_of_not_isPresent (Bool.eq_false_iff.mpr h)]

/-! ## The sections of a comment -/

theorem sections_eq (rows : List (List Char)) : ∃ done last, Taken rows done last ∧
    sections rows = (done ++ [last]).filter Section.isPresent := by
  obtain ⟨done, last, h⟩ := exists_taken rows
  refine ⟨done, last, h, ?_⟩
  rw [sections, ← rows.append_nil, h.sectionsFrom_append, sectionsFrom]

/-- A line that is no heading is behind what comes from the lines above it, under the heading that
counts for it. -/
theorem exists_place_of_line (before : List (List Char)) (hline : sectionStart? line = none)
    (after : List (List Char)) :
    ∃ front s back above below,
      sections (before ++ line :: after) = front ++ s :: back ∧ s.lines = above ++ (line :: below) ∧
        front.flatMap Section.lines ++ above = before.flatMap share ∧
        (front ++ [s]).filterMap Section.label = before.filterMap labelOf? ∧
        s.label = labelBehind before := by
  obtain ⟨done, last, h⟩ := exists_taken before
  obtain ⟨below, back, hrest⟩ := exists_sectionsFrom_eq ⟨last.label, last.lines ++ [line]⟩ after
  have hpresent : Section.isPresent ⟨last.label, last.lines ++ [line] ++ below⟩ = true := by
    simp [Section.isPresent]
  refine ⟨done.filter Section.isPresent, ⟨last.label, last.lines ++ [line] ++ below⟩,
    back.filter Section.isPresent, last.lines, below, ?_, ?_, ?_, ?_, h.label_eq⟩
  · rw [sections, h.sectionsFrom_append, sectionsFrom_of_line hline, hrest, List.filter_append,
      List.filter_cons, if_pos hpresent]
  · rw [List.append_assoc, List.singleton_append]
  · rw [flatMap_lines_filter, h.lines_eq]
  · rw [List.filterMap_append, filterMap_label_filter, filterMap_label_singleton, h.labels_eq]

/-- A heading opens a section under its label, behind all that comes from the lines above it. -/
theorem exists_place_of_heading (before : List (List Char)) {label inline : List Char}
    (hline : sectionStart? line = some (label, inline)) (after : List (List Char)) :
    ∃ front back below,
      sections (before ++ line :: after) = front ++ ⟨some label, share line ++ below⟩ :: back ∧
        front.flatMap Section.lines = before.flatMap share ∧
        front.filterMap Section.label = before.filterMap labelOf? ∧
        (isInlineLabel label = true → below = []) := by
  obtain ⟨done, last, h⟩ := exists_taken before
  obtain ⟨below, back, hrest, hbelow⟩ : ∃ below back,
      sectionsFrom last (line :: after) = last :: ⟨some label, share line ++ below⟩ :: back ∧
        (isInlineLabel label = true → below = []) := by
    rw [sectionsFrom_of_heading hline]
    by_cases hinline : isInlineLabel label = true
    · exact ⟨[], sectionsFrom ⟨none, []⟩ after, by
        rw [if_pos hinline, List.append_nil], fun _ ↦ rfl⟩
    · obtain ⟨below, back, hrest⟩ := exists_sectionsFrom_eq ⟨some label, share line⟩ after
      exact ⟨below, back, by rw [if_neg hinline, hrest], fun hlabel ↦ absurd hlabel hinline⟩
  have hpresent : Section.isPresent ⟨some label, share line ++ below⟩ = true := rfl
  refine ⟨(done ++ [last]).filter Section.isPresent, back.filter Section.isPresent, below, ?_,
    ?_, ?_, hbelow⟩
  · rw [sections, h.sectionsFrom_append, hrest, List.append_cons, List.filter_append,
      List.filter_cons, if_pos hpresent]
  · rw [flatMap_lines_filter, List.flatMap_append, List.flatMap_singleton, h.lines_eq]
  · rw [filterMap_label_filter, List.filterMap_append, filterMap_label_singleton, h.labels_eq]

/-- **Cutting a comment into sections loses nothing and takes nothing twice.** The lines of the
sections are those of the comment, with the text behind the colon, if there is any, in place of a
heading, and their labels are those of the headings. Each line stands, behind what comes from the
lines above it, in the section of the last heading above it, or in a free one if there is no such
heading or if its section ends with its own line. What a heading has opens a section under its
label. -/
theorem sections_account (rows : List (List Char)) :
    (sections rows).flatMap Section.lines = rows.flatMap share ∧
      (sections rows).filterMap Section.label = rows.filterMap labelOf? ∧
      ∀ before line after, rows = before ++ line :: after → ∃ front s back above below,
        sections rows = front ++ s :: back ∧ s.lines = above ++ (share line ++ below) ∧
          front.flatMap Section.lines ++ above = before.flatMap share ∧
          (front ++ [s]).filterMap Section.label = (before ++ [line]).filterMap labelOf? ∧
          match sectionStart? line with
          | none => s.label = labelBehind before
          | some (label, _) => s.label = some label ∧ above = [] ∧
              (isInlineLabel label = true → below = []) := by
  obtain ⟨done, last, h, hsections⟩ := sections_eq rows
  refine ⟨?_, ?_, ?_⟩
  · rw [hsections, flatMap_lines_filter, List.flatMap_append, List.flatMap_singleton, h.lines_eq]
  · rw [hsections, filterMap_label_filter, List.filterMap_append, filterMap_label_singleton,
      h.labels_eq]
  · rintro before line after rfl
    cases hline : sectionStart? line with
    | none =>
      obtain ⟨front, s, back, above, below, hfront, hs, hlines, hlabels, hlabel⟩ :=
        exists_place_of_line before hline after
      have hshare : share line = [line] := by rw [share, hline]
      refine ⟨front, s, back, above, below, hfront, by rw [hshare]; exact hs, hlines, ?_, hlabel⟩
      rw [hlabels, filterMap_labelOf?_concat_of_line before hline]
    | some heading =>
      obtain ⟨label, inline⟩ := heading
      obtain ⟨front, back, below, hfront, hlines, hlabels, hbelow⟩ :=
        exists_place_of_heading before hline after
      refine ⟨front, _, back, [], below, hfront, rfl, by
        rw [List.append_nil, hlines], ?_, rfl, rfl, hbelow⟩
      rw [List.filterMap_append, hlabels, filterMap_labelOf?_concat_of_heading before hline]
      rfl

/-- A line behind an author is free again, in a section of its own. -/
theorem sections_account_author :
    let before := ["Heals the unit.".toList, "Author(s): Someone".toList]
    let line := "Needs a medic.".toList
    let after := ["Arguments:".toList, "0: Unit <OBJECT>".toList]
    let rows := before ++ line :: after
    sectionStart? line = none ∧
    before.flatMap share = ["Heals the unit.".toList, "Someone".toList] ∧
      before.filterMap labelOf? = ["Author(s)".toList] ∧ labelBehind before = none ∧
      ∃ front s back above below, sections rows = front ++ s :: back ∧
      s.lines = above ++ (line :: below) ∧
        front.flatMap Section.lines ++ above = before.flatMap share ∧
        (front ++ [s]).filterMap Section.label = before.filterMap labelOf? ∧
        s.label = labelBehind before := by
  intro before line after rows
  have hline : sectionStart? line = none := by decide
  refine ⟨hline, by decide, by decide, by decide, ?_⟩
  obtain ⟨front, s, back, above, below, hfront, hs, hlines, hlabels, hlabel⟩ :=
    (sections_account rows).2.2 before line after rfl
  rw [hline] at hlabel
  rw [share, hline] at hs
  rw [filterMap_labelOf?_concat_of_line before hline] at hlabels
  exact ⟨front, s, back, above, below, hfront, hs, hlines, hlabels, hlabel⟩

end MissionIndex.Header
