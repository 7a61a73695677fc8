import MissionIndex.Proofs.Header.Lines
import MissionIndex.Proofs.Text.Words

/-!
# Sections of a header comment

A line is a heading if a label comes first on it, in any case, and then a colon, with blanks at will
before and behind the label. Some labels go on as others do, such as `return` and `return value`,
but the colon tells them apart: no line is a heading for two labels (`heading_unique`). So the
sections of a comment can be read off its headings.
-/

namespace MissionIndex.Header

open Text

variable {word : String} {line label inline : List Char}

/-! ## Headings -/

/-- A line is a heading for a label, which is given in lower case. -/
def IsHeading (word : String) (line : List Char) : Prop :=
  ∃ front label gap inline, line = front ++ (label ++ (gap ++ ':' :: inline)) ∧
  (∀ c ∈ front, isBlank c = true) ∧
    Spells word.toList label ∧ ∀ c ∈ gap, isBlank c = true

/-- The label and the text behind the colon, where a line is a heading for `word`. -/
def headingFor? (word : String) (line : List Char) : Option (List Char × List Char) :=
  (spanFolded word.toList (trimStart line)).bind fun (found, rest) ↦
    (afterChar ':' (trimStart rest)).map fun inline ↦ (found, trim inline)

theorem sectionStart?_eq (line : List Char) :
    sectionStart? line = labels.findSome? (headingFor? · line) := rfl

theorem afterChar_eq_some_iff {p : Char} {cs rest : List Char} :
    afterChar p cs = some rest ↔ cs = p :: rest := by
  cases cs with
  | nil => simp [afterChar]
  | cons c cs => simp [afterChar]

theorem labels_plain : ∀ word ∈ labels, (∀ p ∈ word.toList, p.toNat < 128) ∧
    ∃ p ∈ word.toList.head?, isBlank p = false ∧ isDecimalDigit p = false := by
  have hplain : ∀ word ∈ labels, word.toList.all (fun p ↦ p.toNat < 128) = true ∧
      word.toList.head?.any (fun p ↦ !isBlank p && !isDecimalDigit p) = true := by decide
  intro word hword
  simpa [List.all_eq_true, Option.any_eq_true] using hplain word hword

theorem exists_of_headingFor? (h : headingFor? word line = some (label, inline)) :
    Spells word.toList label ∧ ∃ front gap behind, line = front ++
      (label ++ (gap ++ ':' :: behind)) ∧
      (∀ c ∈ front, isBlank c = true) ∧ (∀ c ∈ gap, isBlank c = true) ∧ inline = trim behind := by
  obtain ⟨⟨found, rest⟩, hspan, hrest⟩ := Option.bind_eq_some_iff.mp h
  obtain ⟨after, hafter, hpair⟩ := Option.map_eq_some_iff.mp hrest
  obtain ⟨rfl, rfl⟩ := Prod.mk.inj hpair
  obtain ⟨hline, hspells⟩ := spanFolded_eq_some_iff.mp hspan
  have hcolon : trimStart rest = ':' :: after := afterChar_eq_some_iff.mp hafter
  refine ⟨hspells, line.takeWhile isBlank, rest.takeWhile isBlank, after, ?_,
    fun c hc ↦ List.mem_takeWhile_imp hc, fun c hc ↦ List.mem_takeWhile_imp hc, rfl⟩
  rw [← hcolon, trimStart, List.takeWhile_append_dropWhile, ← hline, trimStart,
    List.takeWhile_append_dropWhile]

theorem isHeading_of_headingFor? (h : headingFor? word line = some (label, inline)) :
    IsHeading word line ∧ Spells word.toList label := by
  obtain ⟨hspells, front, gap, behind, hline, hfront, hgap, -⟩ := exists_of_headingFor? h
  exact ⟨⟨front, label, gap, behind, hline, hfront, hspells, hgap⟩, hspells⟩

theorem isBlank_of_spells {p c : Char} (hp : p.toNat < 128) (hblank : isBlank p = false)
    (h : sameFolded p c = true) : isBlank c = false := by
  by_contra hc
  rw [Bool.not_eq_false] at hc
  rw [← baseLetter_of_sameFolded hp h, baseLetter_of_isBlank hc] at hblank
  exact absurd (hc.symm.trans hblank) (by decide)

theorem trimStart_append_label (hword : word ∈ labels) {front : List Char}
    (hfront : ∀ c ∈ front, isBlank c = true) (hspells : Spells word.toList label)
    (rest : List Char) : trimStart (front ++ (label ++ rest)) = label ++ rest := by
  obtain ⟨hplain, p, hp, hblank, -⟩ := labels_plain word hword
  obtain ⟨letters, hletters⟩ := List.head?_eq_some_iff.mp hp
  rw [hletters] at hspells hplain
  obtain ⟨c, more, hc, -, rfl⟩ := List.forall₂_cons_left_iff.mp hspells
  rw [trimStart_append_of_blank hfront, List.cons_append,
    trimStart_cons (isBlank_of_spells (hplain p List.mem_cons_self) hblank hc)]

theorem IsHeading.trimStart_eq (hword : word ∈ labels) (h : IsHeading word line) :
    ∃ label gap inline, trimStart line = label ++ (gap ++ ':' :: inline) ∧
    Spells word.toList label ∧
      ∀ c ∈ gap, isBlank c = true := by
  obtain ⟨front, label, gap, inline, rfl, hfront, hspells, hgap⟩ := h
  exact ⟨label, gap, inline, trimStart_append_label hword hfront hspells _, hspells, hgap⟩

theorem not_isHeading_of_digit {c : Char} (hc : c ∈ (trimStart line).head?)
    (hdigit : isDecimalDigit c = true) (hword : word ∈ labels) : ¬ IsHeading word line := by
  intro h
  obtain ⟨label, gap, inline, hline, hspells, -⟩ := h.trimStart_eq hword
  obtain ⟨hplain, p, hp, -, hother⟩ := labels_plain word hword
  obtain ⟨letters, hletters⟩ := List.head?_eq_some_iff.mp hp
  rw [hletters] at hspells hplain
  obtain ⟨d, more, hd, -, rfl⟩ := List.forall₂_cons_left_iff.mp hspells
  have hcd : d = c := by
    rw [hline, List.cons_append, List.head?_cons] at hc
    exact Option.mem_some_iff.mp hc
  rw [← baseLetter_of_sameFolded (hplain p List.mem_cons_self) hd, hcd,
    baseLetter_of_isDecimalDigit hdigit] at hother
  exact absurd (hdigit.symm.trans hother) (by decide)

theorem headingFor?_of_spells (hword : word ∈ labels) {front gap : List Char}
    (hfront : ∀ c ∈ front, isBlank c = true) (hspells : Spells word.toList label)
    (hgap : ∀ c ∈ gap, isBlank c = true) (behind : List Char) :
    headingFor? word (front ++ (label ++ (gap ++ ':' :: behind))) = some (label, trim behind) := by
  have hspan : spanFolded word.toList (label ++ (gap ++ ':' :: behind))
      = some (label, gap ++ ':' :: behind) :=
    spanFolded_eq_some_iff.mpr ⟨rfl, hspells⟩
  have hcolon : afterChar ':' (trimStart (gap ++ ':' :: behind)) = some behind := by
    rw [trimStart_append_of_blank hgap, trimStart_cons (by decide)]
    rfl
  rw [headingFor?, trimStart_append_label hword hfront hspells, hspan, Option.bind_some]
  exact congrArg (Option.map _) hcolon

theorem exists_headingFor? (hword : word ∈ labels) (h : IsHeading word line) :
    ∃ label inline, headingFor? word line = some (label, inline) := by
  obtain ⟨front, label, gap, inline, rfl, hfront, hspells, hgap⟩ := h
  exact ⟨label, trim inline, headingFor?_of_spells hword hfront hspells hgap inline⟩

theorem labels_apart : ∀ word ∈ labels, ∀ other ∈ labels, word.toList <+: other.toList →
    word ≠ other →
    (trimStart (other.toList.drop word.toList.length)).head?.any (· != ':') = true := by
  decide +kernel

theorem heading_unique_of_le {other : String} (hword : word ∈ labels) (hother : other ∈ labels)
    (hle : word.toList <+: other.toList) {gap gap' after after' : List Char}
    (hgap : ∀ c ∈ gap, isBlank c = true) (h : word.toList ++ (gap ++ ':' :: after) = other.toList ++
      (gap' ++ ':' :: after')) : word = other := by
  by_contra hne
  have hnext := labels_apart word hword other hother hle hne
  obtain ⟨more, hmore⟩ := hle
  rw [← hmore, List.drop_left] at hnext
  rw [← hmore, List.append_assoc, List.append_cancel_left_eq] at h
  cases hrest : trimStart more with
  | nil => rw [hrest] at hnext; exact absurd hnext (by simp)
  | cons q rest =>
    have hq : isBlank q = false := not_isBlank_of_head?_trimStart more q (by rw [hrest]; rfl)
    have hstart := congrArg trimStart h
    rw [trimStart_append_of_blank hgap, trimStart_cons (by decide),
      ← trimStart_trimStart_append, hrest, List.cons_append, trimStart_cons hq] at hstart
    rw [hrest, ← (List.cons.inj hstart).1] at hnext
    exact absurd hnext (by simp)

theorem heading_unique {other : String} (hword : word ∈ labels) (hother : other ∈ labels)
    (h : IsHeading word line) (h' : IsHeading other line) : word = other := by
  have hletters : ∀ w ∈ labels, IsHeading w line → ∃ gap after, (∀ c ∈ gap, isBlank c = true) ∧
      (trimStart line).map baseLetter = w.toList ++ (gap ++ ':' :: after) := by
    intro w hw hheading
    obtain ⟨label, gap, inline, hline, hspells, hgap⟩ := hheading.trimStart_eq hw
    refine ⟨gap, inline.map baseLetter, hgap, ?_⟩
    have hkept : gap.map baseLetter = gap :=
      (List.map_congr_left fun c hc ↦ baseLetter_of_isBlank (hgap c hc)).trans (List.map_id gap)
    rw [hline, List.map_append, List.map_append, List.map_cons,
      hspells.map_baseLetter (labels_plain w hw).1, hkept]
    rfl
  obtain ⟨gap, after, hgap, hline⟩ := hletters word hword h
  obtain ⟨gap', after', hgap', hline'⟩ := hletters other hother h'
  have heq := hline.symm.trans hline'
  rcases List.prefix_or_prefix_of_prefix ⟨_, hline.symm⟩ ⟨_, hline'.symm⟩ with hle | hle
  · exact heading_unique_of_le hword hother hle hgap heq
  · exact (heading_unique_of_le hother hword hle hgap' heq.symm).symm

theorem sectionStart?_of_isHeading (hword : word ∈ labels) (h : IsHeading word line) :
    sectionStart? line = headingFor? word line := by
  obtain ⟨label, inline, hfor⟩ := exists_headingFor? hword h
  cases hstart : sectionStart? line with
  | none =>
    rw [sectionStart?_eq, List.findSome?_eq_none_iff] at hstart
    exact absurd ((hstart word hword).symm.trans hfor) (by simp)
  | some found =>
    rw [sectionStart?_eq] at hstart
    obtain ⟨other, hother, hfound⟩ := List.exists_of_findSome?_eq_some hstart
    rw [← heading_unique hother hword (isHeading_of_headingFor? hfound).1 h, hfound]

theorem exists_sectionStart? (hword : word ∈ labels) (h : IsHeading word line) :
    ∃ label inline, sectionStart? line = some (label, inline) ∧ Spells word.toList label := by
  obtain ⟨label, inline, hfor⟩ := exists_headingFor? hword h
  exact ⟨label, inline, (sectionStart?_of_isHeading hword h).trans hfor,
    (isHeading_of_headingFor? hfor).2⟩

/-- **Headings are read by their form.** What is read of a line is a label that comes first behind
blanks and has a colon behind it, with blanks at will in between, and the rest of the line without
blanks around it. -/
theorem sectionStart?_eq_some_iff : sectionStart? line = some (label, inline) ↔
    ∃ word ∈ labels, Spells word.toList label ∧ ∃ front gap behind, line = front ++
      (label ++ (gap ++ ':' :: behind)) ∧
      (∀ c ∈ front, isBlank c = true) ∧ (∀ c ∈ gap, isBlank c = true) ∧ inline = trim behind := by
  constructor
  · intro h
    rw [sectionStart?_eq] at h
    obtain ⟨word, hword, hfor⟩ := List.exists_of_findSome?_eq_some h
    exact ⟨word, hword, exists_of_headingFor? hfor⟩
  · rintro ⟨word, hword, hspells, front, gap, behind, rfl, hfront, hgap, rfl⟩
    rw [sectionStart?_of_isHeading hword ⟨front, label, gap, behind, rfl, hfront, hspells, hgap⟩]
    exact headingFor?_of_spells hword hfront hspells hgap behind

theorem isHeading_iff (hword : word ∈ labels) :
    IsHeading word line ↔ (headingFor? word line).isSome = true := by
  constructor
  · intro h
    obtain ⟨label, inline, hfor⟩ := exists_headingFor? hword h
    rw [hfor, Option.isSome_some]
  · intro h
    obtain ⟨⟨label, inline⟩, hfor⟩ := Option.isSome_iff_exists.mp h
    exact (isHeading_of_headingFor? hfor).1

theorem sectionStart?_eq_none_iff :
    sectionStart? line = none ↔ ∀ word ∈ labels, ¬ IsHeading word line := by
  rw [sectionStart?_eq, List.findSome?_eq_none_iff]
  refine forall₂_congr fun word hword ↦ ?_
  rw [isHeading_iff hword, Option.not_isSome_iff_eq_none]

/-! ## Lines under a heading -/

theorem sectionsFrom_append (current : Section) {body : List (List Char)}
    (hbody : ∀ line ∈ body, sectionStart? line = none) (rest : List (List Char)) :
    sectionsFrom current (body ++ rest)
      = sectionsFrom ⟨current.label, current.lines ++ body⟩ rest := by
  induction body generalizing current with
  | nil => rw [List.nil_append, List.append_nil]
  | cons line body ih =>
    obtain ⟨hline, hbody⟩ := List.forall_mem_cons.mp hbody
    rw [List.cons_append, sectionsFrom, hline]
    simp only
    rw [ih _ hbody, List.append_assoc, List.singleton_append]

/-! ## Comments without content -/

theorem mem_of_mem_splitAt {sep c : Char} {cs part : List Char} (hpart : part ∈ splitAt sep cs)
    (hc : c ∈ part) :
    c ∈ cs := by
  induction cs generalizing part with
  | nil =>
    rw [splitAt, List.mem_singleton] at hpart
    rwa [hpart] at hc
  | cons d cs ih =>
    rw [splitAt] at hpart
    split at hpart
    · rcases List.mem_cons.mp hpart with rfl | hpart
      · exact absurd hc List.not_mem_nil
      · exact List.mem_cons_of_mem d (ih hpart hc)
    · cases hparts : splitAt sep cs with
      | nil => exact absurd hparts (Path.splitAt_ne_nil sep cs)
      | cons first parts =>
        rw [hparts] at hpart ih
        rcases List.mem_cons.mp hpart with rfl | hpart
        · exact (List.mem_cons.mp hc).elim (fun he ↦ he ▸ List.mem_cons_self)
            fun hc ↦ List.mem_cons_of_mem d (ih List.mem_cons_self hc)
        · exact List.mem_cons_of_mem d (ih (List.mem_cons_of_mem _ hpart) hc)

theorem isBlank_of_mem_unifyNewlines {cs : List Char} (h : ∀ c ∈ cs, isBlank c = true) :
    ∀ c ∈ unifyNewlines cs, isBlank c = true := by
  have hfeed : isBlank '\n' = true := by decide
  fun_induction unifyNewlines cs with
  | case1 => exact h
  | case2 cs ih => exact List.forall_mem_cons.mpr ⟨hfeed,
      ih (List.forall_mem_cons.mp (List.forall_mem_cons.mp h).2).2⟩
  | case3 cs _ ih => exact List.forall_mem_cons.mpr ⟨hfeed, ih (List.forall_mem_cons.mp h).2⟩
  | case4 c cs _ _ ih =>
    obtain ⟨hc, hcs⟩ := List.forall_mem_cons.mp h
    exact List.forall_mem_cons.mpr ⟨hc, ih hcs⟩

theorem cleanLine_of_blank (h : ∀ c ∈ line, isBlank c = true) : cleanLine line = [] := by
  have hkept : dropGutter line = line := dropGutter_of_head (by rw [trimStart_of_blank h]; simp)
  rw [cleanLine, hkept]
  exact trimEnd_append_of_blank [] h

theorem isBlank_of_mem_join {rows : List (List Char)}
    (h : ∀ line ∈ rows, ∀ c ∈ line, isBlank c = true) :
    ∀ c ∈ join ['\n'] rows, isBlank c = true := by
  induction rows with
  | nil => exact List.forall_mem_nil _
  | cons line rest ih =>
    obtain ⟨hline, hrest⟩ := List.forall_mem_cons.mp h
    by_cases hne : rest = []
    · rw [hne]
      exact hline
    · rw [Path.join_cons hne]
      exact List.forall_mem_append.mpr ⟨hline, List.forall_mem_cons.mpr ⟨by decide, ih hrest⟩⟩

/-- A comment of blanks says nothing, so it makes no difference whether it is read at all. -/
theorem readComment_of_blank {comment : List Char} (h : ∀ c ∈ comment, isBlank c = true) :
    readComment comment = {} := by
  have hrows : ∀ line ∈ cleanLines comment, line = [] := by
    refine List.forall_mem_map.mpr fun line hline ↦ cleanLine_of_blank fun c hc ↦ ?_
    exact isBlank_of_mem_unifyNewlines h c (mem_of_mem_splitAt hline hc)
  have hplain : ∀ line ∈ cleanLines comment, sectionStart? line = none := fun line hline ↦ by
    rw [hrows line hline]
    decide
  have hone := sectionsFrom_append ⟨none, []⟩ hplain []
  rw [List.append_nil, List.nil_append, sectionsFrom] at hone
  have hcontent : (⟨none, cleanLines comment⟩ : Section).content = [] := trim_eq_nil_iff.mpr <|
    isBlank_of_mem_join fun line hline ↦ by
      rw [hrows line hline]
      exact List.forall_mem_nil _
  have hread : Draft.read {} ⟨none, cleanLines comment⟩ = {} := if_pos hcontent
  rw [readComment, sections, hone, List.filter_singleton, Bool.cond_eq_ite]
  split
  · rw [List.foldl_cons, List.foldl_nil, hread]
    rfl
  · rfl

end MissionIndex.Header
