import MissionIndex.Header.Attempt
import MissionIndex.Proofs.Header.Sections
import MissionIndex.Proofs.Running
import MissionIndex.Proofs.Text.Parts

/-!
# Attempts come to their end

A comment is read to its end, whatever it says: where an item of a list is taken, it is there. So
what has been written down is all that the comment documents (`attempt_completes`).

An item is there because a text is not blank, and that goes through all that is done to the text: a
text without blanks around it does not start with a blank, and neither does what such texts are
joined to. So it has a first word, and its first paragraph is not blank.
-/

namespace MissionIndex.Header

open Text

variable {text : List Char} {parts : List (List Char)}

/-! ## Joined texts -/

theorem head?_join {first : List Char} (hfirst : first ≠ []) (sep : List Char)
    (rest : List (List Char)) :
    (join sep (first :: rest)).head? = first.head? := by
  cases rest with
  | nil => rfl
  | cons next rest =>
    rw [join, List.append_assoc, List.head?_append_of_ne_nil _ hfirst]
    exact List.cons_ne_nil next rest

/-- A text joined from texts of which none starts with a blank does not start with one. -/
theorem not_isBlank_of_head?_join (h : ∀ part ∈ parts, ∀ c ∈ part.head?, isBlank c = false)
    (sep : List Char) :
    ∀ c ∈ (join sep (parts.filter (· != []))).head?, isBlank c = false := by
  intro c hc
  cases hkept : parts.filter (· != []) with
  | nil => rw [hkept] at hc; exact absurd hc (by simp [join])
  | cons part more =>
    obtain ⟨hpart, hne⟩ := List.mem_filter.mp (hkept ▸ List.mem_cons_self : part
      ∈ parts.filter (· != []))
    refine h part hpart c ?_
    rwa [hkept, head?_join (bne_iff_ne.mp hne)] at hc

theorem not_isBlank_of_head?_joinLines (cs : List Char) :
    ∀ c ∈ (join [' '] (((lines cs).map trim).filter (· != []))).head?, isBlank c = false :=
  not_isBlank_of_head?_join (List.forall_mem_map.mpr fun line _ ↦ not_isBlank_of_head?_trim line)
  [' ']

/-! ## Parts of the documentation -/

/-- A description that is not empty has a first paragraph, and its lines are those in front of the
first blank one. -/
theorem tryDescribe_eq (h : ∀ part ∈ parts, ∀ c ∈ part.head?, isBlank c = false) :
    tryDescribe parts = .ok (describeParts parts) := by
  rw [tryDescribe, describeParts]
  have hhead := not_isBlank_of_head?_join h ['\n', '\n']
  generalize join ['\n', '\n'] (parts.filter (· != [])) = text at hhead
  cases text with
  | nil => rfl
  | cons c text =>
    have hc : isBlank c = false := hhead c rfl
    have hfeed : c ≠ '\n' := fun he ↦ by rw [he] at hc; exact absurd hc (by decide)
    obtain ⟨line, rest, -, hlines⟩ := Position.lines_cons_of_ne hfeed text
    obtain ⟨part, more, later, hparts, hpart, hlater⟩ := exists_paragraphs_eq hlines
    have hline : trim (c :: line) ≠ [] := fun he ↦
      Bool.eq_false_iff.mp hc (trim_eq_nil_iff.mp he c List.mem_cons_self)
    have hmem : c :: line ∈ lines part := hpart ▸ List.mem_cons_self
    have hkept : trim part ≠ [] := fun he ↦
      Bool.eq_false_iff.mp hc (trim_eq_nil_iff.mp he c (mem_of_mem_splitAt hmem List.mem_cons_self))
    have hfirst : firstOf ((paragraphs (c :: text)).filter fun part ↦ trim part != [])
        = .ok part := by
      rw [hparts, List.filter_cons, if_pos (bne_iff_ne.mpr hkept), firstOf]
    have hshort : ((lines part).map trim).filter (· != [])
        = ((lines (c :: text)).map trim).takeWhile (· != []) := by
      rw [hpart, hlines]
      simpa [hline] using hlater
    simp only [if_neg (List.cons_ne_nil c text), hfirst, ← hshort]
    rfl

theorem tryAuthor_eq (lines : List (List Char)) :
    tryAuthor lines = .ok (lines.head?.bind fun line ↦ nonempty (trim line)) := by
  cases lines <;> rfl

theorem bind_pairOf_halves {α : Type} (text : List Char) (f : List Char × List Char →
    Except Fault α)
    (whole : Except Fault α) :
    (if occursIn dash text then pairOf (halves dash text) >>= f else whole)
      = match cut? dash text with
        | some halves => f halves
        | none => whole := by
  by_cases h : occursIn dash text = true
  · obtain ⟨head, tail, hcut, hhalves⟩ := exists_halves_eq h
    rw [if_pos h, hhalves, hcut]
    rfl
  · rw [if_neg h]
    rw [occursIn_eq_isSome, Option.not_isSome_iff_eq_none] at h
    rw [h]

theorem firstOf_words (hne : text ≠ []) (h : ∀ c ∈ text.head?, isBlank c = false) :
    firstOf (words text) = pure (text.takeWhile fun c ↦ !isBlank c) := by
  obtain ⟨more, hmore⟩ := exists_words_eq hne h
  rw [hmore]
  rfl

theorem tryReturned_eq (hne : text ≠ []) (h : ∀ c ∈ text.head?, isBlank c = false) :
    tryReturned text = .ok (
      if looksLikeType text then { type := String.ofList text }
      else if looksLikeType (firstWord text).1 then
        { type := String.ofList (firstWord text).1
          description := String.ofList (stripBy
            (fun c ↦ c = ' ' || c = ',' || c = '.' || c = ':' || c = ';' || c = '-')
            (firstWord text).2) }
      else { description := String.ofList text }) := by
  rw [tryReturned, firstOf_words hne h, pure_bind, apply_ite Except.ok, apply_ite Except.ok]
  rfl

theorem tryReturns_eq (content : List Char) : tryReturns content = .ok (readReturns content) := by
  rw [tryReturns, readReturns]
  have hhead := not_isBlank_of_head?_joinLines content
  generalize join [' '] (((lines content).map trim).filter (· != [])) = text at hhead
  by_cases hne : text = []
  · simp only [if_pos hne]
    rfl
  · simp only [if_neg hne]
    cases splitBrackets? text with
    | some found => rfl
    | none =>
      simp only
      rw [bind_pairOf_halves, tryReturned_eq hne hhead, dash]
      cases cut? [' ', '-', ' '] text with
      | none => rfl
      | some halves =>
        simp only
        split <;> rfl

theorem trySplitType_eq (text : List Char) : trySplitType text = .ok (splitType text) := by
  rw [trySplitType, bind_pairOf_halves, splitType, dash]
  cases cut? [' ', '-', ' '] text with
  | none => rfl
  | some halves => rfl

theorem tryNamedParameter_eq (name : Option (List Char)) (remark : Bool) (text : List Char) :
    tryNamedParameter name remark text = .ok (namedParameter name remark text) := by
  simp only [tryNamedParameter, trySplitType_eq]
  rfl

theorem Listing.tryRead_eq (l : Listing) (rawLine : List Char) :
    l.tryRead rawLine = .ok (l.read rawLine) := by
  simp only [tryRead, read, tryNamedParameter_eq]
  generalize trim rawLine = line
  by_cases hline : line = []
  · rw [if_pos hline, if_pos hline]
    rfl
  · rw [if_neg hline, if_neg hline]
    rcases bracketed? line with - | ⟨description, type, rest⟩
    · rcases named? line with - | ⟨name | _ | _, remark, text⟩
      · simp only
        split_ifs <;> rfl
      all_goals rfl
    · rfl

/-! ## Runs -/

/-- The documentation with the parameters that have been read so far. -/
def Listing.writtenTo (l : Listing) (info : Info) : Info :=
  { info with parameters := l.parameters, parameter := l.parameter }

theorem run_readLine (l : Listing) (line : List Char) (info : Info) :
    (Attempt.readLine l line).run.run info = (.ok (l.read line), (l.read line).writtenTo info) := by
  rw [Attempt.readLine, Listing.tryRead_eq]
  rfl

/-- The lines of a parameter section are read on from the parameters that have been written down,
and those that there are in the end are written down. -/
theorem run_readParameters (rows : List (List Char)) (info : Info) :
    let l := rows.foldl Listing.read { parameters := info.parameters, parameter := info.parameter }
    (Attempt.readParameters rows).run.run info = (.ok l.sawBrackets, l.writtenTo info) := by
  let start : Listing := { parameters := info.parameters, parameter := info.parameter }
  have hstep : ∀ line ∈ rows, ∀ (m l : Listing) (now : Info), l = m ∧ now = m.writtenTo info →
      ∃ l' later, (Attempt.readLine l line).run.run now = (.ok l', later) ∧
        l' = m.read line ∧ later = (m.read line).writtenTo info := by
    rintro line - m l now ⟨rfl, rfl⟩
    exact ⟨_, _, run_readLine l line _, rfl, rfl⟩
  have hstart : start = start ∧ info = start.writtenTo info := ⟨rfl, rfl⟩
  obtain ⟨_, _, hrun, rfl, rfl⟩ := exists_run_foldlM_eq hstep hstart
  change (rows.foldlM Attempt.readLine start >>= fun l ↦ pure l.sawBrackets).run.run info = _
  rw [run_bind, hrun]
  rfl

/-- What is written down and what is noted, taken together. -/
def draft (notes : Notes) (info : Info) : Draft := ⟨{ info with style := notes.style }, notes.parts⟩

theorem draft_addText (notes : Notes) (info : Info) (text : List Char) :
    draft (notes.addText text) info = (draft notes info).addText text := by
  rw [Notes.addText, Draft.addText]
  split <;> rfl

theorem exists_run_parameters (notes : Notes) (info : Info) (s : Section) (style : Bool → Style)
    {otherwise : Style} (hstyle : ∀ sawBrackets, style sawBrackets = if sawBrackets then .cba
      else otherwise) :
    ∃ notes' info', (Attempt.readParameters s.lines >>= fun sawBrackets ↦
        pure { notes with style := style sawBrackets }).run.run info = (.ok notes', info') ∧
      draft notes' info' = (draft notes info).readParameters s otherwise := by
  refine ⟨_, _, by rw [run_bind, run_readParameters]; rfl, ?_⟩
  rw [hstyle]
  rfl

/-- A section is read to its end, and makes the difference to what is written down and noted that it
makes to the documentation. -/
theorem exists_run_readSection (notes : Notes) (info : Info) (s : Section) :
    ∃ notes' info', (Attempt.readSection notes s).run.run info = (.ok notes', info') ∧
      draft notes' info' = (draft notes info).read s := by
  rw [Attempt.readSection, Draft.read]
  cases s.key with
  | none => exact ⟨_, info, rfl, draft_addText notes info s.content⟩
  | some key =>
    -- Both sides ask for the labels in the same order, so each question is answered on both at
    -- once.
    simp only
    by_cases hdescription : key = "description"
    · rw [if_pos hdescription, if_pos hdescription, ← draft_addText]
      exact ⟨_, info, rfl, rfl⟩
    rw [if_neg hdescription, if_neg hdescription]
    by_cases hauthor : key.startsWith "author" = true
    · rw [if_pos hauthor, if_pos hauthor, tryAuthor_eq]
      exact ⟨notes, _, rfl, rfl⟩
    rw [if_neg hauthor, if_neg hauthor]
    by_cases hargument : key.startsWith "argument" = true
    · rw [if_pos hargument, if_pos hargument]
      exact exists_run_parameters notes info s (fun _ ↦ .cba) fun _ ↦ (ite_self _).symm
    rw [if_neg hargument, if_neg hargument]
    by_cases hparam : key.startsWith "param" = true
    · rw [if_pos hparam, if_pos hparam]
      exact exists_run_parameters notes info s _ fun _ ↦ rfl
    rw [if_neg hparam, if_neg hparam]
    by_cases hreturn : key.startsWith "return" = true
    · rw [if_pos hreturn, if_pos hreturn, tryReturns_eq]
      refine ⟨if key = "return value" then { notes with style := .cba } else notes,
        { info with returns := readReturns s.content }, rfl, ?_⟩
      split <;> rfl
    rw [if_neg hreturn, if_neg hreturn]
    by_cases hexample : key.startsWith "example" = true
    · rw [if_pos hexample, if_pos hexample]
      by_cases hcontent : s.content = []
      · rw [if_pos hcontent, hcontent]
        exact ⟨notes, info, rfl, rfl⟩
      · rw [if_neg hcontent]
        simp only [if_pos hcontent]
        exact ⟨notes, _, rfl, rfl⟩
    rw [if_neg hexample, if_neg hexample]
    by_cases hpublic : key = "public"
    · rw [if_pos hpublic, if_pos hpublic]
      cases publicValue? s.content with
      | none => exact ⟨notes, info, rfl, rfl⟩
      | some value => exact ⟨notes, _, rfl, rfl⟩
    · rw [if_neg hpublic, if_neg hpublic]
      exact ⟨notes, info, rfl, rfl⟩

/-! ## Texts for the description -/

/-- Texts that are noted for the description do not start with a blank. -/
def Draft.Trimmed (d : Draft) : Prop := ∀ part ∈ d.parts, ∀ c ∈ part.head?, isBlank c = false

theorem Draft.Trimmed.addText {d : Draft} (hd : d.Trimmed) (cs : List Char) :
    (d.addText (trim cs)).Trimmed := by
  rw [Draft.addText]
  split
  · exact hd
  · exact List.forall_mem_append.mpr ⟨hd,
      List.forall_mem_singleton.mpr (not_isBlank_of_head?_trim cs)⟩

/-- Whether a section describes the function: its lines are free, or they stand under the label
`description`. -/
def Section.isDescriptive (s : Section) : Bool := s.key.all (· == "description")

theorem Draft.parts_read (d : Draft) (s : Section) :
    (d.read s).parts = if s.isDescriptive then (d.addText s.content).parts else d.parts := by
  rw [Draft.read, Section.isDescriptive]
  cases s.key with
  | none => rfl
  | some key =>
    rw [Option.all_some]
    by_cases hdescription : key = "description"
    · rw [if_pos (beq_iff_eq.mpr hdescription)]
      simp only [if_pos hdescription]
      rfl
    · rw [if_neg fun he ↦ hdescription (beq_iff_eq.mp he)]
      simp only [if_neg hdescription]
      generalize publicValue? s.content = value
      split_ifs <;> try rfl
      -- What is left is the section that has no value to be read if it does not name one.
      cases value <;> rfl

theorem Draft.Trimmed.read {d : Draft} (hd : d.Trimmed) (s : Section) : (d.read s).Trimmed := by
  rw [Draft.Trimmed, d.parts_read]
  split
  · exact hd.addText _
  · exact hd

/-! ## Comments -/

/-- **Attempts come to their end.** Whatever a comment says, each item that is taken in reading it
is there, and what has been written down in the end is all that the comment documents. -/
theorem attempt_completes (comment : List Char) :
    (Attempt.read comment).run.run {} = (.ok (), readComment comment) ∧
    attempted comment = readComment comment := by
  have hread : (Attempt.read comment).run.run {} = (.ok (), readComment comment) := by
    have hstep : ∀ s ∈ sections (cleanLines comment), ∀ (d : Draft) (notes : Notes) (info : Info),
        d = draft notes info ∧ d.Trimmed → ∃ notes' info',
          (Attempt.readSection notes s).run.run info = (.ok notes', info') ∧
            d.read s = draft notes' info' ∧ (d.read s).Trimmed := by
      rintro s - d notes info ⟨rfl, hd⟩
      obtain ⟨notes', info', hrun, hdraft⟩ := exists_run_readSection notes info s
      exact ⟨notes', info', hrun, hdraft.symm, hd.read s⟩
    have hstart : ({} : Draft) = draft {} {} ∧ ({} : Draft).Trimmed := ⟨rfl, List.forall_mem_nil _⟩
    obtain ⟨notes, info, hrun, hdraft, htrimmed⟩ := exists_run_foldlM_eq hstep hstart
    rw [hdraft] at htrimmed
    have hdescribe : tryDescribe notes.parts = .ok (describeParts notes.parts) :=
      tryDescribe_eq htrimmed
    rw [readComment, hdraft, Attempt.read, run_bind, hrun]
    simp only
    rw [hdescribe]
    rfl
  refine ⟨hread, ?_⟩
  rw [attempted, hread]
  split
  · next hblank => exact (readComment_of_blank (trim_eq_nil_iff.mp hblank)).symm
  · rfl

end MissionIndex.Header
