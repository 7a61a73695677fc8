import MissionIndex.Proofs.Header.EntryLines
import MissionIndex.Proofs.Header.Order

/-!
# Notes of a default value

An entry of a parameter section can end in a note such as `(default: player)`. The bracket that
closes the note is taken off first. Then all closing brackets and full stops at the end are taken
off as well, and some of them can be the value's own: of a value with balanced brackets, the end is
left out just if it ends in a bracket (`default_whole_iff`). All else that the entry says is kept,
and there always is a default.
-/

namespace MissionIndex.Header

open Text

variable {cs rest value : List Char}

/-! ## Balanced brackets -/

/-- Whether the round and the square brackets of a text match, behind brackets that are still open.
The one that was opened last comes first in `pending`. -/
def isBalanced (pending : List Char) : List Char → Bool
  | [] => pending.isEmpty
  | c :: cs =>
    if c = '(' then isBalanced (')' :: pending) cs
    else if c = '[' then isBalanced (']' :: pending) cs
    else if c = ')' || c = ']' then pending.head? = some c && isBalanced pending.tail cs
    else isBalanced pending cs

/-- What is taken off the end of a default value: closing brackets and full stops. -/
def endsNote (c : Char) : Bool := c = ')' || c = '.' || c = ']'

/-- A default value without what is taken off its end. -/
def cutValue (value : List Char) : List Char := trim (dropEnd endsNote value)

theorem eq_stop_of_isBalanced (h : isBalanced [] cs = true) (hends : ∀ c ∈ cs, endsNote c = true) :
    ∀ c ∈ cs, c = '.' := by
  induction cs with
  | nil => exact List.forall_mem_nil _
  | cons c cs ih =>
    obtain ⟨hc, hcs⟩ := List.forall_mem_cons.mp hends
    simp only [endsNote, Bool.or_eq_true, decide_eq_true_eq] at hc
    obtain (rfl | rfl) | rfl := hc
    · simp [isBalanced] at h
    · exact List.forall_mem_cons.mpr ⟨rfl, ih h hcs⟩
    · simp [isBalanced] at h

/-! ## Values -/

/-- A default value that can be written in a note: one without blanks around it, with balanced
brackets, and without a full stop at the end. -/
structure IsValue (value : List Char) : Prop where
  ne_nil : value ≠ []
  trimmed : trim value = value
  balanced : isBalanced [] value = true
  stop : value.getLast? ≠ some '.'

theorem isValue_iff : IsValue value ↔ value ≠ [] ∧ trim value = value ∧ isBalanced [] value = true ∧
    value.getLast? ≠ some '.' :=
  ⟨fun h ↦ ⟨h.ne_nil, h.trimmed, h.balanced, h.stop⟩, fun ⟨hne, htrimmed, hbalanced, hstop⟩ ↦
    ⟨hne, htrimmed, hbalanced, hstop⟩⟩

instance (value : List Char) : Decidable (IsValue value) := decidable_of_iff _ isValue_iff.symm

theorem length_trim_le (cs : List Char) : (trim cs).length ≤ cs.length :=
  (List.rdropWhile_prefix isBlank (trimStart cs)).length_le.trans
  (List.dropWhile_suffix isBlank).length_le

theorem IsValue.cutValue_ne_nil (h : IsValue value) : cutValue value ≠ [] := by
  intro hcut
  have hblank := trim_eq_nil_iff.mp hcut
  have hprefix : dropEnd endsNote value <+: value := List.rdropWhile_prefix endsNote value
  cases hfront : dropEnd endsNote value with
  | nil =>
    -- Nothing but brackets and full stops: balanced, these are full stops, and one of them comes
    -- last.
    have hends := List.rdropWhile_eq_nil_iff.mp hfront
    have hstops := eq_stop_of_isBalanced h.balanced hends
    refine h.stop ?_
    rw [List.getLast?_eq_some_getLast h.ne_nil, hstops _ (List.getLast_mem h.ne_nil)]
  | cons c rest =>
    -- The first character is that of the value, which is not blank.
    rw [hfront] at hprefix hblank
    obtain ⟨more, hmore⟩ := hprefix
    have hc := not_isBlank_of_head?_trim value c (by rw [h.trimmed, ← hmore]; rfl)
    exact absurd (hc.symm.trans (hblank c List.mem_cons_self)) (by decide)

theorem IsValue.cutValue_eq_self_iff (h : IsValue value) :
    cutValue value = value ↔ value.getLast? ≠ some ')' ∧ value.getLast? ≠ some ']' := by
  have hkept : dropEnd endsNote value = value ↔ value.getLast? ≠ some ')' ∧
      value.getLast? ≠ some ']' := by
    have hstop := h.stop
    rw [dropEnd, ← List.rdropWhile, List.rdropWhile_eq_self_iff]
    rw [List.getLast?_eq_some_getLast h.ne_nil] at hstop ⊢
    simp only [ne_eq, Option.some.injEq, endsNote, Bool.or_eq_true, decide_eq_true_eq] at hstop ⊢
    exact ⟨fun hlast ↦ by have := hlast h.ne_nil; tauto, fun hlast _ ↦ by tauto⟩
  rw [← hkept]
  constructor
  · intro hcut
    refine (List.rdropWhile_prefix endsNote value).eq_of_length_le ?_
    calc value.length = (cutValue value).length := by rw [hcut]
      _ ≤ (dropEnd endsNote value).length := length_trim_le _
  · intro hdrop
    rw [cutValue, hdrop, h.trimmed]

/-! ## Notes -/

def note (value : List Char) : List Char := "(default: ".toList ++ (value ++ [')'])

theorem cutDefault?_note (value : List Char) :
    cutDefault? none (note value) = some ([], ' ' :: (value ++ [')'])) := rfl

theorem trimDefault_closed (hne : value ≠ []) (htrimmed : trim value = value) :
    trimDefault (' ' :: (value ++ [')'])) = cutValue value := by
  have hbare : trimEnd (' ' :: (value ++ [')'])) = ' ' :: value ++ [')'] :=
    trimEnd_concat (' ' :: value) (by decide)
  have hinner : trimEnd (' ' :: value) = ' ' :: value :=
    trimEnd_eq_self fun c hc ↦ not_isBlank_of_getLast?_trim value c <| by
      rwa [htrimmed, ← List.getLast?_cons_of_ne_nil (x := ' ') hne]
  have hfront : trim (' ' :: value) = trim value := rfl
  rw [trimDefault, hbare, List.getLast?_concat, List.dropLast_concat, hinner]
  simp only [decide_true, Bool.true_or, if_true]
  rw [hfront, htrimmed]
  rfl

theorem splitDefault_note (h : IsValue value) :
    splitDefault (note value) = ([], some (cutValue value)) := by
  rw [splitDefault, cutDefault?_note]
  simp only
  rw [trimDefault_closed h.ne_nil h.trimmed, if_neg h.cutValue_ne_nil]
  rfl

/-! ## Texts that do not say `optional` -/

theorem closesWord_of_trimStart (h : trimStart cs = ')' :: rest) : closesWord cs = true := by
  cases cs with
  | nil => rfl
  | cons c cs =>
    have hc : isWordChar c = false := by
      by_cases hblank : isBlank c = true
      · exact isWordChar_of_isBlank hblank
      · rw [trimStart_cons (Bool.eq_false_iff.mpr hblank)] at h
        rw [(List.cons.inj h).1]
        decide
    rw [closesWord, List.head?_cons, Option.any_some, hc, Bool.not_false]

/-- A phrase in parentheses has the word inside, between blanks. -/
theorem exists_of_afterOptional {before : Option Char} (h : afterOptional before cs = some rest) :
    ∃ skipped found after, cs = skipped ++ (found ++ after) ∧ Spells "optional".toList found ∧
      opensWord (skipped.getLast?.or before) = true ∧ closesWord after = true := by
  rw [afterOptional, Option.or_eq_some_iff] at h
  obtain hround | ⟨-, halone⟩ := h
  · obtain ⟨inside, hopen, hinside⟩ := Option.bind_eq_some_iff.mp hround
    obtain ⟨after, hword, hclose⟩ := Option.bind_eq_some_iff.mp hinside
    obtain ⟨found, hfound, hspells⟩ := afterFolded_eq_some_iff.mp hword
    refine ⟨'(' :: inside.takeWhile isBlank, found, after, ?_, hspells, ?_, ?_⟩
    · rw [afterChar_eq_some_iff.mp hopen, ← hfound, List.cons_append, trimStart,
        List.takeWhile_append_dropWhile]
    · have hskipped : ∀ c ∈ '(' :: inside.takeWhile isBlank, isWordChar c = false :=
        List.forall_mem_cons.mpr ⟨by
          decide, fun c hc ↦ isWordChar_of_isBlank (List.mem_takeWhile_imp hc)⟩
      rw [List.getLast?_eq_some_getLast (List.cons_ne_nil _ _), Option.some_or, opensWord,
        Option.any_some, hskipped _ (List.getLast_mem _), Bool.not_false]
    · exact closesWord_of_trimStart (afterChar_eq_some_iff.mp hclose)
  · split at halone
    · next hopens =>
      obtain ⟨hword, hcloses⟩ := Option.filter_eq_some_iff.mp halone
      obtain ⟨found, hfound, hspells⟩ := afterFolded_eq_some_iff.mp hword
      exact ⟨[], found, rest, hfound, hspells, hopens, hcloses⟩
    · exact absurd halone (by simp)

theorem hasWord_of_saysOptional (front : List Char) (h : saysOptional front.getLast? cs = true) :
    HasWord "optional" (front ++ cs) := by
  induction cs generalizing front with
  | nil => exact absurd h (by simp [saysOptional])
  | cons c cs ih =>
    rw [saysOptional, Bool.or_eq_true] at h
    rcases h with h | h
    · obtain ⟨rest, hrest⟩ := Option.isSome_iff_exists.mp h
      obtain ⟨skipped, found, after, hcs, hspells, hopens, hcloses⟩ := exists_of_afterOptional hrest
      refine ⟨front ++ skipped, found, after, by rw [hcs, List.append_assoc], hspells, ?_, hcloses⟩
      rwa [List.getLast?_append]
    · have hword := ih (front ++ [c]) (by rwa [List.getLast?_concat])
      rwa [List.append_assoc] at hword

theorem splitOptional_of_not_hasWord (h : ¬ HasWord "optional" cs) :
    splitOptional cs = (cs, false) := by
  rw [splitOptional, if_neg]
  exact fun hsays ↦ h (hasWord_of_saysOptional [] hsays)

/-! ## Entries with a note -/

/-- An entry with a description, a type in angle brackets and a note of a default value. -/
structure NotedEntry where
  number : List Char
  description : List Char
  type : List Char
  value : List Char
deriving DecidableEq, Repr

namespace NotedEntry

def line (e : NotedEntry) : List Char :=
  e.number ++ ": ".toList ++ e.description ++ " <".toList ++ e.type ++ "> ".toList ++ note e.value

/-- The parts of an entry are such that they can be told apart. -/
structure IsWritten (e : NotedEntry) : Prop where
  number : IsNumber e.number
  description : trim e.description = e.description ∧ '<' ∉ e.description ∧
    ¬ HasWord "optional" e.description
  type : e.type ≠ [] ∧ trim e.type = e.type ∧ '>' ∉ e.type
  value : IsValue e.value

def parameter (e : NotedEntry) (value : List Char) : Parameter :=
  { type := String.ofList e.type, description := String.ofList e.description, optional := true,
    default := some (String.ofList value) }

theorem isWritten_iff {e : NotedEntry} : e.IsWritten ↔ IsNumber e.number ∧
    (trim e.description = e.description ∧ '<' ∉ e.description ∧
      ¬ HasWord "optional" e.description) ∧
    (e.type ≠ [] ∧ trim e.type = e.type ∧ '>' ∉ e.type) ∧ IsValue e.value :=
  ⟨fun h ↦ ⟨h.number, h.description, h.type, h.value⟩, fun ⟨hnumber, hdescription, htype, hvalue⟩ ↦
    ⟨hnumber, hdescription, htype, hvalue⟩⟩

instance (e : NotedEntry) : Decidable e.IsWritten := decidable_of_iff _ isWritten_iff.symm

variable {e : NotedEntry}

theorem IsWritten.bracketed (h : e.IsWritten) :
    bracketed? e.line = some (e.description, e.type, note e.value) := by
  obtain ⟨htrimmed, hopen, -⟩ := h.description
  refine bracketed_eq_some_iff.mpr ⟨' ' :: (e.description ++ [' ']), ' ' :: note e.value,
    ⟨e.number, [], by simp [line], h.number, List.forall_mem_nil _, by simp [hopen], h.type.2.2⟩,
    ?_, rfl⟩
  have hfront : trim (' ' :: (e.description ++ [' '])) = trim (e.description ++ [' ']) := rfl
  rw [hfront, trim_concat _ (by decide), htrimmed]

theorem IsWritten.bracketParameter_eq (h : e.IsWritten) :
    bracketParameter e.description e.type (note e.value) = e.parameter (cutValue e.value) := by
  obtain ⟨-, -, hword⟩ := h.description
  obtain ⟨hne, htrimmed, -⟩ := h.type
  have hparts : joinParts [e.description, []] = String.ofList e.description := by
    cases hdescription : e.description <;> simp [joinParts, join]
  have hempty : splitOptional [] = ([], false) := rfl
  rw [bracketParameter, splitDefault_note h.value]
  simp only [hempty, splitOptional_of_not_hasWord hword, htrimmed, if_neg hne, hparts]
  rfl

theorem IsWritten.read (h : e.IsWritten) {raw : List Char} (hraw : trim raw = e.line) :
    Listing.read {} raw =
      { parameters := [e.parameter (cutValue e.value)], current := some true,
        sawBrackets := true } := by
  have hnote : note e.value ≠ [] :=
    List.append_ne_nil_of_right_ne_nil _
    (List.append_ne_nil_of_right_ne_nil _ (List.cons_ne_nil _ _))
  have hne : e.line ≠ [] := List.append_ne_nil_of_right_ne_nil _ hnote
  rw [Listing.read, hraw, if_neg hne, h.bracketed]
  simp only [h.bracketParameter_eq]
  rfl

end NotedEntry

/-! ## Parameter sections -/

def OpensParameters (line : List Char) : Prop :=
  ∃ word ∈ Topic.parameters.labels, (headingFor? word line).map Prod.snd = some []

instance (line : List Char) : Decidable (OpensParameters line) :=
  inferInstanceAs (Decidable (∃ _ ∈ _, _))

theorem topicOf?_parameters {word : String} {label : List Char}
    (hword : word ∈ Topic.parameters.labels) (h : Spells word.toList label) :
    topicOf? (lower (String.ofList label)) = some .parameters := by
  have hstems : ∀ word ∈ Topic.parameters.labels, ∃ stem ∈ ["argument", "param"],
    stem.toList <+: word.toList ∧
      stem.toList.all (HasTwoCases ·) = true := by decide +kernel
  obtain ⟨long, hlong, hle, hcases⟩ := hstems word hword
  have hstarts : (lower (String.ofList label)).startsWith long = true := by
    rw [String.startsWith_string_iff, lower, String.toList_ofList, String.toList_ofList]
    exact h.prefix_lowerFrom hcases hle []
  cases htopic : topicOf? (lower (String.ofList label)) with
  | none =>
    rw [topicOf?] at htopic
    split_ifs at htopic with _ _ hargument hparam
    rcases List.mem_pair.mp hlong with rfl | rfl
    · exact absurd hstarts hargument
    · exact absurd hstarts hparam
  | some t => rw [topic_of_spells hword h htopic]

theorem Draft.read_parameters {s : Section} {key : String} (hkey : s.key = some key)
    (htopic : topicOf? key = some .parameters) (d : Draft) :
    ∃ style, d.read s = d.readParameters s style := by
  rw [topicOf?] at htopic
  rw [read, hkey]
  simp only
  split_ifs at htopic with hdescription hauthor hargument hparam <;>
    simp only [reduceCtorEq, Option.some.injEq] at htopic
  · rw [if_neg hdescription, if_neg hauthor, if_pos hargument]
    exact ⟨_, rfl⟩
  · rw [if_neg hdescription, if_neg hauthor, if_neg hargument, if_pos hparam]
    exact ⟨_, rfl⟩

/-- A comment that is made up of one parameter section says what the lines under its heading say. -/
theorem readComment_parameters {heading : List Char} {body : List (List Char)}
    (hheading : OpensParameters (cleanLine heading))
    (hfits : ∀ line ∈ heading :: body, FitsLine line)
    (hbody : ∀ line ∈ body, ∀ word ∈ labels, ¬ IsHeading word (cleanLine line)) {ending : List Char}
    (hending : IsLineEnd ending) :
    let listing := (body.map cleanLine).foldl Listing.read {}
    ∃ style, readComment (join ending (heading :: body)) =
      { parameters := listing.parameters, parameter := listing.parameter,
        style := if listing.sawBrackets then .cba else style } := by
  intro listing
  obtain ⟨word, hword, hmap⟩ := hheading
  obtain ⟨⟨label, inline⟩, hfor, rfl⟩ := Option.map_eq_some_iff.mp hmap
  obtain ⟨hopens, hspells⟩ := isHeading_of_headingFor? hfor
  let passage : Passage := ⟨.parameters, heading, body⟩
  have hmore : ¬ Topic.parameters.IsOneLine := by decide
  have hwritten : ∀ p ∈ [passage], p.IsWritten :=
    List.forall_mem_singleton.mpr ⟨hfits, ⟨word, hword, hopens⟩, hbody,
      fun hone ↦ absurd hone hmore⟩
  have hsplit : passage.split = ⟨some label, body.map cleanLine⟩ := by
    rw [Passage.split, sectionStart?_of_isHeading (Topic.parameters.stem_of_label word hword).1
      hopens, hfor]
    rfl
  obtain ⟨style, hread⟩ := Draft.read_parameters (s := ⟨some label, body.map cleanLine⟩) rfl
    (topicOf?_parameters hword hspells) {}
  have hrows : join ending (heading :: body) = Passage.comment ending [passage] := by
    rw [Passage.comment, List.flatMap_singleton]
    rfl
  refine ⟨style, ?_⟩
  rw [hrows, readComment_passages hwritten hending, List.map_singleton, hsplit,
    List.foldl_cons, hread]
  rfl

theorem NotedEntry.IsWritten.not_isHeading {e : NotedEntry} (h : e.IsWritten) {line : List Char}
    (hline : trim line = e.line) : ∀ word ∈ labels, ¬ IsHeading word line := by
  obtain ⟨hne, hdigits⟩ := h.number
  obtain ⟨digit, more, hnumber⟩ := List.exists_cons_of_ne_nil hne
  have hdigit : digit ∈ (trim line).head? := by
    rw [hline, NotedEntry.line, hnumber]
    rfl
  exact fun word ↦ not_isHeading_of_digit (head?_trimStart_of_head?_trim hdigit)
    (hdigits digit (hnumber ▸ List.mem_cons_self))

/-- **A default value is read whole just if it does not end in a bracket.** All else is read as it
is written. -/
theorem default_whole_iff {e : NotedEntry} (he : e.IsWritten) {heading row : List Char}
    (hheading : FitsLine heading ∧ OpensParameters (cleanLine heading))
    (hrow : FitsLine row ∧ trim (cleanLine row) = e.line) {ending : List Char}
    (hending : IsLineEnd ending) :
    readComment (join ending [heading, row])
        = { parameters := [e.parameter (cutValue e.value)], style := .cba } ∧
      (cutValue e.value = e.value ↔ e.value.getLast? ≠ some ')' ∧ e.value.getLast? ≠ some ']') := by
  obtain ⟨hfits, hopens⟩ := hheading
  obtain ⟨hfits', hline⟩ := hrow
  have hrows : ∀ line ∈ [heading, row], FitsLine line :=
    List.forall_mem_cons.mpr ⟨hfits, List.forall_mem_singleton.mpr hfits'⟩
  obtain ⟨style, hread⟩ := readComment_parameters hopens hrows
    (List.forall_mem_singleton.mpr (he.not_isHeading hline)) hending
  refine ⟨?_, he.value.cutValue_eq_self_iff⟩
  rw [hread, List.map_singleton, List.foldl_cons, he.read hline]
  rfl

/-- A value with brackets inside, below a heading in capitals and behind gutters. -/
theorem default_whole_iff_inside :
    let e : NotedEntry := ⟨"0".toList, "Units".toList, "ARRAY".toList, "[] or (call f).x".toList⟩
    let heading := " * ARGUMENTS :".toList
    let row := " *   0: Units <ARRAY> (default: [] or (call f).x)".toList
    e.IsWritten ∧ (FitsLine heading ∧ OpensParameters (cleanLine heading)) ∧
      (FitsLine row ∧ trim (cleanLine row) = e.line) ∧ IsLineEnd ['\r', '\n'] ∧
      readComment (join ['\r', '\n'] [heading, row])
        = { parameters := [e.parameter e.value], style := .cba } := by
  intro e heading row
  have he : e.IsWritten := by decide +kernel
  have hheading : FitsLine heading ∧ OpensParameters (cleanLine heading) := by decide +kernel
  have hrow : FitsLine row ∧ trim (cleanLine row) = e.line := by decide +kernel
  obtain ⟨hread, hwhole⟩ := default_whole_iff he hheading hrow (.inr rfl)
  refine ⟨he, hheading, hrow, .inr rfl, ?_⟩
  rw [hread, hwhole.mpr (by decide)]

/-- The empty array loses its closing bracket. -/
theorem default_bracket_lost :
    let e : NotedEntry := ⟨"0".toList, "Units".toList, "ARRAY".toList, "[]".toList⟩
    let comment := "Arguments:\n0: Units <ARRAY> (default: [])".toList
    e.IsWritten ∧ comment = join ['\n'] ["Arguments:".toList, e.line] ∧
      readComment comment = { parameters := [e.parameter ['[']], style := .cba } ∧
      readComment comment ≠ { parameters := [e.parameter e.value], style := .cba } := by
  decide +kernel

end MissionIndex.Header
