import Mathlib.Data.List.Nodup
import MissionIndex.Proofs.Header.Sections

/-!
# The order of sections

A section is read into one part of the documentation, its *topic*. What it says there depends on
what has been said about this topic before, and it leaves the others alone, so sections about
different topics can change places (`Draft.only_read_comm`). Only the convention does not go with a
topic: several sections note one, and the last one counts.

Which topic it is follows from the lower-case form of the label as written. This need not be a label
again: a long s, say, stays a long s. But the first two letters are always those of the label, and
they tell the topics apart (`Topic.eq_of_stem`).

Authors and visibility take one line, and what follows it would be free text. So passages for these
two have no further lines, and the order does not matter as long as no two passages are about one
topic (`sections_in_any_order`).
-/

namespace MissionIndex.Header

open Text

/-! ## Topics -/

/-- What a section can be about. -/
inductive Topic where
  | description
  | parameters
  | returns
  | examples
  | author
  | visibility
deriving DecidableEq, Repr

/-- The labels of the sections about a topic, in lower case. -/
def Topic.labels : Topic → List String
  | .description => ["description"]
  | .parameters => ["parameter(s)", "parameter", "parameters", "params", "argument", "arguments"]
  | .returns => ["return value", "return", "returns"]
  | .examples => ["example", "examples"]
  | .author => ["author(s)", "author", "authors"]
  | .visibility => ["public"]

/-- The sections that say all they have to say on the line of their label. -/
def Topic.IsOneLine (t : Topic) : Prop := t = .author ∨ t = .visibility

instance (t : Topic) : Decidable t.IsOneLine := inferInstanceAs (Decidable (_ ∨ _))

/-- The first letters of the labels of a topic. These have two cases each, so they are found in the
lower-case form of whatever spells a label, and they tell the topics apart. -/
def Topic.stems : Topic → List String
  | .description => ["de"]
  | .parameters => ["pa", "ar"]
  | .returns => ["re"]
  | .examples => ["ex"]
  | .author => ["au"]
  | .visibility => ["pu"]

variable {t u : Topic} {key : String}

theorem Topic.stem_of_label (t : Topic) : ∀ word ∈ t.labels, word ∈ Header.labels ∧
    ∃ stem ∈ t.stems, stem.toList <+: word.toList ∧ stem.toList.all (HasTwoCases ·) = true := by
  cases t <;> decide +kernel

theorem Topic.eq_of_stem (t u : Topic) {stem other : String} (hstem : stem ∈ t.stems)
    (hother : other ∈ u.stems) {cs : List Char} (h : stem.toList <+: cs)
    (h' : other.toList <+: cs) : t = u := by
  have hlength : ∀ t : Topic, ∀ stem ∈ t.stems, stem.toList.length = 2 :=
    fun t ↦ by cases t <;> decide
  have hapart : ∀ t u : Topic, ∀ stem ∈ t.stems, ∀ other ∈ u.stems, stem.toList = other.toList →
      t = u :=
    fun t u ↦ by cases t <;> cases u <;> decide
  refine hapart t u stem hstem other hother ?_
  rw [List.prefix_iff_eq_take.mp h, List.prefix_iff_eq_take.mp h', hlength t stem hstem,
    hlength u other hother]

/-- The part of the documentation that a section under a label, given in lower case, is read
into. -/
def topicOf? (key : String) : Option Topic :=
  if key = "description" then some .description
  else if key.startsWith "author" then some .author
  else if key.startsWith "argument" then some .parameters
  else if key.startsWith "param" then some .parameters
  else if key.startsWith "return" then some .returns
  else if key.startsWith "example" then some .examples
  else if key = "public" then some .visibility
  else none

theorem stem_of_topicOf? (h : topicOf? key = some t) :
    ∃ stem ∈ t.stems, stem.toList <+: key.toList := by
  have hstarts : ∀ stem word : String, stem.toList <+: word.toList → key.startsWith word = true →
      stem.toList <+: key.toList :=
      fun _ _ hword hkey ↦ hword.trans (String.startsWith_string_iff.mp hkey)
  rw [topicOf?] at h
  split_ifs at h with h₁ h₂ h₃ h₄ h₅ h₆ h₇ <;> obtain rfl := Option.some.inj h
  · exact ⟨"de", by decide, by rw [h₁]; decide⟩
  · exact ⟨"au", by decide, hstarts _ _ (by decide) h₂⟩
  · exact ⟨"ar", by decide, hstarts _ _ (by decide) h₃⟩
  · exact ⟨"pa", by decide, hstarts _ _ (by decide) h₄⟩
  · exact ⟨"re", by decide, hstarts _ _ (by decide) h₅⟩
  · exact ⟨"ex", by decide, hstarts _ _ (by decide) h₆⟩
  · exact ⟨"pu", by decide, by rw [h₇]; decide⟩

namespace Draft

variable (d : Draft) (s : Section)

def only (t : Topic) (d : Draft) : Draft :=
  match t with
  | .description => { parts := d.parts }
  | .parameters => { info := { parameters := d.info.parameters, parameter := d.info.parameter } }
  | .returns => { info := { returns := d.info.returns } }
  | .examples => { info := { examples := d.info.examples } }
  | .author => { info := { author := d.info.author } }
  | .visibility => { info := { isPublic := d.info.isPublic } }

/-- Takes in what a section says about a topic, and notes no convention. -/
def take (t : Topic) (d : Draft) (s : Section) : Draft :=
  match t with
  | .description => d.addText s.content
  | .parameters =>
    let listing := s.lines.foldl Listing.read
      { parameters := d.info.parameters, parameter := d.info.parameter }
    { d with
      info := { d.info with parameters := listing.parameters, parameter := listing.parameter } }
  | .returns => { d with info := { d.info with returns := readReturns s.content } }
  | .examples =>
    if s.content = [] then d
    else { d with info := { d.info with examples := d.info.examples ++ [String.ofList s.content] } }
  | .author => d.readAuthor s
  | .visibility =>
    { d with info := { d.info with isPublic := (publicValue? s.content).or d.info.isPublic } }

@[simp] theorem only_setStyle (t : Topic) (style : Style) :
    (d.setStyle style).only t = d.only t := by
  cases t <;> rfl

theorem only_readParameters (t : Topic) (style : Style) :
    (d.readParameters s style).only t = (d.take .parameters s).only t := by
  cases t <;> rfl

theorem only_read (hkey : s.key = some key) (t : Topic) :
    (d.read s).only t = ((topicOf? key).elim d (d.take · s)).only t := by
  rw [read, hkey, topicOf?]
  simp only
  split_ifs with hdescription hauthor hargument hparam hplain hreturn hvalue hexample
    hempty hpublic <;>
    simp only [Option.elim_some, Option.elim_none, only_setStyle, only_readParameters, take]
  · cases t <;> simp only [only, setStyle]
  · rw [if_pos hempty]
  · rw [if_neg hempty]
  · cases publicValue? s.content <;> rfl

theorem only_take_self (t : Topic) : (d.take t s).only t = ((d.only t).take t s).only t := by
  cases t with
  | description =>
    simp only [take, addText]
    split <;> rfl
  | examples =>
    simp only [take]
    split <;> rfl
  | parameters => rfl
  | returns => rfl
  | author => rfl
  | visibility => rfl

theorem only_take_of_ne (h : t ≠ u) : (d.take t s).only u = d.only u := by
  cases t <;> cases u <;> simp only [take, only, addText, readAuthor, ne_eq, not_true_eq_false]
    at h ⊢ <;> split <;> rfl

theorem only_only (t : Topic) : (d.only t).only t = d.only t := by
  cases t <;> rfl

theorem only_read_of_ne (hkey : s.key = some key) (h : topicOf? key ≠ some t) :
    (d.read s).only t = d.only t := by
  rw [only_read d s hkey]
  cases htopic : topicOf? key with
  | none => rfl
  | some u => exact only_take_of_ne d s fun he ↦ h (he ▸ htopic)

theorem only_read_only (hkey : s.key = some key) (t : Topic) :
    ((d.only t).read s).only t = (d.read s).only t := by
  rw [only_read _ s hkey, only_read d s hkey]
  cases htopic : topicOf? key with
  | none => exact only_only d t
  | some u =>
    by_cases hu : u = t
    · rw [hu]
      exact (only_take_self d s t).symm
    · rw [Option.elim_some, only_take_of_ne _ s hu, only_only, Option.elim_some,
        only_take_of_ne d s hu]

theorem only_foldl_read (t : Topic) {ss : List Section}
    (hkeys : ∀ s ∈ ss, ∃ key, s.key = some key) :
    (ss.foldl read d).only t = ss.foldl (fun e s ↦ (e.read s).only t) (d.only t) := by
  induction ss generalizing d with
  | nil => rfl
  | cons s ss ih =>
    obtain ⟨⟨key, hkey⟩, hkeys⟩ := List.forall_mem_cons.mp hkeys
    rw [List.foldl_cons, List.foldl_cons, ih _ hkeys, only_read_only d s hkey]

variable {other : Section} {key' : String}

theorem only_read_read_of_ne (hkey : s.key = some key) (hkey' : other.key = some key')
    (h : topicOf? key ≠ some t) :
    ((d.read s).read other).only t = (d.read other).only t := by
  rw [← only_read_only _ other hkey', only_read_of_ne d s hkey h, only_read_only d other hkey']

theorem only_read_comm (t : Topic) (hkey : s.key = some key) (hkey' : other.key = some key')
    (hne : ∀ u, topicOf? key = some u → topicOf? key' ≠ some u) :
    ((d.read s).read other).only t = ((d.read other).read s).only t := by
  by_cases htopic : topicOf? key = some t
  · rw [only_read_of_ne _ other hkey' (hne t htopic),
      only_read_read_of_ne d other hkey' hkey (hne t htopic)]
  · rw [only_read_of_ne _ s hkey htopic, only_read_read_of_ne d s hkey hkey' htopic]

theorem finish_of_only {d e : Draft} (h : ∀ t, d.only t = e.only t) :
    { d.finish with style := .plain } = { e.finish with style := .plain } := by
  have hparts : d.parts = e.parts := by simpa [only] using h .description
  obtain ⟨hparameters, hparameter⟩ :
      d.info.parameters = e.info.parameters ∧ d.info.parameter = e.info.parameter := by
    simpa [only] using h .parameters
  have hreturns : d.info.returns = e.info.returns := by simpa [only] using h .returns
  have hexamples : d.info.examples = e.info.examples := by simpa [only] using h .examples
  have hauthor : d.info.author = e.info.author := by simpa [only] using h .author
  have hpublic : d.info.isPublic = e.info.isPublic := by simpa [only] using h .visibility
  simp only [finish, hparts, hparameters, hparameter, hreturns, hexamples, hauthor, hpublic]

end Draft

/-! ## Passages -/

/-- A section as it stands in a comment. -/
structure Passage where
  topic : Topic
  heading : List Char
  body : List (List Char)
deriving DecidableEq, Repr

namespace Passage

def rows (p : Passage) : List (List Char) := p.heading :: p.body

/-- The first line is a heading for the topic, and none of the others is a heading. Where the topic
takes one line only, there are no others. -/
structure IsWritten (p : Passage) : Prop where
  fits : ∀ line ∈ p.rows, FitsLine line
  heading : ∃ word ∈ p.topic.labels, IsHeading word (cleanLine p.heading)
  body : ∀ line ∈ p.body, ∀ word ∈ labels, ¬ IsHeading word (cleanLine line)
  oneLine : p.topic.IsOneLine → p.body = []

theorem isWritten_iff {p : Passage} : p.IsWritten ↔ (∀ line ∈ p.rows, FitsLine line) ∧
    (∃ word ∈ p.topic.labels, (headingFor? word (cleanLine p.heading)).isSome = true) ∧
    (∀ line ∈ p.body, sectionStart? (cleanLine line) = none) ∧
    (p.topic.IsOneLine → p.body = []) := by
  have hheading : (∃ word ∈ p.topic.labels, IsHeading word (cleanLine p.heading)) ↔
      ∃ word ∈ p.topic.labels, (headingFor? word (cleanLine p.heading)).isSome = true :=
    exists_congr fun word ↦ and_congr_right fun hword ↦
    isHeading_iff (p.topic.stem_of_label word hword).1
  simp only [sectionStart?_eq_none_iff, ← hheading]
  exact ⟨fun h ↦ ⟨h.fits, h.heading, h.body, h.oneLine⟩, fun ⟨hfits, hheading, hbody, hone⟩ ↦
    ⟨hfits, hheading, hbody, hone⟩⟩

instance (p : Passage) : Decidable p.IsWritten := decidable_of_iff _ isWritten_iff.symm

def split (p : Passage) : Section :=
  match sectionStart? (cleanLine p.heading) with
  | none => ⟨none, []⟩
  | some (label, inline) =>
      ⟨some label, (if inline = [] then [] else [inline]) ++ p.body.map cleanLine⟩

def comment (ending : List Char) (ps : List Passage) : List Char := join ending (ps.flatMap rows)

end Passage

theorem stem_of_spells {word : String} {label : List Char} (hword : word ∈ t.labels)
    (h : Spells word.toList label) :
    ∃ stem ∈ t.stems, stem.toList <+: (lower (String.ofList label)).toList := by
  obtain ⟨-, stem, hstem, hle, hcases⟩ := t.stem_of_label word hword
  refine ⟨stem, hstem, ?_⟩
  rw [lower, String.toList_ofList, String.toList_ofList]
  exact h.prefix_lowerFrom hcases hle []

theorem topic_of_spells {word : String} {label : List Char} (hword : word ∈ t.labels)
    (h : Spells word.toList label) (htopic : topicOf? (lower (String.ofList label)) = some u) :
    u = t := by
  obtain ⟨stem, hstem, hle⟩ := stem_of_topicOf? htopic
  obtain ⟨stem', hstem', hle'⟩ := stem_of_spells hword h
  exact u.eq_of_stem t hstem hstem' hle hle'

theorem isOneLine_of_isInlineLabel {word : String} {label : List Char} (hword : word ∈ t.labels)
    (h : Spells word.toList label) (hinline : isInlineLabel label = true) : t.IsOneLine := by
  have hapart : ∀ t : Topic, ∀ stem ∈ t.stems, ∀ other ∈ inlineLabels,
      stem.toList <+: other.toList → t.IsOneLine := by
    intro t
    cases t <;> decide
  obtain ⟨stem, hstem, hle⟩ := stem_of_spells hword h
  exact hapart t stem hstem _ (List.contains_iff_mem.mp hinline) hle

namespace Passage

variable {p : Passage}

theorem IsWritten.exists_start (h : p.IsWritten) :
    ∃ label inline, sectionStart? (cleanLine p.heading) = some (label, inline) ∧
      ∃ word ∈ p.topic.labels, Spells word.toList label := by
  obtain ⟨word, hword, hheading⟩ := h.heading
  obtain ⟨label, inline, hstart, hspells⟩ :=
    exists_sectionStart? (p.topic.stem_of_label word hword).1 hheading
  exact ⟨label, inline, hstart, word, hword, hspells⟩

theorem IsWritten.exists_key (h : p.IsWritten) :
    ∃ key, p.split.key = some key ∧ ∀ t, topicOf? key = some t → t = p.topic := by
  obtain ⟨label, inline, hstart, word, hword, hspells⟩ := h.exists_start
  exact ⟨lower (String.ofList label), by rw [split, hstart]; rfl,
    fun t ↦ topic_of_spells hword hspells⟩

theorem filter_sectionsFrom (current : Section) {ps : List Passage} (hps : ∀ p ∈ ps, p.IsWritten) :
    (sectionsFrom current ((ps.flatMap rows).map cleanLine)).filter Section.isPresent =
      [current].filter Section.isPresent ++ ps.map split := by
  induction ps generalizing current with
  | nil => rw [List.map_nil, List.append_nil]; rfl
  | cons p ps ih =>
    obtain ⟨hp, hps⟩ := List.forall_mem_cons.mp hps
    obtain ⟨label, inline, hstart, word, hword, hspells⟩ := hp.exists_start
    have hbody : ∀ line ∈ p.body.map cleanLine, sectionStart? line = none :=
      List.forall_mem_map.mpr fun line hline ↦ sectionStart?_eq_none_iff.mpr (hp.body line hline)
    have hsplit : p.split = ⟨some label, (if inline = [] then [] else [inline]) ++
        p.body.map cleanLine⟩ := by
      rw [split, hstart]
    have hrows : ((p :: ps).flatMap rows).map cleanLine =
        cleanLine p.heading :: (p.body.map cleanLine ++ (ps.flatMap rows).map cleanLine) := by
      rw [List.flatMap_cons, List.map_append, rows, List.map_cons, List.cons_append]
    have hpresent : p.split.isPresent = true := by rw [hsplit]; rfl
    rw [hrows, sectionsFrom, hstart]
    simp only
    split
    · next hinline =>
      -- The section ends with its first line, and no free lines follow.
      have hnone : p.body = [] := hp.oneLine (isOneLine_of_isInlineLabel hword hspells hinline)
      rw [hnone, List.map_nil, List.append_nil] at hsplit
      rw [hnone, List.map_nil, List.nil_append, ← hsplit, ← List.singleton_append,
        List.filter_append, List.filter_cons_of_pos hpresent, ih _ hps]
      rfl
    · rw [sectionsFrom_append _ hbody, ← List.singleton_append, List.filter_append,
        ih _ hps, ← hsplit, List.filter_cons_of_pos hpresent]
      rfl

end Passage

theorem readComment_passages {ps : List Passage} (hps : ∀ p ∈ ps, p.IsWritten) {ending : List Char}
    (hending : IsLineEnd ending) :
    readComment (Passage.comment ending ps)
      = ((ps.map Passage.split).foldl Draft.read {}).finish := by
  cases ps with
  | nil => exact readComment_of_blank (List.forall_mem_nil _)
  | cons p ps =>
    have hfits : ∀ line ∈ (p :: ps).flatMap Passage.rows, FitsLine line := fun line hline ↦ by
      obtain ⟨q, hq, hline⟩ := List.mem_flatMap.mp hline
      exact (hps q hq).fits line hline
    have hne : (p :: ps).flatMap Passage.rows ≠ [] := by simp [Passage.rows]
    rw [readComment, Passage.comment, cleanLines_join hending hne hfits, sections,
      Passage.filter_sectionsFrom ⟨none, []⟩ hps]
    rfl

/-- **The order of sections does not matter.** A comment that is made up of passages about different
topics documents the same in whatever order they stand; only the convention may be taken for another
one. -/
theorem sections_in_any_order {first second : List Passage} (hperm : first.Perm second)
    (hwritten : ∀ p ∈ first, p.IsWritten) (htopics : (first.map Passage.topic).Nodup)
    {ending : List Char} (hending : IsLineEnd ending) :
    { readComment (Passage.comment ending first) with style := .plain } =
      { readComment (Passage.comment ending second) with style := .plain } := by
  have hwritten' : ∀ p ∈ second, p.IsWritten := fun p hp ↦ hwritten p (hperm.mem_iff.mpr hp)
  have hkeys : ∀ ps : List Passage, (∀ p ∈ ps, p.IsWritten) → ∀ s ∈ ps.map Passage.split, ∃ key,
      s.key = some key :=
    fun ps hps ↦ List.forall_mem_map.mpr fun p hp ↦ let ⟨key, hkey, _⟩ :=
    (hps p hp).exists_key; ⟨key, hkey⟩
  rw [readComment_passages hwritten hending, readComment_passages hwritten' hending]
  refine Draft.finish_of_only fun t ↦ ?_
  rw [Draft.only_foldl_read _ t (hkeys first hwritten),
    Draft.only_foldl_read _ t (hkeys second hwritten')]
  refine (hperm.map Passage.split).foldl_eq' ?_ _
  intro s hs s' hs' d
  obtain ⟨p, hp, rfl⟩ := List.mem_map.mp hs
  obtain ⟨p', hp', rfl⟩ := List.mem_map.mp hs'
  by_cases hsame : p = p'
  · rw [hsame]
  · obtain ⟨key, hkey, htopic⟩ := (hwritten p hp).exists_key
    obtain ⟨key', hkey', htopic'⟩ := (hwritten p' hp').exists_key
    rw [Draft.only_read_only _ _ hkey', Draft.only_read_only _ _ hkey]
    refine Draft.only_read_comm d _ t hkey hkey' fun u hu hu' ↦ hsame ?_
    exact List.inj_on_of_nodup_map htopics hp hp' ((htopic u hu).symm.trans (htopic' u hu'))

/-- A header in two orders. The convention is that of the section that comes last. -/
theorem sections_in_any_order_swapped :
    let parameters : Passage :=
      ⟨.parameters, " * Arguments:".toList, [" * 0: Unit <OBJECT>".toList, " *   or none".toList]⟩
    let author : Passage := ⟨.author, " * AUTHOR(S) : Someone".toList, []⟩
    let description : Passage :=
      ⟨.description, " * Description: Heals".toList, [[], " * the unit.".toList]⟩
    let first := [parameters, author, description]
    let second := [author, description, parameters]
    first.Perm second ∧ (∀ p ∈ first, p.IsWritten) ∧ (first.map Passage.topic).Nodup ∧
    IsLineEnd ['\n'] ∧
      { readComment (Passage.comment ['\n'] first) with style := .plain } =
        { readComment (Passage.comment ['\n'] second) with style := .plain } ∧
      (readComment (Passage.comment ['\n'] first)).style = .bis ∧
      (readComment (Passage.comment ['\n'] second)).style = .cba := by
  intro parameters author description first second
  have hperm : first.Perm second := by decide
  have hwritten : ∀ p ∈ first, p.IsWritten := by decide +kernel
  have htopics : (first.map Passage.topic).Nodup := by decide
  refine ⟨hperm, hwritten, htopics, .inl rfl,
    sections_in_any_order hperm hwritten htopics (.inl rfl), ?_, ?_⟩
  · decide +kernel
  · decide +kernel

end MissionIndex.Header
