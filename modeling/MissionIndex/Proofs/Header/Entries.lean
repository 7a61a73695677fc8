import Mathlib.Data.List.Forall2
import MissionIndex.Header.Entry
import MissionIndex.Proofs.Path.Normal
import MissionIndex.Proofs.Text.Trimming

/-!
# Entries of a parameter section

A parameter section is a row of blocks, each an entry and the lines that continue it, with blank
lines between them at will. A block gives the parameter that its entry gives by itself, with a
longer description (`blocks_read`).

A line that continues an entry is not looked at for what it says: only where no entry is open does
`none` or a dash say that there are no parameters.
-/

namespace MissionIndex.Header

open Text

/-! ## Lines of a parameter section -/

/-- A line that opens an entry for an element of the array: it has a type in angle brackets, or a
number, `_this select` with a number, or a name in front of a colon. -/
def IsEntry (line : List Char) : Prop :=
  (bracketed? line).isSome = true ∨ (named? line).any (·.1 != .whole) = true

/-- A line that says something but opens no entry. -/
def IsContinuation (line : List Char) : Prop :=
  line ≠ [] ∧ bracketed? line = none ∧ named? line = none

instance (line : List Char) : Decidable (IsEntry line) := inferInstanceAs (Decidable (_ ∨ _))

instance (line : List Char) : Decidable (IsContinuation line) := inferInstanceAs (Decidable (_ ∧ _))

namespace Parameter

/-- The parameter with its description continued by further lines. -/
def continuedBy (more : List (List Char)) (p : Parameter) : Parameter :=
  if more = [] then p
  else
    { p with
      description := String.ofList (trim (join [' '] (p.description.toList :: more.map trim))) }

/-- Lines that are added one by one come to the same as all of them together. -/
theorem foldl_addLine {more : List (List Char)} (hmore : ∀ line ∈ more, trim line ≠ [])
    (p : Parameter) :
    more.foldl (fun p line ↦ p.addLine (trim line)) p = p.continuedBy more := by
  induction more generalizing p with
  | nil => rfl
  | cons line rest ih =>
    obtain ⟨hline, hrest⟩ := List.forall_mem_cons.mp hmore
    rw [List.foldl_cons, ih hrest]
    by_cases hnil : rest = []
    · rw [hnil]
      simp [continuedBy, addLine, join]
    · -- Behind the first line, no blank is left for trimming but at the front.
      obtain ⟨front, c, hlast⟩ := List.eq_nil_or_concat' (trim line) |>.resolve_left hline
      have hc : isBlank c = false :=
        not_isBlank_of_getLast?_trim line c (by rw [hlast, List.getLast?_concat]; rfl)
      have hjoin : join [' '] (p.description.toList :: (line :: rest).map trim) =
          p.description.toList ++ ' ' :: front ++ [c] ++ ' ' :: join [' '] (rest.map trim) := by
        rw [List.map_cons, Path.join_cons (List.cons_ne_nil _ _),
          Path.join_cons (by simpa using hnil), hlast]
        simp
      have hstep : join [' '] ((p.addLine (trim line)).description.toList :: rest.map trim) =
          trim (p.description.toList ++ ' ' :: front ++ [c]) ++ ' ' ::
          join [' '] (rest.map trim) := by
        rw [Path.join_cons (by simpa using hnil), addLine, String.toList_ofList, hlast]
        simp
      rw [continuedBy, continuedBy, if_neg hnil, if_neg (List.cons_ne_nil _ _), hstep,
        trim_trim_append hc, ← hjoin]
      rfl

end Parameter

namespace Listing

variable {l : Listing} {line : List Char}

theorem read_blank (h : trim line = []) (l : Listing) :
    l.read line = { l with current := none } := by
  rw [read, if_pos h]

theorem foldl_read_blank {gap : List (List Char)} (h : ∀ line ∈ gap, trim line = []) (l : Listing) :
    ∃ current, gap.foldl read l = { l with current } := by
  induction gap generalizing l with
  | nil => exact ⟨l.current, rfl⟩
  | cons line gap ih =>
    obtain ⟨hline, hgap⟩ := List.forall_mem_cons.mp h
    obtain ⟨current, hread⟩ := ih hgap { l with current := none }
    exact ⟨current, by rw [List.foldl_cons, read_blank hline, hread]⟩

/-- An entry gives the same parameter whatever comes before it. -/
theorem read_entry (h : IsEntry (trim line)) : ∃ p, ∀ l : Listing,
    l.read line = { l with parameters := l.parameters ++ [p], current := some true,
                           sawBrackets := l.sawBrackets || (bracketed? (trim line)).isSome } := by
  have hne : trim line ≠ [] := by
    intro hnil
    rw [hnil] at h
    exact absurd h (by decide)
  cases hbracket : bracketed? (trim line) with
  | some found =>
    obtain ⟨description, type, rest⟩ := found
    refine ⟨bracketParameter description type rest, fun l ↦ ?_⟩
    rw [read, if_neg hne, hbracket]
    simp [addElement]
  | none =>
    rw [IsEntry, hbracket] at h
    obtain ⟨⟨designator, remark, text⟩, hnamed, hdesignator⟩ :=
      (Option.any_eq_true _ _).mp (h.resolve_left (by simp))
    cases designator with
    | whole => exact absurd rfl (bne_iff_ne.mp hdesignator)
    | position =>
      refine ⟨namedParameter none remark text, fun l ↦ ?_⟩
      rw [read, if_neg hne, hbracket, hnamed]
      simp [addElement]
    | name name =>
      refine ⟨namedParameter (some name) remark text, fun l ↦ ?_⟩
      rw [read, if_neg hne, hbracket, hnamed]
      simp [addElement]

theorem read_continuation (h : IsContinuation (trim line)) {ps : List Parameter} {p : Parameter}
    (hparameters : l.parameters = ps ++ [p]) (hcurrent : l.current = some true) :
    l.read line = { l with parameters := ps ++ [p.addLine (trim line)] } := by
  obtain ⟨hne, hbracket, hnamed⟩ := h
  rw [read, if_neg hne, hbracket, hnamed]
  simp [continueWith, hcurrent, hparameters]

theorem foldl_read_continuations {more : List (List Char)}
    (hmore : ∀ line ∈ more, IsContinuation (trim line)) {ps : List Parameter} {p : Parameter}
    (hparameters : l.parameters = ps ++ [p]) (hcurrent : l.current = some true) :
    more.foldl read l = { l with parameters := ps ++ [p.continuedBy more] } := by
  rw [← Parameter.foldl_addLine fun line hline ↦ (hmore line hline).1]
  induction more generalizing l p with
  | nil => rw [List.foldl_nil, List.foldl_nil, ← hparameters]
  | cons line more ih =>
    obtain ⟨hline, hmore⟩ := List.forall_mem_cons.mp hmore
    rw [List.foldl_cons, read_continuation hline hparameters hcurrent, List.foldl_cons]
    exact ih hmore rfl hcurrent

end Listing

/-! ## Blocks -/

/-- An entry as it stands in a section: blank lines in front, the line of the entry, and the lines
that continue it. -/
structure Block where
  gap : List (List Char)
  entry : List Char
  more : List (List Char)
deriving DecidableEq, Repr

namespace Block

def rows (b : Block) : List (List Char) := b.gap ++ b.entry :: b.more

/-- The lines of a block are what they should be, apart from the blanks around them. -/
structure IsWritten (b : Block) : Prop where
  gap : ∀ line ∈ b.gap, trim line = []
  entry : IsEntry (trim b.entry)
  more : ∀ line ∈ b.more, IsContinuation (trim line)

/-- A parameter is the one that the entry of a block gives by itself, with its description continued
by the other lines. -/
def Gives (b : Block) (p : Parameter) : Prop :=
  ∃ alone, (Listing.read {} b.entry).parameters = [alone] ∧ p = alone.continuedBy b.more

def hasBrackets (b : Block) : Bool := (bracketed? (trim b.entry)).isSome

theorem isWritten_iff {b : Block} : b.IsWritten ↔
    (∀ line ∈ b.gap, trim line = []) ∧ IsEntry (trim b.entry) ∧
    ∀ line ∈ b.more, IsContinuation (trim line) :=
  ⟨fun h ↦ ⟨h.gap, h.entry, h.more⟩, fun ⟨hgap, hentry, hmore⟩ ↦ ⟨hgap, hentry, hmore⟩⟩

instance (b : Block) : Decidable b.IsWritten := decidable_of_iff _ isWritten_iff.symm

theorem foldl_read {b : Block} (h : b.IsWritten) : ∃ p, b.Gives p ∧ ∀ l : Listing,
    b.rows.foldl Listing.read l = { l with parameters := l.parameters ++ [p], current := some true,
                                           sawBrackets := l.sawBrackets || b.hasBrackets } := by
  obtain ⟨alone, halone⟩ := Listing.read_entry h.entry
  refine ⟨alone.continuedBy b.more, ⟨alone, by rw [halone]; rfl, rfl⟩, fun l ↦ ?_⟩
  obtain ⟨current, hgap⟩ := Listing.foldl_read_blank h.gap l
  rw [rows, List.foldl_append, hgap, List.foldl_cons, halone,
    Listing.foldl_read_continuations h.more rfl rfl]
  simp [hasBrackets]

theorem foldl_read_blocks {blocks : List Block} (h : ∀ b ∈ blocks, b.IsWritten) :
    ∃ added, List.Forall₂ Gives blocks added ∧ ∀ l : Listing, ∃ current,
      (blocks.flatMap rows).foldl Listing.read l =
        { l with parameters := l.parameters ++ added, current,
                 sawBrackets := l.sawBrackets || blocks.any hasBrackets } := by
  induction blocks with
  | nil => exact ⟨[], .nil, fun l ↦ ⟨l.current, by simp⟩⟩
  | cons b blocks ih =>
    obtain ⟨hb, hblocks⟩ := List.forall_mem_cons.mp h
    obtain ⟨p, hp, hread⟩ := foldl_read hb
    obtain ⟨added, hadded, hrest⟩ := ih hblocks
    refine ⟨p :: added, .cons hp hadded, fun l ↦ ?_⟩
    obtain ⟨current, hdone⟩ := hrest (b.rows.foldl Listing.read l)
    refine ⟨current, ?_⟩
    rw [List.flatMap_cons, List.foldl_append, hdone, hread]
    simp [Bool.or_assoc]

end Block

/-- **A parameter section gives one parameter for each entry, in order.** Each is what its entry
gives by itself, with the lines that continue it added to its description. -/
theorem blocks_read {blocks : List Block} (hblocks : ∀ b ∈ blocks, b.IsWritten)
    {after : List (List Char)} (hafter : ∀ line ∈ after, trim line = []) (before : List Parameter)
    (whole : Option Parameter) :
    let done := (blocks.flatMap Block.rows ++ after).foldl Listing.read
      { parameters := before, parameter := whole }
    (∃ added, done.parameters = before ++ added ∧ List.Forall₂ Block.Gives blocks added) ∧
      done.parameter = whole ∧ (done.sawBrackets = true ↔ ∃ b ∈ blocks, b.hasBrackets = true) := by
  intro done
  obtain ⟨added, hadded, hread⟩ := Block.foldl_read_blocks hblocks
  obtain ⟨current, hblocks'⟩ := hread { parameters := before, parameter := whole }
  obtain ⟨last, hblank⟩ := Listing.foldl_read_blank hafter
    ((blocks.flatMap Block.rows).foldl Listing.read { parameters := before, parameter := whole })
  have hdone : done = { parameters := before ++ added, parameter := whole, current := last,
                        sawBrackets := blocks.any Block.hasBrackets } := by
    rw [← List.foldl_append, hblocks'] at hblank
    exact hblank
  rw [hdone]
  exact ⟨⟨added, rfl, hadded⟩, rfl, List.any_eq_true⟩

/-- Two entries, where the first goes on with `none` and with a dash. -/
theorem blocks_read_continued :
    let first : Block := ⟨[], "0: Unit to heal <OBJECT>".toList,
      ["none".toList, "  - or an array".toList]⟩
    let second : Block := ⟨[" ".toList], "_this select 1: ARRAY - positions (optional)".toList,
      ["in order.".toList]⟩
    let blocks := [first, second]
    let done := (blocks.flatMap Block.rows ++ [[]]).foldl Listing.read
      { parameters := [], parameter := none }
    (∀ b ∈ blocks, b.IsWritten) ∧ (∀ line ∈ [([] : List Char)], trim line = []) ∧
      ((∃ added, done.parameters = [] ++ added ∧ List.Forall₂ Block.Gives blocks added) ∧
        done.parameter = none ∧ (done.sawBrackets = true ↔ ∃ b ∈ blocks, b.hasBrackets = true)) ∧
      done.parameters = [{ type := "OBJECT", description := "Unit to heal none - or an array" },
        { type := "ARRAY", description := "positions in order.", optional := true }] := by
  intro first second blocks done
  have hblocks : ∀ b ∈ blocks, b.IsWritten := by decide +kernel
  have hafter : ∀ line ∈ [([] : List Char)], trim line = [] := by decide
  exact ⟨hblocks, hafter, blocks_read hblocks hafter [] none, by decide +kernel⟩

end MissionIndex.Header
