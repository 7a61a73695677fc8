import MissionIndex.Proofs.Config.Locality
import MissionIndex.Proofs.Config.Provenance

/-!
# What makes a parse fault

Sources may refuse to tell what the buffer of a file is, and a parse that asks for it faults. Had
they said instead that the file is not open, the parse would have gone on: it would have opened the
file, or stopped since it is not there. So a parse faults just where it would *go for* a file that
the sources refuse, if they did not refuse any; and where it does not fault, refusing makes no
difference.
-/

namespace MissionIndex.Config

open Text

variable {ε : Type}

/-- An expansion goes for a file: it opens it, or it stops since the file is not there to be
included. -/
def Expansion.GoesFor (e : Expansion ε) (path : String) : Prop :=
  path ∈ e.opened ∨ ∃ location, e.stop = some (.error ⟨.missingInclude path, location⟩)

theorem Expansion.goesFor_andThen {a : Expansion ε} {path : String} (h : a.GoesFor path)
    (b : Unit → Expansion ε) : (a.andThen b).GoesFor path := by
  rw [andThen]
  split
  · exact h
  · next hstop =>
    rcases h with hopened | ⟨location, hlocation⟩
    · exact .inl (List.mem_append_left _ hopened)
    · cases hstop.symm.trans hlocation

theorem Expansion.goesFor_andThen_iff {a : Expansion ε} (hstop : a.stop = none)
    (b : Unit → Expansion ε) (path : String) :
    (a.andThen b).GoesFor path ↔ a.GoesFor path ∨ (b ()).GoesFor path := by
  simp only [GoesFor, andThen, hstop, List.mem_append, reduceCtorEq, exists_false,
    or_false, or_assoc]

/-- An expansion with sources that refuse some files, against one with sources that refuse none:
they are the same, or the first faults where the second goes for a refused file. -/
structure Expansion.Forgoes (refused : String → Prop) (e e' : Expansion ε) : Prop where
  same : (∀ reason, e.stop ≠ some (.fault reason)) → e' = e ∧ ∀ path, e.GoesFor path →
    ¬ refused path
  fault : ∀ reason, e.stop = some (.fault reason) → ∃ path, e'.GoesFor path ∧ refused path

namespace Expansion.Forgoes

variable {refused : String → Prop}

theorem refl {e : Expansion ε} (hfault : ∀ reason, e.stop ≠ some (.fault reason))
    (hpaths : ∀ path, e.GoesFor path → ¬ refused path) : Forgoes refused e e where
  same _ := ⟨rfl, hpaths⟩
  fault reason hreason := absurd hreason (hfault reason)

theorem tokens (ts : List Token) :
    Forgoes refused ({ tokens := ts } : Expansion ε) { tokens := ts } := by
  refine refl nofun fun path hpath ↦ ?_
  rcases hpath with hpath | ⟨location, hlocation⟩
  · cases hpath
  · cases hlocation

theorem failed {cause : Cause} (h : ∀ path, cause = .missingInclude path → ¬ refused path)
    (location : Location) :
    Forgoes refused (Expansion.failed cause location : Expansion ε) (.failed cause location) := by
  refine refl nofun fun path hpath ↦ ?_
  rcases hpath with hpath | ⟨other, hother⟩
  · cases hpath
  · cases hother
    exact h path rfl

/-- Opening one file that is not refused, and then at most finding it unreadable. -/
theorem opened {path : String} (h : ¬ refused path) {e : Expansion ε} (hopened : e.opened = [path])
    (hstop : ∀ stop, e.stop = some stop →
      ∃ why location, stop = .error ⟨.unreadable path why, location⟩) :
    Forgoes refused e e := by
  refine refl (fun reason hreason ↦ ?_) fun asked hasked ↦ ?_
  · obtain ⟨why, location, hunreadable⟩ := hstop _ hreason
    cases hunreadable
  · rcases hasked with hasked | ⟨blame, hblame⟩
    · rw [hopened] at hasked
      obtain rfl := List.mem_singleton.mp hasked
      exact h
    · obtain ⟨why, location, hunreadable⟩ := hstop _ hblame
      cases hunreadable

theorem andThen {a a' : Expansion ε} {b b' : Unit → Expansion ε} (ha : Forgoes refused a a')
    (hb : Forgoes refused (b ()) (b' ())) : Forgoes refused (a.andThen b) (a'.andThen b') := by
  cases hstop : a.stop with
  | some stop =>
    have hab : a.andThen b = a := by rw [Expansion.andThen, hstop]
    rw [hab]
    refine ⟨fun hfault ↦ ?_, fun reason hreason ↦ ?_⟩
    · obtain ⟨rfl, hpaths⟩ := ha.same hfault
      rw [Expansion.andThen, hstop]
      exact ⟨rfl, hpaths⟩
    · obtain ⟨path, hpath, hrefused⟩ := ha.fault reason hreason
      exact ⟨path, goesFor_andThen hpath b', hrefused⟩
  | none =>
    obtain ⟨rfl, hpaths⟩ := ha.same fun reason hreason ↦ by cases hstop.symm.trans hreason
    have hab : (a'.andThen b).stop = (b ()).stop := by rw [Expansion.andThen, hstop]
    refine ⟨fun hfault ↦ ?_, fun reason hreason ↦ ?_⟩
    · rw [hab] at hfault
      obtain ⟨hsame, hpaths'⟩ := hb.same hfault
      refine ⟨by rw [Expansion.andThen, Expansion.andThen, hsame], fun path hpath ↦ ?_⟩
      exact ((goesFor_andThen_iff hstop b path).mp hpath).elim (hpaths path) (hpaths' path)
    · rw [hab] at hreason
      obtain ⟨path, hpath, hrefused⟩ := hb.fault reason hreason
      exact ⟨path, (goesFor_andThen_iff hstop b' path).mpr (.inr hpath), hrefused⟩

theorem ofPieces {enter enter' : String → Range → Expansion ε}
    (henter : ∀ target range, Forgoes refused (enter target range) (enter' target range))
    {ps : List Piece} (hps : ∀ e, .fault e ∈ ps → ∀ path, e.cause ≠ .missingInclude path) :
    Forgoes refused (.ofPieces enter ps) (.ofPieces enter' ps) := by
  induction ps with
  | nil => exact tokens []
  | cons piece rest ih =>
    have hrest := ih fun e he ↦ hps e (List.mem_cons_of_mem piece he)
    cases piece with
    | token t => exact andThen (tokens [t]) hrest
    | «include» target range => exact andThen (henter target range) hrest
    | fault e => exact failed (fun path he ↦ absurd he (hps e List.mem_cons_self path)) e.location

end Expansion.Forgoes

/-- A file is missing only where it is to be included, which no piece of a text says by itself. -/
theorem cause_of_fault_mem_pieces {file : String} {text : List Char} {e : ParseError}
    (h : .fault e ∈ pieces file text) (path : String) : e.cause ≠ .missingInclude path := by
  rw [pieces] at h
  generalize Position.zero = p at h
  generalize lexemes (dropMarks text) = ls at h
  induction ls generalizing p with
  | nil => cases h
  | cons lexeme rest ih =>
    rw [piecesFrom, List.mem_append, Option.mem_toList] at h
    rcases h with h | h
    · cases lexeme with
      | directive raw line =>
        simp only [pieceAt] at h
        split at h
        · split at h <;> cases h
          rintro ⟨⟩
        · cases h
      | openComment raw | openQuote raw =>
        cases h
        rintro ⟨⟩
      | _ => cases h
    · exact ih _ h

namespace Sources

variable (sources : Sources ε)

/-- The sources in which a file is not open where they would refuse to tell. -/
def forgiving : Sources ε :=
    { sources with buffer := fun path ↦ .ok ((sources.buffer path).toOption.getD none) }

theorem buffer_forgiving_of_answers {path : String} {buffered : Option (List Char)}
    (h : sources.buffer path = .ok buffered) : sources.forgiving.buffer path = .ok buffered := by
  simp only [forgiving, h]
  rfl

variable {sources} in
theorem not_answers_of_buffer_eq_error {path : String} {reason : ε}
    (h : sources.buffer path = .error reason) :
    ¬ sources.Answers path := by
  rintro ⟨buffered, hbuffered⟩
  cases h.symm.trans hbuffered

/-- Where the sources tell what the buffer of a file is, there is no text only if the disk has
none. -/
theorem unreadable_of_textOf_eq_error {path : String} {blame : Location}
    {buffered : Option (List Char)} (hbuffer : sources.buffer path = .ok buffered) {stop : Stop ε}
    (h : sources.textOf path blame = .error stop) :
    ∃ why, stop = .error ⟨.unreadable path why, blame⟩ := by
  rw [textOf, hbuffer] at h
  cases buffered with
  | some text => cases h
  | none =>
    cases hread : sources.disk.readText path with
    | ok text =>
      rw [hread] at h
      cases h
    | error why =>
      rw [hread] at h
      exact ⟨why, (Except.error.inj h).symm⟩

theorem forgoes_openFile {enter enter' : String → Range → Expansion ε}
    (henter : ∀ target range,
      (enter target range).Forgoes (¬ sources.Answers ·) (enter' target range))
    (path : String) (blame : Location) :
    (sources.openFile enter path blame).Forgoes (¬ sources.Answers ·)
      (sources.forgiving.openFile enter' path blame) := by
  cases hbuffer : sources.buffer path with
  | error reason =>
    have hstop : (sources.openFile enter path blame).stop = some (.fault reason) := by
      rw [openFile, textOf, hbuffer]
    refine ⟨fun hfault ↦ absurd hstop (hfault reason), fun _ _ ↦
      ⟨path, .inl ?_, not_answers_of_buffer_eq_error hbuffer⟩⟩
    exact sources.forgiving.mem_opened_openFile enter' path blame
  | ok buffered =>
    have hforgiving := sources.buffer_forgiving_of_answers hbuffer
    have htext : sources.forgiving.textOf path blame = sources.textOf path blame := by
      rw [textOf, textOf, hforgiving, hbuffer]
      rfl
    have hanswers : sources.Answers path := ⟨buffered, hbuffer⟩
    rw [openFile, openFile, htext]
    cases hread : sources.textOf path blame with
    | error stop =>
      obtain ⟨why, rfl⟩ := sources.unreadable_of_textOf_eq_error hbuffer hread
      refine .opened (not_not.mpr hanswers) rfl fun stop hstop ↦ ⟨why, blame, ?_⟩
      exact (Option.some.inj hstop).symm
    | ok text =>
      refine .andThen (.opened (not_not.mpr hanswers) rfl fun stop hstop ↦ ?_)
        (.ofPieces henter fun e he ↦ cause_of_fault_mem_pieces he)
      cases hstop

theorem forgoes_expandInclude (rootFolder : String) (room : Nat) (within : List String)
    (file target : String) (range : Range) :
    (sources.expandInclude rootFolder room within file target range).Forgoes (¬ sources.Answers ·)
      (sources.forgiving.expandInclude rootFolder room within file target range) := by
  induction room generalizing within file target range with
  | zero => exact .failed (fun asked hasked ↦ by cases hasked) _
  | succ room ih =>
    have hpath : sources.forgiving.includePath rootFolder file target
        = sources.includePath rootFolder file target := rfl
    rw [expandInclude, expandInclude, hpath]
    generalize sources.includePath rootFolder file target = path
    by_cases hwithin : within.contains path = true
    · rw [if_pos hwithin, if_pos hwithin]
      exact .failed (fun asked hasked ↦ by cases hasked) _
    · rw [if_neg hwithin, if_neg hwithin]
      cases hbuffer : sources.buffer path with
      | error reason =>
        have hnone : sources.forgiving.buffer path = .ok none := by
          simp only [forgiving, hbuffer]
          rfl
        simp only [hnone]
        refine ⟨fun hfault ↦ absurd rfl (hfault reason), fun _ _ ↦
          ⟨path, ?_, not_answers_of_buffer_eq_error hbuffer⟩⟩
        by_cases hmissing : (Option.isNone (none : Option (List Char)) &&
          !sources.forgiving.disk.isFile path) = true
        · rw [if_pos hmissing]
          exact .inr ⟨_, rfl⟩
        · rw [if_neg hmissing]
          exact .inl (sources.forgiving.mem_opened_openFile _ path _)
      | ok buffered =>
        have hdisk : sources.forgiving.disk = sources.disk := rfl
        simp only [sources.buffer_forgiving_of_answers hbuffer, hdisk]
        by_cases hmissing : (buffered.isNone && !sources.disk.isFile path) = true
        · rw [if_pos hmissing, if_pos hmissing]
          refine .failed (fun asked hasked hrefused ↦ ?_) _
          obtain rfl := Cause.missingInclude.inj hasked
          exact hrefused ⟨buffered, hbuffer⟩
        · rw [if_neg hmissing, if_neg hmissing]
          exact sources.forgoes_openFile (fun target range ↦ ih _ _ target range) _ _

theorem forgoes_expandRoot (file : String) :
    (sources.expandRoot file).Forgoes (¬ sources.Answers ·)
      (sources.forgiving.expandRoot file) := by
  rw [expandRoot_eq, expandRoot_eq]
  exact sources.forgoes_openFile (fun target range ↦
    sources.forgoes_expandInclude _ _ _ _ target range) _ _

/-- **A parse faults just where it would go for a file that the sources refuse.** -/
theorem exists_fault_parse_iff (path : String) :
    (∃ reason, (sources.parse path).result = .error (.fault reason)) ↔
      ∃ asked, (sources.forgiving.expandRoot (sources.disk.absolute path)).GoesFor asked ∧
        ¬ sources.Answers asked := by
  have hforgoes := sources.forgoes_expandRoot (sources.disk.absolute path)
  have hresult : (∃ reason, (sources.parse path).result = .error (.fault reason)) ↔
      ∃ reason, (sources.expandRoot (sources.disk.absolute path)).stop = some (.fault reason) := by
    refine exists_congr fun reason ↦ ?_
    simp only [parse]
    split
    · next stop hstop => rw [hstop, Except.error.injEq, Option.some.injEq]
    · next hstop =>
      rw [hstop]
      split <;> simp
  rw [hresult]
  constructor
  · rintro ⟨reason, hreason⟩
    exact hforgoes.fault reason hreason
  · rintro ⟨asked, hasked, hrefused⟩
    by_contra hfault
    obtain ⟨hsame, hanswers⟩ := hforgoes.same fun reason hreason ↦ hfault ⟨reason, hreason⟩
    rw [hsame] at hasked
    exact hanswers asked hasked hrefused

/-- Where a parse does not fault, it makes no difference that the sources refuse some files. -/
theorem parse_forgiving {path : String}
    (h : ∀ reason, (sources.parse path).result ≠ .error (.fault reason)) :
    sources.forgiving.parse path = sources.parse path := by
  have hstop : ∀ reason, (sources.expandRoot (sources.disk.absolute path)).stop
      ≠ some (.fault reason) := by
    intro reason hreason
    refine h reason ?_
    simp only [parse, hreason]
  have hsame := ((sources.forgoes_expandRoot (sources.disk.absolute path)).same hstop).1
  have hfile : sources.forgiving.disk.absolute path = sources.disk.absolute path := rfl
  simp only [parse, hfile, hsame]

end Sources

end MissionIndex.Config
