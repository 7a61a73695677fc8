import MissionIndex.Config.Parse

/-!
# What a parse depends on

A parse that succeeds has looked at no buffers but those of the files that it opened. If these are
the same elsewhere, the parse gives the same there. One that fails may have asked for the buffer of
a file that is not there, and that file is not opened; so it gives the same where the buffers of
such files are the same, too.
-/

namespace MissionIndex.Config

variable {ε : Type}

namespace Expansion

theorem andThen_of_stop_eq_none {a : Expansion ε} {b : Unit → Expansion ε}
    (h : (a.andThen b).stop = none) :
    a.stop = none ∧ (b ()).stop = none ∧ (a.andThen b).opened = a.opened ++ (b ()).opened ∧
      (a.andThen b).tokens = a.tokens ++ (b ()).tokens := by
  cases hstop : a.stop with
  | some stop =>
    rw [andThen, hstop] at h
    cases hstop.symm.trans h
  | none =>
    rw [andThen, hstop] at h ⊢
    exact ⟨rfl, h, rfl, rfl⟩

theorem andThen_congr {a : Expansion ε} {b b' : Unit → Expansion ε}
    (h : a.stop = none → b' () = b ()) :
    a.andThen b' = a.andThen b := by
  rw [andThen, andThen]
  split
  · rfl
  · next hstop => rw [h hstop]

theorem mem_opened_andThen_left {a : Expansion ε} {b : Unit → Expansion ε} {file : String}
    (h : file ∈ a.opened) : file ∈ (a.andThen b).opened := by
  rw [andThen]
  split
  · exact h
  · exact List.mem_append_left _ h

theorem mem_opened_andThen_right {a : Expansion ε} {b : Unit → Expansion ε} {file : String}
    (hstop : a.stop = none) (h : file ∈ (b ()).opened) : file ∈ (a.andThen b).opened := by
  rw [andThen, hstop]
  exact List.mem_append_right _ h

/-- Pieces amount to the same where the includes among them do. -/
theorem ofPieces_congr {enter enter' : String → Range → Expansion ε}
    {agrees : String → Prop} {P : Prop}
    (henter : ∀ target range, (enter target range).stop = none ∨ P →
      (∀ file ∈ (enter target range).opened, agrees file) →
      enter' target range = enter target range)
    {ps : List Piece} (hstop : (ofPieces enter ps).stop = none ∨ P)
    (hagrees : ∀ file ∈ (ofPieces enter ps).opened, agrees file) :
    ofPieces enter' ps = ofPieces enter ps := by
  induction ps with
  | nil => rfl
  | cons piece rest ih =>
    cases piece with
    | token t =>
      rw [ofPieces] at hstop hagrees
      refine andThen_congr fun hfirst ↦ ih ?_ fun file hf ↦
        hagrees file (mem_opened_andThen_right hfirst hf)
      exact hstop.imp_left fun h ↦ (andThen_of_stop_eq_none h).2.1
    | «include» target range =>
      rw [ofPieces] at hstop hagrees
      rw [ofPieces, ofPieces, henter target range (hstop.imp_left fun h ↦
        (andThen_of_stop_eq_none h).1)
        fun file hf ↦ hagrees file (mem_opened_andThen_left hf)]
      refine andThen_congr fun hfirst ↦ ih ?_ fun file hf ↦
        hagrees file (mem_opened_andThen_right hfirst hf)
      exact hstop.imp_left fun h ↦ (andThen_of_stop_eq_none h).2.1
    | fault e => rfl

end Expansion

namespace Sources

variable (sources : Sources ε) {buffer : String → Except ε (Option (List Char))}

theorem textOf_congr {path : String} (h : buffer path = sources.buffer path) (blame : Location) :
    { sources with buffer }.textOf path blame = sources.textOf path blame := by
  simp only [textOf, h]

theorem mem_opened_openFile (enter : String → Range → Expansion ε) (path : String)
    (blame : Location) :
    path ∈ (sources.openFile enter path blame).opened := by
  rw [openFile]
  split
  · exact List.mem_singleton_self path
  · exact List.mem_cons_self

/-- Whether there is a file for a path: an open buffer, or else a file on disk. -/
def Finds (path : String) : Prop :=
  ∃ buffered, sources.buffer path = .ok buffered ∧
  (buffered.isNone && !sources.disk.isFile path) = false

/-- A file that is opened is one of the opened files. So where the buffers of these are the same,
the file itself has the same text, and nothing else about it can differ but the includes. -/
theorem openFile_congr {enter enter' : String → Range → Expansion ε} {P : Prop}
    (henter : ∀ target range, (enter target range).stop = none ∨ P →
      (∀ file ∈ (enter target range).opened, buffer file = sources.buffer file) →
        enter' target range = enter target range)
    {path : String} {blame : Location} (hstop : (sources.openFile enter path blame).stop = none ∨ P)
    (hagrees : ∀ file ∈ (sources.openFile enter path blame).opened, buffer file
      = sources.buffer file) :
    { sources with buffer }.openFile enter' path blame = sources.openFile enter path blame := by
  have hpath := sources.textOf_congr (hagrees path (sources.mem_opened_openFile enter path blame))
    blame
  rw [openFile] at hstop hagrees
  rw [openFile, openFile, hpath]
  cases htext : sources.textOf path blame with
  | error stop => rfl
  | ok text =>
    simp only [htext] at hstop hagrees
    refine Expansion.andThen_congr fun hfirst ↦ Expansion.ofPieces_congr henter ?_ fun file hf ↦
      hagrees file (Expansion.mem_opened_andThen_right hfirst hf)
    exact hstop.imp_left fun h ↦ (Expansion.andThen_of_stop_eq_none h).2.1

theorem expandInclude_congr (rootFolder : String) (room : Nat) (within : List String)
    (file target : String) (range : Range)
    (hstop : (sources.expandInclude rootFolder room within file target range).stop = none ∨
      ∀ f, ¬sources.Finds f → buffer f = sources.buffer f)
    (hagrees : ∀ f ∈ (sources.expandInclude rootFolder room within file target range).opened,
      buffer f = sources.buffer f) :
    { sources with buffer }.expandInclude rootFolder room within file target range
      = sources.expandInclude rootFolder room within file target range := by
  induction room generalizing within file target range with
  | zero => rfl
  | succ room ih =>
    have hpath : ({ sources with buffer } : Sources ε).includePath rootFolder file target
        = sources.includePath rootFolder file target := rfl
    rw [expandInclude] at hstop hagrees
    rw [expandInclude, expandInclude, hpath]
    generalize sources.includePath rootFolder file target = path at hstop hagrees ⊢
    by_cases hwithin : within.contains path = true
    · rw [if_pos hwithin, if_pos hwithin]
    · rw [if_neg hwithin] at hstop hagrees
      rw [if_neg hwithin, if_neg hwithin]
      by_cases hfinds : sources.Finds path
      · obtain ⟨buffered, hbuffer, hthere⟩ := hfinds
        simp only [hbuffer, hthere, Bool.false_eq_true, if_false] at hstop hagrees ⊢
        -- The file is opened from here on, so its buffer is one of those that agree.
        have hpath : buffer path = .ok buffered :=
          (hagrees path (sources.mem_opened_openFile _ path _)).trans hbuffer
        simp only [hpath, hthere, Bool.false_eq_true, if_false]
        exact sources.openFile_congr (fun target range ↦ ih _ _ target range) hstop hagrees
      · have hpath : buffer path = sources.buffer path := by
          refine hstop.elim (fun hnone ↦ absurd ?_ hfinds) fun hasked ↦ hasked path hfinds
          cases hbuffer : sources.buffer path with
          | error reason =>
            simp only [hbuffer] at hnone
            cases hnone
          | ok buffered =>
            refine ⟨buffered, hbuffer, Bool.not_eq_true _ ▸ fun hmissing ↦ ?_⟩
            simp only [hbuffer, hmissing] at hnone
            cases hnone
        cases hbuffer : sources.buffer path with
        | error reason => simp only [hpath, hbuffer]
        | ok buffered =>
          have hmissing : (buffered.isNone && !sources.disk.isFile path) = true :=
            Bool.not_eq_false _ ▸ fun hthere ↦ hfinds ⟨buffered, hbuffer, hthere⟩
          simp only [hpath, hbuffer, hmissing, if_true]

/-- **A parse depends on the buffers of the files that it opened only**, if it is successful or the
buffers are the same for the files that are not there. -/
theorem parse_congr {path : String}
    (h : (∃ tree, (sources.parse path).result = .ok tree) ∨ ∀ f, ¬sources.Finds f →
      buffer f = sources.buffer f)
    (hagrees : ∀ file ∈ (sources.parse path).opened, buffer file = sources.buffer file) :
    { sources with buffer }.parse path = sources.parse path := by
  have hexpand : { sources with buffer }.expandRoot (sources.disk.absolute path)
      = sources.expandRoot (sources.disk.absolute path) := by
    have hstop : (sources.expandRoot (sources.disk.absolute path)).stop = none ∨
        ∀ f, ¬sources.Finds f → buffer f = sources.buffer f := by
      refine h.imp_left fun ⟨tree, htree⟩ ↦ ?_
      simp only [parse] at htree
      split at htree
      · cases htree
      · assumption
    rw [expandRoot_eq] at hstop
    simp only [parse, expandRoot_eq] at hagrees
    rw [expandRoot_eq, expandRoot_eq]
    exact sources.openFile_congr
      (fun target range ↦ sources.expandInclude_congr _ _ _ _ target range) hstop hagrees
  simp only [parse, hexpand]

end Sources

end MissionIndex.Config
