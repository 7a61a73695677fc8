import Mathlib.Logic.Relation
import MissionIndex.Proofs.Config.Unstopped

/-!
# Expansion step by step

`Sources.expandInclude` expands a file with all that is included in one go. Here the same is done
one lexeme at a time, by a machine with a stack of the files that are being read (`Frame`). An
include puts a file on the stack, the end of a file takes it off, and an error takes off all of
them.

## What a state stands for

A state has an outcome: what has been expanded so far, followed by what each file of the stack still
amounts to (`Machine.outcome`). A step does not change it, so a run that comes to an end has
expanded what `Sources.expandRoot` says.

## Why each run ends

Each lexeme makes the innermost text shorter, but an include starts on a new one, of which nothing
is known. What carries the proof is the room on the stack. A file that is put on it is read with
less room, so its lexemes come to an end, and then the file below goes on where its text is shorter
than before.
-/

namespace MissionIndex.Config

open Text

variable {ε : Type}

/-- A file that is being read: where in it, whether only blanks came before on the line, and what is
left of it. -/
structure Frame where
  file : String
  position : Position := .zero
  fresh : Bool := true
  rest : List Char

/-- The file when a lexeme has been read, and `rest` is left. -/
def Frame.past (frame : Frame) (lexeme : Lexeme) (rest : List Char) : Frame where
  file := frame.file
  position := frame.position.advance lexeme.raw
  fresh := lexeme.staysFresh frame.fresh
  rest := rest

/-- The files that are being read, the innermost first, and what they have amounted to so far. -/
structure Machine (ε : Type) where
  frames : List Frame := []
  done : Expansion ε := {}

namespace Machine

/-- The paths of the files that are being read. -/
def stack (m : Machine ε) : List String := m.frames.map Frame.file

/-- Adds to what has been expanded. -/
def add (m : Machine ε) (e : Expansion ε) : Machine ε := { m with done := m.done.andThen fun _ ↦ e }

/-- Opens a file and puts it on the stack. -/
def enter (sources : Sources ε) (path : String) (blame : Location) (m : Machine ε) : Machine ε :=
  let opened := m.add { announced := [path], opened := [path] }
  match sources.textOf path blame with
  | .error stop => opened.add { stop := some stop }
  | .ok text => { opened with frames := { file := path, rest := dropMarks text } :: opened.frames }

/-- Asks for a file to be included. -/
def request (sources : Sources ε) (rootFolder file target : String) (range : Range)
    (m : Machine ε) : Machine ε :=
  let here : Location := ⟨file, range⟩
  if maxDepth < m.frames.length then m.add (.failed .includeTooDeep here)
  else
    let path := sources.includePath rootFolder file target
    if m.stack.contains path then m.add (.failed (.recursiveInclude target) here)
    else match sources.buffer path with
      | .error reason => m.add { stop := some (.fault reason) }
      | .ok buffered =>
        if buffered.isNone && !sources.disk.isFile path
          then m.add (.failed (.missingInclude path) here)
        else m.enter sources path here

def perform (sources : Sources ε) (rootFolder file : String) (m : Machine ε) :
    Option Piece → Machine ε
  | none => m
  | some (.token t) => m.add { tokens := [t] }
  | some (.fault e) => m.add { stop := some (.error e) }
  | some (.include target range) => m.request sources rootFolder file target range

/-- Reads a lexeme of the innermost file, or leaves the file at its end and after an error. -/
def step (sources : Sources ε) (rootFolder : String) (m : Machine ε) : Option (Machine ε) :=
  match m.frames with
  | [] => none
  | frame :: outer =>
    if m.done.stop.isSome then some { m with frames := outer }
    else match frame.rest with
      | [] => some { m with frames := outer }
      | c :: cs =>
        let (lexeme, rest) := cutLexeme frame.fresh c cs
        some ({ m with frames := frame.past lexeme rest :: outer }.perform sources
          rootFolder frame.file
          (pieceAt frame.file frame.position lexeme))

/-- The machine that is about to read a root file. -/
def start (sources : Sources ε) (file : String) : Machine ε :=
  ({} : Machine ε).enter sources file ⟨file, .empty⟩

/-! ## What a state stands for -/

/-- What the files of a stack still amount to, the innermost first. -/
def remaining (sources : Sources ε) (rootFolder : String) : List Frame → Expansion ε
  | [] => {}
  | frame :: outer =>
    (Expansion.ofPieces
        (sources.expandInclude rootFolder (maxDepth - outer.length)
          ((frame :: outer).map Frame.file).reverse frame.file)
        (piecesFrom frame.file frame.position (lexemesFrom frame.fresh frame.rest))).andThen
      fun _ ↦ remaining sources rootFolder outer

/-- What has been expanded and what the stack still amounts to. -/
def outcome (sources : Sources ε) (rootFolder : String) (m : Machine ε) : Expansion ε :=
  m.done.andThen fun _ ↦ remaining sources rootFolder m.frames

end Machine

namespace Expansion

theorem andThen_assoc (a : Expansion ε) (b c : Unit → Expansion ε) :
    (a.andThen b).andThen c = a.andThen fun _ ↦ (b ()).andThen c := by
  obtain ⟨opened, tokens, stop, announced⟩ := a
  cases stop with
  | some stop => rfl
  | none =>
    cases hstop : (b ()).stop <;> simp only [andThen, hstop, List.append_assoc]

theorem empty_andThen (b : Unit → Expansion ε) : ({} : Expansion ε).andThen b = b () := by
  simp only [andThen, List.nil_append]

theorem andThen_empty (a : Expansion ε) : (a.andThen fun _ ↦ {}) = a := by
  obtain ⟨opened, tokens, stop, announced⟩ := a
  cases stop with
  | some stop => rfl
  | none => simp only [andThen, List.append_nil]

theorem andThen_of_isSome {a : Expansion ε} (h : a.stop.isSome = true) (b : Unit → Expansion ε) :
    a.andThen b = a := by
  obtain ⟨stop, hstop⟩ := Option.isSome_iff_exists.mp h
  simp only [andThen, hstop]

theorem ofPieces_append (enter : String → Range → Expansion ε) (ps ps' : List Piece) :
    ofPieces enter (ps ++ ps') = (ofPieces enter ps).andThen fun _ ↦ ofPieces enter ps' := by
  induction ps with
  | nil => rw [List.nil_append, ofPieces, empty_andThen]
  | cons piece ps ih =>
    cases piece with
    | token t =>
      rw [List.cons_append, ofPieces, ofPieces, andThen_assoc, ih]
    | «include» target range =>
      rw [List.cons_append, ofPieces, ofPieces, andThen_assoc, ih]
    | fault e => rfl

end Expansion

namespace Machine

variable {sources : Sources ε} {rootFolder : String}

theorem outcome_add (m : Machine ε) (e : Expansion ε) :
    (m.add e).outcome sources rootFolder
      = m.done.andThen fun _ ↦ e.andThen fun _ ↦ remaining sources rootFolder m.frames := by
  rw [outcome, add, Expansion.andThen_assoc]

theorem outcome_enter (m : Machine ε) (path : String) (blame : Location) :
    (m.enter sources path blame).outcome sources rootFolder
      = m.done.andThen fun _ ↦
        (sources.openFile (sources.expandInclude rootFolder (maxDepth - m.frames.length)
          (m.stack.reverse ++ [path]) path) path blame).andThen fun _ ↦
            remaining sources rootFolder m.frames := by
  rw [enter, Sources.openFile]
  cases sources.textOf path blame with
  | error stop =>
    rw [outcome_add, add, Expansion.andThen_assoc]
    rfl
  | ok text =>
    rw [outcome, add, Expansion.andThen_assoc, remaining, List.map_cons, List.reverse_cons]
    simp only [Expansion.andThen_assoc]
    rfl

theorem outcome_request (m : Machine ε) (file target : String) (range : Range) :
    (m.request sources rootFolder file target range).outcome sources rootFolder
      = m.done.andThen fun _ ↦
        (sources.expandInclude rootFolder (maxDepth + 1 - m.frames.length) m.stack.reverse file
          target range).andThen
          fun _ ↦ remaining sources rootFolder m.frames := by
  rw [request]
  split
  · next hdeep =>
    rw [outcome_add, Nat.sub_eq_zero_of_le hdeep]
    rfl
  · next hroom =>
    rw [Nat.succ_sub (not_lt.mp hroom), Sources.expandInclude, List.contains_reverse]
    generalize sources.includePath rootFolder file target = path
    by_cases hrecursive : m.stack.contains path = true
    · simp only [if_pos hrecursive]
      exact outcome_add _ _
    · simp only [if_neg hrecursive]
      cases sources.buffer path with
      | error reason => exact outcome_add _ _
      | ok buffered =>
        by_cases hmissing : (buffered.isNone && !sources.disk.isFile path) = true
        · simp only [if_pos hmissing]
          exact outcome_add _ _
        · simp only [if_neg hmissing]
          exact outcome_enter _ _ _

theorem outcome_perform (m : Machine ε) (file : String) (piece : Option Piece) :
    (m.perform sources rootFolder file piece).outcome sources rootFolder
      = m.done.andThen fun _ ↦
        (Expansion.ofPieces
          (sources.expandInclude rootFolder (maxDepth + 1 - m.frames.length) m.stack.reverse file)
            piece.toList).andThen
          fun _ ↦ remaining sources rootFolder m.frames := by
  match piece with
  | none => rfl
  | some (.token t) => exact outcome_add _ _
  | some (.fault e) => exact outcome_add _ _
  | some (.include target range) =>
    rw [perform, outcome_request, Option.toList_some, Expansion.ofPieces, Expansion.ofPieces,
      Expansion.andThen_empty]

theorem remaining_of_nil {frame : Frame} (h : frame.rest = []) (outer : List Frame) :
    remaining sources rootFolder (frame :: outer) = remaining sources rootFolder outer := by
  rw [remaining, h, lexemesFrom, piecesFrom, Expansion.ofPieces, Expansion.empty_andThen]

theorem remaining_of_cons {frame : Frame} {c : Char} {cs rest : List Char} {lexeme : Lexeme}
    (h : frame.rest = c :: cs) (hcut : cutLexeme frame.fresh c cs = (lexeme, rest))
    (outer : List Frame) :
    remaining sources rootFolder (frame :: outer)
      = (Expansion.ofPieces
          (sources.expandInclude rootFolder (maxDepth - outer.length)
            ((frame :: outer).map Frame.file).reverse frame.file)
          (pieceAt frame.file frame.position lexeme).toList).andThen
        fun _ ↦ remaining sources rootFolder (frame.past lexeme rest :: outer) := by
  rw [remaining, h, lexemesFrom, hcut, piecesFrom, Expansion.ofPieces_append,
    Expansion.andThen_assoc]
  rfl

/-- **A step does not change what a state stands for.** -/
theorem outcome_step {m next : Machine ε} (h : m.step sources rootFolder = some next) :
    next.outcome sources rootFolder = m.outcome sources rootFolder := by
  obtain ⟨frames, done⟩ := m
  cases frames with
  | nil => cases h
  | cons frame outer =>
    simp only [step] at h
    split at h
    · next hstop =>
      cases h
      rw [outcome, outcome, Expansion.andThen_of_isSome hstop, Expansion.andThen_of_isSome hstop]
    · split at h
      · next hrest =>
        cases h
        rw [outcome, outcome, remaining_of_nil hrest]
      · next c cs hrest =>
        cases h
        rw [outcome_perform, outcome, remaining_of_cons hrest rfl, List.length_cons,
          Nat.add_sub_add_right]
        rfl

theorem outcome_start (file : String) :
    (start sources file).outcome sources (Path.parent file) = sources.expandRoot file := by
  rw [start, outcome_enter, Expansion.empty_andThen, Sources.expandRoot_eq]
  exact Expansion.andThen_empty _

/-! ## What a step does to the stack -/

theorem frames_request (m : Machine ε) (file target : String) (range : Range) :
    (m.request sources rootFolder file target range).frames = m.frames ∨
      ∃ opened : Frame, opened.file ∉ m.stack ∧ m.frames.length ≤ maxDepth ∧
        (m.request sources rootFolder file target range).frames = opened :: m.frames := by
  rw [request]
  split
  · exact .inl rfl
  · next hroom =>
    dsimp only
    generalize sources.includePath rootFolder file target = path
    split
    · exact .inl rfl
    · next hrecursive =>
      split
      · exact .inl rfl
      · split
        · exact .inl rfl
        · rw [enter]
          split
          · exact .inl rfl
          · exact .inr ⟨{ file := path, rest := _ },
              fun hmem ↦ hrecursive (List.contains_iff_mem.mpr hmem), not_lt.mp hroom, rfl⟩

theorem frames_perform (m : Machine ε) (file : String) (piece : Option Piece) :
    (m.perform sources rootFolder file piece).frames = m.frames ∨
      ∃ opened : Frame, opened.file ∉ m.stack ∧ m.frames.length ≤ maxDepth ∧
        (m.perform sources rootFolder file piece).frames = opened :: m.frames := by
  match piece with
  | none | some (.token t) | some (.fault e) => exact .inl rfl
  | some (.include target range) => exact m.frames_request file target range

/-- A step leaves the innermost file, or goes on in it, and then it may put another file on the
stack, if there is room for it and it is not there. -/
theorem frames_step {m next : Machine ε} (h : m.step sources rootFolder = some next) :
    ∃ frame outer, m.frames = frame :: outer ∧ (next.frames = outer ∨
      ∃ past : Frame, past.file = frame.file ∧ past.rest.length < frame.rest.length ∧
        (next.frames = past :: outer ∨ ∃ opened : Frame, opened.file ∉ m.stack ∧
          outer.length < maxDepth ∧
          next.frames = opened :: past :: outer)) := by
  obtain ⟨frames, done⟩ := m
  cases frames with
  | nil => cases h
  | cons frame outer =>
    refine ⟨frame, outer, rfl, ?_⟩
    simp only [step] at h
    split at h
    · cases h
      exact .inl rfl
    · split at h
      · cases h
        exact .inl rfl
      · next c cs hrest =>
        cases h
        refine .inr ⟨frame.past (cutLexeme frame.fresh c cs).1 (cutLexeme frame.fresh c cs).2, rfl,
          ?_, frames_perform _ _ _⟩
        rw [hrest]
        exact Nat.lt_succ_of_le (cutLexeme_length frame.fresh c cs)

theorem step_eq_none_iff {m : Machine ε} : m.step sources rootFolder = none ↔ m.frames = [] := by
  obtain ⟨frames, done⟩ := m
  cases frames with
  | nil => exact iff_of_true rfl rfl
  | cons frame outer =>
    refine iff_of_false ?_ (List.cons_ne_nil _ _)
    simp only [step]
    split
    · exact Option.some_ne_none _
    · split <;> exact Option.some_ne_none _

/-! ## Runs -/

/-- One state comes after another one. -/
def Next (sources : Sources ε) (rootFolder : String) (m next : Machine ε) : Prop :=
  m.step sources rootFolder = some next

/-- The files of the stack are different, and there are no more of them than there is room for. -/
structure Sound (m : Machine ε) : Prop where
  nodup : m.stack.Nodup
  length_le : m.stack.length ≤ maxDepth + 1

theorem sound_start (file : String) : (start sources file).Sound := by
  have hstack : (start sources file).stack = [] ∨ (start sources file).stack = [file] := by
    rw [start, enter]
    split
    · exact .inl rfl
    · exact .inr rfl
  rcases hstack with hstack | hstack <;> constructor <;> rw [hstack]
  · exact List.nodup_nil
  · exact Nat.zero_le _
  · exact List.nodup_singleton file
  · exact Nat.le_add_left 1 maxDepth

theorem Sound.step {m next : Machine ε} (hsound : m.Sound) (h : Next sources rootFolder m next) :
    next.Sound := by
  obtain ⟨hnodup, hlength⟩ := hsound
  obtain ⟨frame, outer, hframes, hleft | ⟨past, hfile, -, hwent | ⟨opened, hnew, hroom, hput⟩⟩⟩ :=
    frames_step h
  · rw [stack, hframes] at hnodup hlength
    constructor <;> rw [stack, hleft]
    · exact (List.nodup_cons.mp hnodup).2
    · exact Nat.le_of_succ_le hlength
  · rw [stack, hframes, List.map_cons, ← hfile] at hnodup hlength
    constructor <;> rwa [stack, hwent]
  · rw [stack, hframes, List.map_cons, ← hfile] at hnodup hlength hnew
    constructor <;> rw [stack, hput, List.map_cons]
    · exact List.nodup_cons.mpr ⟨hnew, hnodup⟩
    · rw [List.length_cons, List.map_cons, List.length_cons, List.length_map]
      exact Nat.succ_le_succ hroom

theorem Sound.run {m final : Machine ε} (hsound : m.Sound)
    (h : Relation.ReflTransGen (Next sources rootFolder) m final) : final.Sound := by
  induction h with
  | refl => exact hsound
  | tail _ hstep ih => exact ih.step hstep

theorem outcome_run {m final : Machine ε}
    (h : Relation.ReflTransGen (Next sources rootFolder) m final) :
    final.outcome sources rootFolder = m.outcome sources rootFolder := by
  induction h with
  | refl => rfl
  | tail _ hstep ih => rw [outcome_step hstep, ih]

/-- Each run from a state comes to an end. -/
def Halts (sources : Sources ε) (rootFolder : String) (m : Machine ε) : Prop :=
  Acc (fun next m ↦ Next sources rootFolder m next) m

/-- What is put on a stack is read to its end, if the stack without it is. The induction is on the
room that is left, and within it on the length of the text: an include takes room away, and any
other lexeme shortens the text. -/
theorem halts_cons {outer : List Frame} (houter : ∀ done, Halts sources rootFolder ⟨outer, done⟩)
    (frame : Frame) (done : Expansion ε) : Halts sources rootFolder ⟨frame :: outer, done⟩ := by
  induction hroom : maxDepth - outer.length using Nat.strong_induction_on
      generalizing outer frame done with
  | _ room hinner =>
    induction hlength : frame.rest.length using Nat.strong_induction_on generalizing frame done with
    | _ length hbehind =>
      refine Acc.intro _ fun next hnext ↦ ?_
      obtain ⟨frames, done'⟩ := next
      obtain ⟨_, _, hframes, hframes'⟩ := frames_step hnext
      obtain ⟨rfl, rfl⟩ := List.cons.inj hframes
      obtain rfl | ⟨past, -, hshorter, rfl | ⟨opened, -, hdeep, rfl⟩⟩ := hframes'
      · exact houter done'
      · exact hbehind _ (hlength ▸ hshorter) past done' rfl
      · refine hinner _ ?_ (fun done ↦ hbehind _ (hlength ▸ hshorter) past done rfl)
          opened done' rfl
        rw [← hroom, List.length_cons]
        omega

theorem halts (sources : Sources ε) (rootFolder : String) (m : Machine ε) :
    Halts sources rootFolder m := by
  obtain ⟨frames, done⟩ := m
  induction frames generalizing done with
  | nil => exact Acc.intro _ fun next hnext ↦ nomatch hnext
  | cons frame outer ih => exact halts_cons ih frame done

theorem exists_final (sources : Sources ε) (rootFolder : String) (m : Machine ε) :
    ∃ final, Relation.ReflTransGen (Next sources rootFolder) m final ∧ final.frames = [] ∧
      final.done = m.outcome sources rootFolder := by
  have hfinal : ∃ final, Relation.ReflTransGen (Next sources rootFolder) m final ∧
      final.frames = [] := by
    induction halts sources rootFolder m with
    | intro m _ ih =>
      cases hstep : m.step sources rootFolder with
      | none => exact ⟨m, .refl, step_eq_none_iff.mp hstep⟩
      | some next =>
        obtain ⟨final, hrun, hframes⟩ := ih next hstep
        exact ⟨final, .head hstep hrun, hframes⟩
  obtain ⟨final, hrun, hframes⟩ := hfinal
  refine ⟨final, hrun, hframes, ?_⟩
  rw [← outcome_run hrun, outcome, hframes]
  exact (Expansion.andThen_empty _).symm

end Machine

end MissionIndex.Config
