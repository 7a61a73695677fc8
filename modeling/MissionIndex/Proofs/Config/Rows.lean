import MissionIndex.Config.Parse
import MissionIndex.Proofs.Config.Places
import MissionIndex.Proofs.Config.Rendering

/-!
# Rows of tokens put together

A file is a row of tokens, and a longer row can be put together from shorter ones. `statementsOf?`
is what a row says by itself, and `treeOf?` is the tree that comes of it, both apart from places. A
file with the tokens of a row gives its tree (`Sources.parse_of_expands`).

What a part of a row says does not depend on what stands around it. The reader keeps what it has
read before, and the bodies that it is in, without ever looking at them, except that a closing brace
needs a body to be closed. So a reader that goes through a part by itself is followed by one that
goes through the same part inside of open bodies (`Reader.Within`), and the statements of a row are
those of its parts (`statementsOf?_append`).
-/

namespace MissionIndex.Config

open Text

/-! ## Reading inside of open bodies -/

/-- Bodies that have been opened inside of others, of which `before` is what has been read in the
innermost one. -/
inductive Stacked (outer : List OpenBody) (before : List Statement) :
    List OpenBody → List Statement → List OpenBody → List Statement → Prop
  | bottom (ss : List Statement) : Stacked outer before [] ss outer (before ++ ss)
  | above {bodies bodies' : List OpenBody} {ss ss' : List Statement} (name : Name)
      (base : Option String)
      (body : List Statement) : Stacked outer before bodies ss bodies' ss' →
      Stacked outer before (⟨ss, name, base⟩ :: bodies) body (⟨ss', name, base⟩ :: bodies') body

theorem Stacked.add {outer bodies bodies' : List OpenBody} {before ss ss' : List Statement}
    (h : Stacked outer before bodies ss bodies' ss') (s : Statement) :
    Stacked outer before bodies (ss ++ [s]) bodies' (ss' ++ [s]) := by
  cases h with
  | bottom ss =>
    rw [List.append_assoc]
    exact .bottom (ss ++ [s])
  | above name base _ h => exact .above name base _ h

namespace Reader

/-- A reader has read the same as another, inside of open bodies. -/
structure Within (outer : List OpenBody) (before : List Statement) (r r' : Reader) : Prop where
  stacked : Stacked outer before r.outer r.statements r'.outer r'.statements
  awaiting : r'.awaiting = r.awaiting

/-- A step that moves one reader on moves the other one on as well. -/
def Follows (outer : List OpenBody) (before : List Statement) :
    Except Cause Reader → Except Cause Reader → Prop
  | .ok next, .ok next' => Within outer before next next'
  | .ok _, .error _ => False
  | .error _, _ => True

namespace Within

variable {outer : List OpenBody} {before : List Statement} {r r' : Reader}

theorem await (h : Within outer before r r') (a : Awaiting) :
    Within outer before { r with awaiting := a } { r' with awaiting := a } := ⟨h.stacked, rfl⟩

theorem add (h : Within outer before r r') (s : Statement) :
    Within outer before (r.add s) (r'.add s) :=
  ⟨h.stacked.add s, rfl⟩

theorem enter (h : Within outer before r r') (name : Name) (base : Option String) :
    Within outer before (r.enter name base) (r'.enter name base) :=
      ⟨.above name base [] h.stacked, rfl⟩

theorem closeList (h : Within outer before r r') (target : ListTarget) (lists : List (List Value))
    (items : List Value) :
    Within outer before (r.closeList target lists items) (r'.closeList target lists items) := by
  cases lists <;> exact h.await _

theorem stepStatement (h : Within outer before r r') (t : Token) :
    Follows outer before (r.stepStatement t) (r'.stepStatement t) := by
  obtain ⟨bodies, ss, awaiting⟩ := r
  obtain ⟨bodies', ss', awaiting'⟩ := r'
  obtain ⟨_ | _ | m, text, location⟩ := t
  · simp only [Reader.stepStatement]
    split
    · exact h.await _
    · split <;> exact h.await _
  · trivial
  · cases m with
    | closeBrace =>
      obtain ⟨hstacked, -⟩ := h
      cases hstacked with
      | bottom => trivial
      | above name base body hstacked => exact ⟨hstacked, rfl⟩
    | semicolon => exact h
    | _ => trivial

theorem stepItem (h : Within outer before r r') (target : ListTarget) (lists : List (List Value))
    (items : List Value) (t : Token) :
    Follows outer before (r.stepItem target lists items t) (r'.stepItem target lists items t) := by
  obtain ⟨_ | _ | m, text, location⟩ := t
  case mark =>
    cases m with
    | closeBrace => exact h.closeList target lists items
    | openBrace | colon | plusEquals => exact h.await _
    | _ => trivial
  all_goals exact h.await _

theorem stepItemPart (h : Within outer before r r') (target : ListTarget)
    (lists : List (List Value)) (items : List Value) (parts : List Token) (t : Token) :
    Follows outer before (r.stepItemPart target lists items parts t)
      (r'.stepItemPart target lists items parts t) := by
  obtain ⟨_ | _ | m, text, location⟩ := t
  case mark =>
    cases m with
    | closeBrace => exact h.closeList target lists _
    | comma | colon | plusEquals => exact h.await _
    | _ => trivial
  all_goals exact h.await _

theorem stepValue (h : Within outer before r r') (name : String) (parts : List Token) (t : Token) :
    Follows outer before (r.stepValue name parts t) (r'.stepValue name parts t) := by
  obtain ⟨_ | _ | m, text, location⟩ := t
  case mark =>
    cases m with
    | semicolon =>
      simp only [Reader.stepValue]
      split
      · trivial
      · exact h.add _
    | colon | comma | equals | plusEquals => exact h.await _
    | _ => trivial
  all_goals exact h.await _

theorem step (h : Within outer before r r') (t : Token) :
    Follows outer before (r.step t) (r'.step t) := by
  obtain ⟨bodies, ss, awaiting⟩ := r
  obtain ⟨bodies', ss', awaiting'⟩ := r'
  obtain rfl : awaiting = awaiting' := h.awaiting.symm
  cases awaiting
  case statement => exact h.stepStatement t
  case item target lists items => exact h.stepItem target lists items t
  case itemPart target lists items parts => exact h.stepItemPart target lists items parts t
  case value name parts => exact h.stepValue name parts t
  all_goals
    obtain ⟨_ | _ | m, text, location⟩ := t
    · first | trivial | exact h.await _
    · trivial
  case classHead name =>
    cases m with
    | colon => exact h.await _
    | semicolon => exact h.add _
    | openBrace => exact h.enter name none
    | _ => trivial
  case classBody name base =>
    cases m with
    | semicolon => exact h.add _
    | openBrace => exact h.enter name base
    | _ => trivial
  case classEnd done =>
    cases m with
    | semicolon => exact h.add done
    | _ => trivial
  case deleteEnd name =>
    cases m with
    | semicolon => exact h.add _
    | _ => trivial
  case separator target lists items =>
    cases m with
    | comma => exact h.await _
    | closeBrace => exact h.closeList target lists items
    | _ => trivial
  case listEnd target items =>
    cases m with
    | semicolon => exact h.add _
    | _ => trivial
  all_goals cases m <;> first | trivial | exact h.await _

theorem run (h : Within outer before r r') {ts : List Token} {next : Reader}
    (hrun : r.run ts = .ok next) :
    ∃ next', r'.run ts = .ok next' ∧ Within outer before next next' := by
  induction ts generalizing r r' with
  | nil =>
    obtain rfl := Except.ok.inj hrun
    exact ⟨r', rfl, h⟩
  | cons t rest ih =>
    have hfollows := h.step t
    rw [Reader.run] at hrun ⊢
    cases hstep : r.step t with
    | error cause =>
      rw [hstep] at hrun
      cases hrun
    | ok first =>
      rw [hstep] at hrun hfollows
      cases hstep' : r'.step t with
      | error cause =>
        rw [hstep'] at hfollows
        exact hfollows.elim
      | ok first' =>
        rw [hstep'] at hfollows
        exact ih hfollows hrun

end Within

end Reader

/-! ## What a row says -/

def statementsOf? (row : List Token) : Option (List Statement) :=
  (readStatements "" (row.map Token.unplaced)).toOption

def treeOf? (row : List Token) : Option ConfigClass := (statementsOf? row).map (rootClass "")

def classOf? (row : List Token) (name : String) : Option ConfigClass :=
  (treeOf? row).bind (·.child? name)

section Rows

variable {row row' : List Token} {ss ss' : List Statement}

theorem readStatements_eq_ok_iff {file : String} {ts : List Token} :
    readStatements file ts = .ok ss ↔ ({} : Reader).run ts = .ok ⟨[], ss, .statement⟩ := by
  rw [readStatements]
  cases ({} : Reader).run ts with
  | error e => simp
  | ok r =>
    dsimp only
    constructor
    · intro h
      cases hfinish : r.finish with
      | error cause =>
        rw [hfinish] at h
        cases h
      | ok found =>
        rw [hfinish] at h
        obtain ⟨outer, statements, awaiting⟩ := r
        obtain ⟨rfl, rfl⟩ := Reader.eq_of_finish hfinish
        cases hfinish
        cases h
        rfl
    · intro h
      rw [Except.ok.inj h]
      rfl

theorem statementsOf?_eq_some_iff :
    statementsOf? row = some ss ↔ ({} : Reader).run (row.map Token.unplaced)
      = .ok ⟨[], ss, .statement⟩ := by
  rw [← readStatements_eq_ok_iff, statementsOf?]
  cases readStatements "" (row.map Token.unplaced) with
  | error e => simp [Except.toOption]
  | ok statements => simp [Except.toOption]

theorem run_of_statementsOf? (h : statementsOf? row = some ss) (outer : List OpenBody)
    (before : List Statement) :
    Reader.run ⟨outer, before, .statement⟩ (row.map Token.unplaced)
      = .ok ⟨outer, before ++ ss, .statement⟩ := by
  have hstart : Reader.Within outer before {} ⟨outer, before, .statement⟩ := by
    refine ⟨?_, rfl⟩
    have hbottom : Stacked outer before [] [] outer (before ++ []) := .bottom []
    rwa [List.append_nil] at hbottom
  obtain ⟨⟨outer', statements', awaiting'⟩, hrun, hstacked, hawaiting⟩ :=
    hstart.run (statementsOf?_eq_some_iff.mp h)
  rw [hrun]
  cases hstacked
  dsimp only at hawaiting
  rw [hawaiting]
  rfl

theorem statementsOf?_append (h : statementsOf? row = some ss)
    (h' : statementsOf? row' = some ss') :
    statementsOf? (row ++ row') = some (ss ++ ss') := by
  rw [statementsOf?_eq_some_iff, List.map_append,
    Reader.run_append _ (statementsOf?_eq_some_iff.mp h)]
  exact run_of_statementsOf? h' [] ss

theorem isSome_statementsOf?_append (h : statementsOf? row = some ss) (rest : List Token) :
    (statementsOf? (row ++ rest)).isSome = (statementsOf? rest).isSome := by
  rw [Bool.eq_iff_iff, Option.isSome_iff_exists, Option.isSome_iff_exists]
  constructor
  · rintro ⟨all, hall⟩
    rw [statementsOf?_eq_some_iff, List.map_append,
      Reader.run_append _ (statementsOf?_eq_some_iff.mp h)] at hall
    -- At the start of a statement outside of all bodies, the rules demand a body, whatever has been
    -- read.
    have hend : Reader.finish ⟨[], all, .statement⟩ = .ok all := rfl
    obtain ⟨_, ys, rfl, hrest, hsplit⟩ := completes_of_run hall (completes_nil_of_finish hend)
    rw [List.append_nil, List.nil_append] at hsplit
    rw [← hsplit] at hrest
    obtain ⟨found, hfound⟩ := readStatements_of_derives hrest ""
    exact ⟨found, by rw [statementsOf?, hfound, Except.toOption]⟩
  · rintro ⟨found, hfound⟩
    exact ⟨ss ++ found, statementsOf?_append h hfound⟩

theorem treeOf?_eq_of_statementsOf? (h : statementsOf? row = some ss) :
    treeOf? row = some (Statement.effectAll [] { name := "", location := default } ss) := by
  rw [treeOf?, h, Option.map_some, rootClass_eq]
  rfl

end Rows

/-! ## Declarations and definitions -/

def declaration (name : String) (base : Option String) : List Token :=
  headSigns ⟨name, default⟩ base ++ [markSign .semicolon]

/-- A definition of a class as a row of tokens, around the row of its body. -/
def definition (name : String) (base : Option String) (body : List Token) : List Token :=
  headSigns ⟨name, default⟩ base ++ markSign .openBrace ::
  (body ++ [markSign .closeBrace, markSign .semicolon])

theorem map_unplaced_headSigns (name : Name) (base : Option String) :
    (headSigns name base).map Token.unplaced = headSigns name base := by
  cases base <;> rfl

theorem statementsOf?_declaration (name : String) (base : Option String) :
    statementsOf? (declaration name base) = some [.declare ⟨name, default⟩ base] := by
  rw [statementsOf?_eq_some_iff]
  cases base <;> rfl

theorem statementsOf?_definition {body : List Token} {ss : List Statement}
    (h : statementsOf? body = some ss) (name : String) (base : Option String) :
    statementsOf? (definition name base body) = some [.define ⟨name, default⟩ base ss] := by
  rw [statementsOf?_eq_some_iff, definition, List.map_append, map_unplaced_headSigns, List.map_cons,
    List.map_append]
  let rest := body.map Token.unplaced ++ [markSign .closeBrace, markSign .semicolon]
  have hopen : Reader.run {} (headSigns ⟨name, default⟩ base ++ markSign .openBrace :: rest)
      = Reader.run ⟨[⟨[], ⟨name, default⟩, base⟩], [], .statement⟩ rest :=
        (Reader.run_headSigns _ base rest).2
  refine hopen.trans ?_
  rw [Reader.run_append _ (run_of_statementsOf? h _ [])]
  rfl

/-! ## Files -/

namespace Sources

variable {ε : Type} (sources : Sources ε)

/-- The file at a path has the tokens of a row, in any places: by itself, or with the files that it
includes. -/
def Expands (path : String) (row : List Token) : Prop :=
  (sources.expandRoot (sources.disk.absolute path)).stop = none ∧
    (sources.expandRoot (sources.disk.absolute path)).tokens.map Token.unplaced
    = row.map Token.unplaced

/-- **A file with the tokens of a row gives the tree of the row**, apart from places. -/
theorem parse_of_expands {path : String} {row : List Token} (h : sources.Expands path row) :
    (sources.parse path).result.toOption.map ConfigClass.unplaced = treeOf? row := by
  obtain ⟨hstop, htokens⟩ := h
  rw [treeOf?, statementsOf?, ← htokens, readStatements_unplaced (sources.disk.absolute path)]
  simp only [parse, hstop]
  cases readStatements (sources.disk.absolute path)
      (sources.expandRoot (sources.disk.absolute path)).tokens with
  | error e => rfl
  | ok statements =>
    simp only [relabelStatements, Except.toOption, Option.map_some]
    rw [unplaced_rootClass, rootClass_eq]
    rfl

theorem exists_tree_of_expands {path : String} {row : List Token} (h : sources.Expands path row)
    {c : ConfigClass} (hrow : treeOf? row = some c) :
    ∃ tree, (sources.parse path).result = .ok tree ∧ tree.unplaced = c := by
  rw [← sources.parse_of_expands h] at hrow
  obtain ⟨tree, htree, hc⟩ := Option.map_eq_some_iff.mp hrow
  refine ⟨tree, ?_, hc⟩
  cases hresult : (sources.parse path).result with
  | error stop =>
    rw [hresult] at htree
    cases htree
  | ok found =>
    rw [hresult] at htree
    rw [Option.some.inj htree]

end Sources

end MissionIndex.Config
