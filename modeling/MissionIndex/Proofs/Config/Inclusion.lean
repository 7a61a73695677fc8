import MissionIndex.Proofs.Config.Locality
import MissionIndex.Proofs.Config.Provenance
import MissionIndex.Proofs.Config.Splicing
import MissionIndex.Proofs.Path.Normal

/-!
# Including is inserting

A root file and the files that it includes, directly or through others, form a tree. Inserting the
text of each file where it is included gives one text without includes, and what is parsed from that
text is what is parsed from the files, apart from places.

## What is inserted

An included file comes without the byte order marks in front of it, and a line feed is put after it.
The line feed is needed: the file may end in a line comment, or in a directive that would go on
otherwise, and what comes after the include directive starts at the end of a line in any case. It is
also enough, since the next line is then empty up to that end (`BeforeEmptyLine`), which is as far
as a directive at the end of the file can reach.
-/

namespace MissionIndex.Config

open Text

/-! ## The tree of inclusions -/

/-- What a file consists of, with the files included in it. -/
inductive Content where
  | nil
  | text (raw : List Char) (rest : Content)
  /-- An included file and what it consists of. -/
  | file (path : String) (inner rest : Content)
deriving Repr

namespace Content

/-- The included files, each before those included in it. -/
def files : Content → List String
  | nil => []
  | text _ rest => rest.files
  | file path inner rest => path :: (inner.files ++ rest.files)

/-- The text with the text of each included file in its place. -/
def flatten : Content → List Char
  | nil => []
  | text raw rest => raw ++ rest.flatten
  | file _ inner rest => dropMarks inner.flatten ++ '\n' :: rest.flatten

end Content

/-- The file that a lexeme asks to include. -/
def Lexeme.target? : Lexeme → Option String
  | .directive _ line => if includeWord.isPrefixOf (trim line)
    then includeTarget? (trim line) else none
  | _ => none

/-- What a row of lexemes consists of, where `grow` gives the file for an include and what it
consists of. -/
def contentOf? (grow : String → Option (String × Content)) : List Lexeme → Option Content
  | [] => some .nil
  | lexeme :: rest =>
    match lexeme.target? with
    | none => (contentOf? grow rest).map (.text lexeme.raw)
    | some target =>
      (grow target).bind fun (path, inner) ↦ (contentOf? grow rest).map (.file path inner)

namespace Sources

variable {ε : Type} (sources : Sources ε)

def text? (path : String) : Option (List Char) := (sources.textOf path default).toOption

/-- What a file consists of, if its inclusions are less than `room` levels deep and all of them name
files. -/
def contentWithin? (rootFolder : String) : Nat → String → Option Content
  | 0, _ => none
  | room + 1, path =>
    (sources.text? path).bind fun text ↦
      let grow target :=
        let included := sources.includePath rootFolder path target
        (contentWithin? rootFolder room included).map (included, ·)
      (contentOf? grow (lexemes (dropMarks text))).map (.text (text.takeWhile (· == byteOrderMark)))

/-- What a root file consists of. -/
def content? (path : String) : Option Content :=
  let file := sources.disk.absolute path
  sources.contentWithin? (Path.parent file) (maxDepth + 1) file

end Sources

/-! ## Texts and tokens -/

section

variable {ε : Type}

/-- In front of the end of a line before an empty one, a text amounts to the tokens of an
expansion. -/
def Expansion.Spells (e : Expansion ε) (fresh : Bool) (text : List Char) : Prop :=
  ∀ tail, BeforeEmptyLine tail →
    signsFrom? fresh (text ++ tail) = (signsFrom? true tail).map (e.tokens.map Token.unplaced ++ ·)

theorem pieceAt_cases (file : String) (p : Position) (lexeme : Lexeme) :
    (∃ target range, lexeme.target? = some target ∧
      pieceAt file p lexeme = some (.include target range) ∧
        ∃ raw line, lexeme = .directive raw line) ∨
      (lexeme.target? = none ∧ ∃ ts : List Token, (pieceAt file p lexeme).toList
        = ts.map Piece.token ∧
        lexeme.signs? = some (ts.map Token.unplaced)) ∨
      (lexeme.signs? = none ∧ ∃ e, pieceAt file p lexeme = some (.fault e)) := by
  cases lexeme with
  | blank c | comment raw => exact .inr (.inl ⟨rfl, [], rfl, rfl⟩)
  | word raw | quoted raw value | mark m => exact .inr (.inl ⟨rfl, [_], rfl, rfl⟩)
  | openComment raw | openQuote raw => exact .inr (.inr ⟨rfl, _, rfl⟩)
  | directive raw line =>
    simp only [pieceAt, Lexeme.target?, Lexeme.signs?]
    split
    · split
      · next target htarget => exact .inl ⟨target, _, htarget, rfl, raw, line, rfl⟩
      · exact .inr (.inr ⟨rfl, _, rfl⟩)
    · exact .inr (.inl ⟨rfl, [], rfl, rfl⟩)

theorem Expansion.ofPieces_tokens (enter : String → Range → Expansion ε) (ts : List Token)
    (ps : List Piece) :
    ofPieces enter (ts.map Piece.token ++ ps)
      = { ofPieces enter ps with tokens := ts ++ (ofPieces enter ps).tokens } := by
  induction ts with
  | nil => rfl
  | cons t ts ih =>
    rw [List.map_cons, List.cons_append, ofPieces, ih]
    rfl

/-- A text that amounts to tokens expands to them. -/
theorem exists_tokens_of_signsOf? (enter : String → Range → Expansion ε) (file : String)
    (p : Position) {ls : List Lexeme} {signs : List Token} (h : signsOf? ls = some signs) :
    ∃ ts : List Token, Expansion.ofPieces enter (piecesFrom file p ls) = { tokens := ts } ∧
      ts.map Token.unplaced = signs := by
  induction ls generalizing p signs with
  | nil =>
    cases h
    exact ⟨[], rfl, rfl⟩
  | cons lexeme rest ih =>
    obtain ⟨first, hfirst, h⟩ := Option.bind_eq_some_iff.mp h
    obtain ⟨more, hmore, rfl⟩ := Option.map_eq_some_iff.mp h
    obtain ⟨ts, hts, rfl⟩ := ih (p.advance lexeme.raw) hmore
    rcases pieceAt_cases file p lexeme with ⟨_, _, htarget, -, raw, line, rfl⟩ | ⟨-, ts', hpiece,
      hsigns⟩ | ⟨hsigns, -⟩
    · simp only [Lexeme.target?, Lexeme.signs?] at htarget hfirst
      split at hfirst
      · cases hfirst
      · next hline =>
        rw [if_neg hline] at htarget
        cases htarget
    · rw [hsigns] at hfirst
      cases hfirst
      refine ⟨ts' ++ ts, ?_, List.map_append⟩
      rw [piecesFrom, hpiece, Expansion.ofPieces_tokens, hts]
    · rw [hsigns] at hfirst
      cases hfirst

/-- A row of lexemes and what it consists of look the same from in front of it, unless only blanks
stand on the line before it. -/
theorem sameStart_flatten {grow : String → Option (String × Content)} {text : List Char}
    {content : Content} (hcontent : contentOf? grow (lexemesFrom false text) = some content)
    {tail : List Char} (htail : BeforeEmptyLine tail) :
    SameStart text (content.flatten ++ tail) ∧
      (endsWord text = true → endsWord (content.flatten ++ tail) = true) := by
  cases text with
  | nil =>
    rw [lexemesFrom] at hcontent
    cases hcontent
    exact ⟨.inr ⟨rfl, htail⟩, fun _ ↦ endsWord_of_atLineEnd htail.atLineEnd⟩
  | cons c cs =>
    cases hcut : cutLexeme false c cs with | mk lexeme rest =>
    obtain ⟨front, hraw, -⟩ := exists_front_of_cutLexeme hcut
    have htarget : lexeme.target? = none := by
      cases lexeme with
      | directive raw line => cases (fresh_of_cutLexeme hcut).1
      | _ => rfl
    rw [lexemesFrom, hcut, contentOf?, htarget] at hcontent
    obtain ⟨rest', -, rfl⟩ := Option.map_eq_some_iff.mp hcontent
    rw [Content.flatten, List.append_assoc]
    refine ⟨.inl ?_, fun hend ↦ endsWord_cutLexeme hcut hend _⟩
    rw [hraw]
    rfl

theorem Expansion.Spells.include {e e' : Expansion ε} {text text' : List Char}
    (h : e.Spells true text) (hstop : (e.andThen fun _ ↦ e').stop = none)
    (h' : e'.Spells false text') (hline : ∀ tail, BeforeEmptyLine tail →
      AtLineEnd (text' ++ tail)) :
    (e.andThen fun _ ↦ e').Spells true (text ++ '\n' :: text') := by
  intro tail htail
  obtain ⟨-, -, -, htokens⟩ := Expansion.andThen_of_stop_eq_none hstop
  have hline := hline tail htail
  have hempty : BeforeEmptyLine ('\n' :: (text' ++ tail)) := ⟨rfl, hline⟩
  rw [List.append_assoc, List.cons_append, h _ hempty, signsFrom?_blank (by decide)]
  have hfresh := signsFrom?_atLineEnd hline (decide ('\n' = '\n') || true) false
  rw [hfresh, h' tail htail, htokens, Option.map_map]
  simp only [List.map_append, List.append_assoc]
  rfl

/-- **Lexemes and what they consist of amount to the same**, if the includes among them and what
these consist of do. -/
theorem exists_contentOf? {enter : String → Range → Expansion ε}
    {grow : String → Option (String × Content)}
    (henter : ∀ target range, (enter target range).stop = none → ∃ path inner,
      grow target = some (path, inner) ∧ (enter target range).opened = path :: inner.files ∧
        (enter target range).Spells true (dropMarks inner.flatten))
    (file : String) (p : Position) (fresh : Bool) (text : List Char)
    (hstop : (Expansion.ofPieces enter (piecesFrom file p (lexemesFrom fresh text))).stop = none) :
    ∃ content, contentOf? grow (lexemesFrom fresh text) = some content ∧
      (Expansion.ofPieces enter (piecesFrom file p (lexemesFrom fresh text))).opened
        = content.files ∧
        (Expansion.ofPieces enter (piecesFrom file p (lexemesFrom fresh text))).Spells fresh
          content.flatten := by
  fun_induction lexemesFrom fresh text generalizing p with
  | case1 fresh =>
    refine ⟨.nil, rfl, rfl, fun tail htail ↦ ?_⟩
    rw [Content.flatten, List.nil_append, signsFrom?_atLineEnd htail.atLineEnd fresh true]
    exact Option.map_id'.symm
  | case2 fresh c cs ih =>
    cases hcut : cutLexeme fresh c cs with | mk lexeme rest =>
    rw [hcut] at ih hstop
    dsimp only at ih hstop ⊢
    rcases pieceAt_cases file p lexeme with ⟨target, range, htarget, hpiece, raw, line, rfl⟩ |
      ⟨htarget, ts, hpiece, hsigns⟩ | ⟨-, e, hpiece⟩
    · obtain ⟨rfl, hline⟩ := fresh_of_cutLexeme hcut
      have hpieces : piecesFrom file p (Lexeme.directive raw line :: lexemesFrom false rest)
          = .include target range ::
            piecesFrom file (p.advance raw) (lexemesFrom false rest) := by
        rw [piecesFrom, hpiece]
        rfl
      have hfalse : Lexeme.staysFresh true (.directive raw line) = false := rfl
      rw [hfalse] at hstop ih ⊢
      rw [hpieces] at hstop ⊢
      obtain ⟨hfirst, hrest, hopened, -⟩ := Expansion.andThen_of_stop_eq_none hstop
      obtain ⟨path, inner, hgrow, hinner, hspells⟩ := henter target range hfirst
      obtain ⟨content, hcontent, hcontentOpened, hcontentSpells⟩ := ih _ hrest
      refine ⟨.file path inner content, ?_, ?_, ?_⟩
      · rw [contentOf?, htarget]
        simp only [hgrow, hcontent, Option.bind_some, Option.map_some]
      · exact hopened.trans (by rw [hinner, hcontentOpened]; rfl)
      · exact hspells.include hstop hcontentSpells fun tail htail ↦
          (sameStart_flatten hcontent htail).1.atLineEnd hline
    · rw [piecesFrom, hpiece, Expansion.ofPieces_tokens] at hstop ⊢
      obtain ⟨content, hcontent, hcontentOpened, hcontentSpells⟩ := ih _ hstop
      refine ⟨.text lexeme.raw content, ?_, hcontentOpened, fun tail htail ↦ ?_⟩
      · rw [contentOf?, htarget]
        simp only [hcontent, Option.map_some]
      · rw [Content.flatten, List.append_assoc]
        -- Behind anything but a blank there is no include on the line, so what follows starts as it
        -- did.
        have hstart : isBlank c = false → SameStart rest (content.flatten ++ tail) ∧
            (endsWord rest = true → endsWord (content.flatten ++ tail) = true) := by
          intro hblank
          rw [staysFresh_of_cutLexeme hcut hblank] at hcontent
          exact sameStart_flatten hcontent htail
        rw [signsFrom?_splice hcut hsigns (fun hblank ↦ (hstart hblank).1) fun hblank ↦
          (hstart hblank).2, hcontentSpells tail htail, Option.map_map]
        simp only [List.map_append, List.append_assoc]
        rfl
    · rw [piecesFrom, hpiece] at hstop
      cases hstop

/-! ## Byte order marks -/

theorem dropMarks_of_head? {cs : List Char} (h : cs.head? ≠ some byteOrderMark) :
    dropMarks cs = cs := by
  cases cs with
  | nil => rfl
  | cons c cs => exact List.dropWhile_cons_of_neg fun hc ↦ h (congrArg some (beq_iff_eq.mp hc))

theorem head?_dropMarks (cs : List Char) : (dropMarks cs).head? ≠ some byteOrderMark := by
  intro h
  have hnot := List.head?_dropWhile_not (· == byteOrderMark) cs
  rw [dropMarks] at h
  rw [h] at hnot
  exact absurd hnot (by decide)

/-- What a text without byte order marks in front of it consists of has none either. -/
theorem head?_flatten {grow : String → Option (String × Content)} {fresh : Bool} {text : List Char}
    (htext : text.head? ≠ some byteOrderMark) {content : Content}
    (hcontent : contentOf? grow (lexemesFrom fresh text) = some content) :
    content.flatten.head? ≠ some byteOrderMark := by
  cases text with
  | nil =>
    rw [lexemesFrom] at hcontent
    cases hcontent
    rintro ⟨⟩
  | cons c cs =>
    cases hcut : cutLexeme fresh c cs with | mk lexeme rest =>
    obtain ⟨front, hraw, -⟩ := exists_front_of_cutLexeme hcut
    rw [lexemesFrom, hcut, contentOf?] at hcontent
    split at hcontent
    · obtain ⟨content, -, rfl⟩ := Option.map_eq_some_iff.mp hcontent
      rw [Content.flatten, hraw]
      exact htext
    · obtain ⟨⟨path, inner⟩, -, hcontent⟩ := Option.bind_eq_some_iff.mp hcontent
      obtain ⟨content, -, rfl⟩ := Option.map_eq_some_iff.mp hcontent
      rw [Content.flatten]
      have hinner := head?_dropMarks inner.flatten
      cases hdrop : dropMarks inner.flatten with
      | nil =>
        have hlf : some '\n' ≠ some byteOrderMark := by decide
        exact hlf
      | cons d ds =>
        rw [hdrop] at hinner
        exact hinner

theorem dropMarks_flatten_text {text : List Char} {content : Content}
    (h : content.flatten.head? ≠ some byteOrderMark) :
    dropMarks (Content.text (text.takeWhile (· == byteOrderMark)) content).flatten
      = content.flatten := by
  have hmarks : ∀ c ∈ text.takeWhile (· == byteOrderMark), (c == byteOrderMark) = true :=
    fun c hc ↦ List.mem_takeWhile_imp (p := (· == byteOrderMark)) hc
  rw [Content.flatten, dropMarks, List.dropWhile_append_of_pos hmarks]
  exact dropMarks_of_head? h

/-! ## Files -/

namespace Sources

variable (sources : Sources ε)

theorem textOf_eq_ok {path : String} {blame blame' : Location} {text : List Char}
    (h : sources.textOf path blame = .ok text) : sources.textOf path blame' = .ok text := by
  rw [textOf] at h ⊢
  split at h
  · cases h
  · exact h
  · cases hread : sources.disk.readText path with
    | ok text' =>
      rw [hread] at h
      exact h
    | error why =>
      rw [hread] at h
      cases h

theorem openFile_of_stop_eq_none {enter : String → Range → Expansion ε} {path : String}
    {blame : Location} (hstop : (sources.openFile enter path blame).stop = none) :
    ∃ text, sources.text? path = some text ∧
    (Expansion.ofPieces enter (pieces path text)).stop = none ∧
      (sources.openFile enter path blame).opened
        = path :: (Expansion.ofPieces enter (pieces path text)).opened ∧
      (sources.openFile enter path blame).tokens
        = (Expansion.ofPieces enter (pieces path text)).tokens := by
  rw [openFile] at hstop ⊢
  cases htext : sources.textOf path blame with
  | error stop =>
    rw [htext] at hstop
    cases hstop
  | ok text =>
    simp only [htext] at hstop ⊢
    obtain ⟨-, hpieces, hopened, htokens⟩ := Expansion.andThen_of_stop_eq_none hstop
    refine ⟨text, ?_, hpieces, hopened, htokens⟩
    rw [text?, sources.textOf_eq_ok htext]
    rfl

/-- **A file that opens without a stop has contents that amount to the same.** -/
theorem exists_content_of_openFile {enter : String → Range → Expansion ε} {rootFolder path : String}
    {room : Nat} (henter : ∀ target range, (enter target range).stop = none → ∃ content,
      sources.contentWithin? rootFolder room (sources.includePath rootFolder path target)
        = some content ∧
        (enter target range).opened = sources.includePath rootFolder path target :: content.files ∧
        (enter target range).Spells true (dropMarks content.flatten))
    {blame : Location} (hstop : (sources.openFile enter path blame).stop = none) :
    ∃ content, sources.contentWithin? rootFolder (room + 1) path = some content ∧
      (sources.openFile enter path blame).opened = path :: content.files ∧
      (sources.openFile enter path blame).Spells true (dropMarks content.flatten) := by
  obtain ⟨text, htext, hpieces, hopened, htokens⟩ := sources.openFile_of_stop_eq_none hstop
  let grow (target : String) : Option (String × Content) :=
    (sources.contentWithin? rootFolder room (sources.includePath rootFolder path target)).map
      (sources.includePath rootFolder path target, ·)
  have hgrow : ∀ target range, (enter target range).stop = none → ∃ path inner,
      grow target = some (path, inner) ∧ (enter target range).opened = path :: inner.files ∧
        (enter target range).Spells true (dropMarks inner.flatten) := by
    intro target range hrange
    obtain ⟨content, hcontent, hrest⟩ := henter target range hrange
    exact ⟨_, content, by simp only [grow, hcontent, Option.map_some], hrest⟩
  obtain ⟨content, hcontent, hfiles, hspells⟩ :=
    exists_contentOf? hgrow path .zero true (dropMarks text) hpieces
  refine ⟨.text (text.takeWhile (· == byteOrderMark)) content, ?_, ?_, fun tail htail ↦ ?_⟩
  · rw [contentWithin?, htext]
    exact congrArg (Option.map _) hcontent
  · rw [hopened]
    exact congrArg (path :: ·) hfiles
  · rw [dropMarks_flatten_text (head?_flatten (head?_dropMarks text) hcontent), htokens]
    exact hspells tail htail

theorem expandInclude_of_stop_eq_none {rootFolder : String} {room : Nat} {within : List String}
    {file target : String} {range : Range}
    (hstop : (sources.expandInclude rootFolder (room + 1) within file target range).stop = none) :
    sources.expandInclude rootFolder (room + 1) within file target range
      = sources.openFile (sources.expandInclude rootFolder room
          (within ++ [sources.includePath rootFolder file target])
            (sources.includePath rootFolder file target))
        (sources.includePath rootFolder file target) ⟨file, range⟩ := by
  rw [expandInclude] at hstop ⊢
  generalize sources.includePath rootFolder file target = path at hstop ⊢
  split at hstop
  · cases hstop
  · next hwithin =>
    rw [if_neg hwithin]
    split at hstop
    · cases hstop
    · split at hstop
      · cases hstop
      · next hmissing => rw [if_neg hmissing]

theorem exists_content_of_expandInclude (rootFolder : String) (room : Nat) (within : List String)
    (file target : String) (range : Range)
    (hstop : (sources.expandInclude rootFolder room within file target range).stop = none) :
    ∃ content,
      sources.contentWithin? rootFolder room (sources.includePath rootFolder file target)
        = some content ∧
        (sources.expandInclude rootFolder room within file target range).opened
          = sources.includePath rootFolder file target :: content.files ∧
        (sources.expandInclude rootFolder room within file target range).Spells true
          (dropMarks content.flatten) := by
  induction room generalizing within file target range with
  | zero => cases hstop
  | succ room ih =>
    have hexpand := sources.expandInclude_of_stop_eq_none hstop
    rw [hexpand] at hstop ⊢
    exact sources.exists_content_of_openFile (fun target range ↦ ih _ _ target range) hstop

theorem exists_content_of_expandRoot {path : String}
    (hstop : (sources.expandRoot (sources.disk.absolute path)).stop = none) :
    ∃ content, sources.content? path = some content ∧
      (sources.expandRoot (sources.disk.absolute path)).opened = sources.disk.absolute path ::
        content.files ∧
      (sources.expandRoot (sources.disk.absolute path)).Spells true
        (dropMarks content.flatten) := by
  rw [expandRoot_eq] at hstop ⊢
  exact sources.exists_content_of_openFile
    (fun target range ↦ sources.exists_content_of_expandInclude _ _ _ _ target range) hstop

/-- A root file without includes, given by its text, expands to the tokens in it. -/
theorem exists_tokens_of_withText (path : String)
    (hdisk : Path.isRooted sources.disk.workingDirectory = true) {text : List Char}
    {signs : List Token} (h : signsFrom? true (dropMarks text) = some signs) :
    ∃ ts, (sources.withText path text).expandRoot (sources.disk.absolute path)
        = {
            opened := [sources.disk.absolute path], tokens := ts,
            announced := [sources.disk.absolute path] } ∧
      ts.map Token.unplaced = signs := by
  have hagain : sources.disk.absolute (sources.disk.absolute path) = sources.disk.absolute path :=
    Path.resolve_resolve hdisk path
  have htext : (sources.withText path text).textOf (sources.disk.absolute path)
      ⟨sources.disk.absolute path, .empty⟩ = .ok text := by
    simp only [textOf, withText, hagain, if_true]
  obtain ⟨ts, hts, hsigns⟩ := exists_tokens_of_signsOf?
    ((sources.withText path text).expandInclude (Path.parent (sources.disk.absolute path)) maxDepth
      [sources.disk.absolute path] (sources.disk.absolute path))
      (sources.disk.absolute path) .zero h
  refine ⟨ts, ?_, hsigns⟩
  rw [expandRoot_eq, openFile, htext]
  simp only [Expansion.andThen, pieces, lexemes, hts, List.append_nil, List.nil_append]

/-- **A parse that succeeds gives what the text of all the files in their places gives**, up to
places, and it opens and announces each file of the tree of inclusions before those included in
it. -/
theorem parseText_flatten {path : String}
    (hdisk : Path.isRooted sources.disk.workingDirectory = true) {tree : ConfigClass}
    (h : (sources.parse path).result = .ok tree) :
    ∃ content, sources.content? path = some content ∧
      (sources.parse path).opened = sources.disk.absolute path :: content.files ∧
      (sources.parse path).announced = sources.disk.absolute path :: content.files ∧
      ∃ flat, (sources.parseText path content.flatten).result = .ok flat ∧
      flat.unplaced = tree.unplaced := by
  simp only [parse] at h
  split at h
  · cases h
  · next hstop =>
    split at h
    · next statements hread =>
      obtain rfl := Except.ok.inj h
      obtain ⟨content, hcontent, hopened, hspells⟩ := sources.exists_content_of_expandRoot hstop
      -- Nothing comes after the root file.
      have hnil : signsFrom? true [] = some [] := by rw [signsFrom?, lexemesFrom.eq_def, signsOf?]
      have hsigns := hspells [] trivial
      rw [List.append_nil, hnil, Option.map_some, List.append_nil] at hsigns
      obtain ⟨ts, hexpand, hts⟩ := sources.exists_tokens_of_withText path hdisk hsigns
      obtain ⟨statements', hread', htree⟩ :=
        exists_rootClass_of_unplaced (sources.disk.absolute path)
        hts hread
      refine ⟨content, hcontent, hopened, (sources.announced_parse path).trans hopened,
        _, ?_, htree⟩
      have hfile : (sources.withText path content.flatten).disk.absolute path
        = sources.disk.absolute path := rfl
      simp only [parseText, parse, hfile, hexpand, hread']
    · cases h

end Sources

/-- A class whose body is in another file, with an array in it that comes from a third one. The
first of these files starts with a byte order mark and ends in a comment, and the second ends in a
directive that would go on. -/
def spread : Sources String where
  disk.files :=
    [(["m", "description.ext"], .bytes
        (Text.encodeUtf8 "class A\x7b\n  #include \"a.hpp\" \\\n\n\x7d;".toList)),
      (["m", "a.hpp"], .bytes
        (Text.encodeUtf8 "\uFEFFx[] = \x7b\n#include \"b/c.hpp\"\n2\x7d; // end".toList)),
      (["m", "b", "c.hpp"], .bytes (Text.encodeUtf8 "1,\n#define X \\".toList))]

theorem parseText_flatten_spread :
    ∃ tree content, (spread.parse "/m/description.ext").result = .ok tree ∧
      spread.content? "/m/description.ext" = some content ∧
      content.flatten
        = "class A\x7b\n  x[] = \x7b\n1,\n#define X \\\n\n2\x7d; // end\n\n\x7d;".toList ∧
      (spread.parse "/m/description.ext").opened
        = ["/m/description.ext", "/m/a.hpp", "/m/b/c.hpp"] ∧
      ∃ flat, (spread.parseText "/m/description.ext" content.flatten).result = .ok flat ∧
        flat.unplaced = tree.unplaced := by
  have hok : (spread.parse "/m/description.ext").result.isOk = true := by decide +kernel
  have hflatten : (spread.content? "/m/description.ext").map Content.flatten
      = some "class A\x7b\n  x[] = \x7b\n1,\n#define X \\\n\n2\x7d; // end\n\n\x7d;".toList := by
    decide +kernel
  cases hparse : (spread.parse "/m/description.ext").result with
  | error stop =>
    rw [hparse] at hok
    cases hok
  | ok tree =>
    obtain ⟨content, hcontent, -, -, hflat⟩ := spread.parseText_flatten (by decide +kernel) hparse
    rw [hcontent] at hflatten
    exact ⟨tree, content, rfl, hcontent, Option.some.inj hflatten, by decide +kernel, hflat⟩

end

end MissionIndex.Config
