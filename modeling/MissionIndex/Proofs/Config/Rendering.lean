import MissionIndex.Proofs.Config.Grammar
import MissionIndex.Proofs.Config.Shapes

/-!
# Rendering statements

Statements can be written out, one on each line, and reading them undoes it. The names have to be
words for that (`Statement.Spelled`), but the values may be any texts: the quotes in them are
doubled, so nothing in a text can end it, and what is inside of a quoted text is looked at by no one
else.

## Signs in between

From the text to the statements it is two steps, and rendering goes the same way back. The tokens of
a statement, without their places, are its *signs*. Cutting the rendered text gives the signs
(`signsFrom?_render`), and reading the signs gives the statement (`Reader.run_signs`), whatever
comes before and after it.
-/

namespace MissionIndex.Config

open Text

/-! ## Names -/

/-- A text that can stand as a name at the start of a line, and of a file. -/
structure IsName (name : String) : Prop where
  isWord : IsWord name.toList
  ne_hash : name.toList.head? ≠ some '#'
  ne_mark : name.toList.head? ≠ some byteOrderMark

/-- A name that opens no statement of its own. -/
structure IsVariable (name : String) : Prop extends IsName name where
  ne_class : name ≠ "class"
  ne_delete : name ≠ "delete"

instance (name : String) : Decidable (IsName name) :=
  decidable_of_iff (IsWord name.toList ∧ name.toList.head? ≠ some '#' ∧
    name.toList.head? ≠ some byteOrderMark)
    ⟨fun ⟨hword, hhash, hmark⟩ ↦ ⟨hword, hhash, hmark⟩, fun ⟨hword, hhash, hmark⟩ ↦
      ⟨hword, hhash, hmark⟩⟩

instance (name : String) : Decidable (IsVariable name) :=
  decidable_of_iff (IsName name ∧ name ≠ "class" ∧ name ≠ "delete")
    ⟨fun ⟨hname, hclass, hdelete⟩ ↦ ⟨hname, hclass, hdelete⟩, fun ⟨hname, hclass, hdelete⟩ ↦
      ⟨hname, hclass, hdelete⟩⟩

/-- All names in a statement can be read back. -/
inductive Statement.Spelled : Statement → Prop
  | assign {name value : String} : IsVariable name → (Statement.assign name value).Spelled
  | assignList {name : String} {append : Bool} {items : List Value} : IsVariable name →
      (Statement.assignList name append items).Spelled
  | declare {name : Name} {base : Option String} : IsName name.text → (∀ b ∈ base, IsName b) →
      (Statement.declare name base).Spelled
  | define {name : Name} {base : Option String} {body : List Statement} : IsName name.text →
      (∀ b ∈ base, IsName b) → (∀ s ∈ body, s.Spelled) → (Statement.define name base body).Spelled
  | delete {name : String} : IsName name → (Statement.delete name).Spelled

/-! ## Texts -/

/-- A character inside of a quoted text. -/
def quoteChar (c : Char) : List Char := if c = '"' then ['"', '"'] else [c]

def quoteText (s : String) : List Char := '"' :: (s.toList.flatMap quoteChar ++ ['"'])

mutual

/-- A value as it is written: a text in quotes, or a list in braces. -/
def Value.render : Value → List Char
  | .text s => quoteText s
  | .list items => '{' :: (Value.renderItems items ++ ['}'])

def Value.renderItems : List Value → List Char
  | [] => []
  | [item] => item.render
  | item :: next :: rest => item.render ++ ',' :: ' ' :: Value.renderItems (next :: rest)

end

def classWord : List Char := "class".toList

def deleteWord : List Char := "delete".toList

/-- The front of a class: its name, and behind a colon its base, if it has one. -/
def renderHead (name : Name) : Option String → List Char
  | none => classWord ++ ' ' :: name.text.toList
  | some base => classWord ++ ' ' :: (name.text.toList ++ ' ' :: ':' :: ' ' :: base.toList)

/-- The mark between the name of a list and the items that it is given or that are appended to
it. -/
def assignMark (append : Bool) : Mark := if append then .plusEquals else .equals

mutual

/-- A statement on a line of its own, or a definition on several lines with its body between the
first and the last one. -/
def Statement.render : Statement → List Char
  | .assign name value => name.toList ++ ' ' :: '=' :: ' ' :: (quoteText value ++ [';', '\n'])
  | .assignList name append items =>
    name.toList ++ '[' :: ']' :: ' ' ::
      ((assignMark append).raw ++ ' ' :: ((Value.list items).render ++ [';', '\n']))
  | .declare name base => renderHead name base ++ [';', '\n']
  | .define name base body =>
    renderHead name base ++ ' ' :: '{' :: '\n' :: (Statement.renderAll body ++ ['}', ';', '\n'])
  | .delete name => deleteWord ++ ' ' :: (name.toList ++ [';', '\n'])

def Statement.renderAll : List Statement → List Char
  | [] => []
  | s :: rest => s.render ++ Statement.renderAll rest

end

/-! ## Signs -/

def wordSign (w : String) : Token := ⟨.word, w, default⟩

def markSign (m : Mark) : Token := ⟨.mark m, m.text, default⟩

def quotedSign (s : String) : Token := ⟨.quoted s, String.ofList (quoteText s), default⟩

mutual

def Value.signs : Value → List Token
  | .text s => [quotedSign s]
  | .list items => markSign .openBrace :: (Value.signsOfItems items ++ [markSign .closeBrace])

def Value.signsOfItems : List Value → List Token
  | [] => []
  | [item] => item.signs
  | item :: next :: rest => item.signs ++ markSign .comma :: Value.signsOfItems (next :: rest)

end

/-- The tokens of the front of a class. -/
def headSigns (name : Name) : Option String → List Token
  | none => [wordSign "class", wordSign name.text]
  | some base => [wordSign "class", wordSign name.text, markSign .colon, wordSign base]

mutual

def Statement.signs : Statement → List Token
  | .assign name value => [wordSign name, markSign .equals, quotedSign value, markSign .semicolon]
  | .assignList name append items =>
    wordSign name :: markSign .openBracket :: markSign .closeBracket ::
      markSign (assignMark append) :: ((Value.list items).signs ++ [markSign .semicolon])
  | .declare name base => headSigns name base ++ [markSign .semicolon]
  | .define name base body =>
    headSigns name base ++ markSign .openBrace ::
      (Statement.signsOfAll body ++ [markSign .closeBrace, markSign .semicolon])
  | .delete name => [wordSign "delete", wordSign name, markSign .semicolon]

def Statement.signsOfAll : List Statement → List Token
  | [] => []
  | s :: rest => s.signs ++ Statement.signsOfAll rest

end

/-! ## Cutting what was rendered -/

section Cutting

variable {fresh : Bool} {rest : List Char} {us : List Token}

theorem signsFrom?_of_shape {lexeme : Lexeme} (hshape : lexeme.Shape fresh rest) {ts : List Token}
    (hts : lexeme.signs? = some ts) (h : signsFrom? (lexeme.staysFresh fresh) rest = some us) :
    signsFrom? fresh (lexeme.raw ++ rest) = some (ts ++ us) := by
  rw [signsFrom?] at h ⊢
  rw [lexemesFrom_append hshape, signsOf?, hts, h]
  rfl

theorem signsFrom?_space (h : signsFrom? fresh rest = some us) :
    signsFrom? fresh (' ' :: rest) = some us := by
  rw [signsFrom?_blank (by decide)]
  exact h

theorem signsFrom?_lineFeed (h : signsFrom? true rest = some us) :
    signsFrom? fresh ('\n' :: rest) = some us := by
  rw [signsFrom?_blank (by decide)]
  exact h

theorem signsFrom?_mark {m : Mark} {raw : List Char} (hm : m.raw ++ rest = raw)
    (h : signsFrom? false rest = some us) :
    signsFrom? fresh raw = some (markSign m :: us) := by
  have hshape : (Lexeme.mark m).Shape fresh rest := .mark
  rw [← hm]
  exact signsFrom?_of_shape hshape rfl h

theorem signsFrom?_word {w : String} (hw : IsWord w.toList) (hfresh : w.toList.head? = some '#' →
    fresh = false)
    {c : Char} (hc : c = ' ' ∨ c = '[' ∨ c = ';') (h : signsFrom? false (c :: rest) = some us) :
    signsFrom? fresh (w.toList ++ c :: rest) = some (wordSign w :: us) := by
  have hend : endsWord (c :: rest) = true := by rcases hc with rfl | rfl | rfl <;> rfl
  have hpair : ∀ d ∈ (c :: rest).head?, ∀ a, ¬ IsPair a d := by
    rintro d hd a (⟨-, rfl | rfl⟩ | ⟨-, rfl⟩) <;> rcases hc with rfl | rfl | rfl <;> cases hd
  have hshape : (Lexeme.word w.toList).Shape fresh (c :: rest) :=
    .word hw.ne_nil (spanWord_of_isWord hw hend hpair) hfresh
  have hsign : (Lexeme.word w.toList).signs? = some [wordSign w] := by
    rw [Lexeme.signs?, String.ofList_toList]
    rfl
  exact signsFrom?_of_shape hshape hsign h

/-- A quoted text ends where it should: at the first quote that is not doubled. -/
theorem spanQuoted_quoteChar (cs : List Char) (hrest : rest.head? ≠ some '"') :
    spanQuoted '"' (cs.flatMap quoteChar ++ '"' :: rest)
      = some (cs.flatMap quoteChar ++ ['"'], cs, rest) := by
  induction cs with
  | nil => exact spanQuoted_closed hrest
  | cons c cs ih =>
    rw [List.flatMap_cons, List.append_assoc]
    by_cases hc : c = '"'
    · rw [quoteChar, if_pos hc, hc]
      simp only [List.cons_append, List.nil_append, spanQuoted, if_true, ih, Option.map_some]
    · rw [quoteChar, if_neg hc, List.singleton_append, spanQuoted_of_ne hc, ih, Option.map_some]
      rfl

theorem signsFrom?_quoteText (s : String) (hrest : rest.head? ≠ some '"')
    (h : signsFrom? false rest = some us) :
    signsFrom? fresh (quoteText s ++ rest) = some (quotedSign s :: us) := by
  have hshape : (Lexeme.quoted (quoteText s) s.toList).Shape fresh rest := by
    refine .quoted (by decide) ?_
    rw [List.append_assoc, List.singleton_append, spanQuoted_quoteChar s.toList hrest]
  have hsign : (Lexeme.quoted (quoteText s) s.toList).signs? = some [quotedSign s] := by
    rw [Lexeme.signs?, String.ofList_toList]
    rfl
  exact signsFrom?_of_shape hshape hsign h

mutual

theorem signsFrom?_value (value : Value) {rest : List Char} {us : List Token}
    (hrest : rest.head? ≠ some '"') (h : signsFrom? false rest = some us) :
    signsFrom? false (value.render ++ rest) = some (value.signs ++ us) := by
  cases value with
  | text s => exact signsFrom?_quoteText s hrest h
  | list items =>
    have hclose : signsFrom? false ('}' :: rest) = some (markSign .closeBrace :: us) :=
      signsFrom?_mark rfl h
    have hitems := signsFrom?_items items (by simp) hclose
    rw [Value.render, Value.signs, List.cons_append, List.append_assoc, List.singleton_append,
      List.cons_append, List.append_assoc, List.singleton_append]
    exact signsFrom?_mark rfl hitems

theorem signsFrom?_items (items : List Value) {rest : List Char} {us : List Token}
    (hrest : rest.head? ≠ some '"') (h : signsFrom? false rest = some us) :
    signsFrom? false (Value.renderItems items ++ rest) = some (Value.signsOfItems items ++ us) := by
  match items with
  | [] => exact h
  | [item] => exact signsFrom?_value item hrest h
  | item :: next :: more =>
    have hmore := signsFrom?_items (next :: more) hrest h
    rw [Value.renderItems, Value.signsOfItems, List.append_assoc, List.append_assoc]
    exact signsFrom?_value item (by simp) (signsFrom?_mark rfl (signsFrom?_space hmore))

end

theorem signsFrom?_head {name : Name} {base : Option String} (hname : IsName name.text)
    (hbase : ∀ b ∈ base, IsName b) {c : Char} (hc : c = ' ' ∨ c = '[' ∨ c = ';') {rest : List Char}
    {us : List Token} (h : signsFrom? false (c :: rest) = some us) :
    signsFrom? true (renderHead name base ++ c :: rest) = some (headSigns name base ++ us) := by
  have hclass : IsWord "class".toList := by decide +kernel
  cases base with
  | none =>
    simp only [renderHead, headSigns, List.append_assoc, List.cons_append, List.nil_append]
    refine signsFrom?_word hclass (by decide) (.inl rfl) (signsFrom?_space ?_)
    exact signsFrom?_word hname.isWord (fun _ ↦ rfl) hc h
  | some base =>
    simp only [renderHead, headSigns, List.append_assoc, List.cons_append, List.nil_append]
    refine signsFrom?_word hclass (by decide) (.inl rfl) (signsFrom?_space ?_)
    refine signsFrom?_word hname.isWord (fun _ ↦ rfl) (.inl rfl) (signsFrom?_space ?_)
    refine signsFrom?_mark rfl (signsFrom?_space ?_)
    exact signsFrom?_word (hbase base rfl).isWord (fun _ ↦ rfl) hc h

mutual

/-- **Cutting a rendered statement gives its signs**, whatever comes after it. -/
theorem signsFrom?_render (s : Statement) (hs : s.Spelled) {rest : List Char} {us : List Token}
    (h : signsFrom? true rest = some us) :
    signsFrom? true (s.render ++ rest) = some (s.signs ++ us) := by
  have hstop : signsFrom? false (';' :: '\n' :: rest) = some (markSign .semicolon :: us) :=
    signsFrom?_mark rfl (signsFrom?_lineFeed h)
  cases hs with
  | @assign name value hname =>
    simp only [Statement.render, Statement.signs, List.append_assoc, List.cons_append,
      List.nil_append]
    refine signsFrom?_word hname.isWord (fun hhash ↦ absurd hhash hname.ne_hash) (.inl rfl)
      (signsFrom?_space ?_)
    refine signsFrom?_mark rfl (signsFrom?_space ?_)
    exact signsFrom?_quoteText value (by simp) hstop
  | @assignList name append items hname =>
    have hitems := signsFrom?_value (.list items) (by simp) hstop
    simp only [Statement.render, Statement.signs, List.append_assoc, List.cons_append,
      List.nil_append]
    refine signsFrom?_word hname.isWord (fun hhash ↦ absurd hhash hname.ne_hash)
      (.inr (.inl rfl)) ?_
    refine signsFrom?_mark rfl (signsFrom?_mark rfl (signsFrom?_space ?_))
    exact signsFrom?_mark rfl (signsFrom?_space hitems)
  | @declare name base hname hbase =>
    simp only [Statement.render, Statement.signs, List.append_assoc, List.cons_append,
      List.nil_append]
    exact signsFrom?_head hname hbase (.inr (.inr rfl)) hstop
  | @define name base body hname hbase hbody =>
    have hclose : signsFrom? true ('}' :: ';' :: '\n' :: rest)
        = some (markSign .closeBrace :: markSign .semicolon :: us) := signsFrom?_mark rfl hstop
    have hbody := signsFrom?_renderAll body hbody hclose
    simp only [Statement.render, Statement.signs, List.append_assoc, List.cons_append,
      List.nil_append]
    refine signsFrom?_head hname hbase (.inl rfl) (signsFrom?_space ?_)
    exact signsFrom?_mark rfl (signsFrom?_lineFeed hbody)
  | @delete name hname =>
    have hdelete : IsWord "delete".toList := by decide +kernel
    simp only [Statement.render, Statement.signs, List.append_assoc, List.cons_append,
      List.nil_append]
    refine signsFrom?_word hdelete (by decide) (.inl rfl) (signsFrom?_space ?_)
    exact signsFrom?_word hname.isWord (fun _ ↦ rfl) (.inr (.inr rfl)) hstop

theorem signsFrom?_renderAll (ss : List Statement) (hs : ∀ s ∈ ss, s.Spelled) {rest : List Char}
    {us : List Token} (h : signsFrom? true rest = some us) :
    signsFrom? true (Statement.renderAll ss ++ rest) = some (Statement.signsOfAll ss ++ us) := by
  cases ss with
  | nil => exact h
  | cons s more =>
    rw [Statement.renderAll, Statement.signsOfAll, List.append_assoc, List.append_assoc]
    exact signsFrom?_render s (hs s List.mem_cons_self)
      (signsFrom?_renderAll more (fun s' hs' ↦ hs s' (List.mem_cons_of_mem s hs')) h)

end

end Cutting

/-! ## Reading the signs -/

namespace Reader

variable {outer : List OpenBody} {ss : List Statement}

mutual

/-- A value is read as an item of the innermost list, which goes on behind a comma and ends with a
brace. -/
theorem run_valueSigns (value : Value) (target : ListTarget) (lists : List (List Value))
    (items : List Value) (ts : List Token) :
    run ⟨outer, ss, .item target lists items⟩ (value.signs ++ markSign .comma :: ts)
        = run ⟨outer, ss, .item target lists (items ++ [value])⟩ ts ∧
      run ⟨outer, ss, .item target lists items⟩ (value.signs ++ markSign .closeBrace :: ts)
        = run (closeList ⟨outer, ss, .statement⟩ target lists (items ++ [value])) ts := by
  cases value with
  | text s => cases lists <;> exact ⟨rfl, rfl⟩
  | list inner =>
    have hinner := run_itemsSigns inner target (items :: lists) []
    simp only [Value.signs, List.cons_append, List.append_assoc, List.nil_append]
    constructor
    · rw [run_cons ⟨outer, ss, .item target (items :: lists) []⟩ _ rfl, hinner]
      rfl
    · rw [run_cons ⟨outer, ss, .item target (items :: lists) []⟩ _ rfl, hinner]
      cases lists <;> rfl

theorem run_itemsSigns (inner : List Value) (target : ListTarget) (lists : List (List Value))
    (items : List Value) (ts : List Token) :
    run ⟨outer, ss, .item target lists items⟩ (Value.signsOfItems inner ++
      markSign .closeBrace :: ts)
      = run (closeList ⟨outer, ss, .statement⟩ target lists (items ++ inner)) ts := by
  match inner with
  | [] =>
    rw [List.append_nil]
    exact run_cons _ ts (step_item_close rfl)
  | [item] => exact (run_valueSigns item target lists items ts).2
  | item :: next :: more =>
    rw [Value.signsOfItems, List.append_assoc, List.cons_append,
      (run_valueSigns item target lists items _).1, run_itemsSigns (next :: more),
      List.append_assoc, List.singleton_append]

end

theorem run_headSigns (name : Name) (base : Option String) (ts : List Token) :
    run ⟨outer, ss, .statement⟩ (headSigns name base ++ markSign .semicolon :: ts)
        = run ⟨outer, ss ++ [.declare (name.relabel unplacing) base], .statement⟩ ts ∧
      run ⟨outer, ss, .statement⟩ (headSigns name base ++ markSign .openBrace :: ts)
        = run ⟨⟨ss, name.relabel unplacing, base⟩ :: outer, [], .statement⟩ ts := by
  cases base <;> exact ⟨rfl, rfl⟩

theorem step_variable {name : String} (hname : IsVariable name) :
    step ⟨outer, ss, .statement⟩ (wordSign name) = .ok ⟨outer, ss, .variableHead name⟩ := by
  simp [step, stepStatement, wordSign, hname.ne_class, hname.ne_delete]

mutual

/-- **Reading the signs of a statement gives the statement**, apart from places. -/
theorem run_signs (s : Statement) (hs : s.Spelled) (outer : List OpenBody) (ss : List Statement)
    (ts : List Token) :
    run ⟨outer, ss, .statement⟩ (s.signs ++ ts)
      = run ⟨outer, ss ++ [s.relabel unplacing], .statement⟩ ts := by
  cases hs with
  | @assign name value hname =>
    simp only [Statement.signs, List.cons_append, List.nil_append]
    rw [run_cons _ _ (step_variable hname)]
    rfl
  | @assignList name append items hname =>
    have hassign : step ⟨outer, ss, .listAssignment name⟩ (markSign (assignMark append))
        = .ok ⟨outer, ss, .listStart ⟨name, append⟩⟩ := by
      cases append <;> rfl
    have hvalues : items.map (Value.relabel unplacing) = items := by
      rw [← Value.relabelAll_eq_map, Value.relabelAll_unplacing]
    simp only [Statement.signs, Value.signs, List.cons_append, List.append_assoc, List.nil_append]
    rw [run_cons _ _ (step_variable hname), run_cons ⟨outer, ss, .bracket name⟩ _ rfl,
      run_cons ⟨outer, ss, .listAssignment name⟩ _ rfl, run_cons _ _ hassign,
      run_cons ⟨outer, ss, .item ⟨name, append⟩ [] []⟩ _ rfl, run_itemsSigns,
      Statement.relabel, hvalues]
    rfl
  | @declare name base =>
    rw [Statement.signs, List.append_assoc]
    exact (run_headSigns name base ts).1
  | @define name base body _ _ hbody =>
    simp only [Statement.signs, List.append_assoc, List.cons_append, List.nil_append]
    rw [(run_headSigns name base _).2, run_signsOfAll body hbody, Statement.relabel_define]
    rfl
  | delete => rfl

theorem run_signsOfAll (body : List Statement) (hbody : ∀ s ∈ body, s.Spelled)
    (outer : List OpenBody) (ss : List Statement) (ts : List Token) :
    run ⟨outer, ss, .statement⟩ (Statement.signsOfAll body ++ ts)
      = run ⟨outer, ss ++ body.map (Statement.relabel unplacing), .statement⟩ ts := by
  cases body with
  | nil =>
    rw [List.map_nil, List.append_nil]
    rfl
  | cons s rest =>
    rw [Statement.signsOfAll, List.append_assoc, run_signs s (hbody s List.mem_cons_self),
      run_signsOfAll rest fun s' hs' ↦ hbody s' (List.mem_cons_of_mem s hs'), List.append_assoc,
      List.singleton_append, List.map_cons]

end

end Reader

/-- **Rendering statements and reading them gives them back**, apart from places. -/
theorem readStatements_signsOfAll (file : String) {ss : List Statement} (hs : ∀ s ∈ ss, s.Spelled) :
    readStatements file (Statement.signsOfAll ss) = .ok (ss.map (Statement.relabel unplacing)) := by
  have hrun := Reader.run_signsOfAll ss hs [] [] []
  rw [List.append_nil, List.nil_append] at hrun
  rw [readStatements, hrun]
  rfl

end MissionIndex.Config
