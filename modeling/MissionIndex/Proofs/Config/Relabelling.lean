import MissionIndex.Proofs.Config.Refinement

/-!
# Other texts in the same places of the grammar

What tokens say and where they stand can be changed in many ways without an effect on how they are
read. A `Relabelling` changes the places of all tokens and the texts of quoted ones. Reading and
executing carry the change along: from changed tokens comes a changed tree, or a changed error, and
nothing else.

## What a relabelling has to respect

Words decide what a statement is and what it is about, so their texts have to stay as they are; this
is a condition on the tokens at hand (`∀ t ∈ ts, t.kind = .word → φ.text t.text = t.text`) and not
on the relabelling. A value of several tokens is their texts with spaces between them, so the change
of a text must not reach over a space.
-/

namespace MissionIndex.Config

open Text

/-- A change of texts and places. -/
structure Relabelling where
  text : String → String
  location : Location → Location
  text_intercalate : ∀ texts, text (" ".intercalate texts) = " ".intercalate (texts.map text)

variable (φ : Relabelling)

/-! ## What is relabelled -/

/-- A token kind with the meaning of a quoted text changed. -/
def Token.Kind.relabel : Token.Kind → Token.Kind
  | .quoted value => .quoted (φ.text value)
  | kind => kind

def Token.relabel (t : Token) : Token := ⟨t.kind.relabel φ, φ.text t.text, φ.location t.location⟩

def Name.relabel (n : Name) : Name := { n with location := φ.location n.location }

mutual

def Value.relabel : Value → Value
  | .text s => .text (φ.text s)
  | .list items => .list (Value.relabelAll items)

def Value.relabelAll : List Value → List Value
  | [] => []
  | item :: rest => item.relabel :: Value.relabelAll rest

end

mutual

/-- A statement with other values, and with the names that it declares in other places. -/
def Statement.relabel : Statement → Statement
  | .assign name value => .assign name (φ.text value)
  | .assignList name append items => .assignList name append (items.map (Value.relabel φ))
  | .declare name base => .declare (name.relabel φ) base
  | .define name base body => .define (name.relabel φ) base (Statement.relabelAll body)
  | .delete name => .delete name

@[inherit_doc Statement.relabel]
def Statement.relabelAll : List Statement → List Statement
  | [] => []
  | s :: rest => s.relabel :: Statement.relabelAll rest

end

mutual

/-- A class in another place and with other values, and so all classes in it. -/
def ConfigClass.relabel : ConfigClass → ConfigClass
  | ⟨name, base, location, body⟩ => ⟨name, base, φ.location location, body.relabel⟩

@[inherit_doc ConfigClass.relabel]
def Body.relabel : Body ConfigClass → Body ConfigClass
  | ⟨values, classes⟩ => ⟨values.map fun e ↦ (e.1, e.2.relabel φ), ConfigClass.relabelAll classes⟩

@[inherit_doc ConfigClass.relabel]
def ConfigClass.relabelAll : List (String × ConfigClass) → List (String × ConfigClass)
  | [] => []
  | (key, c) :: rest => (key, c.relabel) :: ConfigClass.relabelAll rest

end

/-- A cause with the text of the token that was found changed. -/
def Cause.relabel : Cause → Cause
  | .expectedMark mark found => .expectedMark mark (found.map φ.text)
  | .expectedName what found => .expectedName what (found.map φ.text)
  | .expectedAssignment name found => .expectedAssignment name (found.map φ.text)
  | .expectedList name found => .expectedList name (found.map φ.text)
  | .expectedSeparator found => .expectedSeparator (found.map φ.text)
  | .expectedValue found => .expectedValue (found.map φ.text)
  | .unexpected found => .unexpected (found.map φ.text)
  | cause => cause

def ParseError.relabel (e : ParseError) : ParseError := ⟨e.cause.relabel φ, φ.location e.location⟩

theorem Value.relabelAll_eq_map (items : List Value) :
    relabelAll φ items = items.map (relabel φ) := by
  induction items with
  | nil => rfl
  | cons item rest ih => rw [relabelAll, ih, List.map_cons]

theorem Statement.relabelAll_eq_map (ss : List Statement) :
    relabelAll φ ss = ss.map (relabel φ) := by
  induction ss with
  | nil => rfl
  | cons s rest ih => rw [relabelAll, ih, List.map_cons]

theorem ConfigClass.relabelAll_eq_map (cs : List (String × ConfigClass)) :
    relabelAll φ cs = cs.map fun e ↦ (e.1, e.2.relabel φ) := by
  induction cs with
  | nil => rfl
  | cons e rest ih => rw [relabelAll, ih, List.map_cons]

theorem Value.relabel_list (items : List Value) :
    (Value.list items).relabel φ = .list (items.map (relabel φ)) := by
  rw [relabel, relabelAll_eq_map]

theorem Statement.relabel_define (name : Name) (base : Option String) (body : List Statement) :
    (Statement.define name base body).relabel φ
      = .define (name.relabel φ) base (body.map (relabel φ)) := by
  rw [relabel, relabelAll_eq_map]

/-! ## Bodies -/

namespace Body

variable (body : Body ConfigClass)

theorem values_relabel : (body.relabel φ).values = body.values.map fun e ↦
    (e.1, e.2.relabel φ) := by
  obtain ⟨values, classes⟩ := body
  rfl

theorem classes_relabel :
    (body.relabel φ).classes = body.classes.map fun e ↦ (e.1, e.2.relabel φ) := by
  obtain ⟨values, classes⟩ := body
  exact ConfigClass.relabelAll_eq_map φ classes

theorem lookup_values_relabel (key : String) :
    (body.relabel φ).values.lookup key = (body.values.lookup key).map (Value.relabel φ) := by
  rw [values_relabel, Ordered.lookup_map_snd]

theorem lookup_classes_relabel (key : String) :
    (body.relabel φ).classes.lookup key
      = (body.classes.lookup key).map (ConfigClass.relabel φ) := by
  rw [classes_relabel, Ordered.lookup_map_snd]

theorem eq_of_values_of_classes {κ : Type} {a b : Body κ} (hvalues : a.values = b.values)
    (hclasses : a.classes = b.classes) : a = b := by
  obtain ⟨values, classes⟩ := a
  obtain rfl : values = _ := hvalues
  obtain rfl : classes = _ := hclasses
  rfl

theorem relabel_setVariable (key : String) (value : Value) :
    (body.setVariable key value).relabel φ
      = (body.relabel φ).setVariable key (value.relabel φ) := by
  refine eq_of_values_of_classes ?_ ?_
  · rw [values_relabel, setVariable, setVariable, values_relabel, Ordered.map_snd_put]
  · rw [classes_relabel, setVariable, setVariable, classes_relabel]

theorem relabel_appendVariable (key : String) (items : List Value) :
    (body.appendVariable key items).relabel φ
      = (body.relabel φ).appendVariable key (items.map (Value.relabel φ)) := by
  rw [appendVariable, relabel_setVariable, appendVariable, lookup_values_relabel]
  cases body.values.lookup key with
  | none => rw [Value.relabel_list]; rfl
  | some value =>
    cases value with
    | text s => rw [Value.relabel_list]; rfl
    | list old => simp only [Value.relabel_list, Option.map_some, List.map_append]

theorem relabel_setClass (key : String) (c : ConfigClass) :
    (body.setClass key c).relabel φ = (body.relabel φ).setClass key (c.relabel φ) := by
  refine eq_of_values_of_classes ?_ ?_
  · rw [values_relabel, setClass, setClass, values_relabel]
  · rw [classes_relabel, setClass, setClass, classes_relabel, Ordered.map_snd_put]

theorem relabel_eraseClass (key : String) :
    (body.eraseClass key).relabel φ = (body.relabel φ).eraseClass key := by
  refine eq_of_values_of_classes ?_ ?_
  · rw [values_relabel, eraseClass, eraseClass, values_relabel]
  · rw [classes_relabel, eraseClass, eraseClass, classes_relabel, Ordered.map_snd_erase]

end Body

namespace ConfigClass

variable (c : ConfigClass)

@[simp] theorem body_relabel : (c.relabel φ).body = c.body.relabel φ := by
  obtain ⟨name, base, location, body⟩ := c
  rfl

theorem relabel_withBody {body body' : Body ConfigClass} (h : body.relabel φ = body') :
    { c with body := body }.relabel φ = { c.relabel φ with body := body' } := by
  obtain ⟨name, base, location, old⟩ := c
  exact congrArg (ConfigClass.mk name base (φ.location location)) h

end ConfigClass

/-! ## Reading -/

def OpenBody.relabel (b : OpenBody) : OpenBody :=
  { b with statements := b.statements.map (Statement.relabel φ), name := b.name.relabel φ }

/-- What a reader is in the middle of, relabelled. -/
def Awaiting.relabel : Awaiting → Awaiting
  | .classHead name => .classHead (name.relabel φ)
  | .baseName name => .baseName (name.relabel φ)
  | .classBody name base => .classBody (name.relabel φ) base
  | .classEnd done => .classEnd (done.relabel φ)
  | .item target outer items =>
    .item target (outer.map (List.map (Value.relabel φ))) (items.map (Value.relabel φ))
  | .itemPart target outer items parts =>
    .itemPart target (outer.map (List.map (Value.relabel φ))) (items.map (Value.relabel φ))
      (parts.map (Token.relabel φ))
  | .separator target outer items =>
    .separator target (outer.map (List.map (Value.relabel φ))) (items.map (Value.relabel φ))
  | .listEnd target items => .listEnd target (items.map (Value.relabel φ))
  | .value name parts => .value name (parts.map (Token.relabel φ))
  | a => a

def Reader.relabel (r : Reader) : Reader where
  outer := r.outer.map (OpenBody.relabel φ)
  statements := r.statements.map (Statement.relabel φ)
  awaiting := r.awaiting.relabel φ

def relabelStep : Except Cause Reader → Except Cause Reader
  | .ok r => .ok (r.relabel φ)
  | .error cause => .error (cause.relabel φ)

def relabelRun : Except ParseError Reader → Except ParseError Reader
  | .ok r => .ok (r.relabel φ)
  | .error e => .error (e.relabel φ)

theorem valueOfParts_relabel (parts : List Token) :
    valueOfParts (parts.map (Token.relabel φ)) = φ.text (valueOfParts parts) := by
  have htexts : (parts.map (Token.relabel φ)).map Token.text
      = (parts.map Token.text).map φ.text := by
    rw [List.map_map, List.map_map]
    rfl
  have hmany : ∀ (t t' : Token) (rest : List Token),
      valueOfParts (t :: t' :: rest) = " ".intercalate ((t :: t' :: rest).map Token.text) := by
    rintro ⟨_ | _ | _, text, location⟩ t' rest <;> rfl
  cases parts with
  | nil => exact (φ.text_intercalate []).symm
  | cons t rest =>
    cases rest with
    | nil =>
      obtain ⟨kind, text, location⟩ := t
      cases kind with
      | quoted value => rfl
      | word | mark => exact (φ.text_intercalate [text]).symm
    | cons t' rest =>
      rw [hmany t t' rest, φ.text_intercalate, ← htexts]
      exact hmany (t.relabel φ) (t'.relabel φ) (rest.map (Token.relabel φ))

namespace Reader

variable (r : Reader)

theorem relabel_add (s : Statement) : (r.add s).relabel φ = (r.relabel φ).add (s.relabel φ) := by
  rw [add, add, relabel, List.map_append]
  rfl

theorem relabel_closeList (target : ListTarget) (outer : List (List Value)) (items : List Value) :
    (r.closeList target outer items).relabel φ
      = (r.relabel φ).closeList target (outer.map (List.map (Value.relabel φ)))
        (items.map (Value.relabel φ)) := by
  cases outer with
  | nil => rfl
  | cons around outer =>
    simp only [closeList, relabel, Awaiting.relabel, List.map_cons, List.map_append,
      Value.relabel_list, List.map_nil]

theorem stepStatement_relabel {t : Token} (ht : t.kind = .word → φ.text t.text = t.text) :
    (r.relabel φ).stepStatement (t.relabel φ) = relabelStep φ (r.stepStatement t) := by
  obtain ⟨kind, text, location⟩ := t
  cases kind with
  | word =>
    have htext : φ.text text = text := ht rfl
    simp only [stepStatement, Token.relabel, Token.Kind.relabel, htext]
    split
    · rfl
    · split <;> rfl
  | quoted value => rfl
  | mark m =>
    cases m with
    | closeBrace =>
      obtain ⟨outer, statements, awaiting⟩ := r
      cases outer with
      | nil => rfl
      | cons around outer =>
        simp only [stepStatement, relabel, Token.relabel, Token.Kind.relabel, List.map_cons,
          relabelStep, Awaiting.relabel, Statement.relabel_define]
        rfl
    | _ => rfl

theorem stepItem_relabel (target : ListTarget) (outer : List (List Value)) (items : List Value)
    (t : Token) :
    (r.relabel φ).stepItem target (outer.map (List.map (Value.relabel φ)))
      (items.map (Value.relabel φ))
      (t.relabel φ) = relabelStep φ (r.stepItem target outer items t) := by
  obtain ⟨kind, text, location⟩ := t
  cases kind with
  | mark m =>
    cases m with
    | closeBrace => exact congrArg Except.ok (r.relabel_closeList φ target outer items).symm
    | _ => rfl
  | _ => rfl

theorem stepItemPart_relabel (target : ListTarget) (outer : List (List Value)) (items : List Value)
    (parts : List Token) (t : Token) :
    (r.relabel φ).stepItemPart target (outer.map (List.map (Value.relabel φ)))
      (items.map (Value.relabel φ))
        (parts.map (Token.relabel φ)) (t.relabel φ)
      = relabelStep φ (r.stepItemPart target outer items parts t) := by
  have hcomplete : items.map (Value.relabel φ) ++
    [Value.text (valueOfParts (parts.map (Token.relabel φ)))]
      = (items ++ [Value.text (valueOfParts parts)]).map (Value.relabel φ) := by
    rw [List.map_append, valueOfParts_relabel]
    rfl
  obtain ⟨kind, text, location⟩ := t
  simp only [stepItemPart, hcomplete]
  cases kind with
  | mark m =>
    cases m with
    | closeBrace => exact congrArg Except.ok (r.relabel_closeList φ target outer _).symm
    | _ => simp only [Token.relabel, Token.Kind.relabel, relabelStep, relabel, Awaiting.relabel,
        List.map_append, List.map_cons, List.map_nil, Cause.relabel, Option.map_some]
  | _ => simp only [Token.relabel, Token.Kind.relabel, relabelStep, relabel, Awaiting.relabel,
      List.map_append, List.map_cons, List.map_nil]

theorem stepValue_relabel (name : String) (parts : List Token) (t : Token) :
    (r.relabel φ).stepValue name (parts.map (Token.relabel φ)) (t.relabel φ)
      = relabelStep φ (r.stepValue name parts t) := by
  obtain ⟨kind, text, location⟩ := t
  simp only [stepValue, valueOfParts_relabel, List.isEmpty_map]
  cases kind with
  | mark m =>
    cases m with
    | semicolon =>
      simp only [Token.relabel, Token.Kind.relabel]
      split
      · rfl
      · exact congrArg Except.ok (r.relabel_add φ (.assign name (valueOfParts parts))).symm
    | closeBrace =>
      simp only [Token.relabel, Token.Kind.relabel]
      split <;> rfl
    | _ => simp only [Token.relabel, Token.Kind.relabel, relabelStep, relabel, Awaiting.relabel,
        List.map_append, List.map_cons, List.map_nil, Cause.relabel, Option.map_some]
  | _ => simp only [Token.relabel, Token.Kind.relabel, relabelStep, relabel, Awaiting.relabel,
      List.map_append, List.map_cons, List.map_nil]

/-- A step carries a relabelling along that leaves words as they are. -/
theorem step_relabel {t : Token} (ht : t.kind = .word → φ.text t.text = t.text) :
    (r.relabel φ).step (t.relabel φ) = relabelStep φ (r.step t) := by
  obtain ⟨outer, statements, awaiting⟩ := r
  cases awaiting
  case statement => exact stepStatement_relabel φ _ ht
  case item target outer items => exact stepItem_relabel φ _ target outer items t
  case itemPart target outer items parts =>
    exact stepItemPart_relabel φ _ target outer items parts t
  case value name parts => exact stepValue_relabel φ _ name parts t
  all_goals
    obtain ⟨_ | _ | m, text, location⟩ := t
    · have htext : φ.text text = text := ht rfl
      simp only [step, Token.relabel, Token.Kind.relabel, htext, relabel, Awaiting.relabel,
        relabelStep, Cause.relabel, Option.map_some, reduceIte, reduceCtorEq, Name.relabel]
    · rfl
  -- What is left is marks, and those that end a statement or a list are not settled by computing.
  case classHead name =>
    cases m with
    | semicolon => exact congrArg Except.ok (relabel_add φ _ (.declare name none)).symm
    | _ => rfl
  case classBody name base =>
    cases m with
    | semicolon => exact congrArg Except.ok (relabel_add φ _ (.declare name base)).symm
    | _ => rfl
  case classEnd done =>
    cases m with
    | semicolon => exact congrArg Except.ok (relabel_add φ _ done).symm
    | _ => rfl
  case deleteEnd name =>
    cases m with
    | semicolon => exact congrArg Except.ok (relabel_add φ _ (.delete name)).symm
    | _ => rfl
  case separator target outer items =>
    cases m with
    | closeBrace => exact congrArg Except.ok (relabel_closeList φ _ target outer items).symm
    | _ => rfl
  case listEnd target items =>
    cases m with
    | semicolon =>
      exact congrArg Except.ok (relabel_add φ _
        (.assignList target.name target.append items)).symm
    | _ => rfl
  all_goals cases m <;> rfl

theorem run_relabel (r : Reader) {ts : List Token} (hts : ∀ t ∈ ts, t.kind = .word →
    φ.text t.text = t.text) :
    (r.relabel φ).run (ts.map (Token.relabel φ)) = relabelRun φ (r.run ts) := by
  induction ts generalizing r with
  | nil => rfl
  | cons t rest ih =>
    obtain ⟨ht, hrest⟩ := List.forall_mem_cons.mp hts
    rw [List.map_cons, run, run, r.step_relabel φ ht]
    cases r.step t with
    | ok next => exact ih next hrest
    | error cause => rfl

theorem finish_relabel (r : Reader) :
    (r.relabel φ).finish = r.finish.map (List.map (Statement.relabel φ)) := by
  obtain ⟨outer, statements, awaiting⟩ := r
  cases awaiting with
  | statement => cases outer <;> rfl
  | value name parts => cases parts <;> rfl
  | _ => rfl

theorem relabel_cause_of_finish {r : Reader} {cause : Cause} (h : r.finish = .error cause) :
    cause.relabel φ = cause := by
  obtain ⟨outer, statements, awaiting⟩ := r
  cases awaiting with
  | statement =>
    cases outer <;> cases h
    rfl
  | value name parts => cases parts <;> (cases h; rfl)
  | _ =>
    cases h
    rfl

end Reader

def relabelStatements : Except ParseError (List Statement) → Except ParseError (List Statement)
  | .ok statements => .ok (statements.map (Statement.relabel φ))
  | .error e => .error (e.relabel φ)

/-- **Reading carries a relabelling along** that leaves words and the end of the input as they
are. -/
theorem readStatements_relabel {file file' : String} {ts : List Token}
    (hts : ∀ t ∈ ts, t.kind = .word → φ.text t.text = t.text)
    (hend : endOfInput file' (ts.map (Token.relabel φ)) = φ.location (endOfInput file ts)) :
    readStatements file' (ts.map (Token.relabel φ))
      = relabelStatements φ (readStatements file ts) := by
  have hrun := Reader.run_relabel φ {} hts
  have hstart : ({} : Reader).relabel φ = {} := rfl
  rw [hstart] at hrun
  rw [readStatements, readStatements, hrun, hend]
  cases ({} : Reader).run ts with
  | error e => rfl
  | ok r =>
    simp only [relabelRun, r.finish_relabel]
    cases hfinish : r.finish with
    | ok statements => rfl
    | error cause =>
      simp only [Except.map, relabelStatements, ParseError.relabel,
        Reader.relabel_cause_of_finish φ hfinish]

/-! ## What statements mean -/

def Surrounding.relabel (e : Surrounding) : Surrounding := { e with outer := e.outer.relabel φ }

theorem Surrounding.relabel_fill (e : Surrounding) (inner : ConfigClass) :
    (e.fill inner).relabel φ = (e.relabel φ).fill (inner.relabel φ) := by
  have houter : (e.relabel φ).outer = e.outer.relabel φ := rfl
  rw [fill, fill, houter, ConfigClass.body_relabel]
  exact e.outer.relabel_withBody φ (e.outer.body.relabel_setClass φ e.key inner)

namespace ConfigClass

theorem relabel_visible? (key : String) (around : List Surrounding) (c : ConfigClass) :
    (visible? key around c).map (relabel φ)
      = visible? key (around.map (Surrounding.relabel φ)) (c.relabel φ) := by
  induction around generalizing c with
  | nil => rw [List.map_nil, visible?, visible?, body_relabel, Body.lookup_classes_relabel]
  | cons e around ih =>
    rw [List.map_cons, visible?, visible?, ← Surrounding.relabel_fill, ← ih, body_relabel,
      Body.lookup_classes_relabel]
    cases c.body.classes.lookup key <;> rfl

theorem relabel_started (around : List Surrounding) (c : ConfigClass) (name : Name)
    (base : Option String) :
    (c.started around name base).relabel φ
      = (c.relabel φ).started (around.map (Surrounding.relabel φ)) (name.relabel φ) base := by
  have hnearest : (base.bind fun b ↦ visible? (lower b) (around.map (Surrounding.relabel φ))
    (c.relabel φ))
      = (base.bind fun b ↦ visible? (lower b) around c).map (relabel φ) := by
    cases base with
    | none => rfl
    | some b => exact (relabel_visible? φ (lower b) around c).symm
  rw [started, started, hnearest]
  cases base.bind fun b ↦ visible? (lower b) around c with
  | none => rfl
  | some b =>
    exact congrArg (ConfigClass.mk name.text base (φ.location name.location))
      (b.body_relabel φ).symm

theorem relabel_reopened (around : List Surrounding) (c : ConfigClass) (name : Name)
    (base : Option String) :
    (c.reopened around name base).relabel φ
      = (c.relabel φ).reopened (around.map (Surrounding.relabel φ)) (name.relabel φ) base := by
  have hname : (name.relabel φ).text = name.text := rfl
  rw [reopened, reopened, body_relabel, Body.lookup_classes_relabel, hname]
  cases c.body.classes.lookup (lower name.text) with
  | none => exact relabel_started φ around c name base
  | some old =>
    obtain ⟨oldName, oldBase, location, body⟩ := old
    rfl

end ConfigClass

mutual

/-- What a statement means carries a relabelling along. -/
theorem Statement.relabel_effect (statement : Statement) (around : List Surrounding)
    (c : ConfigClass) :
    (statement.effect around c).relabel φ
      = (statement.relabel φ).effect (around.map (Surrounding.relabel φ)) (c.relabel φ) := by
  cases statement with
  | assign name value =>
    rw [relabel, effect, effect, ConfigClass.body_relabel]
    exact c.relabel_withBody φ (c.body.relabel_setVariable φ (lower name) (.text value))
  | assignList name append items =>
    rw [relabel, effect, effect, ConfigClass.body_relabel]
    refine c.relabel_withBody φ ?_
    split
    · exact c.body.relabel_appendVariable φ (lower name) items
    · rw [Body.relabel_setVariable, Value.relabel_list]
  | declare name base =>
    have hname : (name.relabel φ).text = name.text := rfl
    rw [relabel, effect, effect, ConfigClass.body_relabel, Body.lookup_classes_relabel, hname]
    cases c.body.classes.lookup (lower name.text) with
    | some old => rfl
    | none =>
      refine c.relabel_withBody φ ?_
      rw [Body.relabel_setClass, ConfigClass.relabel_started]
  | define name base body =>
    have hinner := Statement.relabel_effectAll body (⟨c, lower name.text⟩ :: around)
      (c.reopened around name base)
    rw [relabel, effect, effect, Surrounding.relabel_fill, hinner, ConfigClass.relabel_reopened]
    rfl
  | delete name =>
    rw [relabel, effect, effect, ConfigClass.body_relabel]
    exact c.relabel_withBody φ (c.body.relabel_eraseClass φ (lower name))

theorem Statement.relabel_effectAll (statements : List Statement) (around : List Surrounding)
    (c : ConfigClass) :
    (Statement.effectAll around c statements).relabel φ
      = Statement.effectAll (around.map (Surrounding.relabel φ)) (c.relabel φ)
          (Statement.relabelAll φ statements) := by
  cases statements with
  | nil => rw [relabelAll, effectAll, effectAll]
  | cons s rest =>
    rw [relabelAll, effectAll, effectAll, Statement.relabel_effectAll rest,
      Statement.relabel_effect s]

end

/-- **From relabelled statements comes the relabelled tree.** -/
theorem relabel_rootClass (file : String) (statements : List Statement) :
    (rootClass file statements).relabel φ
      = Statement.effectAll [] { name := "", location := φ.location ⟨file, .empty⟩ }
          (statements.map (Statement.relabel φ)) := by
  rw [rootClass_eq, Statement.relabel_effectAll, Statement.relabelAll_eq_map]
  rfl

end MissionIndex.Config
