import MissionIndex.Config.Reader

/-!
# The grammar of description files

The reader of statements takes one token at a time and holds in its state what it awaits. Here stand
the rules that it reads by, as a relation between symbols and rows of tokens, and the proof that the
two agree: `readStatements` succeeds on exactly the rows that the rules derive.

## The two directions

That a derived row is read is shown rule by rule, by induction on the derivation; what a rule
derives takes the reader from the start of such a part to its end, whatever was read before. The
other way round there is no derivation to follow. `Completes` says of a state and a row of tokens
that the row is what the rules still demand: the rest of the statement in progress, and then, for
each body still open, its rest and its end. A step backwards keeps this, and at the end of the input
it says that the whole row is derived.
-/

namespace MissionIndex.Config

/-! ## The rules -/

/-- The parts of a file that have rules of their own. -/
inductive Symbol where
  | body
  | statement
  | list
  | items
  | item
deriving DecidableEq, Repr

namespace Token

def isScalarPart (t : Token) : Prop :=
  t.kind = .word ∨ (∃ value, t.kind = .quoted value) ∨ t.kind = .mark .colon ∨
  t.kind = .mark .comma ∨
    t.kind = .mark .equals ∨ t.kind = .mark .plusEquals

def isElementPart (t : Token) : Prop :=
  t.kind = .word ∨ (∃ value, t.kind = .quoted value) ∨ t.kind = .mark .colon ∨
  t.kind = .mark .plusEquals

/-- Whether a token is a word other than the two that open a statement of their own. -/
def isVariableName (t : Token) : Prop := t.kind = .word ∧ t.text ≠ "class" ∧ t.text ≠ "delete"

end Token

/-- The front of a class: its name, and its base if it has one. -/
inductive ClassHead : List Token → Prop
  | plain {k name : Token} : k.kind = .word → k.text = "class" → name.kind = .word →
  ClassHead [k, name]
  | derived {k name colon base : Token} : k.kind = .word → k.text = "class" → name.kind = .word →
      colon.kind = .mark .colon → base.kind = .word → ClassHead [k, name, colon, base]

/-- The rules. -/
inductive Derives : Symbol → List Token → Prop
  | bodyEnd : Derives .body []
  | bodySkip {t : Token} {ts : List Token} : t.kind = .mark .semicolon → Derives .body ts →
      Derives .body (t :: ts)
  | bodyNext {xs ts : List Token} : Derives .statement xs → Derives .body ts →
      Derives .body (xs ++ ts)
  | declaration {head : List Token} {stop : Token} : ClassHead head → stop.kind = .mark .semicolon →
      Derives .statement (head ++ [stop])
  | definition {head body : List Token} {opener closer stop : Token} : ClassHead head →
      opener.kind = .mark .openBrace → Derives .body body → closer.kind = .mark .closeBrace →
      stop.kind = .mark .semicolon → Derives .statement (head ++ opener :: (body ++ [closer, stop]))
  | deletion {k name stop : Token} : k.kind = .word → k.text = "delete" → name.kind = .word →
      stop.kind = .mark .semicolon → Derives .statement [k, name, stop]
  | scalar {name sign stop : Token} {value : List Token} : name.isVariableName →
      sign.kind = .mark .equals → value ≠ [] → (∀ t ∈ value, t.isScalarPart) →
      stop.kind = .mark .semicolon → Derives .statement (name :: sign :: (value ++ [stop]))
  | array {name opener closer sign stop : Token} {list : List Token} : name.isVariableName →
      opener.kind = .mark .openBracket → closer.kind = .mark .closeBracket →
      sign.kind = .mark .equals ∨ sign.kind = .mark .plusEquals → Derives .list list →
      stop.kind = .mark .semicolon →
      Derives .statement (name :: opener :: closer :: sign :: (list ++ [stop]))
  | list {opener closer : Token} {items : List Token} : opener.kind = .mark .openBrace →
      Derives .items items → closer.kind = .mark .closeBrace →
      Derives .list (opener :: (items ++ [closer]))
  | noItems : Derives .items []
  | lastItem {xs : List Token} : Derives .item xs → Derives .items xs
  | moreItems {xs ys : List Token} {comma : Token} : Derives .item xs → comma.kind = .mark .comma →
      Derives .items ys → Derives .items (xs ++ comma :: ys)
  | nested {xs : List Token} : Derives .list xs → Derives .item xs
  | element {xs : List Token} : xs ≠ [] → (∀ t ∈ xs, t.isElementPart) → Derives .item xs

/-! ## What is derived is read -/

namespace Reader

theorem run_append {r next : Reader} {xs : List Token} (ys : List Token) (h : r.run xs = .ok next) :
    r.run (xs ++ ys) = next.run ys := by
  induction xs generalizing r with
  | nil =>
    rw [run, Except.ok.injEq] at h
    rw [h, List.nil_append]
  | cons x xs ih =>
    rw [run] at h
    rw [List.cons_append, run]
    cases hx : r.step x with
    | error cause => simp [hx] at h
    | ok s =>
      rw [hx] at h
      exact ih h

theorem run_cons {r : Reader} {t : Token} (next : Reader) (ts : List Token)
    (h : r.step t = .ok next) :
    r.run (t :: ts) = next.run ts := by
  rw [run, h]

variable {outer : List OpenBody} {ss : List Statement}

theorem run_value {name : String} {parts : List Token} {xs : List Token}
    (h : ∀ t ∈ xs, t.isScalarPart) :
    run ⟨outer, ss, .value name parts⟩ xs = .ok ⟨outer, ss, .value name (parts ++ xs)⟩ := by
  induction xs generalizing parts with
  | nil => rw [run, List.append_nil]
  | cons x xs ih =>
    have hx : step ⟨outer, ss, .value name parts⟩ x
        = .ok ⟨outer, ss, .value name (parts ++ [x])⟩ := by
      rcases h x List.mem_cons_self with hk | ⟨v, hk⟩ | hk | hk | hk | hk <;>
        simp [step, stepValue, hk]
    rw [run_cons _ xs hx, ih fun t ht ↦ h t (List.mem_cons_of_mem x ht), List.append_assoc,
      List.singleton_append]

theorem run_itemPart {target : ListTarget} {lists : List (List Value)} {items : List Value}
    {parts : List Token} {xs : List Token} (h : ∀ t ∈ xs, t.isElementPart) :
    run ⟨outer, ss, .itemPart target lists items parts⟩ xs
      = .ok ⟨outer, ss, .itemPart target lists items (parts ++ xs)⟩ := by
  induction xs generalizing parts with
  | nil => rw [run, List.append_nil]
  | cons x xs ih =>
    have hx : step ⟨outer, ss, .itemPart target lists items parts⟩ x
        = .ok ⟨outer, ss, .itemPart target lists items (parts ++ [x])⟩ := by
      rcases h x List.mem_cons_self with hk | ⟨v, hk⟩ | hk | hk <;> simp [step, stepItemPart, hk]
    rw [run_cons _ xs hx, ih fun t ht ↦ h t (List.mem_cons_of_mem x ht), List.append_assoc,
      List.singleton_append]

theorem run_classHead {head : List Token} (h : ClassHead head) (outer : List OpenBody)
    (ss : List Statement) :
    ∃ name base, ∀ t : Token, (t.kind = .mark .semicolon →
        run ⟨outer, ss, .statement⟩ (head ++ [t])
          = .ok ⟨outer, ss ++ [.declare name base], .statement⟩) ∧
      (t.kind = .mark .openBrace →
        run ⟨outer, ss, .statement⟩ (head ++ [t])
          = .ok ⟨⟨ss, name, base⟩ :: outer, [], .statement⟩) := by
  cases h with
  | @plain k name hk hc hn =>
    refine ⟨⟨name.text, name.location⟩, none, fun t ↦ ⟨fun ht ↦ ?_, fun ht ↦ ?_⟩⟩ <;>
      simp [run, step, stepStatement, add, enter, hk, hc, hn, ht]
  | @derived k name colon base hk hc hn hcolon hb =>
    refine ⟨⟨name.text, name.location⟩, some base.text, fun t ↦ ⟨fun ht ↦ ?_, fun ht ↦ ?_⟩⟩ <;>
      simp [run, step, stepStatement, add, enter, hk, hc, hn, hcolon, hb, ht]

/-- What reading a part of a file does, for each kind of part. Lists and items are read inside a
list that is open already, so what is said of them holds for whatever was read of it. -/
def Reads : Symbol → List Token → Prop
  | .body, ts | .statement, ts => ∀ outer ss, ∃ ss', run ⟨outer, ss, .statement⟩ ts
      = .ok ⟨outer, ss', .statement⟩
  | .list, ts => ∀ outer ss target,
      (∃ vs, run ⟨outer, ss, .listStart target⟩ ts = .ok ⟨outer, ss, .listEnd target vs⟩) ∧
      ∀ lists items, ∃ vs, run ⟨outer, ss, .item target lists items⟩ ts
        = .ok ⟨outer, ss, .separator target lists vs⟩
  | .items, ts => ∀ outer ss target lists items, ∀ t : Token, t.kind = .mark .closeBrace →
      ∃ vs, run ⟨outer, ss, .item target lists items⟩ (ts ++ [t])
        = .ok (closeList ⟨outer, ss, .statement⟩ target lists vs)
  | .item, ts => ∀ outer ss target lists items, ∃ vs, ∀ t : Token,
      (t.kind = .mark .comma → run ⟨outer, ss, .item target lists items⟩ (ts ++ [t])
        = .ok ⟨outer, ss, .item target lists vs⟩) ∧
      (t.kind = .mark .closeBrace → run ⟨outer, ss, .item target lists items⟩ (ts ++ [t])
        = .ok (closeList ⟨outer, ss, .statement⟩ target lists vs))

theorem step_item_close {outer : List OpenBody} {ss : List Statement} {target : ListTarget}
    {lists : List (List Value)} {items : List Value} {t : Token} (ht : t.kind = .mark .closeBrace) :
    step ⟨outer, ss, .item target lists items⟩ t
      = .ok (closeList ⟨outer, ss, .statement⟩ target lists items) := by
  cases lists <;> simp [step, stepItem, closeList, ht]

/-- What the rules derive is read from its start to its end. -/
theorem reads_of_derives {symbol : Symbol} {ts : List Token} (h : Derives symbol ts) :
    Reads symbol ts := by
  induction h with
  | bodyEnd => exact fun outer ss ↦ ⟨ss, rfl⟩
  | @bodySkip t ts ht _ ih =>
    intro outer ss
    obtain ⟨ss', hss'⟩ := ih outer ss
    refine ⟨ss', ?_⟩
    rw [run_cons ⟨outer, ss, .statement⟩ ts (by simp [step, stepStatement, ht]), hss']
  | @bodyNext xs ts _ _ ihx iht =>
    intro outer ss
    obtain ⟨ss₁, h₁⟩ := ihx outer ss
    obtain ⟨ss₂, h₂⟩ := iht outer ss₁
    exact ⟨ss₂, by rw [run_append ts h₁, h₂]⟩
  | @declaration head stop hhead hstop =>
    intro outer ss
    obtain ⟨name, base, hrun⟩ := run_classHead hhead outer ss
    exact ⟨_, (hrun stop).1 hstop⟩
  | @definition head body opener closer stop hhead hopen _ hclose hstop ih =>
    intro outer ss
    obtain ⟨name, base, hrun⟩ := run_classHead hhead outer ss
    obtain ⟨inner, hinner⟩ := ih (⟨ss, name, base⟩ :: outer) []
    refine ⟨ss ++ [.define name base inner], ?_⟩
    rw [List.append_cons head opener, run_append _ ((hrun opener).2 hopen), run_append _ hinner]
    simp [run, step, stepStatement, add, hclose, hstop]
  | @deletion k name stop hk hd hn hstop =>
    intro outer ss
    exact ⟨ss ++ [.delete name.text], by simp [run, step, stepStatement, add, hk, hd, hn, hstop]⟩
  | @scalar name sign stop value hname hsign hne hvalue hstop =>
    intro outer ss
    obtain ⟨hword, hclass, hdelete⟩ := hname
    refine ⟨ss ++ [.assign name.text (valueOfParts value)], ?_⟩
    rw [run_cons ⟨outer, ss, .variableHead name.text⟩ _
        (by simp [step, stepStatement, hword, hclass, hdelete]),
      run_cons ⟨outer, ss, .value name.text []⟩ _ (by simp [step, hsign]),
      run_append _ (run_value hvalue)]
    simp [run, step, stepValue, add, hstop, hne]
  | @array name opener closer sign stop list hname hopen hclose hsign _ hstop ih =>
    intro outer ss
    obtain ⟨hword, hclass, hdelete⟩ := hname
    obtain ⟨append, happend⟩ : ∃ append, step ⟨outer, ss, .listAssignment name.text⟩ sign
        = .ok ⟨outer, ss, .listStart ⟨name.text, append⟩⟩ := by
      rcases hsign with hk | hk
      · exact ⟨false, by simp [step, hk]⟩
      · exact ⟨true, by simp [step, hk]⟩
    obtain ⟨vs, hvs⟩ := (ih outer ss ⟨name.text, append⟩).1
    refine ⟨ss ++ [.assignList name.text append vs], ?_⟩
    rw [run_cons ⟨outer, ss, .variableHead name.text⟩ _
        (by simp [step, stepStatement, hword, hclass, hdelete]),
      run_cons ⟨outer, ss, .bracket name.text⟩ _ (by simp [step, hopen]),
      run_cons ⟨outer, ss, .listAssignment name.text⟩ _ (by simp [step, hclose]),
      run_cons _ _ happend, run_append _ hvs]
    simp [run, step, add, hstop]
  | @list opener closer items hopen _ hclose ih =>
    intro outer ss target
    constructor
    · obtain ⟨vs, hvs⟩ := ih outer ss target [] [] closer hclose
      refine ⟨vs, ?_⟩
      rw [run_cons ⟨outer, ss, .item target [] []⟩ _ (by simp [step, hopen]), hvs, closeList]
    · intro lists before
      obtain ⟨vs, hvs⟩ := ih outer ss target (before :: lists) [] closer hclose
      refine ⟨before ++ [.list vs], ?_⟩
      rw [run_cons ⟨outer, ss, .item target (before :: lists) []⟩ _
        (by simp [step, stepItem, hopen]), hvs, closeList]
  | noItems =>
    intro outer ss target lists items t ht
    refine ⟨items, ?_⟩
    rw [List.nil_append, run_cons _ [] (step_item_close ht), run]
  | @lastItem xs _ ih =>
    intro outer ss target lists items t ht
    obtain ⟨vs, hvs⟩ := ih outer ss target lists items
    exact ⟨vs, (hvs t).2 ht⟩
  | @moreItems xs ys comma _ hcomma _ ihx ihy =>
    intro outer ss target lists items t ht
    obtain ⟨vs₁, h₁⟩ := ihx outer ss target lists items
    obtain ⟨vs₂, h₂⟩ := ihy outer ss target lists vs₁ t ht
    refine ⟨vs₂, ?_⟩
    rw [List.append_assoc, List.cons_append, List.append_cons xs comma,
      run_append _ ((h₁ comma).1 hcomma), h₂]
  | @nested xs _ ih =>
    intro outer ss target lists items
    obtain ⟨vs, hvs⟩ := (ih outer ss target).2 lists items
    refine ⟨vs, fun t ↦ ⟨fun ht ↦ ?_, fun ht ↦ ?_⟩⟩
    · rw [run_append _ hvs]
      simp [run, step, ht]
    · rw [run_append _ hvs]
      cases lists <;> simp [run, step, closeList, ht]
  | @element xs hne hparts =>
    intro outer ss target lists items
    obtain ⟨x, xs, rfl⟩ := List.exists_cons_of_ne_nil hne
    have hx : step ⟨outer, ss, .item target lists items⟩ x
        = .ok ⟨outer, ss, .itemPart target lists items [x]⟩ := by
      rcases hparts x List.mem_cons_self with hk | ⟨v, hk⟩ | hk | hk <;> simp [step, stepItem, hk]
    have hrun : run ⟨outer, ss, .item target lists items⟩ (x :: xs)
        = .ok ⟨outer, ss, .itemPart target lists items ([x] ++ xs)⟩ := by
      rw [run_cons _ xs hx, run_itemPart fun t ht ↦ hparts t (List.mem_cons_of_mem x ht)]
    refine ⟨items ++ [.text (valueOfParts ([x] ++ xs))], fun t ↦ ⟨fun ht ↦ ?_, fun ht ↦ ?_⟩⟩
    · rw [run_append _ hrun]
      simp [run, step, stepItemPart, ht]
    · rw [run_append _ hrun]
      cases lists <;> simp [run, step, stepItemPart, closeList, ht]

end Reader

/-! ## What is read is derived -/

/-- What follows an item that has been read: the rest of its list, with the end of it. -/
inductive ItemRest : List Token → Prop
  | close {t : Token} : t.kind = .mark .closeBrace → ItemRest [t]
  | more {comma t : Token} {items : List Token} : comma.kind = .mark .comma → Derives .items items →
      t.kind = .mark .closeBrace → ItemRest (comma :: (items ++ [t]))

/-- What follows the end of a list with `depth` lists around it. -/
def ListsRest : Nat → List Token → Prop
  | 0, ts => ∃ stop : Token, stop.kind = .mark .semicolon ∧ ts = [stop]
  | depth + 1, ts => ∃ rest ts', ItemRest rest ∧ ListsRest depth ts' ∧ ts = rest ++ ts'

/-- What follows the name of a class and its base. -/
inductive ClassRest : List Token → Prop
  | declaration {stop : Token} : stop.kind = .mark .semicolon → ClassRest [stop]
  | definition {opener closer stop : Token} {body : List Token} : opener.kind = .mark .openBrace →
      Derives .body body → closer.kind = .mark .closeBrace → stop.kind = .mark .semicolon →
      ClassRest (opener :: (body ++ [closer, stop]))

/-- What follows the colon behind the name of a class. -/
def BaseRest (ts : List Token) : Prop :=
  ∃ (base : Token) (rest : List Token), base.kind = .word ∧ ClassRest rest ∧ ts = base :: rest

/-- What follows the name of a class. -/
def HeadRest (ts : List Token) : Prop :=
  ClassRest ts ∨ ∃ (colon : Token) (rest : List Token), colon.kind = .mark .colon ∧ BaseRest rest ∧
    ts = colon :: rest

/-- What follows the assignment to a name with brackets. -/
def ListRest (ts : List Token) : Prop :=
  ∃ (list : List Token) (stop : Token), Derives .list list ∧ stop.kind = .mark .semicolon ∧
    ts = list ++ [stop]

/-- What follows the brackets behind a name. -/
def AssignmentRest (ts : List Token) : Prop :=
  ∃ (sign : Token) (rest : List Token), (sign.kind = .mark .equals ∨
    sign.kind = .mark .plusEquals) ∧
    ListRest rest ∧ ts = sign :: rest

/-- What follows the opening bracket behind a name. -/
def BracketRest (ts : List Token) : Prop :=
  ∃ (closer : Token) (rest : List Token), closer.kind = .mark .closeBracket ∧ AssignmentRest rest ∧
    ts = closer :: rest

/-- What follows the first tokens of a text value, of which `parts` are read. -/
def ValueRest (parts ts : List Token) : Prop :=
  ∃ (more : List Token) (stop : Token), parts ++ more ≠ [] ∧ (∀ t ∈ more, t.isScalarPart) ∧
    stop.kind = .mark .semicolon ∧ ts = more ++ [stop]

/-- What follows the start of an item of a list with `depth` lists around it. -/
def ItemsRest (depth : Nat) (ts : List Token) : Prop :=
  ∃ (items : List Token) (t : Token) (rest : List Token), Derives .items items ∧
    t.kind = .mark .closeBrace ∧ ListsRest depth rest ∧ ts = items ++ t :: rest

/-- What the rules demand for the statement in progress to be complete. -/
def Finishes : Awaiting → List Token → Prop
  | .statement, ts => ts = []
  | .className, ts => ∃ (name : Token) (rest : List Token), name.kind = .word ∧ HeadRest rest ∧
      ts = name :: rest
  | .classHead _, ts => HeadRest ts
  | .baseName _, ts => BaseRest ts
  | .classBody .., ts => ClassRest ts
  | .classEnd _, ts | .deleteEnd _, ts | .listEnd .., ts => ListsRest 0 ts
  | .deletedName, ts => ∃ (name : Token) (rest : List Token), name.kind = .word ∧ ListsRest 0 rest ∧
      ts = name :: rest
  | .variableHead _, ts => (∃ (sign : Token) (rest : List Token), sign.kind = .mark .equals ∧
      ValueRest [] rest ∧ ts = sign :: rest) ∨
      ∃ (opener : Token) (rest : List Token), opener.kind = .mark .openBracket ∧ BracketRest rest ∧
        ts = opener :: rest
  | .bracket _, ts => BracketRest ts
  | .listAssignment _, ts => AssignmentRest ts
  | .listStart _, ts => ListRest ts
  | .item _ lists _, ts => ItemsRest lists.length ts
  | .itemPart _ lists _ _, ts => ∃ more rest, (∀ t ∈ more, t.isElementPart) ∧
      ListsRest (lists.length + 1) rest ∧ ts = more ++ rest
  | .separator _ lists _, ts => ListsRest (lists.length + 1) ts
  | .value _ parts, ts => ValueRest parts ts

/-- What the rules demand once the statement in progress is complete: for each open body its rest
and its end. -/
def BodiesRest : List OpenBody → List Token → Prop
  | [], ts => Derives .body ts
  | _ :: outer, ts => ∃ (body : List Token) (closer stop : Token) (ts' : List Token),
      Derives .body body ∧ closer.kind = .mark .closeBrace ∧ stop.kind = .mark .semicolon ∧
      BodiesRest outer ts' ∧ ts = body ++ closer :: stop :: ts'

/-- Whether a row of tokens is what the rules demand of a reader. -/
def Completes (r : Reader) (ts : List Token) : Prop :=
  ∃ xs ys, Finishes r.awaiting xs ∧ BodiesRest r.outer ys ∧ ts = xs ++ ys

/-! ### Backwards over one token -/

theorem BodiesRest.skip {outer : List OpenBody} {t : Token} {ts : List Token}
    (ht : t.kind = .mark .semicolon) (h : BodiesRest outer ts) : BodiesRest outer (t :: ts) := by
  cases outer with
  | nil => exact .bodySkip ht h
  | cons o outer =>
    obtain ⟨body, closer, stop, ts', hbody, hc, hs, hrest, rfl⟩ := h
    exact ⟨t :: body, closer, stop, ts', .bodySkip ht hbody, hc, hs, hrest, rfl⟩

theorem BodiesRest.next {outer : List OpenBody} {xs ts : List Token} (hx : Derives .statement xs)
    (h : BodiesRest outer ts) : BodiesRest outer (xs ++ ts) := by
  cases outer with
  | nil => exact .bodyNext hx h
  | cons o outer =>
    obtain ⟨body, closer, stop, ts', hbody, hc, hs, hrest, rfl⟩ := h
    exact ⟨xs ++ body, closer, stop, ts', .bodyNext hx hbody, hc, hs, hrest, by
      rw [List.append_assoc]⟩

theorem statement_of_classRest {head rest : List Token} (hhead : ClassHead head)
    (h : ClassRest rest) :
    Derives .statement (head ++ rest) := by
  cases h with
  | declaration hstop => exact .declaration hhead hstop
  | definition ho hb hc hs => exact .definition hhead ho hb hc hs

theorem statement_of_headRest {k name : Token} {rest : List Token} (hk : k.kind = .word)
    (hc : k.text = "class") (hn : name.kind = .word) (h : HeadRest rest) :
    Derives .statement (k :: name :: rest) := by
  rcases h with h | ⟨colon, _, hcolon, ⟨base, rest, hb, h, rfl⟩, rfl⟩
  · exact statement_of_classRest (.plain hk hc hn) h
  · exact statement_of_classRest (.derived hk hc hn hcolon hb) h

theorem itemsRest_of_item {depth : Nat} {xs rest : List Token} (hx : Derives .item xs)
    (h : ListsRest (depth + 1) rest) : ItemsRest depth (xs ++ rest) := by
  obtain ⟨front, ts', hfront, hrest, rfl⟩ := h
  cases hfront with
  | close ht => exact ⟨xs, _, ts', .lastItem hx, ht, hrest, by simp⟩
  | @more comma t items hcomma hitems ht =>
    exact ⟨xs ++ comma :: items, t, ts', .moreItems hx hcomma hitems, ht, hrest, by simp⟩

theorem itemsRest_of_close {depth : Nat} {t : Token} {rest : List Token}
    (ht : t.kind = .mark .closeBrace) (h : ListsRest depth rest) : ItemsRest depth (t :: rest) :=
  ⟨[], t, rest, .noItems, ht, h, rfl⟩

theorem listsRest_of_close {depth : Nat} {t : Token} {rest : List Token}
    (ht : t.kind = .mark .closeBrace) (h : ListsRest depth rest) :
    ListsRest (depth + 1) (t :: rest) :=
  ⟨[t], rest, .close ht, h, rfl⟩

theorem listsRest_of_comma {depth : Nat} {t : Token} {rest : List Token}
    (ht : t.kind = .mark .comma) (h : ItemsRest depth rest) :
    ListsRest (depth + 1) (t :: rest) := by
  obtain ⟨items, closer, ts', hitems, hc, hrest, rfl⟩ := h
  exact ⟨t :: (items ++ [closer]), ts', .more ht hitems hc, hrest, by simp⟩

theorem listsRest_of_closeList {r : Reader} {target : ListTarget} {lists : List (List Value)}
    {vs : List Value} {xs : List Token} (h : Finishes (r.closeList target lists vs).awaiting xs) :
    ListsRest lists.length xs := by
  cases lists with
  | nil => exact h
  | cons around lists => exact h

@[simp] theorem Reader.outer_closeList (r : Reader) (target : ListTarget)
    (lists : List (List Value)) (vs : List Value) :
    (r.closeList target lists vs).outer = r.outer := by
  cases lists <;> rfl

theorem Completes.cons {r next : Reader} {t : Token} {ts : List Token} (h : Completes next ts)
    (houter : next.outer = r.outer)
    (hf : ∀ xs, Finishes next.awaiting xs → Finishes r.awaiting (t :: xs)) :
    Completes r (t :: ts) := by
  obtain ⟨xs, ys, hx, hy, rfl⟩ := h
  exact ⟨t :: xs, ys, hf xs hx, houter ▸ hy, rfl⟩

theorem Completes.move {r moved next : Reader} {now : Awaiting} {t : Token} {ts : List Token}
    (h : Completes next ts) (hstep : (.ok moved : Except Cause Reader) = .ok next)
    (hr : r.awaiting = now) (houter : moved.outer = r.outer)
    (hf : ∀ xs, Finishes moved.awaiting xs → Finishes now (t :: xs)) : Completes r (t :: ts) := by
  rw [← Except.ok.inj hstep] at h
  exact h.cons houter (hr ▸ hf)

theorem Completes.close {r moved next : Reader} {now : Awaiting} {t : Token} {ts : List Token}
    (h : Completes next ts) (hstep : (.ok moved : Except Cause Reader) = .ok next)
    (hr : r.awaiting = now) (houter : moved.outer = r.outer) (hclosed : moved.awaiting = .statement)
    (hf : Finishes now [t]) :
    Completes r (t :: ts) := by
  refine h.move hstep hr houter fun xs hx ↦ ?_
  rw [hclosed] at hx
  obtain rfl : xs = [] := hx
  exact hf

theorem Completes.begin {r next : Reader} {t : Token} {ts : List Token} (h : Completes next ts)
    (hr : r.awaiting = .statement) (houter : next.outer = r.outer)
    (hd : ∀ xs, Finishes next.awaiting xs → Derives .statement (t :: xs)) :
    Completes r (t :: ts) := by
  obtain ⟨xs, ys, hx, hy, rfl⟩ := h
  have hrest : BodiesRest r.outer (t :: xs ++ ys) := BodiesRest.next (hd xs hx) (houter ▸ hy)
  exact ⟨[], t :: xs ++ ys, by rw [hr]; exact rfl, hrest, rfl⟩

theorem Completes.enter {r : Reader} {name : Name} {base : Option String} {t : Token}
    {ts : List Token} (h : Completes (r.enter name base) ts) (ht : t.kind = .mark .openBrace)
    (hf : ∀ xs, ClassRest xs → Finishes r.awaiting xs) : Completes r (t :: ts) := by
  obtain ⟨xs, ys, hx, hy, rfl⟩ := h
  obtain rfl : xs = [] := hx
  obtain ⟨body, closer, stop, ts', hbody, hc, hs, hrest, rfl⟩ := hy
  exact ⟨t :: (body ++ [closer, stop]), ts', hf _ (.definition ht hbody hc hs), hrest, by simp⟩

theorem completes_of_stepStatement {r next : Reader} {t : Token} {ts : List Token}
    (hr : r.awaiting = .statement) (hstep : r.stepStatement t = .ok next) (h : Completes next ts) :
    Completes r (t :: ts) := by
  rw [Reader.stepStatement] at hstep
  split at hstep
  · next ht =>
    cases houter : r.outer with
    | nil => simp [houter] at hstep
    | cons around outer =>
      simp only [houter, Except.ok.injEq] at hstep
      obtain ⟨xs, ys, hx, hy, rfl⟩ := h
      rw [← hstep] at hx hy
      obtain ⟨stop, hs, rfl⟩ := hx
      refine ⟨[], t :: stop :: ys, by rw [hr]; exact rfl, ?_, rfl⟩
      rw [houter]
      exact ⟨[], t, stop, ys, .bodyEnd, ht, hs, hy, rfl⟩
  · next ht =>
    obtain rfl : r = next := by simpa using hstep
    obtain ⟨xs, ys, hx, hy, rfl⟩ := h
    rw [hr] at hx
    obtain rfl : xs = [] := hx
    exact ⟨[], t :: ys, by rw [hr]; exact rfl, hy.skip ht, rfl⟩
  · next ht =>
    split at hstep
    · next hclass =>
      rw [← Except.ok.inj hstep] at h
      refine h.begin hr rfl ?_
      rintro _ ⟨name, rest, hn, hrest, rfl⟩
      exact statement_of_headRest ht hclass hn hrest
    split at hstep
    · next hclass hdelete =>
      rw [← Except.ok.inj hstep] at h
      refine h.begin hr rfl ?_
      rintro _ ⟨name, _, hn, ⟨stop, hs, rfl⟩, rfl⟩
      exact .deletion ht hdelete hn hs
    · next hclass hdelete =>
      rw [← Except.ok.inj hstep] at h
      refine h.begin hr rfl ?_
      rintro _ (⟨sign, _, hsign, ⟨value, stop, hne, hvalue, hs, rfl⟩, rfl⟩ |
        ⟨opener, _, ho, ⟨closer, _, hc, ⟨sign, _, hsign, ⟨list, stop, hlist, hs, rfl⟩, rfl⟩, rfl⟩,
          rfl⟩)
      · exact .scalar ⟨ht, hclass, hdelete⟩ hsign hne hvalue hs
      · exact .array ⟨ht, hclass, hdelete⟩ ho hc hsign hlist hs
  · simp at hstep

theorem completes_of_stepItem {r next : Reader} {target : ListTarget} {lists : List (List Value)}
    {items : List Value} {t : Token} {ts : List Token} (hr : r.awaiting = .item target lists items)
    (hstep : r.stepItem target lists items t = .ok next) (h : Completes next ts) :
    Completes r (t :: ts) := by
  rw [Reader.stepItem] at hstep
  split at hstep
  · next ht =>
    exact h.move hstep hr (Reader.outer_closeList r target lists items) fun xs hx ↦
      itemsRest_of_close ht (listsRest_of_closeList hx)
  · next ht =>
    refine h.move hstep hr rfl fun xs hx ↦ ?_
    obtain ⟨inner, closer, rest, hinner, hc, hrest, rfl⟩ := hx
    have hitem : Derives .item (t :: (inner ++ [closer])) := .nested (.list ht hinner hc)
    rw [Finishes]
    simpa using itemsRest_of_item hitem hrest
  · simp at hstep
  · simp at hstep
  · simp at hstep
  · simp at hstep
  · simp at hstep
  · next h₁ h₂ h₃ h₄ h₅ h₆ h₇ =>
    have ht : t.isElementPart := by
      rcases hk : t.kind with _ | v | m
      · exact .inl hk
      · exact .inr (.inl ⟨v, hk⟩)
      · cases m <;> simp_all [Token.isElementPart]
    refine h.move hstep hr rfl fun xs hx ↦ ?_
    obtain ⟨more, rest, hmore, hrest, rfl⟩ := hx
    have hitem : Derives .item (t :: more) := .element (by simp) (by simpa using ⟨ht, hmore⟩)
    exact itemsRest_of_item hitem hrest

theorem completes_of_stepItemPart {r next : Reader} {target : ListTarget}
    {lists : List (List Value)} {items : List Value} {parts : List Token} {t : Token}
    {ts : List Token} (hr : r.awaiting = .itemPart target lists items parts)
    (hstep : r.stepItemPart target lists items parts t = .ok next) (h : Completes next ts) :
    Completes r (t :: ts) := by
  rw [Reader.stepItemPart] at hstep
  split at hstep
  · next ht =>
    exact h.move hstep hr (Reader.outer_closeList ..) fun xs hx ↦
      ⟨[], t :: xs, by simp, listsRest_of_close ht (listsRest_of_closeList hx), rfl⟩
  · next ht =>
    exact h.move hstep hr rfl fun xs hx ↦ ⟨[], t :: xs, by simp, listsRest_of_comma ht hx, rfl⟩
  · simp at hstep
  · simp at hstep
  · simp at hstep
  · simp at hstep
  · simp at hstep
  · next h₁ h₂ h₃ h₄ h₅ h₆ h₇ =>
    have ht : t.isElementPart := by
      rcases hk : t.kind with _ | v | m
      · exact .inl hk
      · exact .inr (.inl ⟨v, hk⟩)
      · cases m <;> simp_all [Token.isElementPart]
    refine h.move hstep hr rfl fun xs hx ↦ ?_
    obtain ⟨more, rest, hmore, hrest, rfl⟩ := hx
    exact ⟨t :: more, rest, by simpa using ⟨ht, hmore⟩, hrest, rfl⟩

theorem completes_of_stepValue {r next : Reader} {name : String} {parts : List Token} {t : Token}
    {ts : List Token} (hr : r.awaiting = .value name parts)
    (hstep : r.stepValue name parts t = .ok next) (h : Completes next ts) :
    Completes r (t :: ts) := by
  rw [Reader.stepValue] at hstep
  split at hstep
  · next ht =>
    split at hstep
    · simp at hstep
    · next hne =>
      exact h.close hstep hr rfl rfl ⟨[], t, by simpa using hne, by simp, ht, rfl⟩
  · simp at hstep
  · simp at hstep
  · simp at hstep
  · simp at hstep
  · next h₁ h₂ h₃ h₄ h₅ =>
    have ht : t.isScalarPart := by
      rcases hk : t.kind with _ | v | m
      · exact .inl hk
      · exact .inr (.inl ⟨v, hk⟩)
      · cases m <;> simp_all [Token.isScalarPart]
    refine h.move hstep hr rfl fun xs hx ↦ ?_
    obtain ⟨more, stop, -, hmore, hs, rfl⟩ := hx
    exact ⟨t :: more, stop, by simp, by simpa using ⟨ht, hmore⟩, hs, rfl⟩

/-- **A step backwards.** What the rules demand after a step and the token of the step are together
what they demand before it. -/
theorem completes_of_step {r next : Reader} {t : Token} {ts : List Token}
    (hstep : r.step t = .ok next) (h : Completes next ts) : Completes r (t :: ts) := by
  rw [Reader.step] at hstep
  cases hr : r.awaiting <;> simp only [hr] at hstep
  case statement => exact completes_of_stepStatement hr hstep h
  case item => exact completes_of_stepItem hr hstep h
  case itemPart => exact completes_of_stepItemPart hr hstep h
  case value => exact completes_of_stepValue hr hstep h
  case className | baseName | deletedName | bracket =>
    split at hstep
    · next ht => exact h.move hstep hr rfl fun xs hx ↦ ⟨t, xs, ht, hx, rfl⟩
    · simp at hstep
  case classHead name =>
    split at hstep
    · next ht => exact h.move hstep hr rfl fun xs hx ↦ .inr ⟨t, xs, ht, hx, rfl⟩
    · next ht => exact h.close hstep hr rfl rfl (.inl (.declaration ht))
    · next ht =>
      rw [← Except.ok.inj hstep] at h
      exact h.enter ht fun xs hx ↦ by rw [hr]; exact .inl hx
    · simp at hstep
  case classBody =>
    split at hstep
    · next ht => exact h.close hstep hr rfl rfl (.declaration ht)
    · next ht =>
      rw [← Except.ok.inj hstep] at h
      exact h.enter ht fun xs hx ↦ by rw [hr]; exact hx
    · simp at hstep
  case classEnd | deleteEnd | listEnd =>
    split at hstep
    · next ht => exact h.close hstep hr rfl rfl ⟨t, ht, rfl⟩
    · simp at hstep
  case variableHead =>
    split at hstep
    · next ht => exact h.move hstep hr rfl fun xs hx ↦ .inr ⟨t, xs, ht, hx, rfl⟩
    · next ht => exact h.move hstep hr rfl fun xs hx ↦ .inl ⟨t, xs, ht, hx, rfl⟩
    · simp at hstep
    · simp at hstep
  case listAssignment =>
    split at hstep
    · next ht => exact h.move hstep hr rfl fun xs hx ↦ ⟨t, xs, .inl ht, hx, rfl⟩
    · next ht => exact h.move hstep hr rfl fun xs hx ↦ ⟨t, xs, .inr ht, hx, rfl⟩
    · simp at hstep
  case listStart =>
    split at hstep
    · next ht =>
      refine h.move hstep hr rfl fun xs hx ↦ ?_
      obtain ⟨items, closer, _, hitems, hc, ⟨stop, hs, rfl⟩, rfl⟩ := hx
      exact ⟨t :: (items ++ [closer]), stop, .list ht hitems hc, hs, by simp⟩
    · simp at hstep
  case separator =>
    split at hstep
    · next ht => exact h.move hstep hr rfl fun xs hx ↦ listsRest_of_comma ht hx
    · next ht =>
      exact h.move hstep hr (Reader.outer_closeList ..) fun xs hx ↦
        listsRest_of_close ht (listsRest_of_closeList hx)
    · simp at hstep

theorem Reader.eq_of_finish {r : Reader} {ss : List Statement} (h : r.finish = .ok ss) :
    r.awaiting = .statement ∧ r.outer = [] := by
  cases hr : r.awaiting <;> simp [Reader.finish, hr] at h
  case statement =>
    split at h
    · next houter => exact ⟨rfl, houter⟩
    · simp at h

/-- A row of tokens and what the rules demand of the reader after it are together what they demand
of the reader before it. -/
theorem completes_of_run {r last : Reader} {ts rest : List Token} (hrun : r.run ts = .ok last)
    (h : Completes last rest) : Completes r (ts ++ rest) := by
  induction ts generalizing r with
  | nil =>
    obtain rfl : r = last := by simpa [Reader.run] using hrun
    exact h
  | cons t ts ih =>
    rw [Reader.run] at hrun
    cases hstep : r.step t with
    | error cause => simp [hstep] at hrun
    | ok next =>
      rw [hstep] at hrun
      exact completes_of_step hstep (ih hrun)

theorem completes_nil_of_finish {r : Reader} {ss : List Statement} (h : r.finish = .ok ss) :
    Completes r [] := by
  obtain ⟨hr, houter⟩ := Reader.eq_of_finish h
  exact ⟨[], [], by rw [hr]; exact rfl, by rw [houter]; exact .bodyEnd, rfl⟩

theorem derives_of_completes {ts : List Token} (h : Completes {} ts) : Derives .body ts := by
  obtain ⟨_, ys, rfl, hrest, rfl⟩ := h
  exact hrest

theorem derives_of_readStatements {file : String} {tokens : List Token}
    {statements : List Statement} (h : readStatements file tokens = .ok statements) :
    Derives .body tokens := by
  rw [readStatements] at h
  cases hrun : ({} : Reader).run tokens with
  | error e => simp [hrun] at h
  | ok last =>
    rw [hrun] at h
    cases hfinish : last.finish with
    | error cause => simp [hfinish] at h
    | ok ss =>
      have hall := derives_of_completes (completes_of_run hrun (completes_nil_of_finish hfinish))
      rwa [List.append_nil] at hall

theorem readStatements_of_derives {tokens : List Token} (h : Derives .body tokens) (file : String) :
    ∃ statements, readStatements file tokens = .ok statements := by
  obtain ⟨ss, hss⟩ := Reader.reads_of_derives h [] []
  exact ⟨ss, by simp [readStatements, hss, Reader.finish]⟩

/-- **The reader and the rules agree.** A row of tokens is read as statements exactly if the rules
derive the whole of it as a body. -/
theorem readStatements_isOk_iff_derives (file : String) (tokens : List Token) :
    (∃ statements, readStatements file tokens = .ok statements) ↔ Derives .body tokens :=
  ⟨fun ⟨_, h⟩ ↦ derives_of_readStatements h, fun h ↦ readStatements_of_derives h file⟩

end MissionIndex.Config
