import MissionIndex.Config.Execution

/-!
# What statements mean

A statement executed in a class gives another class: nothing is changed in place, and a class is
nothing but its contents. The classes around the one at hand come along as *surroundings*, each as
it was when the class inside it was opened. Filled with the class at hand, the surroundings are
these classes as they are at the moment, which is where a base is looked for.

Here a derived class has no tie to its base, since both are values. `descend?_effectAll` says what
follows: statements change no class that they do not reach by its own path, whatever classes it was
derived from and whatever was derived from it.
-/

namespace MissionIndex.Config

open Text

/-! ## Surroundings -/

/-- A class around an open one, and the key under which the open one is stored in it. -/
structure Surrounding where
  outer : ConfigClass
  key : String
deriving Repr

/-- The class around when the open one is `inner`. -/
def Surrounding.fill (e : Surrounding) (inner : ConfigClass) : ConfigClass :=
  { e.outer with body := e.outer.body.setClass e.key inner }

namespace ConfigClass

/-- The class stored under `key` in the innermost of a class and the classes around it that has
one. -/
def visible? (key : String) : List Surrounding → ConfigClass → Option ConfigClass
  | [], c => c.body.classes.lookup key
  | e :: around, c => (c.body.classes.lookup key).or (visible? key around (e.fill c))

/-- A class as it starts out: with the contents of the nearest class of its base's name, or empty
where it has no base or the base is not known. -/
def started (around : List Surrounding) (c : ConfigClass) (name : Name) (base : Option String) :
    ConfigClass :=
  { name := name.text, base, location := name.location
    body := match base.bind fun b ↦ visible? (lower b) around c with
      | some b => b.body
      | none => {} }

/-- A class whose definition is opened. One that is known already keeps its name and contents, moves
to the new place, and takes the new base only if there is one. -/
def reopened (around : List Surrounding) (c : ConfigClass) (name : Name) (base : Option String) :
    ConfigClass :=
  match c.body.classes.lookup (lower name.text) with
  | some old => { old with location := name.location, base := base.or old.base }
  | none => c.started around name base

end ConfigClass

/-! ## Statements -/

mutual

/-- What a class is after a statement in its body. -/
def Statement.effect (around : List Surrounding) (c : ConfigClass) : Statement → ConfigClass
  | .assign name value => { c with body := c.body.setVariable (lower name) (.text value) }
  | .assignList name append items =>
    { c with body :=
        if append then c.body.appendVariable (lower name) items
        else c.body.setVariable (lower name) (.list items) }
  | .declare name base =>
    match c.body.classes.lookup (lower name.text) with
    | some _ => c
    | none => { c with body := c.body.setClass (lower name.text) (c.started around name base) }
  | .define name base body =>
    let e : Surrounding := ⟨c, lower name.text⟩
    e.fill (Statement.effectAll (e :: around) (c.reopened around name base) body)
  | .delete name => { c with body := c.body.eraseClass (lower name) }

/-- What a class is after statements in its body, one after another. -/
def Statement.effectAll (around : List Surrounding) (c : ConfigClass) : List Statement → ConfigClass
  | [] => c
  | statement :: rest => Statement.effectAll around (statement.effect around c) rest

end

/-! ## What statements leave alone -/

/-- A statement can change the class that a path of names leads to from the body of the statement:
it opens the class, or a class on the way with such a statement in it, or it deletes one of them. -/
inductive Statement.Reaches : Statement → List String → Prop
  | body {statement : Statement} : statement.Reaches []
  | opened {name : Name} {base : Option String} {body : List Statement} {asked : String} :
      lower name.text = lower asked → (Statement.define name base body).Reaches [asked]
  | within {name : Name} {base : Option String} {body : List Statement} {asked : String}
      {rest : List String} {statement : Statement} : lower name.text = lower asked →
        statement ∈ body →
      statement.Reaches rest → (Statement.define name base body).Reaches (asked :: rest)
  | deleted {name asked : String} {rest : List String} :
      lower name = lower asked → (Statement.delete name).Reaches (asked :: rest)

namespace ConfigClass

theorem descend?_cons_eq_some {c cls : ConfigClass} {name : String} {rest : List String} :
    c.descend? (name :: rest) = some cls ↔
      ∃ child, c.body.classes.lookup (lower name) = some child ∧
      child.descend? rest = some cls := by
  rw [descend?, child?, Option.bind_eq_some_iff]

theorem descend?_congr {c c' : ConfigClass} (h : c.body = c'.body) {path : List String}
    (hpath : path ≠ []) : c.descend? path = c'.descend? path := by
  cases path with
  | nil => exact absurd rfl hpath
  | cons name rest => rw [descend?, descend?, child?, child?, h]

end ConfigClass

mutual

/-- A statement leaves the classes alone that it does not reach. -/
theorem Statement.descend?_effect (statement : Statement) {path : List String}
    (hreach : ¬statement.Reaches path) (around : List Surrounding) {c cls : ConfigClass}
    (h : c.descend? path = some cls) : (statement.effect around c).descend? path = some cls := by
  cases path with
  | nil => exact absurd .body hreach
  | cons asked rest =>
    obtain ⟨child, hchild, hrest⟩ := ConfigClass.descend?_cons_eq_some.mp h
    refine ConfigClass.descend?_cons_eq_some.mpr ?_
    cases statement with
    | assign name value => exact ⟨child, by simpa [effect, Body.setVariable] using hchild, hrest⟩
    | assignList name append items =>
      refine ⟨child, ?_, hrest⟩
      cases append <;> simpa [effect, Body.appendVariable, Body.setVariable] using hchild
    | declare name base =>
      refine ⟨child, ?_, hrest⟩
      rw [effect]
      split
      · exact hchild
      · next hnew =>
        have hne : lower asked ≠ lower name.text := fun he ↦ by
          rw [he, hnew] at hchild
          cases hchild
        exact (Ordered.lookup_put_of_ne hne _ _).trans hchild
    | define name base body =>
      -- Only a definition of a class on the path could matter, and its body does not reach the
      -- class asked for.
      by_cases hname : lower name.text = lower asked
      · have hpath : rest ≠ [] := fun he ↦ hreach (he ▸ .opened hname)
        have hbody : ∀ s ∈ body, ¬s.Reaches rest := fun s hs hr ↦ hreach (.within hname hs hr)
        refine ⟨_, by rw [effect, ← hname]; exact Ordered.lookup_put_self .., ?_⟩
        have hsame : (c.reopened around name base).body = child.body := by
          rw [ConfigClass.reopened, hname, hchild]
        exact Statement.descend?_effectAll body hbody _
          ((ConfigClass.descend?_congr hsame hpath).trans hrest)
      · refine ⟨child, ?_, hrest⟩
        rw [effect]
        exact (Ordered.lookup_put_of_ne (Ne.symm hname) _ _).trans hchild
    | delete name =>
      have hne : lower asked ≠ lower name := fun he ↦ hreach (.deleted he.symm)
      exact ⟨child, (Ordered.lookup_erase_of_ne hne _).trans hchild, hrest⟩

theorem Statement.descend?_effectAll (statements : List Statement) {path : List String}
    (hreach : ∀ s ∈ statements, ¬s.Reaches path) (around : List Surrounding) {c cls : ConfigClass}
    (h : c.descend? path = some cls) :
    (Statement.effectAll around c statements).descend? path = some cls := by
  cases statements with
  | nil => rwa [effectAll]
  | cons s rest =>
    rw [effectAll]
    exact Statement.descend?_effectAll rest (fun t ht ↦ hreach t (List.mem_cons_of_mem s ht)) around
      (Statement.descend?_effect s (hreach s List.mem_cons_self) around h)

end

end MissionIndex.Config
