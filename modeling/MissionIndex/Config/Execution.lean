import MissionIndex.Config.Tree

/-!
# Executing statements

Statements build a tree of classes by changing it in place. While they do, a class is an object in a
*store*, known by its address: the class around it refers to it by that address, and so does whoever
is filling it, and all of them see every change of it. Only what is copied is apart.

## Scopes

A statement is executed in the body of the class at an address. The addresses of the classes around
it, from the inside out, are at hand as well, since a base is looked for in all of these bodies.
They are the open classes, so a base can be a class that is still being filled. A derived class
starts with a deep copy of what its base holds at that moment.
-/

namespace MissionIndex.Config

open Text

/-! ## Bodies -/

namespace Body

variable {κ : Type}

def setVariable (key : String) (value : Value) (body : Body κ) : Body κ :=
  { body with values := Ordered.put key value body.values }

/-- Appends items to a variable, which starts out empty if it is no list. -/
def appendVariable (key : String) (items : List Value) (body : Body κ) : Body κ :=
  let before := match body.values.lookup key with
    | some (.list old) => old
    | _ => []
  body.setVariable key (.list (before ++ items))

def setClass (key : String) (c : κ) (body : Body κ) : Body κ :=
  { body with classes := Ordered.put key c body.classes }

def eraseClass (key : String) (body : Body κ) : Body κ :=
  { body with classes := Ordered.erase key body.classes }

end Body

/-! ## Stores -/

/-- The place of an object in a store. -/
abbrev Address := Nat

/-- A class as an object. Its child classes are objects of their own. -/
structure Node where
  name : String := ""
  base : Option String := none
  location : Location
  body : Body Address := {}
deriving Repr, Inhabited

/-- The objects made so far, by address. -/
structure Store where
  nodes : Array Node
deriving Repr, Inhabited

namespace Store

variable (s : Store)

/-- The number of objects. -/
def size : Nat := s.nodes.size

def node (a : Address) : Node := s.nodes.getD a default

/-- Changes the object at an address in place. -/
def modify (a : Address) (f : Node → Node) : Store := ⟨s.nodes.modify a f⟩

def modifyBody (a : Address) (f : Body Address → Body Address) : Store :=
  s.modify a fun n ↦ { n with body := f n.body }

/-- Makes a new object. -/
def make (n : Node) : Address × Store := (s.nodes.size, ⟨s.nodes.push n⟩)

/-- Copies the classes of a body one after another, where `copyOne` copies one of them. -/
def copyAll (copyOne : Address → Store → Address × Store) :
    List (String × Address) → Store → List (String × Address) × Store
  | [], s => ([], s)
  | (key, a) :: rest, s =>
    let (copied, s) := copyOne a s
    let (others, s) := copyAll copyOne rest s
    ((key, copied) :: others, s)

/-- Copies a class with everything in it that is less than `depth` levels below it. -/
def copyWithin : Nat → Address → Store → Address × Store
  | 0, _, s => s.make default
  | depth + 1, a, s =>
    let n := s.node a
    let (classes, s) := copyAll (copyWithin depth) n.body.classes s
    s.make { n with body := { n.body with classes } }

/-- Copies the body of a class with everything in it. Classes do not contain each other, so there
are not more levels than objects. -/
def copyBody (a : Address) : Body Address × Store :=
  let body := (s.node a).body
  let (classes, copied) := copyAll (copyWithin s.size) body.classes s
  ({ body with classes }, copied)

/-- The tree of a class, with everything in it that is less than `depth` levels below it. -/
def treeWithin : Nat → Address → ConfigClass
  | 0, _ => default
  | depth + 1, a =>
    let n := s.node a
    { name := n.name, base := n.base, location := n.location
      body := { values := n.body.values
                classes := n.body.classes.map fun (key, c) ↦ (key, treeWithin depth c) } }

def tree (a : Address) : ConfigClass := s.treeWithin s.size a

/-! ## Classes -/

/-- The class stored under `key` in the first of the given bodies that has one. -/
def nearest? (key : String) (scopes : List Address) : Option Address :=
  scopes.findSome? fun a ↦ (s.node a).body.classes.lookup key

/-- Makes a class as it starts out: with a copy of the contents of the nearest class of its base's
name, or empty where it has no base or the base is not known. -/
def newClass (scopes : List Address) (name : Name) (base : Option String) : Address × Store :=
  match base.bind fun b ↦ s.nearest? (lower b) scopes with
  | some a =>
    let (body, s) := s.copyBody a
    s.make { name := name.text, base, location := name.location, body }
  | none => s.make { name := name.text, base, location := name.location }

/-- Adds a class under a key that is new to the body at an address. -/
def addClass (here : Address) (around : List Address) (name : Name) (base : Option String) :
    Address × Store :=
  let (a, s) := s.newClass (here :: around) name base
  (a, s.modifyBody here (Body.setClass (lower name.text) a))

/-- Declares a class. A class that is known already stays as it is. -/
def declareClass (here : Address) (around : List Address) (name : Name) (base : Option String) :
    Store :=
  match (s.node here).body.classes.lookup (lower name.text) with
  | some _ => s
  | none => (s.addClass here around name base).2

/-- Opens the definition of a class. A class that is known already keeps its name and contents,
moves to the new place, and takes the new base only if there is one. -/
def openClass (here : Address) (around : List Address) (name : Name) (base : Option String) :
    Address × Store :=
  match (s.node here).body.classes.lookup (lower name.text) with
  | some a =>
    (a, s.modify a fun n ↦ { n with location := name.location, base := base.or n.base })
  | none => s.addClass here around name base

end Store

/-! ## Statements -/

mutual

/-- Executes one statement in the body at an address, with the bodies around it at hand. -/
def Statement.execute (here : Address) (around : List Address) (s : Store) : Statement → Store
  | .assign name value => s.modifyBody here (Body.setVariable (lower name) (.text value))
  | .assignList name append items =>
    s.modifyBody here
      (if append then Body.appendVariable (lower name) items
        else Body.setVariable (lower name) (.list items))
  | .declare name base => s.declareClass here around name base
  | .define name base body =>
    let (a, s) := s.openClass here around name base
    Statement.executeAll a (here :: around) s body
  | .delete name => s.modifyBody here (Body.eraseClass (lower name))

def Statement.executeAll (here : Address) (around : List Address) (s : Store) :
    List Statement → Store
  | [] => s
  | statement :: rest => Statement.executeAll here around (statement.execute here around s) rest

end

end MissionIndex.Config
