import MissionIndex.Proofs.Config.Provenance

/-!
# What statements see around them

Statements change the class at hand, and of the classes around it they see one thing: what a base
holds that is looked for there. So surroundings in which each base that is looked for holds the same
are as good as each other (`Statement.effectAll_congr`). Of the class at hand itself, only the body
is seen and changed: its base is a name that is written down and never asked for again
(`Statement.effectAll_base`).
-/

namespace MissionIndex.Config

open Text

namespace ConfigClass

/-- A class with the name of another base written down. -/
def withBase (base : Option String) (c : ConfigClass) : ConfigClass := { c with base }

def without (key : String) (c : ConfigClass) : ConfigClass :=
  { c with body := c.body.eraseClass key }

theorem visible?_nil (key : String) (c : ConfigClass) :
    visible? key [] c = c.body.classes.lookup key := rfl

theorem visible?_cons (key : String) (e : Surrounding) (around : List Surrounding)
    (c : ConfigClass) :
    visible? key (e :: around) c
      = (c.body.classes.lookup key).or (visible? key around (e.fill c)) := rfl

/-- What a base holds is seen alike by two classes that hold the same themselves, if it is seen
alike around them. -/
theorem map_body_visible?_cons {key : String} {e e' : Surrounding}
    {around around' : List Surrounding} {c c' : ConfigClass} (hbody : c.body = c'.body)
    (h : (visible? key around (e.fill c)).map body = (visible? key around' (e'.fill c')).map body) :
    (visible? key (e :: around) c).map body = (visible? key (e' :: around') c').map body := by
  rw [visible?_cons, visible?_cons, hbody]
  cases c'.body.classes.lookup key with
  | some found => rfl
  | none =>
    rw [Option.none_or, Option.none_or]
    exact h

end ConfigClass

/-! ## Bases that are looked for -/

/-- Somewhere in a statement, a class is derived from the class of a key. -/
inductive Statement.Seeks (key : String) : Statement → Prop
  | declare {name : Name} {base : String} :
  lower base = key → (Statement.declare name (some base)).Seeks key
  | define {name : Name} {base : String} {body : List Statement} : lower base = key →
      (Statement.define name (some base) body).Seeks key
  | within {name : Name} {base : Option String} {body : List Statement} {statement : Statement} :
      statement ∈ body → statement.Seeks key → (Statement.define name base body).Seeks key

/-- Two lists of surroundings look alike to the class inside of them, as far as some keys are looked
for: in both, the nearest class of such a key holds the same. -/
def LookAlike (sought : String → Prop) (around around' : List Surrounding) : Prop :=
  ∀ key, sought key → ∀ c, (ConfigClass.visible? key around c).map ConfigClass.body
    = (ConfigClass.visible? key around' c).map ConfigClass.body

namespace LookAlike

variable {sought : String → Prop} {around around' : List Surrounding}

theorem push (h : LookAlike sought around around') (e : Surrounding) :
    LookAlike sought (e :: around) (e :: around') := by
  intro key hkey c
  exact ConfigClass.map_body_visible?_cons rfl (h key hkey (e.fill c))

theorem of_fill {e e' : Surrounding} (h : ∀ c, e.fill c = e'.fill c) (around : List Surrounding) :
    LookAlike sought (e :: around) (e' :: around) := by
  intro key _ c
  exact ConfigClass.map_body_visible?_cons rfl (by rw [h])

end LookAlike

namespace ConfigClass

variable {around around' : List Surrounding} {c c' : ConfigClass}

theorem started_eq (around : List Surrounding) (c : ConfigClass) (name : Name)
    (base : Option String) :
    c.started around name base
      = { name := name.text, base, location := name.location
          body := ((base.bind fun b ↦ visible? (lower b) around c).map body).getD {} } := by
  rw [started]
  cases base.bind fun b ↦ visible? (lower b) around c <;> rfl

theorem started_congr {name : Name} {base : Option String}
    (h : ∀ b ∈ base, (visible? (lower b) around c).map body
      = (visible? (lower b) around' c').map body) :
    c.started around name base = c'.started around' name base := by
  rw [started_eq, started_eq]
  cases base with
  | none => rfl
  | some b => rw [Option.bind_some, Option.bind_some, h b rfl]

theorem reopened_congr {name : Name} {base : Option String}
    (hlookup : c.body.classes.lookup (lower name.text) = c'.body.classes.lookup (lower name.text))
    (h : ∀ b ∈ base, (visible? (lower b) around c).map body
      = (visible? (lower b) around' c').map body) :
    c.reopened around name base = c'.reopened around' name base := by
  rw [reopened, reopened, hlookup, started_congr h]

end ConfigClass

mutual

/-- **Surroundings that look alike are as good as each other.** -/
theorem Statement.effect_congr (statement : Statement) {sought : String → Prop}
    {around around' : List Surrounding} (halike : LookAlike sought around around')
    (hsought : ∀ key, statement.Seeks key → sought key) (c : ConfigClass) :
    statement.effect around c = statement.effect around' c := by
  cases statement with
  | declare name base =>
    have hstarted : c.started around name base = c.started around' name base := by
      refine ConfigClass.started_congr fun b hb ↦ halike _ (hsought _ ?_) c
      rw [Option.mem_def.mp hb]
      exact .declare rfl
    rw [effect, effect, hstarted]
  | define name base body =>
    have hreopened : c.reopened around name base = c.reopened around' name base := by
      refine ConfigClass.reopened_congr rfl fun b hb ↦ halike _ (hsought _ ?_) c
      rw [Option.mem_def.mp hb]
      exact .define rfl
    rw [effect, effect, hreopened]
    refine congrArg _ (Statement.effectAll_congr body (halike.push _) (fun s hs key hkey ↦ ?_) _)
    exact hsought key (.within hs hkey)
  | assign name value | assignList name append items | delete name => rw [effect, effect]

theorem Statement.effectAll_congr (statements : List Statement) {sought : String → Prop}
    {around around' : List Surrounding} (halike : LookAlike sought around around')
    (hsought : ∀ s ∈ statements, ∀ key, s.Seeks key → sought key) (c : ConfigClass) :
    Statement.effectAll around c statements = Statement.effectAll around' c statements := by
  cases statements with
  | nil => rw [effectAll, effectAll]
  | cons s rest =>
    obtain ⟨hs, hrest⟩ := List.forall_mem_cons.mp hsought
    rw [effectAll, effectAll, Statement.effect_congr s halike hs,
      Statement.effectAll_congr rest halike hrest]

end

theorem Statement.effectAll_append (around : List Surrounding) (c : ConfigClass)
    (ss ss' : List Statement) :
    Statement.effectAll around c (ss ++ ss')
      = Statement.effectAll around (Statement.effectAll around c ss) ss' := by
  induction ss generalizing c with
  | nil => rw [List.nil_append, effectAll]
  | cons s rest ih => rw [List.cons_append, effectAll, effectAll, ih]

theorem Statement.effectAll_between {ss ss' : List Statement}
    (h : ∀ around c, Statement.effectAll around c ss = Statement.effectAll around c ss')
    (before after : List Statement) (around : List Surrounding) (c : ConfigClass) :
    Statement.effectAll around c (before ++ ss ++ after)
      = Statement.effectAll around c (before ++ ss' ++ after) := by
  simp only [Statement.effectAll_append, h]

/-! ## The base of the class at hand -/

/-- What is seen in surroundings does not depend on the base that is written down in the class
inside of them. -/
def BlindToBase (around : List Surrounding) : Prop :=
  ∀ key base c, (ConfigClass.visible? key around (c.withBase base)).map ConfigClass.body
    = (ConfigClass.visible? key around c).map ConfigClass.body

theorem blindToBase_singleton (e : Surrounding) : BlindToBase [e] := by
  intro key base c
  refine ConfigClass.map_body_visible?_cons rfl ?_
  rw [ConfigClass.visible?_nil, ConfigClass.visible?_nil]
  by_cases hkey : key = e.key
  · have hself : ∀ d, (e.fill d).body.classes.lookup key = some d := by
      intro d
      rw [hkey]
      exact Ordered.lookup_put_self ..
    rw [hself, hself]
    rfl
  · have hother : ∀ d, (e.fill d).body.classes.lookup key = e.outer.body.classes.lookup key :=
        fun d ↦
      Ordered.lookup_put_of_ne hkey ..
    rw [hother, hother]

theorem Statement.effect_base (statement : Statement) {around : List Surrounding}
    (hblind : BlindToBase around) (base : Option String) (c : ConfigClass) :
    statement.effect around (c.withBase base) = (statement.effect around c).withBase base := by
  have hbody : (c.withBase base).body = c.body := rfl
  cases statement with
  | declare name b =>
    have hstarted : (c.withBase base).started around name b = c.started around name b :=
      ConfigClass.started_congr fun _ _ ↦ hblind _ base c
    rw [effect, effect, hbody, hstarted]
    cases c.body.classes.lookup (lower name.text) <;> rfl
  | define name b body =>
    have hreopened : (c.withBase base).reopened around name b = c.reopened around name b :=
      ConfigClass.reopened_congr rfl fun _ _ ↦ hblind _ base c
    have halike : LookAlike (fun _ ↦ True) (⟨c.withBase base, lower name.text⟩ :: around)
        (⟨c, lower name.text⟩ :: around) := by
      intro key _ d
      have hfill : Surrounding.fill ⟨c.withBase base, lower name.text⟩ d
          = (Surrounding.fill ⟨c, lower name.text⟩ d).withBase base := rfl
      refine ConfigClass.map_body_visible?_cons rfl ?_
      rw [hfill]
      exact hblind key base _
    rw [effect, effect, hreopened, Statement.effectAll_congr body halike fun _ _ _ _ ↦ trivial]
    rfl
  | assign name value | assignList name append items | delete name =>
    rw [effect, effect]
    rfl

/-- **The base of a class makes no difference to the statements in it**, once the class has started
out. -/
theorem Statement.effectAll_base (statements : List Statement) {around : List Surrounding}
    (hblind : BlindToBase around) (base : Option String) (c : ConfigClass) :
    Statement.effectAll around (c.withBase base) statements
      = (Statement.effectAll around c statements).withBase base := by
  induction statements generalizing c with
  | nil => rw [effectAll, effectAll]
  | cons s rest ih => rw [effectAll, effectAll, Statement.effect_base s hblind, ih]

theorem Statement.base_effectAll (statements : List Statement) {around : List Surrounding}
    (hblind : BlindToBase around) (c : ConfigClass) :
    (Statement.effectAll around c statements).base = c.base := by
  have hsame : c.withBase c.base = c := by
    obtain ⟨name, base, location, body⟩ := c
    rfl
  calc (Statement.effectAll around c statements).base
      = (Statement.effectAll around (c.withBase c.base) statements).base := by rw [hsame]
    _ = c.base := by
        rw [Statement.effectAll_base statements hblind]
        rfl

end MissionIndex.Config
