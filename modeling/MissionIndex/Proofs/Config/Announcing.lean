import MissionIndex.Proofs.Config.Rows
import MissionIndex.Proofs.Config.Surroundings

/-!
# Announcing a class

A class may be announced before it is defined: it is declared without a base, which other classes
can then be derived from. The announcement makes the class, and the class is empty. When the
definition follows, the class is there already, and so it is not started again: its base is written
down, but nothing is copied from it.

So an announcement can be left out just if there is nothing to copy, be it that the definition has
no base, that the base is not known, or that it holds nothing (`announced_starts_empty`). In all
other cases the class loses what it would have had from its base (`base_not_copied_of_announced`).
-/

namespace MissionIndex.Config

open Text

/-! ## Statements that have nothing to do with a class -/

/-- A statement declares, opens or deletes the class of a key in the body in which it stands. -/
def Statement.Handles (key : String) : Statement → Prop
  | .declare name _ | .define name _ _ => lower name.text = key
  | .delete name => lower name = key
  | .assign _ _ | .assignList _ _ _ => False

namespace ConfigClass

variable {key : String} {c : ConfigClass}

theorem lookup_without {other : String} (h : other ≠ key) (c : ConfigClass) :
    (c.without key).body.classes.lookup other = c.body.classes.lookup other :=
      Ordered.lookup_erase_of_ne h _

theorem without_fill {k : String} (h : k ≠ key) (c d : ConfigClass) :
    (Surrounding.fill ⟨c, k⟩ d).without key = Surrounding.fill ⟨c.without key, k⟩ d := by
  have herase := Ordered.erase_put_of_ne h d c.body.classes
  simp only [without, Surrounding.fill, Body.setClass, Body.eraseClass, herase]

theorem without_fill_self (h : c.body.classes.lookup key = none) (d : ConfigClass) :
    (Surrounding.fill ⟨c, key⟩ d).without key = c := by
  have herase : Ordered.erase key (Ordered.put key d c.body.classes) = c.body.classes := by
    rw [Ordered.erase_put_self, Ordered.erase_of_lookup_eq_none h]
  obtain ⟨name, base, location, body⟩ := c
  simp only [without, Surrounding.fill, Body.setClass, Body.eraseClass, herase]

end ConfigClass

/-- A class that is not looked for, or that is open itself, may be left out of the class around. -/
theorem lookAlike_without {sought : String → Prop} {key k : String}
    (h : ∀ other, sought other → other ≠ k → other ≠ key) (c : ConfigClass) :
    LookAlike sought [⟨c, k⟩] [⟨c.without key, k⟩] := by
  intro other hother d
  rw [ConfigClass.visible?_cons, ConfigClass.visible?_cons, ConfigClass.visible?_nil,
    ConfigClass.visible?_nil]
  have hlookup : (Surrounding.fill ⟨c, k⟩ d).body.classes.lookup other
      = (Surrounding.fill ⟨c.without key, k⟩ d).body.classes.lookup other := by
    by_cases hk : other = k
    · rw [hk]
      exact (Ordered.lookup_put_self k d _).trans (Ordered.lookup_put_self k d _).symm
    · exact (Ordered.lookup_put_of_ne hk d _).trans
        ((ConfigClass.lookup_without (h other hother hk) c).symm.trans
          (Ordered.lookup_put_of_ne hk d _).symm)
  rw [hlookup]

namespace Statement

variable {key : String}

/-- A class is left as it is by statements that do not handle it. -/
theorem lookup_effect (s : Statement) (h : ¬ s.Handles key) (around : List Surrounding)
    (c : ConfigClass) :
    (s.effect around c).body.classes.lookup key = c.body.classes.lookup key := by
  cases s with
  | assign name value =>
    rw [effect]
    rfl
  | assignList name append items =>
    rw [effect]
    cases append <;> rfl
  | declare name base =>
    rw [effect]
    split
    · rfl
    · exact Ordered.lookup_put_of_ne (Ne.symm h) ..
  | define name base body =>
    rw [effect]
    exact Ordered.lookup_put_of_ne (Ne.symm h) ..
  | delete name =>
    rw [effect]
    exact Ordered.lookup_erase_of_ne (Ne.symm h) _

theorem lookup_effectAll {ss : List Statement} (h : ∀ s ∈ ss, ¬ s.Handles key)
    (around : List Surrounding) (c : ConfigClass) :
    (effectAll around c ss).body.classes.lookup key = c.body.classes.lookup key := by
  induction ss generalizing c with
  | nil => rw [effectAll]
  | cons s rest ih =>
    obtain ⟨hs, hrest⟩ := List.forall_mem_cons.mp h
    rw [effectAll, ih hrest, lookup_effect s hs]

/-- Statements of a file that neither handle a class nor derive from it do the same without it. -/
theorem without_effect (s : Statement) (hhandles : ¬ s.Handles key) (hseeks : ¬ s.Seeks key)
    (c : ConfigClass) :
    (s.effect [] c).without key = s.effect [] (c.without key) := by
  cases s with
  | assign name value =>
    rw [effect, effect]
    rfl
  | assignList name append items =>
    rw [effect, effect]
    cases append <;> rfl
  | declare name base =>
    have hstarted : c.started [] name base = (c.without key).started [] name base := by
      refine ConfigClass.started_congr fun b hb ↦ ?_
      have hne : lower b ≠ key := fun he ↦ hseeks (Option.mem_def.mp hb ▸ .declare he)
      rw [ConfigClass.visible?_nil, ConfigClass.visible?_nil, ConfigClass.lookup_without hne]
    rw [effect, effect, ConfigClass.lookup_without hhandles, hstarted]
    split
    · rfl
    · exact ConfigClass.without_fill hhandles c _
  | define name base body =>
    have hreopened : c.reopened [] name base = (c.without key).reopened [] name base := by
      refine ConfigClass.reopened_congr (ConfigClass.lookup_without hhandles c).symm fun b hb ↦ ?_
      have hne : lower b ≠ key := fun he ↦ hseeks (Option.mem_def.mp hb ▸ .define he)
      rw [ConfigClass.visible?_nil, ConfigClass.visible?_nil, ConfigClass.lookup_without hne]
    have halike : LookAlike (· ≠ key) [⟨c, lower name.text⟩] [⟨c.without key, lower name.text⟩] :=
      lookAlike_without (fun _ hother _ ↦ hother) c
    rw [effect, effect, ConfigClass.without_fill hhandles, hreopened, effectAll_congr body halike]
    exact fun s hs other hother he ↦ hseeks (.within hs (he ▸ hother))
  | delete name =>
    have herase := Ordered.erase_comm hhandles c.body.classes
    simp only [effect, ConfigClass.without, Body.eraseClass, herase]

theorem without_effectAll {ss : List Statement} (h : ∀ s ∈ ss, ¬ s.Handles key ∧ ¬ s.Seeks key)
    (c : ConfigClass) :
    (effectAll [] c ss).without key = effectAll [] (c.without key) ss := by
  induction ss generalizing c with
  | nil => rw [effectAll, effectAll]
  | cons s rest ih =>
    obtain ⟨⟨hhandles, hseeks⟩, hrest⟩ := List.forall_mem_cons.mp h
    rw [effectAll, effectAll, ih hrest, without_effect s hhandles hseeks]

end Statement

/-! ## New classes -/

namespace ConfigClass

variable {c : ConfigClass} {name : String} {location : Location}

theorem reopened_of_new (hnew : c.body.classes.lookup (lower name) = none) (base : Option String) :
    c.reopened [] ⟨name, location⟩ base = c.started [] ⟨name, location⟩ base := by
  rw [reopened, hnew]

theorem reopened_eq_withBase_iff (hnew : c.body.classes.lookup (lower name) = none)
    (base : Option String) :
    c.reopened [] ⟨name, location⟩ base = (c.reopened [] ⟨name, location⟩ none).withBase base
      ↔ ∀ b ∈ base, ∀ held ∈ c.body.classes.lookup (lower b), held.body = {} := by
  rw [reopened_of_new hnew, reopened_of_new hnew, started_eq, started_eq, withBase]
  cases base with
  | none => simp
  | some b =>
    rw [Option.bind_some, visible?_nil]
    cases hlookup : c.body.classes.lookup (lower b) <;> simp [hlookup]

end ConfigClass

/-! ## Behind an announcement -/

section Announced

variable {c : ConfigClass} {name : String} {location : Location} {qs : List Statement}

/-- Behind its announcement, a class stands empty in a file that is the same otherwise. -/
theorem effectAll_announced (hnew : c.body.classes.lookup (lower name) = none)
    (hqs : ∀ s ∈ qs, ¬ s.Handles (lower name) ∧ ¬ s.Seeks (lower name)) :
    (Statement.effectAll [] c (.declare ⟨name, location⟩ none :: qs)).without (lower name)
        = Statement.effectAll [] c qs ∧
      (Statement.effectAll [] c (.declare ⟨name, location⟩ none :: qs)).body.classes.lookup
        (lower name)
        = some { name, location } := by
  have hdeclare : Statement.effect [] c (.declare ⟨name, location⟩ none)
      = Surrounding.fill ⟨c, lower name⟩ { name, location } := by
    rw [Statement.effect, hnew]
    rfl
  constructor
  · have hsame : (Statement.effect [] c (.declare ⟨name, location⟩ none)).without (lower name)
        = c := by
      rw [hdeclare, ConfigClass.without_fill_self hnew]
    rw [Statement.effectAll, Statement.without_effectAll hqs, hsame]
  · rw [Statement.effectAll, Statement.lookup_effectAll fun s hs ↦ (hqs s hs).1, hdeclare]
    exact Ordered.lookup_put_self ..

/-- The definition of an announced class gives what it gives without the announcement and without
the base, and the base is written down. -/
theorem effectAll_define_announced (hnew : c.body.classes.lookup (lower name) = none)
    (hqs : ∀ s ∈ qs, ¬ s.Handles (lower name) ∧ ¬ s.Seeks (lower name)) (base : Option String)
    (ss : List Statement) :
    let announced := Statement.effectAll [] c (.declare ⟨name, location⟩ none :: qs)
    let plain := Statement.effectAll [] c qs
    Statement.effectAll [⟨announced, lower name⟩] (announced.reopened [] ⟨name, location⟩ base) ss
      = (Statement.effectAll [⟨plain, lower name⟩] (plain.reopened [] ⟨name, location⟩ none)
        ss).withBase base := by
  intro announced plain
  obtain ⟨hwithout, hfound⟩ := effectAll_announced hnew hqs
  have hplain : plain.body.classes.lookup (lower name) = none :=
    (Statement.lookup_effectAll (fun s hs ↦ (hqs s hs).1) [] c).trans hnew
  -- The one has been announced, and is found empty. The other is new, and has no base.
  have hstart : announced.reopened [] ⟨name, location⟩ base
      = (plain.reopened [] ⟨name, location⟩ none).withBase base := by
    rw [ConfigClass.reopened_of_new hplain, ConfigClass.reopened, hfound]
    dsimp only
    rw [Option.or_none]
    rfl
  have halike : LookAlike (fun _ ↦ True) [⟨announced, lower name⟩] [⟨plain, lower name⟩] := by
    have hleft : LookAlike (fun _ ↦ True) [⟨announced, lower name⟩]
        [⟨announced.without (lower name), lower name⟩] :=
          lookAlike_without (fun _ _ h ↦ h) announced
    rwa [hwithout] at hleft
  rw [hstart, Statement.effectAll_congr ss halike fun _ _ _ _ ↦ trivial,
    Statement.effectAll_base ss (blindToBase_singleton _)]

end Announced

/-! ## In a file -/

/-- What stands in a file before any statements. -/
def emptyRoot : ConfigClass := { name := "", location := default }

section InFile

variable {front between body : List Token} {fs bs ss : List Statement} {name : String}

theorem classOf?_definition (hfront : statementsOf? front = some fs)
    (hbody : statementsOf? body = some ss) (name : String) (base : Option String) :
    classOf? (front ++ definition name base body) name
      = some (Statement.effectAll [⟨Statement.effectAll [] emptyRoot fs, lower name⟩]
          ((Statement.effectAll [] emptyRoot fs).reopened [] ⟨name, default⟩ base) ss) := by
  have hall := statementsOf?_append hfront (statementsOf?_definition hbody name base)
  rw [classOf?, treeOf?_eq_of_statementsOf? hall, Option.bind_some, ConfigClass.child?,
    Statement.effectAll_append]
  exact Ordered.lookup_put_self ..

theorem lookup_effectAll_emptyRoot (hfs : ∀ s ∈ fs, ¬ s.Handles (lower name)) :
    (Statement.effectAll [] emptyRoot fs).body.classes.lookup (lower name) = none := by
  rw [Statement.lookup_effectAll hfs]
  rfl

theorem name_base_of_classOf?_definition (hfront : statementsOf? front = some fs)
    (hfs : ∀ s ∈ fs, ¬ s.Handles (lower name)) (hbody : (statementsOf? body).isSome)
    {base : Option String} {c : ConfigClass}
    (hc : classOf? (front ++ definition name base body) name = some c) :
    c.name = name ∧ c.base = base := by
  obtain ⟨ss, hss⟩ := Option.isSome_iff_exists.mp hbody
  rw [classOf?_definition hfront hss] at hc
  obtain rfl := Option.some.inj hc
  rw [(Statement.effectAll_name_location ss _ _).1,
    Statement.base_effectAll ss (blindToBase_singleton _),
    ConfigClass.reopened_of_new (lookup_effectAll_emptyRoot hfs), ConfigClass.started_eq]
  exact ⟨rfl, rfl⟩

/-- Behind its announcement, a class is what it is without the announcement and without a base,
apart from the name of the base. -/
theorem classOf?_announced (hfront : statementsOf? front = some fs)
    (hfs : ∀ s ∈ fs, ¬ s.Handles (lower name)) (hbetween : statementsOf? between = some bs)
    (hbs : ∀ s ∈ bs, ¬ s.Handles (lower name) ∧ ¬ s.Seeks (lower name))
    (hbody : (statementsOf? body).isSome) (base : Option String) :
    classOf? (front ++ declaration name none ++ between ++ definition name base body) name
      = (classOf? (front ++ between ++ definition name none body) name).map (·.withBase base) := by
  obtain ⟨ss, hss⟩ := Option.isSome_iff_exists.mp hbody
  have hannounced : statementsOf? (front ++ declaration name none ++ between)
      = some (fs ++ .declare ⟨name, default⟩ none :: bs) := by
    rw [← List.singleton_append, ← List.append_assoc]
    exact statementsOf?_append (statementsOf?_append hfront (statementsOf?_declaration name none))
      hbetween
  rw [classOf?_definition hannounced hss,
    classOf?_definition (statementsOf?_append hfront hbetween) hss, Option.map_some,
    Statement.effectAll_append, Statement.effectAll_append]
  exact congrArg some (effectAll_define_announced (lookup_effectAll_emptyRoot hfs) hbs base ss)

end InFile

/-- **A class that has been announced starts out empty, whatever its base.** Files have the trees of
their rows of tokens. Let a class be neither declared nor opened nor deleted by the statements in
front of its announcement, nor by those between it and the definition, which do not derive from it
either. Then a file has a tree with the announcement just if it has one without it. The class has
the same name and the same base in both; but behind the announcement it holds what it holds if the
definition has no base.

So the announcement makes no difference to the class, whatever is in the body of its definition,
just if there is nothing to copy: there is no base, or the base is not known, or it holds
nothing. -/
theorem announced_starts_empty {name : String} {base : Option String} {front between : List Token}
    {fs bs : List Statement} (hfront : statementsOf? front = some fs)
    (hfs : ∀ s ∈ fs, ¬ s.Handles (lower name)) (hbetween : statementsOf? between = some bs)
    (hbs : ∀ s ∈ bs, ¬ s.Handles (lower name) ∧ ¬ s.Seeks (lower name)) :
    (∀ {ε : Type} (sources : Sources ε) (path : String) (row : List Token),
      sources.Expands path row →
        (sources.parse path).result.toOption.map ConfigClass.unplaced = treeOf? row) ∧
      (∀ rest, (treeOf? (front ++ declaration name none ++ rest)).isSome
        = (treeOf? (front ++ rest)).isSome) ∧
      (∀ body, (statementsOf? body).isSome → ∃ announced plain bare,
        classOf? (front ++ declaration name none ++ between ++ definition name base body) name
          = some announced ∧
        classOf? (front ++ between ++ definition name base body) name = some plain ∧
        classOf? (front ++ between ++ definition name none body) name = some bare ∧
        announced.name = plain.name ∧ announced.base = plain.base ∧ announced.body = bare.body) ∧
      ((∀ body, (statementsOf? body).isSome →
          classOf? (front ++ declaration name none ++ between ++ definition name base body) name
            = classOf? (front ++ between ++ definition name base body) name) ↔
        ∀ b ∈ base, ∀ held ∈ classOf? (front ++ between) b, held.body = {}) := by
  have hboth := statementsOf?_append hfront hbetween
  have hall : ∀ s ∈ fs ++ bs, ¬ s.Handles (lower name) :=
    List.forall_mem_append.mpr ⟨hfs, fun s hs ↦ (hbs s hs).1⟩
  have hnew := lookup_effectAll_emptyRoot hall
  refine ⟨fun sources _ _ ↦ sources.parse_of_expands, fun rest ↦ ?_, fun body hbody ↦ ?_, ?_⟩
  · have hannounced := statementsOf?_append hfront (statementsOf?_declaration name none)
    rw [treeOf?, treeOf?, Option.isSome_map, Option.isSome_map,
      isSome_statementsOf?_append hannounced, isSome_statementsOf?_append hfront]
  · have hannounced := classOf?_announced hfront hfs hbetween hbs hbody base
    obtain ⟨ss, hss⟩ := Option.isSome_iff_exists.mp hbody
    have hplain := classOf?_definition hboth hss name base
    have hbare := classOf?_definition hboth hss name none
    rw [hbare, Option.map_some] at hannounced
    obtain ⟨hname, hbase⟩ := name_base_of_classOf?_definition hboth hall hbody hplain
    obtain ⟨hname', -⟩ := name_base_of_classOf?_definition hboth hall hbody hbare
    exact ⟨_, _, _, hannounced, hplain, hbare, hname'.trans hname.symm, hbase.symm, rfl⟩
  · have hheld : (∀ b ∈ base, ∀ held ∈ classOf? (front ++ between) b, held.body = {})
        ↔ (Statement.effectAll [] emptyRoot (fs ++ bs)).reopened [] ⟨name, default⟩ base
          = ((Statement.effectAll [] emptyRoot (fs ++ bs)).reopened [] ⟨name, default⟩
              none).withBase base := by
      rw [ConfigClass.reopened_eq_withBase_iff hnew]
      simp only [classOf?, treeOf?_eq_of_statementsOf? hboth, Option.bind_some]
      rfl
    rw [hheld]
    constructor
    · intro hsame
      -- An empty body shows what the class starts out with.
      have hempty : statementsOf? [] = some [] := rfl
      have h := hsame [] rfl
      rw [classOf?_announced hfront hfs hbetween hbs rfl, classOf?_definition hboth hempty,
        classOf?_definition hboth hempty, Option.map_some, Statement.effectAll, Statement.effectAll]
        at h
      exact (Option.some.inj h).symm
    · intro hstart body hbody
      obtain ⟨ss, hss⟩ := Option.isSome_iff_exists.mp hbody
      rw [classOf?_announced hfront hfs hbetween hbs hbody, classOf?_definition hboth hss,
        classOf?_definition hboth hss, Option.map_some, hstart,
        Statement.effectAll_base ss (blindToBase_singleton _)]

/-- A class is derived from one with a variable, behind another class that is only announced. -/
theorem announced_starts_empty_between : ∃ announced plain bare,
    classOf? (definition "B" none [wordSign "a", markSign .equals, wordSign "1",
      markSign .semicolon]
      ++ declaration "X" none ++ declaration "Y" none ++ definition "X" (some "B") []) "X"
        = some announced ∧
    classOf? (definition "B" none [wordSign "a", markSign .equals, wordSign "1",
      markSign .semicolon]
      ++ declaration "Y" none ++ definition "X" (some "B") []) "X" = some plain ∧
    classOf? (definition "B" none [wordSign "a", markSign .equals, wordSign "1",
      markSign .semicolon]
      ++ declaration "Y" none ++ definition "X" none []) "X" = some bare ∧
    announced.name = plain.name ∧ announced.base = plain.base ∧ announced.body = bare.body := by
  have hvariable : statementsOf? [wordSign "a", markSign .equals, wordSign "1", markSign .semicolon]
      = some [.assign "a" "1"] := rfl
  have hfront := statementsOf?_definition hvariable "B" none
  have hbetween := statementsOf?_declaration "Y" none
  have hfs : ∀ s ∈ [Statement.define ⟨"B", default⟩ none [.assign "a" "1"]],
      ¬ s.Handles (lower "X") := by
    intro s hs
    obtain rfl := List.mem_singleton.mp hs
    exact (by decide +kernel : lower "B" ≠ lower "X")
  have hbs : ∀ s ∈ [Statement.declare ⟨"Y", default⟩ none],
      ¬ s.Handles (lower "X") ∧ ¬ s.Seeks (lower "X") := by
    intro s hs
    obtain rfl := List.mem_singleton.mp hs
    exact ⟨(by decide +kernel : lower "Y" ≠ lower "X"), by rintro ⟨⟩⟩
  obtain ⟨_, _, hclass, _⟩ := announced_starts_empty hfront hfs hbetween hbs
  exact hclass [] rfl

/-- Two files with a class that is derived from one with a variable. In the first of them, it has
been announced. -/
def announcement : Sources Empty where
  disk.files :=
    [(["announced.hpp"],
      .bytes (encodeUtf8 "class B\x7ba=1;\x7d;class X;class X:B\x7b\x7d;".toList)),
      (["plain.hpp"], .bytes (encodeUtf8 "class B\x7ba=1;\x7d;class X:B\x7b\x7d;".toList))]

/-- Both classes are derived from the base, as it is written down, but the one that was announced
has nothing of it. -/
theorem base_not_copied_of_announced :
    ((announcement.parse "/announced.hpp").result.toOption.bind (·.child? "X")).map
        (fun x ↦ (x.base, x.body.values.map Prod.fst)) = some (some "B", []) ∧
      ((announcement.parse "/plain.hpp").result.toOption.bind (·.child? "X")).map
        (fun x ↦ (x.base, x.body.values.map Prod.fst)) = some (some "B", ["a"]) :=
  ⟨by decide +kernel, by decide +kernel⟩

end MissionIndex.Config
