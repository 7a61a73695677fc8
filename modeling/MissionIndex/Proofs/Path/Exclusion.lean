import Mathlib.Data.List.Basic
import MissionIndex.Path.Exclusion
import MissionIndex.Proofs.Path.Glob
import MissionIndex.Proofs.Path.Normal

/-!
# Globs of names and `**` segments

A glob whose segments are names and `**`, with a name or `*` at its end, describes paths: each name
stands for itself, each `**` for any number of folders, and `*` for one name. Excluding by the glob
tries two readings of it, one in which each `**` stands for at least one folder, and one in which
each stands for none. So a path that the glob describes is excluded where all `**` segments agree on
this.

Two `**` segments need not agree. Then there are more slashes in the glob than in the path, so the
first reading fails, and the second fails at the first name behind the folder of a `**`. It only
holds there if no name follows, as the star at the end takes whatever is left. So the globs that
exclude all the paths that they describe can be told by their segments.
-/

namespace MissionIndex.Path

open Text

/-! ## Globs and the paths that they describe -/

/-- A name that stands for itself in an exclusion. A backslash does not, as it separates segments
there. -/
structure IsLiteral (name : String) : Prop where
  isName : IsName name.toList
  plain : ∀ c ∈ name.toList, IsPlain c
  noBackslash : '\\' ∉ name.toList

theorem isLiteral_iff {name : String} : IsLiteral name ↔
    IsName name.toList ∧ (∀ c ∈ name.toList, IsPlain c) ∧ '\\' ∉ name.toList := by
  constructor
  · intro h
    exact ⟨h.isName, h.plain, h.noBackslash⟩
  · rintro ⟨hname, hplain, hbackslash⟩
    exact ⟨hname, hplain, hbackslash⟩

instance : DecidablePred IsLiteral := fun name ↦
  haveI : Decidable (∀ c ∈ name.toList, IsPlain c) := List.decidableBAll IsPlain name.toList
  decidable_of_iff _ isLiteral_iff.symm

/-- The names that stand for themselves in an exclusion. -/
abbrev Literal := {name : String // IsLiteral name}

/-- A segment of a glob before its last one: a name, or `**`. -/
inductive GlobStep where
  | named (name : Literal)
  | deep
deriving DecidableEq

namespace GlobStep

/-- A segment as it is written. -/
def text : GlobStep → String
  | named name => name
  | deep => "**"

def name? : GlobStep → Option String
  | named name => some name
  | deep => none

/-- Whether a segment is a name. -/
def isNamed : GlobStep → Bool
  | named _ => true
  | deep => false

end GlobStep

/-- A glob of names and `**` segments with a name or `*` at its end. -/
structure DeepGlob where
  steps : List GlobStep
  /-- The name at the end, where there is one. -/
  last : Option Literal

/-- What names segments lead over, where the folders that each `**` stands for satisfy `P`. -/
inductive Leads (P : List String → Prop) : List GlobStep → List String → Prop
  | nil : Leads P [] []
  | named {steps : List GlobStep} {names : List String} (name : Literal)
      (rest : Leads P steps names) :
    Leads P (.named name :: steps) (name :: names)
  | deep {steps : List GlobStep} {names : List String} (folders : List String)
    (hfolders : ∀ folder ∈ folders, IsName folder.toList) (hP : P folders)
      (rest : Leads P steps names) :
    Leads P (.deep :: steps) (folders ++ names)

namespace DeepGlob

variable (g : DeepGlob)

def lastText : String := g.last.elim "*" Subtype.val

def text : String := "/".intercalate (g.steps.map GlobStep.text ++ [g.lastText])

/-- The paths that a glob describes, where the folders that each `**` stands for satisfy `P`. -/
def DescribesBy (P : List String → Prop) (path : String) : Prop :=
  ∃ (names : List String) (last : String), Leads P g.steps names ∧ IsName last.toList ∧
    (∀ name, g.last = some name → last = name.1) ∧ path = "/".intercalate (names ++ [last])

/-- The paths that a glob describes: each `**` stands for any number of folders, whatever the others
stand for. -/
def Describes (path : String) : Prop := g.DescribesBy (fun _ ↦ True) path

/-- A glob without its `**` segments. -/
def shallow : DeepGlob := { g with steps := g.steps.filter GlobStep.isNamed }

end DeepGlob

/-! ## Written forms -/

/-- The text of names with a slash behind each of them. -/
def below (names : List String) : List Char := names.flatMap fun name ↦ name.toList ++ ['/']

theorem below_append (names names' : List String) :
    below (names ++ names') = below names ++ below names' :=
  List.flatMap_append

theorem toList_intercalate_concat (names : List String) (last : String) :
    ("/".intercalate (names ++ [last])).toList = below names ++ last.toList := by
  rw [toList_intercalate_slash]
  induction names with
  | nil => rfl
  | cons name rest ih =>
    have hne : (rest ++ [last]).map String.toList ≠ [] := by simp
    rw [List.cons_append, List.map_cons, join_cons hne, ih, below, below, List.flatMap_cons,
      List.append_assoc, List.append_assoc, List.singleton_append]

theorem eq_nil_or_below (names : List String) :
    names = [] ∨ ∃ body, below names = body ++ ['/'] := by
  rcases List.eq_nil_or_concat' names with rfl | ⟨init, name, rfl⟩
  · exact .inl rfl
  · refine .inr ⟨below init ++ name.toList, ?_⟩
    rw [below_append, List.append_assoc]
    exact congrArg (below init ++ ·) (List.append_nil _)

theorem count_slash_below {names : List String} (h : ∀ name ∈ names, '/' ∉ name.toList) :
    (below names).count '/' = names.length := by
  induction names with
  | nil => rfl
  | cons name rest ih =>
    obtain ⟨hname, hrest⟩ := List.forall_mem_cons.mp h
    have hsplit : below (name :: rest) = name.toList ++ ['/'] ++ below rest := List.flatMap_cons
    rw [hsplit, List.count_append, List.count_append, List.count_eq_zero.mpr hname, ih hrest,
      List.length_cons, List.count_singleton_self, Nat.zero_add, Nat.add_comm]

theorem eq_of_append_slash {name name' rest rest' : List Char} (hname : '/' ∉ name)
    (hname' : '/' ∉ name') (h : name ++ '/' :: rest = name' ++ '/' :: rest') : name = name' := by
  have hsplit := congrArg (splitAt '/') h
  rw [splitAt_append, splitAt_append, splitAt_of_notMem hname, splitAt_of_notMem hname',
    List.singleton_append, List.singleton_append] at hsplit
  exact (List.cons.inj hsplit).1

namespace DeepGlob

/-- A glob is written without backslashes, and `.` is none of its segments. -/
theorem segment_facts (g : DeepGlob) : ∀ segment ∈ g.steps.map GlobStep.text ++ [g.lastText],
    segment ≠ "." ∧ '/' ∉ segment.toList ∧ '\\' ∉ segment.toList := by
  have hliteral : ∀ name : Literal, name.1 ≠ "." ∧ '/' ∉ name.1.toList ∧ '\\' ∉ name.1.toList := by
    intro name
    refine ⟨fun he ↦ name.2.isName.ne_dot ?_, name.2.isName.noSlash, name.2.noBackslash⟩
    rw [he]
    rfl
  intro segment hsegment
  rcases List.mem_append.mp hsegment with hsegment | hsegment
  · obtain ⟨step, -, rfl⟩ := List.mem_map.mp hsegment
    cases step with
    | named name => exact hliteral name
    | deep => decide
  · rw [List.mem_singleton.mp hsegment, lastText]
    cases g.last with
    | some name => exact hliteral name
    | none => decide

theorem toList_text (g : DeepGlob) :
    g.text.toList = below (g.steps.map GlobStep.text) ++ g.lastText.toList :=
  toList_intercalate_concat _ _

/-- A glob is read as it is written. -/
theorem tidyGlob_text (g : DeepGlob) : tidyGlob g.text.toList = g.text.toList := by
  have hsegments := g.segment_facts
  have hbackslash : '\\' ∉ g.text.toList := by
    rw [toList_text, List.mem_append, below, List.mem_flatMap]
    rintro (⟨segment, hsegment, hmem⟩ | hmem)
    · rcases List.mem_append.mp hmem with hmem | hmem
      · exact (hsegments segment (List.mem_append_left _ hsegment)).2.2 hmem
      · exact absurd (List.mem_singleton.mp hmem) (by decide)
    · exact (hsegments _ (List.mem_append_right _ (List.mem_singleton_self _))).2.2 hmem
  have hmap : g.text.toList.map (fun c ↦ if c = '\\' then '/' else c) = g.text.toList := by
    refine (List.map_congr_left fun c hc ↦ if_neg ?_).trans (List.map_id _)
    rintro rfl
    exact hbackslash hc
  rw [tidyGlob, hmap]
  split
  · next rest htext =>
    -- The first segment would be a dot.
    have hne : (g.steps.map GlobStep.text ++ [g.lastText]).map String.toList ≠ [] := by simp
    have hsplit : splitAt '/' g.text.toList
        = (g.steps.map GlobStep.text ++ [g.lastText]).map String.toList := by
      rw [text, toList_intercalate_slash]
      refine splitAt_join hne fun part hpart ↦ ?_
      obtain ⟨segment, hsegment, rfl⟩ := List.mem_map.mp hpart
      exact (hsegments segment hsegment).2.1
    have hdot : ['.'] ∈ splitAt '/' g.text.toList := by
      rw [htext]
      have hcut : splitAt '/' (['.'] ++ '/' :: rest) = splitAt '/' ['.'] ++ splitAt '/' rest :=
        splitAt_append ..
      have hone : splitAt '/' ['.'] = [['.']] := by decide
      rw [List.singleton_append] at hcut
      rw [hcut, hone]
      exact List.mem_cons_self
    rw [hsplit] at hdot
    obtain ⟨segment, hsegment, he⟩ := List.mem_map.mp hdot
    exact absurd (String.toList_inj.mp he) (hsegments segment hsegment).1
  · rfl

end DeepGlob

/-! ## Parts -/

/-- The parts of a glob that a segment and the slash behind it give. -/
def GlobStep.parts : GlobStep → List GlobPart
  | named name => name.1.toList.map .char ++ [.char '/']
  | deep => [.anyText, .char '/']

def DeepGlob.lastParts (g : DeepGlob) : List GlobPart :=
  g.last.elim [.anyText] fun name ↦ name.1.toList.map .char

theorem globParts_steps (steps : List GlobStep) (tail : List Char) :
    globParts (below (steps.map GlobStep.text) ++ tail) = steps.flatMap GlobStep.parts ++
      globParts tail := by
  have hslash : IsPlain '/' := by decide
  induction steps with
  | nil => rfl
  | cons step rest ih =>
    have hsplit : below ((step :: rest).map GlobStep.text) ++ tail
        = step.text.toList ++ '/' :: (below (rest.map GlobStep.text) ++ tail) := by
      rw [List.map_cons, below, List.flatMap_cons, List.append_assoc, List.append_assoc,
        List.singleton_append]
      rfl
    rw [hsplit, List.flatMap_cons, List.append_assoc, ← ih]
    generalize below (rest.map GlobStep.text) ++ tail = rest'
    cases step with
    | named name =>
      have hname : (GlobStep.named name).text.toList = name.1.toList := rfl
      rw [hname, globParts_append name.2.plain, globParts_cons_of_isPlain hslash, GlobStep.parts,
        List.append_assoc, List.singleton_append]
    | deep =>
      have hstars : GlobStep.deep.text.toList ++ '/' :: rest' = '*' :: '*' :: '/' :: rest' := rfl
      have hone : ('*' :: '/' :: rest').dropWhile (· == '*') = '/' :: rest' := by simp
      rw [hstars, globParts_star, hone, globParts_cons_of_isPlain hslash]
      rfl

namespace DeepGlob

variable (g : DeepGlob)

theorem globParts_lastText : globParts g.lastText.toList = g.lastParts := by
  have hnil : globParts [] = [] := by rw [globParts]
  rw [lastText, lastParts]
  cases g.last with
  | some name =>
    have happend := globParts_append name.2.plain []
    rwa [List.append_nil, hnil, List.append_nil] at happend
  | none =>
    have hstar : globParts ['*'] = .anyText :: globParts [] := globParts_star []
    rw [hnil] at hstar
    exact hstar

theorem globMatches_text (path : List Char) : globMatches g.text.toList path = true ↔
    GlobPart.matchAll (g.steps.flatMap GlobStep.parts ++ g.lastParts) path = true := by
  rw [globMatches, toList_text, globParts_steps, globParts_lastText]

end DeepGlob

/-! ## The two readings of a glob -/

theorem removeAll_append {pat cs : List Char} {c : Char} (h : c ∉ cs) (rest : List Char) :
    removeAll (c :: pat) (cs ++ rest) = cs ++ removeAll (c :: pat) rest := by
  induction cs with
  | nil => rfl
  | cons d cs ih =>
    rw [List.mem_cons, not_or] at h
    have hd : List.isPrefixOf (c :: pat) (d :: (cs ++ rest)) = false := by
      rw [List.isPrefixOf, beq_eq_false_iff_ne.mpr h.1, Bool.false_and]
    rw [List.cons_append, removeAll, hd, ih h.2, List.cons_append]
    rfl

theorem removeAll_steps (steps : List GlobStep) (tail : List Char) :
    removeAll ['*', '*', '/'] (below (steps.map GlobStep.text) ++ tail)
      = below ((steps.filter GlobStep.isNamed).map GlobStep.text) ++
        removeAll ['*', '*', '/'] tail := by
  induction steps with
  | nil => rfl
  | cons step rest ih =>
    have hsplit : ∀ steps : List GlobStep, below ((step :: steps).map GlobStep.text)
        = step.text.toList ++ ['/'] ++ below (steps.map GlobStep.text) := fun _ ↦ List.flatMap_cons
    rw [hsplit, List.append_assoc]
    cases step with
    | named name =>
      have hstar : '*' ∉ (GlobStep.named name).text.toList ++ ['/'] := by
        rw [List.mem_append, not_or]
        exact ⟨fun hmem ↦ (name.2.plain _ hmem).1 rfl, by decide⟩
      rw [removeAll_append hstar, ih, List.filter_cons_of_pos rfl, hsplit,
        List.append_assoc ((GlobStep.named name).text.toList ++ ['/'])]
    | deep =>
      rw [List.filter_cons_of_neg (by exact Bool.false_ne_true), ← ih]
      generalize below (rest.map GlobStep.text) ++ tail = rest'
      have hstars : GlobStep.deep.text.toList ++ ['/'] ++ rest' = '*' :: '*' :: '/' :: rest' := rfl
      rw [hstars, removeAll]
      rfl

namespace DeepGlob

variable (g : DeepGlob)

theorem removeAll_text : removeAll ['*', '*', '/'] g.text.toList = g.shallow.text.toList := by
  have hlast : removeAll ['*', '*', '/'] g.lastText.toList = g.lastText.toList := by
    have hnil : removeAll ['*', '*', '/'] [] = [] := by rw [removeAll]
    rw [lastText]
    cases g.last with
    | some name =>
      have hstar : '*' ∉ name.1.toList := fun hmem ↦ (name.2.plain _ hmem).1 rfl
      have happend : removeAll ['*', '*', '/'] (name.1.toList ++ []) = _ :=
        removeAll_append hstar []
      rwa [List.append_nil, hnil, List.append_nil] at happend
    | none =>
      have hstars : ¬List.isPrefixOf ['*', '*', '/'] ['*'] := by decide
      have hone : removeAll ['*', '*', '/'] ['*'] = ['*'] := by
        rw [removeAll, if_neg hstars, hnil]
      exact hone
  rw [toList_text, removeAll_steps, hlast, toList_text]
  rfl

/-- No `**` stands at the end of a glob. -/
theorem not_isSuffixOf_text : List.isSuffixOf ['/', '*', '*'] g.text.toList = false := by
  rw [← Bool.not_eq_true, List.isSuffixOf_iff_suffix, toList_text, lastText]
  rintro ⟨front, hfront⟩
  have hcut : front ++ ['/', '*', '*'] = front ++ ['/', '*'] ++ ['*'] := by simp
  rw [hcut] at hfront
  cases hlast : g.last with
  | some name =>
    obtain ⟨body, c, hc⟩ := (List.eq_nil_or_concat' name.1.toList).resolve_left name.2.isName.ne_nil
    have hplain : IsPlain c :=
      name.2.plain c (by rw [hc]; exact List.mem_append_right _ List.mem_cons_self)
    have htext : front ++ ['/', '*'] ++ ['*'] = below (g.steps.map GlobStep.text) ++
        body ++ [c] := by
      rw [hfront, List.append_assoc, ← hc, hlast]
      rfl
    exact hplain.1 (List.cons.inj (List.append_inj_right' htext rfl)).1.symm
  | none =>
    rw [hlast] at hfront
    -- What stands in front of the star at the end is empty or ends in a slash.
    have htext : front ++ ['/'] ++ ['*'] = below (g.steps.map GlobStep.text) := by
      rw [List.append_assoc]
      exact List.append_inj_left' hfront rfl
    rcases eq_nil_or_below (g.steps.map GlobStep.text) with hnil | ⟨body, hbody⟩
    · rw [hnil] at htext
      exact absurd htext (List.append_ne_nil_of_right_ne_nil _ (List.cons_ne_nil _ _))
    · rw [hbody] at htext
      exact absurd (List.append_inj_right' htext rfl) (by decide)

theorem isExcluded_iff (path : String) : isExcluded path [g.text] = true ↔
    globMatches g.text.toList path.toList = true ∨ globMatches g.shallow.text.toList path.toList
      = true := by
  simp only [isExcluded, List.any_cons, List.any_nil, Bool.or_false, tidyGlob_text, globVariants,
    not_isSuffixOf_text, removeAll_text]
  simp

end DeepGlob

/-! ## Paths that are excluded -/

/-- The names among segments. -/
def literals (steps : List GlobStep) : List String := steps.filterMap GlobStep.name?

theorem isName_of_mem_literals {steps : List GlobStep} :
    ∀ name ∈ literals steps, IsName name.toList := by
  intro name hname
  obtain ⟨step, -, hstep⟩ := List.mem_filterMap.mp hname
  cases step with
  | named literal =>
    obtain rfl := Option.some.inj hstep
    exact literal.2.isName
  | deep => cases hstep

theorem literals_split (front back : List GlobStep) :
    literals (front ++ .deep :: back) = literals front ++ literals back := by
  rw [literals, List.filterMap_append]
  rfl

theorem length_eq_literals_add (steps : List GlobStep) :
    steps.length = (literals steps).length + steps.count .deep := by
  induction steps with
  | nil => rfl
  | cons step rest ih =>
    cases step with
    | named name =>
      have hne : GlobStep.named name ≠ .deep := GlobStep.noConfusion
      rw [List.count_cons_of_ne hne, List.length_cons, ih, Nat.add_right_comm]
      rfl
    | deep =>
      rw [List.count_cons_self, List.length_cons, ih, ← Nat.add_assoc]
      rfl

theorem parts_named (steps : List GlobStep) :
    (steps.filter GlobStep.isNamed).flatMap GlobStep.parts
      = (below (literals steps)).map .char := by
  induction steps with
  | nil => rfl
  | cons step rest ih =>
    cases step with
    | named name =>
      have hbelow : below (literals (.named name :: rest)) = name.1.toList ++ ['/'] ++
          below (literals rest) :=
        List.flatMap_cons
      rw [List.filter_cons_of_pos rfl, List.flatMap_cons, ih, hbelow, List.map_append,
        List.map_append]
      rfl
    | deep => exact ih

theorem length_le_count_parts (steps : List GlobStep) :
    steps.length ≤ (steps.flatMap GlobStep.parts).count (.char '/') := by
  induction steps with
  | nil => exact Nat.zero_le _
  | cons step rest ih =>
    have hslash : 1 ≤ step.parts.count (.char '/') := by
      refine List.count_pos_iff.mpr ?_
      cases step with
      | named name => exact List.mem_append_right _ List.mem_cons_self
      | deep => exact List.mem_cons_of_mem _ List.mem_cons_self
    rw [List.flatMap_cons, List.count_append, List.length_cons]
    omega

section Leads

variable {P Q : List String → Prop} {steps steps' : List GlobStep} {names names' : List String}

theorem Leads.isName (h : Leads P steps names) : ∀ name ∈ names, IsName name.toList := by
  induction h with
  | nil => exact fun _ hmem ↦ absurd hmem List.not_mem_nil
  | named name _ ih => exact List.forall_mem_cons.mpr ⟨name.2.isName, ih⟩
  | deep _ hfolders _ _ ih => exact List.forall_mem_append.mpr ⟨hfolders, ih⟩

theorem Leads.append (h : Leads P steps names) (h' : Leads P steps' names') :
    Leads P (steps ++ steps') (names ++ names') := by
  induction h with
  | nil => exact h'
  | named name _ ih => exact .named name ih
  | deep folders hfolders hP _ ih =>
    rw [List.append_assoc]
    exact .deep folders hfolders hP ih

theorem leads_literals (hP : P []) (steps : List GlobStep) : Leads P steps (literals steps) := by
  induction steps with
  | nil => exact .nil
  | cons step rest ih =>
    cases step with
    | named name => exact .named name ih
    | deep => exact .deep [] (fun _ hmem ↦ absurd hmem List.not_mem_nil) hP ih

theorem Leads.eq_literals (h : Leads (· = []) steps names) : names = literals steps := by
  induction h with
  | nil => rfl
  | named name _ ih =>
    rw [ih]
    rfl
  | deep _ _ hfolders _ ih =>
    rw [hfolders, List.nil_append, ih]
    rfl

theorem Leads.of_notMem (h : Leads P steps names) (hdeep : .deep ∉ steps) :
    Leads Q steps names := by
  induction h with
  | nil => exact .nil
  | named name _ ih => exact .named name (ih fun hmem ↦ hdeep (List.mem_cons_of_mem _ hmem))
  | deep => exact absurd List.mem_cons_self hdeep

/-- A single `**` stands for some folders or for none. -/
theorem Leads.some_or_none (h : Leads P steps names) (hone : steps.count .deep ≤ 1) :
    Leads (· ≠ []) steps names ∨ Leads (· = []) steps names := by
  induction h with
  | nil => exact .inl .nil
  | @named steps _ name _ ih =>
    have hne : GlobStep.named name ≠ .deep := GlobStep.noConfusion
    rw [List.count_cons_of_ne hne] at hone
    exact (ih hone).imp (.named name) (.named name)
  | @deep steps _ folders hfolders _ hrest =>
    rw [List.count_cons_self] at hone
    have hdeep : .deep ∉ steps := List.count_eq_zero.mp (by omega)
    by_cases hnil : folders = []
    · exact .inr (.deep folders hfolders hnil (hrest.of_notMem hdeep))
    · exact .inl (.deep folders hfolders hnil (hrest.of_notMem hdeep))

/-- Where no name is behind a `**`, the names come first. -/
theorem Leads.literals_prefix (h : Leads P steps names)
    (hlast : steps.Pairwise fun step step' ↦ step = .deep → step' = .deep) :
    ∃ folders, (∀ folder ∈ folders, IsName folder.toList) ∧ names = literals steps ++ folders := by
  induction h with
  | nil => exact ⟨[], fun _ hmem ↦ absurd hmem List.not_mem_nil, rfl⟩
  | named name _ ih =>
    obtain ⟨folders, hfolders, rfl⟩ := ih (List.pairwise_cons.mp hlast).2
    exact ⟨folders, hfolders, rfl⟩
  | @deep steps names folders hfolders _ hrest =>
    have hliterals : literals (.deep :: steps) = [] := by
      refine List.filterMap_eq_nil_iff.mpr (List.forall_mem_cons.mpr ⟨rfl, fun step hstep ↦ ?_⟩)
      rw [(List.pairwise_cons.mp hlast).1 step hstep rfl]
      rfl
    refine ⟨folders ++ names, List.forall_mem_append.mpr ⟨hfolders, hrest.isName⟩, ?_⟩
    rw [hliterals, List.nil_append]

/-- The reading in which each `**` stands for at least one folder. -/
theorem matchAll_of_leads (h : Leads (· ≠ []) steps names) {parts : List GlobPart}
    {text : List Char} (htext : GlobPart.matchAll parts text = true) :
    GlobPart.matchAll (steps.flatMap GlobStep.parts ++ parts) (below names ++ text) = true := by
  induction h with
  | nil => exact htext
  | @named steps names name _ ih =>
    have hparts : (GlobStep.named name :: steps).flatMap GlobStep.parts ++ parts
        = name.1.toList.map .char ++ (.char '/' :: (steps.flatMap GlobStep.parts ++ parts)) := by
      rw [List.flatMap_cons, GlobStep.parts, List.append_assoc, List.append_assoc,
        List.singleton_append]
    have hbelow : below (name.1 :: names) ++ text = name.1.toList ++ '/' ::
        (below names ++ text) := by
      rw [below, List.flatMap_cons, List.append_assoc, List.append_assoc, List.singleton_append]
      rfl
    rw [hparts, hbelow]
    exact GlobPart.matchAll_append.mpr ⟨_, rfl, GlobPart.matchAll_char_cons.mpr ⟨_, rfl, ih⟩⟩
  | @deep steps names folders _ hfolders _ ih =>
    -- The star takes the folders up to the slash behind the last of them.
    obtain ⟨body, hbody⟩ := (eq_nil_or_below folders).resolve_left hfolders
    have hparts : (GlobStep.deep :: steps).flatMap GlobStep.parts ++ parts
        = .anyText :: .char '/' :: (steps.flatMap GlobStep.parts ++ parts) := rfl
    have hbelow : below (folders ++ names) ++ text = body ++ '/' :: (below names ++ text) := by
      rw [below_append, hbody, List.append_assoc, List.append_assoc, List.singleton_append]
    rw [hparts, hbelow]
    exact GlobPart.matchAll_anyText.mpr ⟨body, _, rfl, GlobPart.matchAll_char_cons.mpr ⟨_, rfl, ih⟩⟩

end Leads

namespace DeepGlob

variable (g : DeepGlob)

theorem matchAll_lastParts {text : List Char} : GlobPart.matchAll g.lastParts text = true ↔
    ∀ name, g.last = some name → text = name.1.toList := by
  rw [lastParts]
  cases g.last with
  | none =>
    have hstar : GlobPart.matchAll [.anyText] text = true :=
      GlobPart.matchAll_anyText.mpr ⟨text, [], by simp, rfl⟩
    exact iff_of_true hstar fun _ h ↦ nomatch h
  | some name =>
    have hparts : (some name).elim [.anyText] (fun name ↦ name.1.toList.map .char)
        = name.1.toList.map GlobPart.char ++ [] := (List.append_nil _).symm
    rw [hparts, GlobPart.matchAll_append]
    constructor
    · rintro ⟨rest, rfl, hrest⟩ name' hname
      rw [List.isEmpty_iff.mp hrest, List.append_nil, Option.some.inj hname]
    · intro h
      exact ⟨[], by rw [h name rfl, List.append_nil], rfl⟩

/-- The reading in which no `**` stands for a folder. -/
theorem globMatches_shallow {path : List Char} : globMatches g.shallow.text.toList path = true ↔
    ∃ text, path = below (literals g.steps) ++ text ∧ ∀ name, g.last = some name →
    text = name.1.toList := by
  have hsteps : g.shallow.steps = g.steps.filter GlobStep.isNamed := rfl
  rw [globMatches_text, hsteps, parts_named, GlobPart.matchAll_append]
  exact exists_congr fun text ↦ and_congr_right fun _ ↦ g.shallow.matchAll_lastParts

variable {g} {path : String}

/-- A path that a glob describes is excluded where all `**` segments stand for some folders, or all
for none. -/
theorem isExcluded_of_describesBy (h : g.DescribesBy (· ≠ []) path ∨ g.DescribesBy (· = []) path) :
    isExcluded path [g.text] = true := by
  rw [isExcluded_iff]
  rcases h with ⟨names, last, hleads, -, hlast, rfl⟩ | ⟨names, last, hleads, -, hlast, rfl⟩
  all_goals
    have htext : ∀ name, g.last = some name → last.toList = name.1.toList := fun name hname ↦ by
      rw [hlast name hname]
    rw [toList_intercalate_concat]
  · left
    rw [globMatches_text]
    exact matchAll_of_leads hleads (g.matchAll_lastParts.mpr htext)
  · right
    rw [hleads.eq_literals]
    exact g.globMatches_shallow.mpr ⟨_, rfl, htext⟩

theorem isExcluded_of_names_first (hlast : g.last = none)
    (hsteps : g.steps.Pairwise fun step step' ↦ step = .deep → step' = .deep)
    (h : g.Describes path) :
    isExcluded path [g.text] = true := by
  obtain ⟨names, last, hleads, -, -, rfl⟩ := h
  obtain ⟨folders, -, rfl⟩ := hleads.literals_prefix hsteps
  rw [isExcluded_iff, toList_intercalate_concat, below_append, List.append_assoc]
  right
  refine g.globMatches_shallow.mpr ⟨_, rfl, fun name hname ↦ ?_⟩
  rw [hlast] at hname
  cases hname

/-! ## Paths that are not excluded -/

/-- Fewer names than segments are too few for the reading in which each `**` stands for a folder. -/
theorem not_globMatches_of_length_lt {names : List String} {last : String}
    (hnames : ∀ name ∈ names, IsName name.toList) (hlast : IsName last.toList)
    (hlength : names.length < g.steps.length) :
    ¬globMatches g.text.toList (below names ++ last.toList) = true := by
  intro h
  rw [globMatches_text] at h
  have hslashes := GlobPart.count_slash_le h
  rw [List.count_append, List.count_append, count_slash_below fun name hname ↦
    (hnames name hname).noSlash, List.count_eq_zero.mpr hlast.noSlash] at hslashes
  have hsteps := length_le_count_parts g.steps
  omega

/-- A folder for the first `**` alone keeps a path out of the reading in which no `**` stands for a
folder. -/
theorem not_globMatches_shallow {front back : List GlobStep}
    (hsteps : g.steps = front ++ .deep :: back) {folder last : String}
    (hfolder : IsName folder.toList) (hhead : ∀ name ∈ (literals back).head?, name ≠ folder)
    (hend : g.last = none → literals back ≠ []) :
    ¬globMatches g.shallow.text.toList
      (below (literals front ++ folder :: literals back) ++ last.toList) = true := by
  intro h
  obtain ⟨text, htext, hname⟩ := g.globMatches_shallow.mp h
  rw [hsteps, literals_split, below_append, below_append, List.append_assoc, List.append_assoc]
    at htext
  have hrest := List.append_cancel_left htext
  have hbelow : below (folder :: literals back) = folder.toList ++ '/' ::
      below (literals back) := by
    rw [below, List.flatMap_cons, List.append_assoc, List.singleton_append]
    rfl
  cases hback : literals back with
  | nil =>
    -- The name at the end has no slash, and the folder has one behind it.
    cases hg : g.last with
    | none => exact hend hg hback
    | some name =>
      rw [hbelow, hback, hname name hg] at hrest
      have hslash : '/' ∈ name.1.toList := by
        have hname' : below [] ++ name.1.toList = name.1.toList := rfl
        rw [← hname', ← hrest]
        simp
      exact name.2.isName.noSlash hslash
  | cons name names =>
    have hbelow' : below (literals back) = name.toList ++ '/' :: below names := by
      rw [hback, below, List.flatMap_cons, List.append_assoc, List.singleton_append]
      rfl
    have hnoSlash : '/' ∉ name.toList :=
      (isName_of_mem_literals name (by rw [hback]; exact List.mem_cons_self)).noSlash
    rw [hbelow, hbelow', List.append_assoc, List.append_assoc, List.cons_append, List.cons_append]
      at hrest
    have heq := eq_of_append_slash hfolder.noSlash hnoSlash hrest
    exact hhead name (by rw [hback]; rfl) (String.toList_inj.mp heq).symm

/-- No name is behind a `**` if none is behind the first one. -/
theorem pairwise_of_literals_eq_nil {front back : List GlobStep} (hfront : .deep ∉ front)
    (hback : literals back = []) :
    (front ++ .deep :: back).Pairwise fun step step' ↦ step = .deep → step' = .deep := by
  have hdeep : ∀ step ∈ GlobStep.deep :: back, step = .deep := by
    refine List.forall_mem_cons.mpr ⟨rfl, fun step hstep ↦ ?_⟩
    have hnone := List.filterMap_eq_nil_iff.mp hback step hstep
    cases step with
    | named name => cases hnone
    | deep => rfl
  refine List.pairwise_append.mpr ⟨?_, ?_, fun _ _ step hstep _ ↦ hdeep step hstep⟩
  · exact List.Pairwise.imp_of_mem (fun hstep _ _ he ↦ absurd (he ▸ hstep) hfront)
      (List.pairwise_of_forall (R := fun _ _ ↦ True) fun _ _ ↦ trivial)
  · exact List.Pairwise.imp_of_mem (fun _ hstep _ _ ↦ hdeep _ hstep)
      (List.pairwise_of_forall (R := fun _ _ ↦ True) fun _ _ ↦ trivial)

theorem exists_folder_ne (name? : Option String) :
    ∃ folder : String, IsName folder.toList ∧ ∀ name ∈ name?, name ≠ folder := by
  by_cases ha : name? = some "a"
  · refine ⟨"b", by decide, fun name hname ↦ ?_⟩
    rw [ha] at hname
    rw [← Option.some.inj hname]
    decide
  · refine ⟨"a", by decide, ?_⟩
    rintro name hname rfl
    exact ha hname

theorem exists_last (g : DeepGlob) :
    ∃ last : String, IsName last.toList ∧ ∀ name, g.last = some name → last = name.1 := by
  cases g.last with
  | none => exact ⟨"a", by decide, fun _ h ↦ nomatch h⟩
  | some name => exact ⟨name.1, name.2.isName, fun _ h ↦ by rw [Option.some.inj h]⟩

/-- A path of a glob with two `**` segments that exclusion by the glob leaves. -/
theorem exists_describes_not_isExcluded (hcount : 1 < g.steps.count .deep)
    (hsteps : g.last = none → ¬g.steps.Pairwise fun step step' ↦ step = .deep → step' = .deep) :
    ∃ path, g.Describes path ∧ ¬isExcluded path [g.text] = true := by
  obtain ⟨front, back, hsplit, hfront⟩ :=
    List.eq_append_cons_of_mem (List.count_pos_iff.mp (Nat.zero_lt_of_lt hcount))
  -- The first `**` stands for one folder, which is not named like what follows, and the others for
  -- none.
  obtain ⟨folder, hfolder, hhead⟩ := exists_folder_ne (literals back).head?
  obtain ⟨last, hlast, hname⟩ := exists_last g
  have hleads : Leads (fun _ ↦ True) g.steps (literals front ++ folder :: literals back) := by
    rw [hsplit]
    exact (leads_literals trivial front).append
      (.deep [folder] (by simpa using hfolder) trivial (leads_literals trivial back))
  have hlength : (literals front ++ folder :: literals back).length < g.steps.length := by
    have hall := length_eq_literals_add g.steps
    rw [hsplit, literals_split, ← hsplit, List.length_append] at hall
    rw [List.length_append, List.length_cons]
    omega
  have hend : g.last = none → literals back ≠ [] := by
    intro hg hback
    refine hsteps hg ?_
    rw [hsplit]
    exact pairwise_of_literals_eq_nil hfront hback
  refine ⟨_, ⟨_, last, hleads, hlast, hname, rfl⟩, ?_⟩
  rw [isExcluded_iff, toList_intercalate_concat]
  rintro (h | h)
  · exact not_globMatches_of_length_lt hleads.isName hlast hlength h
  · exact not_globMatches_shallow hsplit hfolder hhead hend h

variable (g)

/-- Excluding by a glob excludes all the paths that the glob describes just if it has one `**` at
most, or a star at its end and no name behind a `**`. Whatever the glob, a path is excluded where
all `**` segments stand for some folders, or all for none. -/
theorem excludes_described :
    ((∀ path, g.Describes path → isExcluded path [g.text] = true) ↔ g.steps.count .deep ≤ 1 ∨
      g.last = none ∧ g.steps.Pairwise fun step step' ↦ step = .deep → step' = .deep) ∧
    ∀ path, g.DescribesBy (· ≠ []) path ∨ g.DescribesBy (· = []) path →
    isExcluded path [g.text] = true := by
  refine ⟨⟨fun h ↦ ?_, ?_⟩, fun _ ↦ isExcluded_of_describesBy⟩
  · by_contra hnot
    rw [not_or, not_and, Nat.not_le] at hnot
    obtain ⟨path, hpath, hexcluded⟩ := exists_describes_not_isExcluded hnot.1 hnot.2
    exact hexcluded (h path hpath)
  · rintro (hone | ⟨hlast, hsteps⟩) path hpath
    · obtain ⟨names, last, hleads, hname⟩ := hpath
      exact isExcluded_of_describesBy
        ((hleads.some_or_none hone).imp (⟨names, last, ·, hname⟩) (⟨names, last, ·, hname⟩))
    · exact isExcluded_of_names_first hlast hsteps hpath

end DeepGlob

/-- A folder for the first `**` and none for the second. -/
theorem described_not_excluded : ∃ g : DeepGlob, g.text = "a/**/b/**/c" ∧ g.Describes "a/x/b/c" ∧
    isExcluded "a/x/b/c" ["a/**/b/**/c"] = false := by
  let a : Literal := ⟨"a", by decide⟩
  let b : Literal := ⟨"b", by decide⟩
  let c : Literal := ⟨"c", by decide⟩
  refine ⟨⟨[.named a, .deep, .named b, .deep], some c⟩, by decide, ?_, by decide +kernel⟩
  refine ⟨["a", "x", "b"], "c", ?_, by decide, fun _ h ↦ by rw [← Option.some.inj h], by decide⟩
  exact .named a (.deep ["x"] (by decide) trivial
    (.named b (.deep [] (by decide) trivial .nil)))

end MissionIndex.Path
