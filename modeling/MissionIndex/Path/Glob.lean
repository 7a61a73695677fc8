import MissionIndex.Path.Basic

/-!
# Globs

A glob describes texts: `*` stands for any text, also across slashes, `?` for any character, and
`[…]` for one character of a set. A set lists characters and ranges of characters; a closing bracket
right at its start is a member, a hyphen between two characters makes a range, and an exclamation
mark at the start turns the set around. A bracket that is never closed stands for itself.
-/

namespace MissionIndex.Path

open Text

/-- A closed range of characters. A single character is the range from itself to itself. -/
structure CharRange where
  first : Char
  last : Char
deriving DecidableEq, Repr

/-- What one place of a glob stands for. -/
inductive GlobPart where
  | anyText
  | anyChar
  | oneOf (negated : Bool) (members : List CharRange)
deriving DecidableEq, Repr

namespace GlobPart

/-- Stands for the character `c` alone. -/
def char (c : Char) : GlobPart := .oneOf false [⟨c, c⟩]

end GlobPart

/-- Reads the members of a set. The first character, or the first after an exclamation mark, begins
no range by being a hyphen, and neither does a character right after a range. -/
def setMembers : List Char → List CharRange
  | [] => []
  | a :: '-' :: b :: rest => ⟨a, b⟩ :: setMembers rest
  | a :: rest => ⟨a, a⟩ :: setMembers rest

/-- A set with the given text between its brackets. A range that runs backwards has no members and
is left out. -/
def setOf (inner : List Char) : GlobPart :=
  let members := match inner with
    | '!' :: rest => CharRange.mk '!' '!' :: setMembers rest
    | _ => setMembers inner
  match members.filter fun m ↦ m.first ≤ m.last with
  | ⟨'!', '!'⟩ :: rest => .oneOf true rest
  | ⟨'!', last⟩ :: rest => .oneOf true (⟨'-', '-'⟩ :: ⟨last, last⟩ :: rest)
  | members => .oneOf false members

/-- How many characters after an opening bracket cannot be the one that closes the set. -/
def setLead : List Char → Nat
  | '!' :: ']' :: _ => 2
  | '!' :: _ => 1
  | ']' :: _ => 1
  | _ => 0

/-- Splits what follows an opening bracket at the bracket that closes it. -/
def spanSet (cs : List Char) : Option (List Char × List Char) :=
  (cut? [']'] (cs.drop (setLead cs))).map fun (inner, rest) ↦
    (cs.take (setLead cs) ++ inner, rest)

/-- What follows a set is no longer than what follows its opening bracket. -/
theorem spanSet_length {cs inner rest : List Char} (h : spanSet cs = some (inner, rest)) :
    rest.length ≤ cs.length := by
  have hcut : ∀ (body : List Char) {i r : List Char}, cut? [']'] body = some (i, r) →
      r.length ≤ body.length := by
    intro body
    induction body with
    | nil => intro i r hc; simp [cut?] at hc
    | cons c cs ih =>
      intro i r hc
      unfold cut? at hc
      split at hc
      · simp only [Option.some.injEq, Prod.mk.injEq] at hc
        rw [← hc.2]
        simp
      · obtain ⟨⟨a, b⟩, hab, heq⟩ := Option.map_eq_some_iff.1 hc
        simp only [Prod.mk.injEq] at heq
        have := ih hab
        rw [← heq.2, List.length_cons]
        omega
  obtain ⟨⟨a, b⟩, hab, heq⟩ := Option.map_eq_some_iff.1 h
  simp only [Prod.mk.injEq] at heq
  have hlen := hcut _ hab
  rw [← heq.2]
  rw [List.length_drop] at hlen
  omega

/-- The parts of a glob. Stars in a row stand for no more than one of them does. -/
def globParts (glob : List Char) : List GlobPart :=
  match glob with
  | [] => []
  | '*' :: rest => .anyText :: globParts (rest.dropWhile (· == '*'))
  | '?' :: rest => .anyChar :: globParts rest
  | c :: rest =>
    if c = '[' then
      match _h : spanSet rest with
      | some (inner, after) => setOf inner :: globParts after
      | none => .char c :: globParts rest
    else .char c :: globParts rest
termination_by glob.length
decreasing_by
  all_goals simp only [List.length_cons]
  · have := (List.dropWhile_sublist (l := rest) (· == '*')).length_le
    omega
  · omega
  · have := spanSet_length _h
    omega
  · omega
  · omega

/-- A text and what is left of it after each of its characters. -/
def suffixes : List Char → List (List Char)
  | [] => [[]]
  | c :: cs => (c :: cs) :: suffixes cs

namespace GlobPart

/-- Whether a part that stands for one character stands for `c`. -/
def admits (c : Char) : GlobPart → Bool
  | anyText => true
  | anyChar => true
  | oneOf negated members => (members.any fun m ↦ m.first ≤ c && c ≤ m.last) != negated

/-- Whether parts in a row stand for a text. -/
def matchAll : List GlobPart → List Char → Bool
  | [], cs => cs.isEmpty
  | anyText :: parts, cs => (suffixes cs).any (matchAll parts)
  | _ :: _, [] => false
  | part :: parts, c :: cs => part.admits c && matchAll parts cs

end GlobPart

def globMatches (glob text : List Char) : Bool := GlobPart.matchAll (globParts glob) text

end MissionIndex.Path
