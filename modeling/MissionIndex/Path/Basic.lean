import MissionIndex.Text.Blank

/-!
# Paths

A path is a text whose components are separated by slashes. Normalising removes empty and `.`
components and lets `..` cancel the component before it. A path of exactly two leading slashes
keeps both of them; any other number of leading slashes counts as one.

No function here looks at a disk: a path is only taken apart and put together.
-/

namespace MissionIndex.Path

open Text

/-! ## Joining and normalising -/

def isRooted (path : String) : Bool := path.startsWith "/"

/-- `path` as seen from `base`. A rooted path does not depend on `base`. -/
def append (base path : String) : String :=
  if isRooted path then path
  else if base.isEmpty || base.endsWith "/" then base ++ path
  else base ++ "/" ++ path

/-- The leading slashes that a normalised path keeps: none, one, or exactly two. -/
def rootSlashes (cs : List Char) : List Char :=
  match (cs.takeWhile (· == '/')).length with
  | 0 => []
  | 2 => ['/', '/']
  | _ => ['/']

/-- Adds one component to normalised ones, the last of which stands first. Above the root there is
nothing to go back to, while a relative path keeps the `..` it cannot cancel. -/
def pushComponent (rooted : Bool) (done : List (List Char)) (part : List Char) :
    List (List Char) :=
  if part = [] || part = ['.'] then done
  else if part = ['.', '.'] then
    match done with
    | [] => if rooted then [] else [part]
    | last :: rest => if last = ['.', '.'] then part :: done else rest
  else part :: done

/-- The components of a path after normalisation. -/
def components (cs : List Char) : List (List Char) :=
  let rooted := cs.head? == some '/'
  ((splitAt '/' cs).foldl (pushComponent rooted) []).reverse

/-- The normal form of a path; the empty path becomes `.`. -/
def normalizeChars (cs : List Char) : List Char :=
  let result := rootSlashes cs ++ join ['/'] (components cs)
  if result = [] then ['.'] else result

@[inherit_doc normalizeChars]
def normalize (path : String) : String := String.ofList (normalizeChars path.toList)

def resolve (base path : String) : String := normalize (append base path)

theorem resolve_eq (base path : String) : resolve base path = normalize (append base path) := rfl

-- Unfolding it goes down into the searching of strings.
attribute [irreducible] resolve

/-! ## Taking apart -/

def splitLast (path : String) : List Char × List Char :=
  let back := path.toList.reverse
  ((back.dropWhile (· != '/')).reverse, (back.takeWhile (· != '/')).reverse)

/-- The text after the last slash. -/
def fileName (path : String) : String := String.ofList (splitLast path).2

/-- The path without its last component: all before the last slash, where slashes at its end are
kept only if there is nothing else. -/
def parent (path : String) : String :=
  let head := (splitLast path).1
  let trimmed := dropEnd (· == '/') head
  String.ofList (if trimmed = [] then head else trimmed)

/-- The last dot of a file name and what follows it, unless only dots stand before it. -/
def extension (path : String) : String :=
  let name := (splitLast path).2
  let back := name.reverse
  let tail := (back.takeWhile (· != '.')).reverse
  let before := (back.dropWhile (· != '.')).drop 1
  if before.all (· == '.') then "" else String.ofList ('.' :: tail)

/-- The non-empty components other than `.`, as written. -/
def segments (path : String) : List String :=
  ((splitAt '/' path.toList).filter fun part ↦ part != [] && part != ['.']).map String.ofList

/-- A path without empty and `.` components. Unlike in the normal form, `..` components stay. -/
def tidy (path : String) : String :=
  let result := rootSlashes path.toList ++ join ['/'] ((segments path).map String.toList)
  if result = [] then "." else String.ofList result

/-- Whether a component is hidden: it starts with a dot and is neither `.` nor `..`. -/
def isHiddenName (name : String) : Bool := name.startsWith "." && name != "." && name != ".."

end MissionIndex.Path
