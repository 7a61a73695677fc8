import MissionIndex.Path.Basic

/-!
# Absolute paths of either convention

Settings and declarations travel between machines, so a path counts as absolute when either
convention says so: it starts with a slash, or it names a root on a drive (`C:/x`), on a share
(`\\host\share\x`) or behind the verbatim marker `\\?\`. Neither a drive alone (`C:x`) nor a
backslash alone (`\x`) makes a path absolute.
-/

namespace MissionIndex.Path

open Text

def backslashed (cs : List Char) : List Char := cs.map fun c ↦ if c = '/' then '\\' else c

/-- Whether a path begins with two backslashes and names a host and a share below it. Neither name
is empty, but the share may end the path. -/
def namesShare : List Char → Bool
  | '\\' :: '\\' :: rest =>
    rest.head? != some '\\' &&
      match splitAt '\\' rest with
      | _ :: share :: more => share != [] || more.isEmpty
      | _ => false
  | _ => false

/-- Whether a path begins with a drive letter, a colon and a backslash. -/
def namesDrive : List Char → Bool
  | letter :: ':' :: '\\' :: _ => letter.isAlpha
  | _ => false

/-- Whether a path, its slashes turned, is rooted on a drive or on a share. Behind the verbatim
marker any root will do, and the word `UNC` there stands for the first backslash of a share. -/
def isDriveRooted (cs : List Char) : Bool :=
  match cs with
  | '\\' :: '\\' :: '?' :: '\\' :: rest =>
    match rest with
    | 'U' :: 'N' :: 'C' :: '\\' :: _ => true
    | _ => rest.head? == some '\\' || namesDrive rest || namesShare rest
  | _ => namesShare cs || namesDrive cs

/-- Whether a path does not depend on where it is looked at from, under either convention. -/
def isAbsolute (path : String) : Bool := isRooted path || isDriveRooted (backslashed path.toList)

end MissionIndex.Path
