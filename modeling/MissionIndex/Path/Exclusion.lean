import MissionIndex.Path.Glob

/-!
# Exclusion by globs

Settings exclude files by globs over the path from the workspace root. A glob may be written with
backslashes and with `./` in front. A `**` segment stands for any number of folders, also for none:
beside the glob as written, the glob without its `**` segments is tried.
-/

namespace MissionIndex.Path

open Text

/-- A text without the occurrences of `pat`, found from left to right. -/
def removeAll (pat cs : List Char) : List Char :=
  match cs with
  | [] => []
  | c :: rest =>
    if pat.isPrefixOf (c :: rest) then removeAll pat (rest.drop (pat.length - 1))
    else c :: removeAll pat rest
termination_by cs.length
decreasing_by all_goals simp only [List.length_cons, List.length_drop]; omega

/-- A glob with slashes for backslashes and without `./` in front. -/
def tidyGlob (glob : List Char) : List Char :=
  match glob.map fun c ↦ if c = '\\' then '/' else c with
  | '.' :: '/' :: rest => rest
  | tidy => tidy

/-- The globs that one exclusion stands for: as written, with no folder for each `**` segment, and
with one level for a `**` at the end. -/
def globVariants (glob : List Char) : List (List Char) :=
  let deep := ['/', '*', '*']
  [glob, removeAll ['*', '*', '/'] glob] ++
    if deep.isSuffixOf glob then [glob.take (glob.length - 3) ++ ['/', '*']] else []

/-- Whether one of the globs excludes a path, given relative to the workspace root. -/
def isExcluded (path : String) (globs : List String) : Bool :=
  globs.any fun glob ↦
    (globVariants (tidyGlob glob.toList)).any fun variant ↦ globMatches variant path.toList

end MissionIndex.Path
