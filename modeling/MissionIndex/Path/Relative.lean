import MissionIndex.Path.Basic

/-!
# Relative paths

The way from one place to another: up to the last folder that both have in common, and down from
there.
-/

namespace MissionIndex.Path

/-- What two lists have apart from their common start. -/
def apart : List (List Char) → List (List Char) → List (List Char) × List (List Char)
  | a :: as, b :: bs => if a = b then apart as bs else (a :: as, b :: bs)
  | as, bs => (as, bs)

/-- The way from the folder `base` to `path`, both being absolute. -/
def relative (base path : String) : String :=
  let (up, down) := apart (components base.toList) (components path.toList)
  match up.map (fun _ ↦ "..") ++ down.map String.ofList with
  | [] => "."
  | parts => "/".intercalate parts

end MissionIndex.Path
