import MissionIndex.Data.Decimal

/-!
# Plain data

The values that data files and editor settings are made of, before anything is known of what they
should look like.
-/

namespace MissionIndex

/-- A value as a data file gives it. A mapping keeps the order of its keys. -/
inductive Data where
  | null
  | bool (b : Bool)
  | int (n : Int)
  | float (x : Float)
  | text (s : String)
  | list (items : List Data)
  | map (entries : List (Data × Data))
deriving Inhabited

namespace Data

def entry? (key : String) : List (Data × Data) → Option Data
  | [] => none
  | (.text k, value) :: rest => if k = key then some value else entry? key rest
  | _ :: rest => entry? key rest

/-- The number that a value is as a key, as a fraction: a truth value counts as zero or one. -/
def ratio? : Data → Option (Int × Nat)
  | .bool b => some (if b then 1 else 0, 1)
  | .int n => some (n, 1)
  | .float x =>
    if x.isNaN || x.isInf then none
    else
      let b := Binary.ofFloat x
      let size := Fraction.scaled b.mantissa 2 b.exponent
      some (if b.negative then -size.num else size.num, size.den)
  | _ => none

/-- Whether two values are the same key of a mapping. Only keys of the plain types can be, and
numbers are the same when they are equal, whatever their types. -/
def sameKey (a b : Data) : Bool :=
  match ratio? a, ratio? b with
  | some (p, q), some (r, s) => p * s == r * q
  | _, _ =>
    match a, b with
    | .null, .null => true
    | .float x, .float y => x == y
    | .text s, .text t => s == t
    | _, _ => false

/-- Makes `value` the entry of `key`. A key that is there already keeps its place. -/
def putEntry (key value : Data) : List (Data × Data) → List (Data × Data)
  | [] => [(key, value)]
  | (k, old) :: rest =>
    if sameKey k key then (k, value) :: rest else (k, old) :: putEntry key value rest

/-- The mapping that results from putting entries in one after another. -/
def mapOf (entries : List (Data × Data)) : Data :=
  .map (entries.foldl (fun table (key, value) ↦ putEntry key value table) [])

end Data

end MissionIndex
