import MissionIndex.Path.Basic
import MissionIndex.Text.Utf8

/-!
# File URIs

Editors name files by `file://` URIs. A path becomes a URI by writing its UTF-8 bytes, other than
those of letters, digits and `_.-~/`, as a percent sign and two hexadecimal digits. Two forms are
special. A path of two leading slashes names a host, which becomes the host of the URI, and cannot
be written when nothing follows the host. A drive letter at the root (`/C:`) is written in lower
case with its colon, and comes back without the slash.
-/

namespace MissionIndex.Uri

open Text

/-! ## Percent coding -/

/-- The hexadecimal digit for a number below sixteen. -/
def hexDigit (n : Nat) : Char := Char.ofNat (if n < 10 then 48 + n else 55 + n)

/-- The number that a hexadecimal digit of either case stands for. -/
def hexValue? (c : Char) : Option Nat :=
  if c.isDigit then some (c.toNat - 48)
  else if 'a' ≤ c && c ≤ 'f' then some (c.toNat - 87)
  else if 'A' ≤ c && c ≤ 'F' then some (c.toNat - 55)
  else none

/-- The characters that a URI path holds as they are. -/
def isPlain (c : Char) : Bool :=
  c.isAlphanum || c = '_' || c = '.' || c = '-' || c = '~' || c = '/'

def encodeByte (b : UInt8) : List Char := ['%', hexDigit (b.toNat / 16), hexDigit (b.toNat % 16)]

/-- A text as it stands in a URI. -/
def encode (cs : List Char) : List Char :=
  cs.flatMap fun c ↦ if isPlain c then [c] else (utf8Bytes c).flatMap encodeByte

/-- The bytes that a part of a URI stands for. A percent sign without two digits stands for
itself. -/
def decodeBytes : List Char → List UInt8
  | [] => []
  | '%' :: a :: b :: cs =>
    match hexValue? a, hexValue? b with
    | some hi, some lo => (16 * hi + lo).toUInt8 :: decodeBytes cs
    | _, _ => utf8Bytes '%' ++ decodeBytes (a :: b :: cs)
  | c :: cs => utf8Bytes c ++ decodeBytes cs

/-- The text that a part of a URI stands for. -/
def decode (cs : List Char) : List Char := decodeReplacing (decodeBytes cs)

/-! ## Paths and URIs -/

/-- What every file URI starts with. -/
def scheme : List Char := "file://".toList

/-- The letter and the rest of a path with a drive at its root. -/
def drive? : List Char → Option (Char × List Char)
  | '/' :: letter :: ':' :: rest => if letter.isAlpha then some (letter, rest) else none
  | _ => none

/-- A rooted path as it stands in a URI. -/
def encodePath (path : List Char) : List Char :=
  match drive? path with
  | some (letter, rest) => '/' :: letter.toLower :: ':' :: encode rest
  | none => encode path

/-- The URI of an absolute path in normal form. There is none for a host without a path. -/
def ofAbsolute? (path : String) : Option String :=
  match path.toList with
  | '/' :: '/' :: rest =>
    let host := rest.takeWhile (· != '/')
    match rest.dropWhile (· != '/') with
    | [] => none
    | below => some (String.ofList (scheme ++ encode host ++ encodePath below))
  | cs => some (String.ofList (scheme ++ encodePath cs))

/-- A path that has no URI: it names a host and nothing below it. -/
structure NoUri where
  path : String
deriving DecidableEq, Repr

def ofPath (workingDirectory path : String) : Except NoUri String :=
  match ofAbsolute? (Path.resolve workingDirectory path) with
  | some uri => .ok uri
  | none => .error ⟨path⟩

/-- The path that the part of a URI after its scheme stands for. The query and the fragment are cut
off first. -/
def pathOfRest (rest : List Char) : List Char :=
  let host := decode (rest.takeWhile fun c ↦ c != '/' && c != '?' && c != '#')
  let path := decode
    (((rest.dropWhile fun c ↦ c != '/' && c != '?' && c != '#').takeWhile (· != '#')).takeWhile
      (· != '?'))
  if host != [] && path != [] then '/' :: '/' :: host ++ path
  else match drive? path with
    | some (letter, below) => letter.toLower :: ':' :: below
    | none => path

/-- The path that a URI stands for. Tabs and line breaks in a file URI do not count, and what is no
file URI, or one of no path, is returned as it is. -/
def toPath (uri : String) : String :=
  if scheme.isPrefixOf uri.toList then
    let rest := (uri.toList.drop scheme.length).filter fun c ↦ c != '\t' && c != '\r' && c != '\n'
    match pathOfRest rest with
    | [] => uri
    | path => String.ofList path
  else uri

end MissionIndex.Uri
