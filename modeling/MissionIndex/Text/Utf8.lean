/-!
# UTF-8

Bytes to characters and back. Decoding comes in two forms over one scanner. The scanner reads one
character or, where the bytes are not well formed, one *ill-formed part*: the longest start of a
character's bytes that stands there, or a single byte that starts none. Strict decoding refuses such
a part and replacing decoding puts one U+FFFD in its place.
-/

namespace MissionIndex.Text

/-- The character that stands for bytes that are none. -/
def replacement : Char := '\uFFFD'

def utf8Bytes (c : Char) : List UInt8 :=
  let n := c.toNat
  if n < 0x80 then [n.toUInt8]
  else if n < 0x800 then [(0xC0 + n / 0x40).toUInt8, (0x80 + n % 0x40).toUInt8]
  else if n < 0x10000 then
    [(0xE0 + n / 0x1000).toUInt8, (0x80 + n / 0x40 % 0x40).toUInt8, (0x80 + n % 0x40).toUInt8]
  else
    [(0xF0 + n / 0x40000).toUInt8, (0x80 + n / 0x1000 % 0x40).toUInt8,
      (0x80 + n / 0x40 % 0x40).toUInt8, (0x80 + n % 0x40).toUInt8]

def encodeUtf8 (cs : List Char) : List UInt8 := cs.flatMap utf8Bytes

/-- What a first byte announces: the value of its own bits, and for each byte to come the closed
interval it has to lie in. The intervals of the second byte leave out the overlong forms, the
surrogates and the values past the last character. -/
def leadByte (b : UInt8) : Option (Nat × List (Nat × Nat)) :=
  let n := b.toNat
  if n < 0x80 then some (n, [])
  else if n < 0xC2 then none
  else if n < 0xE0 then some (n - 0xC0, [(0x80, 0xBF)])
  else if n < 0xF0 then
    some (n - 0xE0, [(if n = 0xE0 then 0xA0 else 0x80, if n = 0xED then 0x9F else 0xBF),
      (0x80, 0xBF)])
  else if n < 0xF5 then
    some (n - 0xF0, [(if n = 0xF0 then 0x90 else 0x80, if n = 0xF4 then 0x8F else 0xBF),
      (0x80, 0xBF), (0x80, 0xBF)])
  else none

/-- Reads the bytes that a first byte announced: the finished value, or nothing when one of them is
missing or out of its interval, and the number of bytes that were in place. -/
def continueWith (value : Nat) : List (Nat × Nat) → List UInt8 → Option Nat × Nat
  | [], _ => (some value, 0)
  | _ :: _, [] => (none, 0)
  | (lo, hi) :: more, b :: bs =>
    if lo ≤ b.toNat && b.toNat ≤ hi then
      let (done, used) := continueWith (value * 0x40 + (b.toNat - 0x80)) more bs
      (done, used + 1)
    else (none, 0)

/-- Decodes bytes, with `none` for each ill-formed part. -/
def scanUtf8 (bytes : List UInt8) : List (Option Char) :=
  match bytes with
  | [] => []
  | b :: bs =>
    match leadByte b with
    | none => none :: scanUtf8 bs
    | some (value, due) =>
      let (done, used) := continueWith value due bs
      done.map Char.ofNat :: scanUtf8 (bs.drop used)
termination_by bytes.length
decreasing_by all_goals simp only [List.length_cons, List.length_drop]; omega

def decodeReplacing (bytes : List UInt8) : List Char := (scanUtf8 bytes).map (·.getD replacement)

def decodeStrict? (bytes : List UInt8) : Option (List Char) := (scanUtf8 bytes).mapM id

/-- A text that is read bit by bit from bytes: what stands in front of the first ill-formed part,
and whether there is such a part. -/
structure Stream where
  text : List Char
  isBroken : Bool := false
deriving DecidableEq, Repr

def Stream.map (f : List Char → List Char) (s : Stream) : Stream := { s with text := f s.text }

def Stream.ofBytes (bytes : List UInt8) : Stream where
  text := ((scanUtf8 bytes).takeWhile Option.isSome).filterMap id
  isBroken := (scanUtf8 bytes).any Option.isNone

end MissionIndex.Text
