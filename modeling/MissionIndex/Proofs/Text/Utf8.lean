import Mathlib.Data.List.TakeWhile
import MissionIndex.Text.Utf8

/-!
# UTF-8 there and back

The bytes of a text are well formed, and decoding them gives the text back. The scanner takes
exactly the bytes of one character at a time (`scanUtf8_utf8Bytes`), whatever follows them; and what
it takes for a character are no other bytes than those of that character (`utf8Bytes_append_drop`).
So bytes in which it finds no fault are those of a text (`Stream.isBroken_ofBytes_iff`).
-/

namespace MissionIndex.Text

theorem toNat_toUInt8 {n : Nat} (h : n < 256) : n.toUInt8.toNat = n := UInt8.toNat_ofNat_of_lt' h

theorem scanUtf8_cons {b : UInt8} {bs : List UInt8} {value used : Nat} {due : List (Nat × Nat)}
    {done : Option Nat} (hlead : leadByte b = some (value, due))
    (hdone : continueWith value due bs = (done, used)) :
    scanUtf8 (b :: bs) = done.map Char.ofNat :: scanUtf8 (bs.drop used) := by
  rw [scanUtf8]
  simp only [hlead, hdone]

theorem continueWith_cons {value bits lo hi used : Nat} {more : List (Nat × Nat)} {bs : List UInt8}
    {done : Option Nat} (hbits : bits < 0x40) (hlo : lo ≤ 0x80 + bits) (hhi : 0x80 + bits ≤ hi)
    (hdone : continueWith (value * 0x40 + bits) more bs = (done, used)) :
    continueWith value ((lo, hi) :: more) ((0x80 + bits).toUInt8 :: bs) = (done, used + 1) := by
  have hbyte : (0x80 + bits).toUInt8.toNat = 0x80 + bits := toNat_toUInt8 (by omega)
  rw [continueWith, hbyte, if_pos (by simp [hlo, hhi]), Nat.add_sub_cancel_left, hdone]

theorem continueWith_tail {value bits used : Nat} {more : List (Nat × Nat)} {bs : List UInt8}
    {done : Option Nat} (hbits : bits < 0x40)
    (hdone : continueWith (value * 0x40 + bits) more bs = (done, used)) :
    continueWith value ((0x80, 0xBF) :: more) ((0x80 + bits).toUInt8 :: bs) = (done, used + 1) :=
  continueWith_cons hbits (by omega) (by omega) hdone

theorem continueWith_nil {value n : Nat} (h : value = n) (bs : List UInt8) :
    continueWith value [] bs = (some n, 0) := by
  rw [continueWith, h]

/-- **The scanner reads the bytes of a character as that character.** -/
theorem scanUtf8_utf8Bytes (c : Char) (rest : List UInt8) :
    scanUtf8 (utf8Bytes c ++ rest) = some c :: scanUtf8 rest := by
  have hvalid : c.toNat < 0xD800 ∨ 0xDFFF < c.toNat ∧ c.toNat < 0x110000 := c.valid
  have hchar : Char.ofNat c.toNat = c := c.ofNat_toNat
  generalize hn : c.toNat = n at hvalid hchar
  have hsome : (some n).map Char.ofNat = some c := congrArg some hchar
  rw [utf8Bytes, hn, ← hsome]
  -- The intervals for the second byte leave out what has a shorter form, and what is no character.
  by_cases h1 : n < 0x80
  · have hbyte : n.toUInt8.toNat = n := toNat_toUInt8 (by omega)
    have hlead : leadByte n.toUInt8 = some (n, []) := by
      rw [leadByte, hbyte, if_pos h1]
    rw [if_pos h1]
    exact scanUtf8_cons hlead (continueWith_nil rfl rest)
  by_cases h2 : n < 0x800
  · have hbyte : (0xC0 + n / 0x40).toUInt8.toNat = 0xC0 + n / 0x40 := toNat_toUInt8 (by omega)
    have hlead : leadByte (0xC0 + n / 0x40).toUInt8 = some (n / 0x40, [(0x80, 0xBF)]) := by
      rw [leadByte, hbyte, if_neg (by omega), if_neg (by omega), if_pos (by omega),
        Nat.add_sub_cancel_left]
    have hlast : continueWith (n / 0x40 * 0x40 + n % 0x40) [] rest = (some n, 0) :=
      continueWith_nil (by omega) rest
    rw [if_neg h1, if_pos h2]
    exact scanUtf8_cons hlead (continueWith_tail (by omega) hlast)
  by_cases h3 : n < 0x10000
  · have hbyte : (0xE0 + n / 0x1000).toUInt8.toNat = 0xE0 + n / 0x1000 := toNat_toUInt8 (by omega)
    have hlead : leadByte (0xE0 + n / 0x1000).toUInt8 = some (n / 0x1000,
        [(if 0xE0 + n / 0x1000 = 0xE0 then 0xA0 else 0x80,
          if 0xE0 + n / 0x1000 = 0xED then 0x9F else 0xBF), (0x80, 0xBF)]) := by
      rw [leadByte, hbyte, if_neg (by omega), if_neg (by omega), if_neg (by omega),
        if_pos (by omega), Nat.add_sub_cancel_left]
    have hlast : continueWith ((n / 0x1000 * 0x40 + n / 0x40 % 0x40) * 0x40 + n % 0x40) [] rest
        = (some n, 0) := continueWith_nil (by omega) rest
    have htail := continueWith_tail (by omega) hlast
    rw [if_neg h1, if_neg h2, if_pos h3]
    exact scanUtf8_cons hlead
      (continueWith_cons (by omega) (by split <;> omega) (by split <;> omega) htail)
  · have hbyte : (0xF0 + n / 0x40000).toUInt8.toNat = 0xF0 + n / 0x40000 := toNat_toUInt8 (by omega)
    have hlead : leadByte (0xF0 + n / 0x40000).toUInt8 = some (n / 0x40000,
        [(if 0xF0 + n / 0x40000 = 0xF0 then 0x90 else 0x80,
          if 0xF0 + n / 0x40000 = 0xF4 then 0x8F else 0xBF), (0x80, 0xBF), (0x80, 0xBF)]) := by
      rw [leadByte, hbyte, if_neg (by omega), if_neg (by omega), if_neg (by omega),
        if_neg (by omega), if_pos (by omega), Nat.add_sub_cancel_left]
    have hlast : continueWith
        (((n / 0x40000 * 0x40 + n / 0x1000 % 0x40) * 0x40 + n / 0x40 % 0x40) * 0x40 +
          n % 0x40) [] rest
          = (some n, 0) := continueWith_nil (by omega) rest
    have htail := continueWith_tail (by omega) (continueWith_tail (by omega) hlast)
    rw [if_neg h1, if_neg h2, if_neg h3]
    exact scanUtf8_cons hlead
      (continueWith_cons (by omega) (by split <;> omega) (by split <;> omega) htail)

theorem scanUtf8_encodeUtf8 (cs : List Char) : scanUtf8 (encodeUtf8 cs) = cs.map some := by
  induction cs with
  | nil => rw [encodeUtf8, List.flatMap_nil, scanUtf8, List.map_nil]
  | cons c rest ih =>
    rw [encodeUtf8, List.flatMap_cons, scanUtf8_utf8Bytes, List.map_cons]
    exact congrArg (some c :: ·) ih

/-- **Decoding the bytes of a text gives the text back.** -/
theorem decodeReplacing_encodeUtf8 (cs : List Char) : decodeReplacing (encodeUtf8 cs) = cs := by
  rw [decodeReplacing, scanUtf8_encodeUtf8, List.map_map]
  exact List.map_id cs

/-! ## From bytes that are well formed -/

theorem toUInt8_of_toNat {b : UInt8} {n : Nat} (h : n = b.toNat) : n.toUInt8 = b := by
  rw [h]
  exact UInt8.ofNat_toNat

theorem exists_of_continueWith_cons {value lo hi n used : Nat} {more : List (Nat × Nat)}
    {bs : List UInt8} (hdone : continueWith value ((lo, hi) :: more) bs = (some n, used)) :
    ∃ b rest before, bs = b :: rest ∧ used = before + 1 ∧ lo ≤ b.toNat ∧ b.toNat ≤ hi ∧
      continueWith (value * 0x40 + (b.toNat - 0x80)) more rest = (some n, before) := by
  cases bs with
  | nil => simp [continueWith] at hdone
  | cons b rest =>
    rw [continueWith] at hdone
    split at hdone
    · next hin =>
      obtain ⟨hlo, hhi⟩ := by simpa using hin
      obtain ⟨hsome, hused⟩ := Prod.mk.inj hdone
      exact ⟨b, rest, _, rfl, hused.symm, hlo, hhi, Prod.ext hsome rfl⟩
    · simp at hdone

theorem of_continueWith_nil {value n used : Nat} {bs : List UInt8}
    (hdone : continueWith value [] bs = (some n, used)) : n = value ∧ used = 0 := by
  rw [continueWith] at hdone
  cases hdone
  exact ⟨rfl, rfl⟩

theorem toNat_charOfNat {n : Nat} (h : n < 0xD800 ∨ 0xDFFF < n ∧ n < 0x110000) :
    (Char.ofNat n).toNat = n := by
  rw [Char.ofNat, dif_pos h]
  rfl

/-- **What the scanner takes for a character are the bytes of that character.** -/
theorem utf8Bytes_append_drop {b : UInt8} {bs : List UInt8} {value n used : Nat}
    {due : List (Nat × Nat)} (hlead : leadByte b = some (value, due))
    (hdone : continueWith value due bs = (some n, used)) :
    utf8Bytes (Char.ofNat n) ++ bs.drop used = b :: bs := by
  have hbyte := b.toNat_lt
  simp only [leadByte] at hlead
  -- As the first bytes come: one byte, none that starts a character, two, three and four bytes.
  split at hlead
  · obtain ⟨rfl, rfl⟩ := Prod.mk.inj (Option.some.inj hlead)
    obtain ⟨hn, rfl⟩ := of_continueWith_nil hdone
    rw [utf8Bytes, toNat_charOfNat (by omega), if_pos (by omega), toUInt8_of_toNat hn]
    rfl
  split at hlead
  · cases hlead
  split at hlead
  · obtain ⟨rfl, rfl⟩ := Prod.mk.inj (Option.some.inj hlead)
    obtain ⟨c, rest, _, rfl, rfl, _, _, hdone⟩ := exists_of_continueWith_cons hdone
    obtain ⟨hn, rfl⟩ := of_continueWith_nil hdone
    rw [utf8Bytes, toNat_charOfNat (by omega), if_neg (by omega), if_pos (by omega),
      toUInt8_of_toNat (b := b) (by omega), toUInt8_of_toNat (b := c) (by omega)]
    rfl
  split at hlead
  · obtain ⟨rfl, rfl⟩ := Prod.mk.inj (Option.some.inj hlead)
    obtain ⟨c, rest, _, rfl, rfl, hlo, hhi, hdone⟩ := exists_of_continueWith_cons hdone
    obtain ⟨d, rest, _, rfl, rfl, _, _, hdone⟩ := exists_of_continueWith_cons hdone
    obtain ⟨hn, rfl⟩ := of_continueWith_nil hdone
    have hvalid : 0x80 ≤ c.toNat ∧ c.toNat ≤ 0xBF ∧ (b.toNat = 0xE0 → 0xA0 ≤ c.toNat) ∧
        (b.toNat = 0xED → c.toNat ≤ 0x9F) := by
      split at hlo <;> split at hhi <;> omega
    rw [utf8Bytes, toNat_charOfNat (by omega), if_neg (by omega), if_neg (by omega),
      if_pos (by omega), toUInt8_of_toNat (b := b) (by omega), toUInt8_of_toNat (b := c) (by omega),
      toUInt8_of_toNat (b := d) (by omega)]
    rfl
  split at hlead
  · obtain ⟨rfl, rfl⟩ := Prod.mk.inj (Option.some.inj hlead)
    obtain ⟨c, rest, _, rfl, rfl, hlo, hhi, hdone⟩ := exists_of_continueWith_cons hdone
    obtain ⟨d, rest, _, rfl, rfl, _, _, hdone⟩ := exists_of_continueWith_cons hdone
    obtain ⟨e, rest, _, rfl, rfl, _, _, hdone⟩ := exists_of_continueWith_cons hdone
    obtain ⟨hn, rfl⟩ := of_continueWith_nil hdone
    have hvalid : 0x80 ≤ c.toNat ∧ c.toNat ≤ 0xBF ∧ (b.toNat = 0xF0 → 0x90 ≤ c.toNat) ∧
        (b.toNat = 0xF4 → c.toNat ≤ 0x8F) := by
      split at hlo <;> split at hhi <;> omega
    rw [utf8Bytes, toNat_charOfNat (by omega), if_neg (by omega), if_neg (by omega),
      if_neg (by omega), toUInt8_of_toNat (b := b) (by omega), toUInt8_of_toNat (b := c) (by omega),
      toUInt8_of_toNat (b := d) (by omega), toUInt8_of_toNat (b := e) (by omega)]
    rfl
  · cases hlead

/-- Bytes that are scanned without a fault are those of the text that they are scanned as. -/
theorem encodeUtf8_of_scanUtf8 (bytes : List UInt8) (cs : List Char)
    (h : scanUtf8 bytes = cs.map some) :
    encodeUtf8 cs = bytes := by
  induction bytes using scanUtf8.induct generalizing cs with
  | case1 =>
    rw [scanUtf8, eq_comm, List.map_eq_nil_iff] at h
    rw [h]
    rfl
  | case2 b bs hlead _ =>
    rw [scanUtf8] at h
    simp only [hlead] at h
    cases cs <;> simp at h
  | case3 b bs value due hlead done used hdone ih =>
    rw [scanUtf8_cons hlead hdone] at h
    obtain _ | ⟨c, rest⟩ := cs
    · simp at h
    · obtain ⟨hc, hrest⟩ := List.cons.inj h
      obtain ⟨n, rfl, rfl⟩ := Option.map_eq_some_iff.mp hc
      rw [encodeUtf8, List.flatMap_cons, ← encodeUtf8, ih rest hrest]
      exact utf8Bytes_append_drop hlead hdone

/-! ## Reading bit by bit -/

namespace Stream

theorem ofBytes_encodeUtf8 (cs : List Char) : ofBytes (encodeUtf8 cs) = { text := cs } := by
  have htake : (cs.map some).takeWhile Option.isSome = cs.map some :=
    List.takeWhile_eq_self_iff.mpr (by simp)
  rw [ofBytes, scanUtf8_encodeUtf8, htake]
  simp [List.filterMap_map]

/-- **Reading stops early just at bytes that are those of no text.** -/
theorem isBroken_ofBytes_iff (bytes : List UInt8) :
    (ofBytes bytes).isBroken = true ↔ ∀ cs, encodeUtf8 cs ≠ bytes := by
  constructor
  · rintro hbroken cs rfl
    simp [ofBytes_encodeUtf8] at hbroken
  · intro hno
    cases hbroken : (ofBytes bytes).isBroken with
    | true => rfl
    | false =>
      have hall : ∀ part ∈ scanUtf8 bytes, part.isSome = true := by
        intro part hpart
        have hnot := List.any_eq_false.mp hbroken part hpart
        rw [Option.isSome_iff_ne_none]
        simpa using hnot
      have hscan : scanUtf8 bytes = ((scanUtf8 bytes).pmap Option.get hall).map some := by
        simp [List.map_pmap]
      exact absurd (encodeUtf8_of_scanUtf8 bytes _ hscan) (hno _)

end Stream

end MissionIndex.Text
