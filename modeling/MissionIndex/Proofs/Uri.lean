import Mathlib.Data.List.TakeWhile
import MissionIndex.Proofs.Path.Normal
import MissionIndex.Proofs.Text.Utf8
import MissionIndex.Uri

/-!
# Paths and their URIs

A *plain* path is one without any of the special forms: it is in normal form, starts with one slash,
and has no drive at its root. Whatever else stands in it, its URI leads back to it. Percent coding
is undone byte by byte (`decodeBytes_encode`), nothing in an encoded text looks like the start of a
query or of a fragment (`isCoded_of_mem_encode`), and the bytes are those of the text.
-/

namespace MissionIndex.Uri

open Text

/-! ## Percent coding -/

theorem hexValue?_hexDigit : ∀ n < 16, hexValue? (hexDigit n) = some n := by decide

theorem isPlain_hexDigit : ∀ n < 16, isPlain (hexDigit n) = true := by decide

/-- Whether a character can stand in an encoded text. -/
def isCoded (c : Char) : Bool := isPlain c || c == '%'

theorem isCoded_of_mem_encode {cs : List Char} {c : Char} (h : c ∈ encode cs) :
    isCoded c = true := by
  obtain ⟨c', -, hc⟩ := List.mem_flatMap.mp h
  rw [isCoded, Bool.or_eq_true, beq_iff_eq]
  by_cases hplain : isPlain c' = true
  · rw [if_pos hplain, List.mem_singleton] at hc
    exact .inl (hc ▸ hplain)
  · rw [if_neg hplain] at hc
    obtain ⟨b, -, hc⟩ := List.mem_flatMap.mp hc
    have hb : b.toNat < 256 := b.toNat_lt
    simp only [encodeByte, List.mem_cons, List.not_mem_nil, or_false] at hc
    rcases hc with hc | hc | hc
    · exact .inr hc
    · exact .inl (hc ▸ isPlain_hexDigit _ (by omega))
    · exact .inl (hc ▸ isPlain_hexDigit _ (by omega))

theorem ne_of_isCoded {c d : Char} (hc : isCoded c = true) (hd : isCoded d = false) : c ≠ d := by
  rintro rfl
  rw [hc] at hd
  cases hd

theorem decodeBytes_encodeByte (b : UInt8) (rest : List Char) :
    decodeBytes (encodeByte b ++ rest) = b :: decodeBytes rest := by
  have hb : b.toNat < 256 := b.toNat_lt
  have hbyte : (16 * (b.toNat / 16) + b.toNat % 16).toUInt8 = b := by
    rw [Nat.div_add_mod]
    exact UInt8.ofNat_toNat
  rw [encodeByte]
  simp only [List.cons_append, List.nil_append]
  rw [decodeBytes, hexValue?_hexDigit _ (by omega), hexValue?_hexDigit _ (by omega)]
  exact congrArg (· :: decodeBytes rest) hbyte

theorem decodeBytes_of_isPlain {c : Char} (h : isPlain c = true) (rest : List Char) :
    decodeBytes (c :: rest) = utf8Bytes c ++ decodeBytes rest := by
  have hc : c ≠ '%' := by
    rintro rfl
    exact absurd h (by decide)
  rw [decodeBytes]
  intro _ _ _ he _
  exact hc he

theorem decodeBytes_flatMap (bs : List UInt8) (rest : List Char) :
    decodeBytes (bs.flatMap encodeByte ++ rest) = bs ++ decodeBytes rest := by
  induction bs with
  | nil => rfl
  | cons b bs ih => rw [List.flatMap_cons, List.append_assoc, decodeBytes_encodeByte, ih,
      List.cons_append]

theorem decodeBytes_encode (cs : List Char) : decodeBytes (encode cs) = encodeUtf8 cs := by
  induction cs with
  | nil => rfl
  | cons c rest ih =>
    have hrest : encode (c :: rest)
        = (if isPlain c then [c] else (utf8Bytes c).flatMap encodeByte) ++ encode rest := rfl
    have hbytes : encodeUtf8 (c :: rest) = utf8Bytes c ++ encodeUtf8 rest := rfl
    rw [hrest, hbytes, ← ih]
    by_cases hc : isPlain c = true
    · rw [if_pos hc]
      exact decodeBytes_of_isPlain hc (encode rest)
    · rw [if_neg hc]
      exact decodeBytes_flatMap (utf8Bytes c) (encode rest)

/-- **Decoding undoes encoding.** -/
theorem decode_encode (cs : List Char) : decode (encode cs) = cs := by
  rw [decode, decodeBytes_encode, decodeReplacing_encodeUtf8]

/-! ## Plain paths -/

/-- An absolute path in normal form, with one slash at its front and no drive at its root. -/
structure IsPlainPath (path : String) : Prop where
  normal : Path.normalize path = path
  rooted : path.toList.head? = some '/'
  single : path.toList.tail.head? ≠ some '/'
  noDrive : drive? path.toList = none

theorem isPlainPath_iff {path : String} : IsPlainPath path ↔ Path.normalize path = path ∧
    path.toList.head? = some '/' ∧ path.toList.tail.head? ≠ some '/' ∧
    drive? path.toList = none := by
  constructor
  · intro h
    exact ⟨h.normal, h.rooted, h.single, h.noDrive⟩
  · rintro ⟨hnormal, hrooted, hsingle, hdrive⟩
    exact ⟨hnormal, hrooted, hsingle, hdrive⟩

instance (path : String) : Decidable (IsPlainPath path) := decidable_of_iff _ isPlainPath_iff.symm

namespace IsPlainPath

variable {path : String} (h : IsPlainPath path)

include h

theorem exists_toList_eq : ∃ rest, path.toList = '/' :: rest ∧ rest.head? ≠ some '/' := by
  have hrooted := h.rooted
  have hsingle := h.single
  cases hpath : path.toList with
  | nil =>
    rw [hpath] at hrooted
    cases hrooted
  | cons c rest =>
    rw [hpath] at hrooted hsingle
    exact ⟨rest, congrArg (· :: rest) (Option.some.inj hrooted), hsingle⟩

theorem resolve_eq (base : String) : Path.resolve base path = path := by
  rw [Path.resolve_of_isRooted (Path.isRooted_iff.mpr h.rooted), h.normal]

theorem ofPath_eq (base : String) :
    ofPath base path = .ok (String.ofList (scheme ++ encode path.toList)) := by
  obtain ⟨rest, hpath, hrest⟩ := h.exists_toList_eq
  have hone : ofAbsolute? path = some (String.ofList (scheme ++ encodePath path.toList)) := by
    rw [ofAbsolute?]
    split
    · next below hbelow =>
      rw [hpath] at hbelow
      obtain ⟨-, rfl⟩ := List.cons.inj hbelow
      exact absurd rfl hrest
    · rfl
  rw [ofPath, h.resolve_eq, hone, encodePath, h.noDrive]

/-- Nothing is cut off an encoded plain path, and it has no host. -/
theorem pathOfRest_encode : pathOfRest (encode path.toList) = path.toList := by
  obtain ⟨rest, hpath, -⟩ := h.exists_toList_eq
  have hfirst : encode path.toList = '/' :: encode rest := by
    rw [hpath]
    rfl
  have hhost : (encode path.toList).takeWhile (fun c ↦ c != '/' && c != '?' && c != '#') = [] := by
    rw [hfirst]
    rfl
  have hbelow : (encode path.toList).dropWhile (fun c ↦ c != '/' && c != '?' && c != '#')
      = encode path.toList := by
    rw [hfirst]
    rfl
  have hkept : ∀ d, isCoded d = false → (encode path.toList).takeWhile (· != d)
      = encode path.toList :=
    fun d hd ↦ List.takeWhile_eq_self_iff.mpr fun c hc ↦
      bne_iff_ne.mpr (ne_of_isCoded (isCoded_of_mem_encode hc) hd)
  have hnone : decode [] = [] := decode_encode []
  rw [pathOfRest, hhost, hbelow, hkept '#' (by decide), hkept '?' (by decide), hnone, decode_encode]
  simp only [bne_self_eq_false, Bool.false_and, Bool.false_eq_true, if_false, h.noDrive]

/-- **The URI of a plain path leads back to it.** -/
theorem toPath_ofPath {base uri : String} (huri : ofPath base path = .ok uri) :
    toPath uri = path := by
  obtain rfl := Except.ok.inj ((h.ofPath_eq base).symm.trans huri)
  obtain ⟨rest, hpath, -⟩ := h.exists_toList_eq
  have hkept : (encode path.toList).filter (fun c ↦ c != '\t' && c != '\r' && c != '\n')
      = encode path.toList := by
    refine List.filter_eq_self.mpr fun c hc ↦ ?_
    have hne := fun d ↦ ne_of_isCoded (d := d) (isCoded_of_mem_encode hc)
    simp only [Bool.and_eq_true, bne_iff_ne]
    exact ⟨⟨hne '\t' (by decide), hne '\r' (by decide)⟩, hne '\n' (by decide)⟩
  have hscheme : scheme.isPrefixOf (scheme ++ encode path.toList) = true :=
    List.isPrefixOf_iff_prefix.mpr (List.prefix_append _ _)
  rw [toPath]
  simp only [String.toList_ofList, hscheme, if_true, List.drop_left, hkept, h.pathOfRest_encode]
  rw [hpath]
  simp only [← hpath, String.ofList_toList]

end IsPlainPath

/-! ## Canonical URIs -/

def IsCanonical (workingDirectory uri : String) : Prop :=
  ofPath workingDirectory (toPath uri) = .ok uri

instance (workingDirectory uri : String) : Decidable (IsCanonical workingDirectory uri) :=
  inferInstanceAs (Decidable (_ = _))

theorem ofPath_resolve_eq_ok_iff {path uri : String} (h : Path.isRooted path = true)
    (base : String) :
    ofPath base (Path.resolve base path) = .ok uri ↔ ofPath base path = .ok uri := by
  rw [ofPath, ofPath, (Path.isNormal_resolve_of_isRooted h base).resolve_eq]
  cases ofAbsolute? (Path.resolve base path) with
  | none => exact iff_of_false nofun nofun
  | some found => rfl

end MissionIndex.Uri
