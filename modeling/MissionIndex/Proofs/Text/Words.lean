import Mathlib.Data.List.Forall2
import MissionIndex.Proofs.Text.Trimming
import MissionIndex.Text.Fold
import MissionIndex.Text.Lower

/-!
# Words in any case

A text spells a word when it is that word in some case. Most ASCII letters have one other spelling,
and `s`, `i` and `k` have further ones; but what a character is a spelling of is always clear
(`baseLetter`). So a text spells one word at most, and a word that starts with other letters than
`s`, `i` and `k` still does so in lower case, however it was spelled.
-/

namespace MissionIndex.Text

variable {word cs found rest : List Char} {p q c : Char}

/-! ## Letters -/

theorem of_ascii {p : Char → Bool} (h : (List.range 128).all fun n ↦ p (Char.ofNat n))
    (hc : c.toNat < 128) :
    p c = true := by
  have hp := List.all_eq_true.mp h c.toNat (List.mem_range.mpr hc)
  rwa [Char.ofNat_toNat] at hp

theorem toLower_of_le (hc : 128 ≤ c.toNat) : c.toLower = c := by
  refine dif_neg ?_
  rintro ⟨-, hle⟩
  have hle' : c.toNat ≤ 'Z'.toNat := hle
  have hZ : 'Z'.toNat = 90 := rfl
  omega

/-- The ASCII letter or sign that a character is a spelling of, if it is one of any. -/
def baseLetter (c : Char) : Char :=
  if c = 'ſ' then 's' else if c = 'ı' ∨ c = 'İ' then 'i' else if c = '\u212A' then 'k'
  else c.toLower

theorem baseLetter_of_lt (hc : c.toNat < 128) : baseLetter c = c.toLower := by
  have hne : ∀ d : Char, 128 ≤ d.toNat → c ≠ d := fun d hd he ↦ absurd (he ▸ hc) (Nat.not_lt.mpr hd)
  rw [baseLetter, if_neg (hne _ (by decide)),
    if_neg (not_or.mpr ⟨hne _ (by decide), hne _ (by decide)⟩), if_neg (hne _ (by decide))]

theorem baseLetter_of_sameFolded (hp : p.toNat < 128) (h : sameFolded p c = true) :
    baseLetter c = p := by
  simp only [sameFolded, Bool.or_eq_true, Bool.and_eq_true, decide_eq_true_eq] at h
  rcases h with ((h | ⟨rfl, rfl⟩) | ⟨rfl, rfl | rfl⟩) | ⟨rfl, rfl⟩
  · have hc : c.toNat < 128 := by
      by_contra hc
      rw [toLower_of_le (Nat.not_lt.mp hc)] at h
      exact hc (h ▸ hp)
    rw [baseLetter_of_lt hc, h]
  all_goals rfl

theorem baseLetter_of_isBlank (hc : isBlank c = true) : baseLetter c = c :=
  beq_iff_eq.mp (of_isBlank (p := fun c ↦ baseLetter c == c) (by decide) hc)

theorem baseLetter_of_isDecimalDigit (hc : isDecimalDigit c = true) : baseLetter c = c := by
  have hne : ∀ d, isDecimalDigit d = false → c ≠ d :=
    fun d hd he ↦ by rw [he, hd] at hc; exact absurd hc (by decide)
  rw [baseLetter, if_neg (hne _ (by decide)),
    if_neg (not_or.mpr ⟨hne _ (by decide), hne _ (by decide)⟩), if_neg (hne _ (by decide))]
  by_cases hlt : c.toNat < 128
  · have hdigit := of_ascii (p := fun c ↦ !isDecimalDigit c || c.toLower == c) (by decide) hlt
    rwa [hc, Bool.not_true, Bool.false_or, beq_iff_eq] at hdigit
  · exact toLower_of_le (Nat.not_lt.mp hlt)

/-! ## Spellings -/

/-- A text is a word in some case. The word is given in lower case. -/
def Spells (word cs : List Char) : Prop := List.Forall₂ (fun p c ↦ sameFolded p c = true) word cs

theorem spanFolded_eq_some_iff :
    spanFolded word cs = some (found, rest) ↔ cs = found ++ rest ∧ Spells word found := by
  induction word generalizing cs found with
  | nil =>
    rw [spanFolded, Option.some.injEq, Prod.mk.injEq]
    constructor
    · rintro ⟨rfl, rfl⟩
      exact ⟨rfl, .nil⟩
    · rintro ⟨rfl, hnil⟩
      obtain rfl := List.forall₂_nil_left_iff.mp hnil
      exact ⟨rfl, rfl⟩
  | cons p word ih =>
    cases cs with
    | nil =>
      rw [spanFolded]
      refine ⟨fun h ↦ by simp at h, ?_⟩
      rintro ⟨hnil, hspells⟩
      obtain ⟨c, found, -, -, rfl⟩ := List.forall₂_cons_left_iff.mp hspells
      exact absurd hnil (by simp)
    | cons c cs =>
      rw [spanFolded]
      constructor
      · intro h
        split at h
        · next hc =>
          obtain ⟨⟨found', rest'⟩, hspan, hpair⟩ := Option.map_eq_some_iff.mp h
          obtain ⟨rfl, rfl⟩ := Prod.mk.inj hpair
          obtain ⟨rfl, hspells⟩ := ih.mp hspan
          exact ⟨rfl, .cons hc hspells⟩
        · simp at h
      · rintro ⟨hcs, hspells⟩
        obtain ⟨d, found', hd, hfound, rfl⟩ := List.forall₂_cons_left_iff.mp hspells
        obtain ⟨rfl, rfl⟩ : c = d ∧ cs = found' ++ rest := List.cons.inj hcs
        rw [if_pos hd, ih.mpr ⟨rfl, hfound⟩, Option.map_some]

theorem Spells.map_baseLetter (h : Spells word cs) (hword : ∀ p ∈ word, p.toNat < 128) :
    cs.map baseLetter = word := by
  induction h with
  | nil => rfl
  | cons hc _ ih =>
    obtain ⟨hp, hword⟩ := List.forall_mem_cons.mp hword
    rw [List.map_cons, baseLetter_of_sameFolded hp hc, ih hword]

theorem afterFolded_eq_some_iff {w : String} :
    afterFolded w cs = some rest ↔ ∃ found, cs = found ++ rest ∧ Spells w.toList found := by
  rw [afterFolded, Option.map_eq_some_iff]
  constructor
  · rintro ⟨⟨found, rest'⟩, hspan, rfl⟩
    exact ⟨found, spanFolded_eq_some_iff.mp hspan⟩
  · rintro ⟨found, hcs, hspells⟩
    exact ⟨(found, rest), spanFolded_eq_some_iff.mpr ⟨hcs, hspells⟩, rfl⟩

/-! ## Words inside a text -/

/-- A word stands in a text, in any case and not as a part of a longer one. The word is given in
lower case. -/
def HasWord (w : String) (cs : List Char) : Prop :=
  ∃ before found after, cs = before ++ (found ++ after) ∧ Spells w.toList found ∧
    opensWord before.getLast? = true ∧ closesWord after = true

theorem hasWord_iff {w : String} : HasWord w cs ↔ ∃ n ∈ List.range (cs.length + 1),
    opensWord (cs.take n).getLast? = true ∧ (afterFolded w (cs.drop n)).any closesWord = true := by
  constructor
  · rintro ⟨before, found, after, rfl, hspells, hopens, hcloses⟩
    refine ⟨before.length, List.mem_range.mpr (by rw [List.length_append]; omega), ?_, ?_⟩
    · rwa [List.take_left]
    · rw [List.drop_left, afterFolded_eq_some_iff.mpr ⟨found, rfl, hspells⟩]
      exact hcloses
  · rintro ⟨n, -, hopens, hany⟩
    obtain ⟨after, hafter, hcloses⟩ := (Option.any_eq_true _ _).mp hany
    obtain ⟨found, hfound, hspells⟩ := afterFolded_eq_some_iff.mp hafter
    exact ⟨cs.take n, found, after, by
      rw [← hfound, List.take_append_drop], hspells, hopens, hcloses⟩

instance (w : String) (cs : List Char) : Decidable (HasWord w cs) :=
  decidable_of_iff _ hasWord_iff.symm

/-! ## Lower case -/

/-- The letters that have two spellings, a small and a capital one. -/
def HasTwoCases (p : Char) : Prop := p.isLower = true ∧ p ≠ 's' ∧ p ≠ 'i' ∧ p ≠ 'k'

instance (p : Char) : Decidable (HasTwoCases p) := inferInstanceAs (Decidable (_ ∧ _))

theorem HasTwoCases.lt (hp : HasTwoCases p) : p.toNat < 128 := by
  have hz : p.toNat ≤ 'z'.toNat := of_decide_eq_true (Bool.and_eq_true_iff.mp hp.1).2
  have hcode : 'z'.toNat = 122 := rfl
  omega

theorem HasTwoCases.of_sameFolded (hp : HasTwoCases p) (h : sameFolded p c = true) :
    c.toLower = p ∧ c.toNat < 128 := by
  obtain ⟨-, hs, hi, hk⟩ := id hp
  simp only [sameFolded, hs, hi, hk, decide_false, Bool.false_and, Bool.or_false, decide_eq_true_eq]
    at h
  refine ⟨h, ?_⟩
  by_contra hc
  rw [toLower_of_le (Nat.not_lt.mp hc)] at h
  exact hc (h ▸ hp.lt)

/-- The lower-case form of a text starts as the word does that the text is a spelling of, as far as
its letters have two cases. -/
theorem Spells.prefix_lowerFrom {stem : List Char} (h : Spells word cs)
    (hstem : stem.all (HasTwoCases ·) = true) (hle : stem <+: word) (before : List Char) :
    stem <+: lowerFrom before cs := by
  induction h generalizing stem before with
  | nil => rw [List.prefix_nil.mp hle]; exact List.nil_prefix
  | @cons p c word cs hc _ ih =>
    cases stem with
    | nil => exact List.nil_prefix
    | cons q stem =>
      obtain ⟨rfl, hmore⟩ := List.cons_prefix_cons.mp hle
      rw [List.all_cons, Bool.and_eq_true, decide_eq_true_eq] at hstem
      obtain ⟨hq, hstem⟩ := hstem
      obtain ⟨hlower, hlt⟩ := hq.of_sameFolded hc
      have hne : ∀ d : Char, 128 ≤ d.toNat → c ≠ d :=
        fun d hd he ↦ absurd (he ▸ hlt) (Nat.not_lt.mpr hd)
      have hchar : lowerChar c = q := by rw [lowerChar, if_pos hlt, hlower]
      rw [lowerFrom, if_neg (hne _ (by decide)), if_neg (hne _ (by decide)), hchar,
        List.singleton_append]
      exact List.cons_prefix_cons.mpr ⟨rfl, ih hstem hmore _⟩

end MissionIndex.Text
