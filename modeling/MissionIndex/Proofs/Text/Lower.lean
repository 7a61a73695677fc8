import MissionIndex.Proofs.Text.Words

/-!
# Lower case and the signs between words

A *sign* is an ASCII character in front of the letters, such as the dots and slashes that names are
taken apart at. Lower-casing keeps signs and makes them of nothing else, so that a text and its
lower-case form come apart at the same places (`exists_lowerFrom_append`). What stands before a text
makes a difference to its lower-case form at capital sigmas only, and so to no form that is all
ASCII (`lowerFrom_congr`).
-/

namespace MissionIndex.Text

variable {c sign : Char} {cs : List Char}

/-! ## Characters -/

/-- The ASCII characters in front of the letters. -/
def IsSign (c : Char) : Prop := 0 < c.toNat ∧ c.toNat < 'A'.toNat

instance (c : Char) : Decidable (IsSign c) := inferInstanceAs (Decidable (_ ∧ _))

theorem IsSign.ne_of_le (hsign : IsSign sign) {n : Nat} (hn : 'A'.toNat ≤ n) :
    Char.ofNat n ≠ sign := by
  rintro rfl
  obtain ⟨hpos, hlt⟩ := hsign
  by_cases hvalid : n.isValidChar
  · have hcode : (Char.ofNat n).toNat = n := by
      rw [Char.ofNat, dif_pos hvalid]
      rfl
    omega
  · have hcode : (Char.ofNat n).toNat = 0 := by
      rw [Char.ofNat, dif_neg hvalid]
      rfl
    omega

theorem le_of_mem_lowerRuns : ∀ run ∈ lowerRuns, ('A'.toNat : Int) ≤ run.1 + run.2.2.2 :=
  by decide +kernel

theorem lowerChar_eq_iff (hsign : IsSign sign) : lowerChar c = sign ↔ c = sign := by
  have hletters : 'A'.toNat = 65 := rfl
  by_cases hc : c.toNat < 128
  · -- Of the ASCII characters, only capital letters change, and they become small letters.
    have hcase : c.toLower = c ∨ 'A'.toNat ≤ c.toNat ∧ 'A'.toNat ≤ c.toLower.toNat :=
      of_decide_eq_true (of_ascii (p := fun c ↦ c.toLower = c ∨ 'A'.toNat ≤ c.toNat ∧
        'A'.toNat ≤ c.toLower.toNat)
        (by decide +kernel) hc)
    rw [lowerChar, if_pos hc]
    rcases hcase with hsame | ⟨hle, hlower⟩
    · rw [hsame]
    · refine iff_of_false ?_ ?_
      · rintro rfl
        exact absurd hsign.2 (Nat.not_lt.mpr hlower)
      · rintro rfl
        exact absurd hsign.2 (Nat.not_lt.mpr hle)
  · have hne : c ≠ sign := by
      rintro rfl
      have hlt := hsign.2
      omega
    refine iff_of_false ?_ hne
    rw [lowerChar, if_neg hc]
    split
    · next lo hi step shift hfind =>
      have hrun := le_of_mem_lowerRuns _ (List.mem_of_find?_eq_some hfind)
      have hmem := List.find?_some hfind
      simp only [Bool.and_eq_true, decide_eq_true_eq] at hmem hrun
      exact hsign.ne_of_le (by omega)
    · exact hne

/-! ## Texts -/

/-- The lower-case form of a text is made of a piece for each character, which has a sign in it just
if the character is this sign. -/
theorem exists_lowerFrom_cons (before : List Char) (c : Char) (cs : List Char) :
    ∃ piece, lowerFrom before (c :: cs) = piece ++ lowerFrom (c :: before) cs ∧
      ∀ sign, IsSign sign → piece.any (· == sign) = (c == sign) ∧
      piece.all (· == sign) = (c == sign) := by
  have hone : ∀ low : Char, (∀ sign, IsSign sign → (low = sign ↔ c = sign)) → ∀ sign, IsSign sign →
      [low].any (· == sign) = (c == sign) ∧ [low].all (· == sign) = (c == sign) := by
    intro low hlow sign hsign
    have hbeq : (low == sign) = (c == sign) := by
      rw [Bool.eq_iff_iff, beq_iff_eq, beq_iff_eq, hlow sign hsign]
    rw [List.any_cons, List.any_nil, Bool.or_false, List.all_cons, List.all_nil, Bool.and_true]
    exact ⟨hbeq, hbeq⟩
  have hfar : ∀ d : Char, 'A'.toNat ≤ d.toNat → ∀ sign, IsSign sign → d ≠ sign := by
    rintro d hd sign hsign rfl
    exact absurd hsign.2 (Nat.not_lt.mpr hd)
  rw [lowerFrom]
  refine ⟨_, rfl, ?_⟩
  split
  · next hc =>
    intro sign hsign
    have hi := beq_false_of_ne (hfar 'i' (by decide) sign hsign)
    have hdot := beq_false_of_ne (hfar '\u0307' (by decide) sign hsign)
    have hcap := beq_false_of_ne (hfar 'İ' (by decide) sign hsign)
    rw [hc, List.any_cons, List.all_cons, hi, hcap, List.any_cons, hdot]
    exact ⟨rfl, rfl⟩
  · split
    · next hc =>
      refine hone _ fun sign hsign ↦ iff_of_false ?_ (hc ▸ hfar 'Σ' (by decide) sign hsign)
      split
      · exact hfar 'ς' (by decide) sign hsign
      · exact hfar 'σ' (by decide) sign hsign
    · exact hone _ fun sign hsign ↦ lowerChar_eq_iff hsign

/-- **Lower-casing keeps a text in parts.** The form of a text ends in that of its second part as
seen from the first one. In front of this it has the signs that the first part has. -/
theorem exists_lowerFrom_append (before as bs : List Char) :
    ∃ front, lowerFrom before (as ++ bs) = front ++ lowerFrom (as.reverse ++ before) bs ∧
      ∀ sign, IsSign sign →
        front.any (· == sign) = as.any (· == sign) ∧
        front.all (· == sign) = as.all (· == sign) := by
  induction as generalizing before with
  | nil => exact ⟨[], rfl, fun _ _ ↦ ⟨rfl, rfl⟩⟩
  | cons a as ih =>
    obtain ⟨piece, hpiece, hsigns⟩ := exists_lowerFrom_cons before a (as ++ bs)
    obtain ⟨front, hfront, hmore⟩ := ih (a :: before)
    refine ⟨piece ++ front, ?_, fun sign hsign ↦ ?_⟩
    · rw [List.cons_append, hpiece, hfront, List.append_assoc, List.reverse_cons, List.append_assoc,
        List.singleton_append]
    · rw [List.any_append, List.all_append, (hsigns sign hsign).1, (hsigns sign hsign).2,
        (hmore sign hsign).1, (hmore sign hsign).2, List.any_cons, List.all_cons]
      exact ⟨rfl, rfl⟩

theorem mem_lowerFrom_iff (hsign : IsSign sign) (before cs : List Char) :
    sign ∈ lowerFrom before cs ↔ sign ∈ cs := by
  obtain ⟨front, hfront, hsigns⟩ := exists_lowerFrom_append before cs []
  have hany := (hsigns sign hsign).1
  rw [List.append_nil, lowerFrom, List.append_nil] at hfront
  rw [hfront]
  simpa only [List.any_eq_true, beq_iff_eq, exists_eq_right] using Bool.eq_iff_iff.mp hany

/-- What stands before a text makes no difference if its lower-case form is all ASCII. -/
theorem lowerFrom_congr {before : List Char} (h : ∀ c ∈ lowerFrom before cs, c.toNat < 128)
    (before' : List Char) :
    lowerFrom before' cs = lowerFrom before cs := by
  induction cs generalizing before before' with
  | nil => rw [lowerFrom, lowerFrom]
  | cons c cs ih =>
    rw [lowerFrom] at h
    obtain ⟨hpiece, hrest⟩ := List.forall_mem_append.mp h
    rw [lowerFrom, lowerFrom, ih hrest]
    congr 1
    by_cases hdotted : c = 'İ'
    · rw [if_pos hdotted, if_pos hdotted]
    by_cases hsigma : c = 'Σ'
    · -- Both small forms of a sigma lie outside of ASCII.
      rw [if_neg hdotted, if_pos hsigma] at hpiece
      refine absurd (hpiece _ (List.mem_singleton_self _)) ?_
      split <;> decide
    · rw [if_neg hdotted, if_neg hdotted, if_neg hsigma, if_neg hsigma]

end MissionIndex.Text
