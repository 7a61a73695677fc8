import MissionIndex.Text.Blank

/-!
# Cutting a text at a pattern

A text is cut where a pattern occurs for the first time. Said of the parts: put together again, the
one in front and the pattern hold the pattern at their end only. That also rules out an occurrence
that begins in the part in front and ends in the pattern.
-/

namespace MissionIndex.Text

variable {pat front after cs : List Char} {c p : Char}

/-- Behind `front`, a pattern stands for the first time: in both together it occurs at the end
only. -/
def OccursFirst (pat front : List Char) : Prop :=
  ∀ before after, front ++ pat = before ++ (pat ++ after) → after = []

theorem occursFirst_nil : OccursFirst pat [] := by
  intro before after h
  have hlength := congrArg List.length h
  simp only [List.length_append, List.length_nil] at hlength
  exact List.eq_nil_of_length_eq_zero (by omega)

theorem occursFirst_cons : OccursFirst pat (c :: front) ↔ ¬ pat <+: c :: front ++ pat ∧
    OccursFirst pat front := by
  constructor
  · intro h
    refine ⟨?_, fun before after hsplit ↦ h (c :: before) after (congrArg (c :: ·) hsplit)⟩
    rintro ⟨after, hafter⟩
    obtain rfl := h [] after hafter.symm
    have hlength := congrArg List.length hafter
    simp only [List.append_nil, List.length_append, List.length_cons] at hlength
    omega
  · rintro ⟨hstart, hfirst⟩ before after hsplit
    cases before with
    | nil => exact absurd ⟨after, hsplit.symm⟩ hstart
    | cons d before => exact hfirst before after (List.cons.inj hsplit).2

theorem prefix_append_append_iff : pat <+: front ++ (pat ++ after) ↔ pat <+: front ++ pat := by
  rw [← List.append_assoc]
  refine ⟨fun h ↦ ?_, fun h ↦ h.trans (List.prefix_append _ _)⟩
  exact List.prefix_of_prefix_length_le h (List.prefix_append _ _)
    (by rw [List.length_append]; omega)

theorem prefix_append_cons_iff (h : p ∉ pat) : pat <+: front ++ p :: after ↔ pat <+: front := by
  refine ⟨fun hpat ↦ ?_, fun hpat ↦ hpat.trans (List.prefix_append _ _)⟩
  rcases List.prefix_or_prefix_of_prefix hpat
    (List.prefix_append front (p :: after)) with hle | ⟨more, rfl⟩
  · exact hle
  · rw [List.prefix_append_right_inj] at hpat
    cases more with
    | nil => exact (List.append_nil front).symm ▸ List.prefix_rfl
    | cons q more =>
      rw [(List.cons_prefix_cons.mp hpat).1] at h
      exact absurd (List.mem_append_right _ List.mem_cons_self) h

/-- **A text is cut at the first occurrence of the pattern.** -/
theorem cut?_eq_some_iff :
    cut? pat cs = some (front, after) ↔ cs = front ++ (pat ++ after) ∧ OccursFirst pat front := by
  induction cs generalizing front with
  | nil =>
    rw [cut?]
    by_cases hpat : pat = []
    · rw [if_pos (List.isEmpty_iff.mpr hpat), hpat]
      constructor
      · intro h
        obtain ⟨rfl, rfl⟩ := Prod.mk.inj (Option.some.inj h)
        exact ⟨rfl, occursFirst_nil⟩
      · rintro ⟨h, -⟩
        obtain ⟨rfl, rfl⟩ := List.append_eq_nil_iff.mp h.symm
        rfl
    · rw [if_neg (hpat ∘ List.isEmpty_iff.mp)]
      refine iff_of_false (by simp) ?_
      rintro ⟨h, -⟩
      simp [hpat] at h
  | cons c cs ih =>
    rw [cut?]
    by_cases hstart : pat <+: c :: cs
    · rw [if_pos (List.isPrefixOf_iff_prefix.mpr hstart)]
      obtain ⟨rest, hrest⟩ := hstart
      rw [← hrest, List.drop_left]
      constructor
      · intro h
        obtain ⟨rfl, rfl⟩ := Prod.mk.inj (Option.some.inj h)
        exact ⟨rfl, occursFirst_nil⟩
      · rintro ⟨hsplit, hfirst⟩
        cases front with
        | nil => rw [List.append_cancel_left hsplit]
        | cons d front =>
          exact absurd (prefix_append_append_iff.mp ⟨rest, hsplit⟩) (occursFirst_cons.mp hfirst).1
    · rw [if_neg (hstart ∘ List.isPrefixOf_iff_prefix.mp), Option.map_eq_some_iff]
      cases front with
      | nil =>
        refine iff_of_false (by simp) ?_
        rintro ⟨h, -⟩
        exact hstart ⟨after, h.symm⟩
      | cons d front =>
        constructor
        · rintro ⟨⟨before, behind⟩, hcut, hpair⟩
          obtain ⟨hfront, rfl⟩ := Prod.mk.inj hpair
          obtain ⟨rfl, rfl⟩ := List.cons.inj hfront
          obtain ⟨rfl, hfirst⟩ := ih.mp hcut
          exact ⟨rfl, occursFirst_cons.mpr ⟨hstart ∘ prefix_append_append_iff.mpr, hfirst⟩⟩
        · rintro ⟨hcs, hfirst⟩
          obtain ⟨rfl, hrest⟩ := List.cons.inj hcs
          exact ⟨(front, after), ih.mpr ⟨hrest, (occursFirst_cons.mp hfirst).2⟩, rfl⟩

/-! ## Patterns of one character -/

theorem occursFirst_singleton : OccursFirst [p] front ↔ p ∉ front := by
  induction front with
  | nil => exact iff_of_true occursFirst_nil List.not_mem_nil
  | cons c front ih => simp [occursFirst_cons, ih]

theorem cut?_singleton_eq_some_iff : cut? [p] cs = some (front, after) ↔ cs = front ++ p :: after ∧
    p ∉ front := by
  rw [cut?_eq_some_iff, occursFirst_singleton]
  rfl

end MissionIndex.Text
