import MissionIndex.Proofs.Text.Offsets
import MissionIndex.Proofs.Text.Trimming

/-!
# Carriage returns

A text whose lines end in CR LF is read from a file as one whose lines end in LF. Where each
carriage return is in front of a line feed, this is the text without its carriage returns, so
nothing is moved but what comes after a carriage return on its line, and that is the line feed.
-/

namespace MissionIndex.Text

/-- Each carriage return is immediately followed by a line feed. -/
def PairsReturns (cs : List Char) : Prop := ∀ before after, cs = before ++ '\r' :: after →
    after.head? = some '\n'

/-- A text without its carriage returns. -/
def dropReturns (cs : List Char) : List Char := cs.filter (· != '\r')

/-- Every CR LF becomes a line feed. -/
def unifyPairs : List Char → List Char
  | [] => []
  | '\r' :: '\n' :: cs => '\n' :: unifyPairs cs
  | c :: cs => c :: unifyPairs cs

/-- The end of a line: a line feed, maybe behind a carriage return. -/
def IsLineEnd (ending : List Char) : Prop := ending = ['\n'] ∨ ending = ['\r', '\n']

variable {c : Char} {cs : List Char}

/-! ## Texts with paired carriage returns -/

theorem pairsReturns_nil : PairsReturns [] := fun _ _ h ↦ by simp at h

theorem pairsReturns_cons : PairsReturns (c :: cs) ↔ (c = '\r' → cs.head? = some '\n') ∧
    PairsReturns cs := by
  constructor
  · intro h
    refine ⟨fun hc ↦ h [] cs (by rw [hc]; rfl), fun before after hcs ↦ h (c :: before) after ?_⟩
    rw [hcs, List.cons_append]
  · rintro ⟨hc, h⟩ before after hcs
    cases before with
    | nil =>
      obtain ⟨rfl, rfl⟩ := List.cons.inj hcs
      exact hc rfl
    | cons d before => exact h before after (List.cons.inj hcs).2

instance decidablePairsReturns : (cs : List Char) → Decidable (PairsReturns cs)
  | [] => isTrue pairsReturns_nil
  | c :: cs =>
    have := decidablePairsReturns cs
    decidable_of_iff ((c = '\r' → cs.head? = some '\n') ∧ PairsReturns cs) pairsReturns_cons.symm

namespace PairsReturns

variable {front rest : List Char}

theorem append_right (h : PairsReturns (front ++ rest)) : PairsReturns rest :=
  fun before after hrest ↦ h (front ++ before) after (by rw [hrest, List.append_assoc])

theorem append_left (h : PairsReturns (front ++ rest)) (hlast : front.getLast? ≠ some '\r') :
    PairsReturns front := by
  intro before after hfront
  have hhead := h before (after ++ rest) (by rw [hfront, List.append_assoc, List.cons_append])
  cases after with
  | nil => exact absurd (by rw [hfront, List.getLast?_concat]) hlast
  | cons d after => exact hhead

theorem append_left_of_head (h : PairsReturns (front ++ rest)) (hhead : rest.head? ≠ some '\n') :
    PairsReturns front := by
  refine h.append_left fun hlast ↦ hhead ?_
  obtain ⟨before, rfl⟩ := List.getLast?_eq_some_iff.mp hlast
  exact h before rest (by rw [List.append_assoc, List.singleton_append])

end PairsReturns

/-! ## Without carriage returns -/

@[simp] theorem dropReturns_nil : dropReturns [] = [] := rfl

@[simp] theorem dropReturns_return (cs : List Char) : dropReturns ('\r' :: cs) = dropReturns cs :=
  rfl

theorem dropReturns_cons (hc : c ≠ '\r') (cs : List Char) :
    dropReturns (c :: cs) = c :: dropReturns cs :=
  List.filter_cons_of_pos (bne_iff_ne.mpr hc)

@[simp] theorem dropReturns_append (front rest : List Char) :
    dropReturns (front ++ rest) = dropReturns front ++ dropReturns rest := List.filter_append _ _

theorem return_notMem_dropReturns (cs : List Char) : '\r' ∉ dropReturns cs := fun h ↦
  absurd (List.mem_filter.mp h).2 (by decide)

theorem dropReturns_of_notMem (h : '\r' ∉ cs) : dropReturns cs = cs :=
  List.filter_eq_self.mpr fun _ hc ↦ bne_iff_ne.mpr fun he ↦ h (he ▸ hc)

/-- A text starts as it did, but a line feed comes forward for a carriage return. -/
theorem head?_dropReturns (h : PairsReturns cs) :
    (dropReturns cs).head? = if cs.head? = some '\r' then some '\n' else cs.head? := by
  cases cs with
  | nil => rfl
  | cons c cs =>
    obtain ⟨hpair, -⟩ := pairsReturns_cons.mp h
    by_cases hc : c = '\r'
    · obtain ⟨more, rfl⟩ := List.head?_eq_some_iff.mp (hpair hc)
      rw [hc]
      rfl
    · rw [dropReturns_cons hc, List.head?_cons, List.head?_cons, if_neg fun he ↦
        hc (Option.some.inj he)]

theorem head?_dropReturns_eq_iff (h : PairsReturns cs) {d : Char} (hd : d ≠ '\r' ∧ d ≠ '\n') :
    (dropReturns cs).head? = some d ↔ cs.head? = some d := by
  rw [head?_dropReturns h]
  split
  · next hreturn =>
    rw [hreturn, Option.some.injEq, Option.some.injEq]
    exact ⟨fun he ↦ absurd he.symm hd.2, fun he ↦ absurd he.symm hd.1⟩
  · exact Iff.rfl

theorem unifyNewlines_eq (h : PairsReturns cs) : unifyNewlines cs = dropReturns cs := by
  fun_induction unifyNewlines cs with
  | case1 => rfl
  | case2 cs ih =>
    obtain ⟨-, h⟩ := pairsReturns_cons.mp h
    rw [ih (pairsReturns_cons.mp h).2]
    rfl
  | case3 cs hne =>
    obtain ⟨more, rfl⟩ := List.head?_eq_some_iff.mp ((pairsReturns_cons.mp h).1 rfl)
    exact absurd rfl (hne more)
  | case4 c cs _ hc ih =>
    rw [dropReturns_cons hc, ih (pairsReturns_cons.mp h).2]

theorem unifyNewlines_append {front : List Char} (h : '\r' ∉ front) (rest : List Char) :
    unifyNewlines (front ++ rest) = front ++ unifyNewlines rest := by
  induction front with
  | nil => rfl
  | cons c front ih =>
    have hc : c ≠ '\r' := fun he ↦ h (he ▸ List.mem_cons_self)
    have hstep : ∀ cs, unifyNewlines (c :: cs) = c :: unifyNewlines cs :=
      fun cs ↦ by simp [unifyNewlines, hc]
    rw [List.cons_append, hstep, ih fun hmem ↦ h (List.mem_cons_of_mem c hmem), List.cons_append]

theorem unifyNewlines_join {ending : List Char} (hending : IsLineEnd ending)
    {parts : List (List Char)} (h : ∀ part ∈ parts, '\r' ∉ part) :
    unifyNewlines (join ending parts) = join ['\n'] parts := by
  have hfeed : ∀ more, unifyNewlines (ending ++ more) = '\n' :: unifyNewlines more := fun more ↦ by
    rcases hending with rfl | rfl
    · rw [List.singleton_append, unifyNewlines] <;> simp
    · rfl
  induction parts with
  | nil => rfl
  | cons part rest ih =>
    obtain ⟨hpart, hrest⟩ := List.forall_mem_cons.mp h
    cases rest with
    | nil =>
      have hall := unifyNewlines_append hpart []
      rwa [List.append_nil, unifyNewlines, List.append_nil] at hall
    | cons next rest =>
      have hjoin : join ending (part :: next :: rest) = part ++
          (ending ++ join ending (next :: rest)) := by
        rw [join, List.append_assoc]
        exact List.cons_ne_nil next rest
      rw [hjoin, unifyNewlines_append hpart, hfeed, ih hrest,
        Path.join_cons (List.cons_ne_nil next rest)]

theorem unifyPairs_eq (h : PairsReturns cs) : unifyPairs cs = dropReturns cs := by
  fun_induction unifyPairs cs with
  | case1 => rfl
  | case2 cs ih =>
    obtain ⟨-, h⟩ := pairsReturns_cons.mp h
    rw [ih (pairsReturns_cons.mp h).2]
    rfl
  | case3 c cs hne ih =>
    obtain ⟨hpair, h⟩ := pairsReturns_cons.mp h
    have hc : c ≠ '\r' := fun hc ↦ by
      obtain ⟨more, rfl⟩ := List.head?_eq_some_iff.mp (hpair hc)
      exact hne more hc rfl
    rw [dropReturns_cons hc, ih h]

theorem unifyPairs_of_notMem (h : '\r' ∉ cs) : unifyPairs cs = cs := by
  rw [unifyPairs_eq fun before after hcs ↦ absurd (by simp [hcs]) h, dropReturns_of_notMem h]

theorem unifyPairs_append (front : List Char) (hc : c ≠ '\n') (rest : List Char) :
    unifyPairs (front ++ c :: rest) = unifyPairs front ++ unifyPairs (c :: rest) := by
  fun_induction unifyPairs front with
  | case1 => rfl
  | case2 front ih =>
    rw [List.cons_append, List.cons_append, unifyPairs, ih, List.cons_append]
  | case3 d front hne ih =>
    rw [List.cons_append, unifyPairs, ih, List.cons_append]
    rintro more rfl hmore
    cases front with
    | nil => exact hc (List.cons.inj hmore).1
    | cons e front =>
      obtain ⟨rfl, -⟩ := List.cons.inj hmore
      exact hne front rfl rfl

theorem unifyPairs_intercalate (parts : List (List Char)) :
    unifyPairs ([' '].intercalate parts) = [' '].intercalate (parts.map unifyPairs) := by
  induction parts with
  | nil => rfl
  | cons part rest ih =>
    cases rest with
    | nil => simp
    | cons next rest =>
      have hspace : ∀ cs, unifyPairs (' ' :: cs) = ' ' :: unifyPairs cs :=
        fun cs ↦ by simp [unifyPairs]
      rw [List.map_cons, List.map_cons, List.intercalate_cons_cons, List.intercalate_cons_cons,
        ← List.map_cons, ← ih, List.append_assoc, List.singleton_append,
        unifyPairs_append part (by decide), hspace, List.append_assoc,
        List.singleton_append]

/-! ## Places and ends -/

theorem after_dropReturns (h : PairsReturns cs) :
    Position.after (dropReturns cs) = Position.after cs := by
  obtain ⟨last, hlast, htext⟩ := Position.exists_lastLine cs
  have hreturn : '\r' ∉ last := by
    intro hmem
    obtain ⟨before, after, rfl⟩ := List.append_of_mem hmem
    have hhead : after.head? = some '\n' := by
      rcases htext with rfl | ⟨front, rfl⟩
      · exact h before after rfl
      · exact h (front ++ '\n' :: before) after (by simp)
    exact hlast (List.mem_append_right _ (List.mem_cons_of_mem _ (List.mem_of_mem_head? hhead)))
  rcases htext with rfl | ⟨front, rfl⟩
  · rw [dropReturns_of_notMem hreturn]
  · have hcount : (dropReturns front).count '\n' = front.count '\n' := List.count_filter (by decide)
    rw [dropReturns_append, dropReturns_cons (by decide), dropReturns_of_notMem hreturn,
      Position.after_append_line _ hlast, Position.after_append_line _ hlast, hcount]

theorem dropMarks_dropReturns (h : PairsReturns cs) :
    dropMarks (dropReturns cs) = dropReturns (dropMarks cs) := by
  induction cs with
  | nil => rfl
  | cons c cs ih =>
    obtain ⟨hpair, hcs⟩ := pairsReturns_cons.mp h
    by_cases hmark : c = byteOrderMark
    · rw [hmark]
      exact ih hcs
    · have hcut : dropMarks (c :: cs) = c :: cs :=
        List.dropWhile_cons_of_neg fun he ↦ hmark (beq_iff_eq.mp he)
      rw [hcut]
      by_cases hc : c = '\r'
      · obtain ⟨more, rfl⟩ := List.head?_eq_some_iff.mp (hpair hc)
        rw [hc]
        rfl
      · rw [dropReturns_cons hc]
        exact List.dropWhile_cons_of_neg fun he ↦ hmark (beq_iff_eq.mp he)

end MissionIndex.Text
