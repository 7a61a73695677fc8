import MissionIndex.Header.Entry
import MissionIndex.Proofs.Header.Sections
import MissionIndex.Proofs.Text.Cutting

/-!
# Lines with a type in angle brackets

Such a line has a number, a colon, a description and a type in angle brackets. The description ends
at the first opening bracket and the type at the first closing one behind it, and what is read of
the line is what this form says (`bracketed_eq_some_iff`).
-/

namespace MissionIndex.Header

open Text

variable {line cs front rest : List Char}

/-! ## Runs of characters -/

theorem takeWhile_append {q : Char → Bool} (hfront : ∀ c ∈ front, q c = true)
    (hrest : ∀ c ∈ rest.head?, q c = false) :
    (front ++ rest).takeWhile q = front := by
  rw [List.takeWhile_append_of_pos hfront]
  cases rest with
  | nil => simp
  | cons c rest => simp [hrest c rfl]

theorem dropWhile_append {q : Char → Bool} (hfront : ∀ c ∈ front, q c = true)
    (hrest : ∀ c ∈ rest.head?, q c = false) :
    (front ++ rest).dropWhile q = rest := by
  rw [List.dropWhile_append_of_pos hfront]
  cases rest with
  | nil => rfl
  | cons c rest => simp [hrest c rfl]

/-! ## The form of the lines -/

def IsNumber (cs : List Char) : Prop := cs ≠ [] ∧ ∀ c ∈ cs, isDecimalDigit c = true

instance (cs : List Char) : Decidable (IsNumber cs) :=
  decidable_of_iff (cs ≠ [] ∧ cs.all isDecimalDigit = true) (by rw [IsNumber, List.all_eq_true])

/-- A line has a number, a colon, `before` in front of the angle brackets, `type` inside and
`behind` behind them. -/
def IsBracketLine (line before type behind : List Char) : Prop :=
  ∃ number gap, line = number ++ (gap ++ ':' :: (before ++ '<' :: (type ++ '>' :: behind))) ∧
  IsNumber number ∧
    (∀ c ∈ gap, isBlank c = true) ∧ '<' ∉ before ∧ '>' ∉ type

theorem splitBrackets?_eq_some_iff {description type : List Char} :
    splitBrackets? cs = some (description, type, rest) ↔ ∃ before behind,
      cs = before ++ '<' :: (type ++ '>' :: behind) ∧ '<' ∉ before ∧ '>' ∉ type ∧
        description = trimEnd before ∧ rest = trimStart behind := by
  rw [splitBrackets?, Option.bind_eq_some_iff]
  constructor
  · rintro ⟨⟨before, inside⟩, hopen, hclose⟩
    obtain ⟨⟨type', behind⟩, hcut, hfound⟩ := Option.map_eq_some_iff.mp hclose
    obtain ⟨rfl, hbefore⟩ := cut?_singleton_eq_some_iff.mp hopen
    obtain ⟨rfl, htype⟩ := cut?_singleton_eq_some_iff.mp hcut
    obtain ⟨rfl, hpair⟩ := Prod.mk.inj hfound
    obtain ⟨rfl, rfl⟩ := Prod.mk.inj hpair
    exact ⟨before, behind, rfl, hbefore, htype, rfl, rfl⟩
  · rintro ⟨before, behind, rfl, hbefore, htype, rfl, rfl⟩
    refine ⟨(before, type ++ '>' :: behind), cut?_singleton_eq_some_iff.mpr ⟨rfl, hbefore⟩, ?_⟩
    exact Option.map_eq_some_iff.mpr ⟨(type, behind), cut?_singleton_eq_some_iff.mpr ⟨rfl, htype⟩,
      rfl⟩

/-- What is read of a line is what its form says, apart from the blanks around it. -/
theorem bracketed_eq_some_iff {description type : List Char} :
    bracketed? line = some (description, type, rest) ↔
    ∃ before behind, IsBracketLine line before type behind ∧
      description = trim before ∧ rest = trimStart behind := by
  constructor
  · intro h
    rw [bracketed?] at h
    split_ifs at h with hnumber
    obtain ⟨after, hafter, hsplit⟩ := Option.bind_eq_some_iff.mp h
    obtain ⟨before, behind, hparts, hbefore, htype, rfl, rfl⟩ :=
      splitBrackets?_eq_some_iff.mp hsplit
    have hcolon := afterChar_eq_some_iff.mp hafter
    refine ⟨after.takeWhile isBlank ++ before, behind, ⟨line.takeWhile isDecimalDigit,
      (line.dropWhile isDecimalDigit).takeWhile isBlank, ?_,
      ⟨hnumber, fun c hc ↦ List.mem_takeWhile_imp hc⟩,
      fun c hc ↦ List.mem_takeWhile_imp hc, ?_, htype⟩, ?_, rfl⟩
    · rw [List.append_assoc, ← hparts, trimStart, List.takeWhile_append_dropWhile,
        ← hcolon, trimStart, List.takeWhile_append_dropWhile, List.takeWhile_append_dropWhile]
    · exact fun hmem ↦ (List.mem_append.mp hmem).elim
        (fun hc ↦ absurd (List.mem_takeWhile_imp hc) (by decide)) hbefore
    · have hstart : trimStart (after.takeWhile isBlank ++ before) = before := by
        rw [trimStart_append_of_blank fun c hc ↦ List.mem_takeWhile_imp hc]
        have htwice : trimStart (trimStart after) = trimStart after :=
          List.dropWhile_idempotent isBlank after
        rw [hparts, trimStart_append_cons before (by decide)] at htwice
        exact List.append_cancel_right htwice
      exact (congrArg trimEnd hstart).symm
  · rintro ⟨before, behind, ⟨number, gap, rfl, ⟨hne, hdigits⟩, hgap, hbefore, htype⟩, rfl, rfl⟩
    have hhead : ∀ c ∈ (gap ++ ':' :: (before ++ '<' :: (type ++ '>' :: behind))).head?,
        isDecimalDigit c = false := by
      intro c hc
      cases gap with
      | nil =>
        rw [List.nil_append, List.head?_cons, Option.mem_some_iff] at hc
        rw [← hc]
        decide
      | cons b gap =>
        rw [List.cons_append, List.head?_cons, Option.mem_some_iff] at hc
        by_contra hdigit
        have hblank := isBlank_of_isDecimalDigit (Bool.not_eq_false _ |>.mp hdigit)
        rw [← hc, hgap b List.mem_cons_self] at hblank
        exact absurd hblank (by decide)
    have hfirst : '<' ∉ trimStart before :=
      fun hmem ↦ hbefore (List.dropWhile_sublist isBlank |>.mem hmem)
    rw [bracketed?, takeWhile_append hdigits hhead, if_neg hne, dropWhile_append hdigits hhead,
      trimStart_append_of_blank hgap, trimStart_cons (by decide), afterChar, if_pos rfl,
      Option.bind_some,
      trimStart_append_cons _ (by decide)]
    exact splitBrackets?_eq_some_iff.mpr ⟨trimStart before, behind, rfl, hfirst, htype, rfl, rfl⟩

end MissionIndex.Header
