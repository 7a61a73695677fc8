import MissionIndex.Config.Parse
import MissionIndex.Proofs.Config.Grammar

/-!
# The token to blame

A row of tokens is *viable* if more tokens can make it one that the rules derive. Reading stops at
the first token that leaves the row viable no longer, and names its place; if there is none, it
stops at the end of the row, which then is viable but not derived.

## Why a reader never goes too far

A reader that has got stuck cannot have been misled earlier. Whatever it awaits, the rules have
something that can follow (`exists_completes`): the statement in progress can be brought to its end,
and then each list and each body that is still open. So all that was read up to there is viable, and
the token that it refuses is to blame. That no row begins with the token as well holds since a row
that the rules derive is read to its end.
-/

namespace MissionIndex.Config

/-! ## Whatever is awaited can follow -/

theorem exists_token (kind : Token.Kind) : ∃ t : Token, t.kind = kind :=
  ⟨⟨kind, "", ⟨"", .empty⟩⟩, rfl⟩

theorem exists_classRest : ∃ ts, ClassRest ts := by
  obtain ⟨stop, hs⟩ := exists_token (.mark .semicolon)
  exact ⟨[stop], .declaration hs⟩

theorem exists_baseRest : ∃ ts, BaseRest ts := by
  obtain ⟨base, hb⟩ := exists_token .word
  obtain ⟨rest, hrest⟩ := exists_classRest
  exact ⟨base :: rest, base, rest, hb, hrest, rfl⟩

theorem exists_listsRest (depth : Nat) : ∃ ts, ListsRest depth ts := by
  induction depth with
  | zero =>
    obtain ⟨stop, hs⟩ := exists_token (.mark .semicolon)
    exact ⟨[stop], stop, hs, rfl⟩
  | succ depth ih =>
    obtain ⟨closer, hc⟩ := exists_token (.mark .closeBrace)
    obtain ⟨rest, hrest⟩ := ih
    exact ⟨closer :: rest, listsRest_of_close hc hrest⟩

theorem exists_listRest : ∃ ts, ListRest ts := by
  obtain ⟨opener, ho⟩ := exists_token (.mark .openBrace)
  obtain ⟨closer, hc⟩ := exists_token (.mark .closeBrace)
  obtain ⟨stop, hs⟩ := exists_token (.mark .semicolon)
  exact ⟨[opener, closer, stop], [opener, closer], stop, .list ho .noItems hc, hs, rfl⟩

theorem exists_assignmentRest : ∃ ts, AssignmentRest ts := by
  obtain ⟨sign, hs⟩ := exists_token (.mark .equals)
  obtain ⟨rest, hrest⟩ := exists_listRest
  exact ⟨sign :: rest, sign, rest, .inl hs, hrest, rfl⟩

theorem exists_bracketRest : ∃ ts, BracketRest ts := by
  obtain ⟨closer, hc⟩ := exists_token (.mark .closeBracket)
  obtain ⟨rest, hrest⟩ := exists_assignmentRest
  exact ⟨closer :: rest, closer, rest, hc, hrest, rfl⟩

theorem exists_valueRest (parts : List Token) : ∃ ts, ValueRest parts ts := by
  obtain ⟨word, hw⟩ := exists_token .word
  obtain ⟨stop, hs⟩ := exists_token (.mark .semicolon)
  refine ⟨[word, stop], [word], stop, by simp, fun t ht ↦ ?_, hs, rfl⟩
  rw [List.mem_singleton.mp ht]
  exact .inl hw

/-- The statement in progress can be completed. -/
theorem exists_finishes (a : Awaiting) : ∃ ts, Finishes a ts := by
  cases a with
  | statement => exact ⟨[], rfl⟩
  | className =>
    obtain ⟨name, hn⟩ := exists_token .word
    obtain ⟨rest, hrest⟩ := exists_classRest
    exact ⟨name :: rest, name, rest, hn, .inl hrest, rfl⟩
  | classHead name =>
    obtain ⟨ts, hts⟩ := exists_classRest
    exact ⟨ts, .inl hts⟩
  | baseName name => exact exists_baseRest
  | classBody name base => exact exists_classRest
  | classEnd done => exact exists_listsRest 0
  | deletedName =>
    obtain ⟨name, hn⟩ := exists_token .word
    obtain ⟨rest, hrest⟩ := exists_listsRest 0
    exact ⟨name :: rest, name, rest, hn, hrest, rfl⟩
  | deleteEnd name => exact exists_listsRest 0
  | variableHead name =>
    obtain ⟨sign, hs⟩ := exists_token (.mark .equals)
    obtain ⟨rest, hrest⟩ := exists_valueRest []
    exact ⟨sign :: rest, .inl ⟨sign, rest, hs, hrest, rfl⟩⟩
  | bracket name => exact exists_bracketRest
  | listAssignment name => exact exists_assignmentRest
  | listStart target => exact exists_listRest
  | item target lists items =>
    obtain ⟨closer, hc⟩ := exists_token (.mark .closeBrace)
    obtain ⟨rest, hrest⟩ := exists_listsRest lists.length
    exact ⟨closer :: rest, itemsRest_of_close hc hrest⟩
  | itemPart target lists items parts =>
    obtain ⟨rest, hrest⟩ := exists_listsRest (lists.length + 1)
    exact ⟨rest, [], rest, nofun, hrest, rfl⟩
  | separator target lists items => exact exists_listsRest (lists.length + 1)
  | listEnd target items => exact exists_listsRest 0
  | value name parts => exact exists_valueRest parts

theorem exists_bodiesRest (outer : List OpenBody) : ∃ ts, BodiesRest outer ts := by
  induction outer with
  | nil => exact ⟨[], .bodyEnd⟩
  | cons around outer ih =>
    obtain ⟨closer, hc⟩ := exists_token (.mark .closeBrace)
    obtain ⟨stop, hs⟩ := exists_token (.mark .semicolon)
    obtain ⟨rest, hrest⟩ := ih
    exact ⟨closer :: stop :: rest, [], closer, stop, rest, .bodyEnd, hc, hs, hrest, rfl⟩

theorem exists_completes (r : Reader) : ∃ ts, Completes r ts := by
  obtain ⟨xs, hx⟩ := exists_finishes r.awaiting
  obtain ⟨ys, hy⟩ := exists_bodiesRest r.outer
  exact ⟨xs ++ ys, xs, ys, hx, hy, rfl⟩

/-! ## Viable rows -/

/-- Whether more tokens can make a row of tokens one that the rules derive. -/
def Viable (ts : List Token) : Prop := ∃ more, Derives .body (ts ++ more)

theorem viable_of_run {ts : List Token} {last : Reader} (h : ({} : Reader).run ts = .ok last) :
    Viable ts := by
  obtain ⟨more, hmore⟩ := exists_completes last
  exact ⟨more, derives_of_completes (completes_of_run h hmore)⟩

theorem not_viable_of_step {ts : List Token} {last : Reader} {t : Token} {cause : Cause}
    (hrun : ({} : Reader).run ts = .ok last) (hstep : last.step t = .error cause) :
    ¬ Viable (ts ++ [t]) := by
  rintro ⟨more, hmore⟩
  obtain ⟨statements, hread⟩ := readStatements_of_derives hmore ""
  rw [List.append_assoc, List.singleton_append, readStatements, Reader.run_append _ hrun,
    Reader.run, hstep] at hread
  cases hread

/-- A run that stops has read all tokens before the one at which it stops. -/
theorem Reader.exists_step_of_run_eq_error {r : Reader} {ts : List Token} {e : ParseError}
    (h : r.run ts = .error e) : ∃ before t after last cause, ts = before ++ t :: after ∧
      r.run before = .ok last ∧ last.step t = .error cause ∧ e = ⟨cause, t.location⟩ := by
  induction ts generalizing r with
  | nil => cases h
  | cons t rest ih =>
    rw [run] at h
    cases hstep : r.step t with
    | error cause =>
      rw [hstep] at h
      cases h
      exact ⟨[], t, rest, r, cause, rfl, rfl, hstep, rfl⟩
    | ok next =>
      rw [hstep] at h
      obtain ⟨before, t', after, last, cause, rfl, hrun, hlast, he⟩ := ih h
      refine ⟨t :: before, t', after, last, cause, rfl, ?_, hlast, he⟩
      rw [run_cons next before hstep, hrun]

theorem endOfInput_of_getLast? {file : String} {ts : List Token} {t : Token}
    (h : ts.getLast? = some t) :
    endOfInput file ts = ⟨t.location.file, t.location.range.stop, t.location.range.stop⟩ := by
  rw [endOfInput, h]

/-- Where reading stops: at the first token that leaves the row viable no longer, or at the end. -/
theorem blame_of_readStatements {file : String} {ts : List Token} {e : ParseError}
    (h : readStatements file ts = .error e) :
    (∃ before t after, ts = before ++ t :: after ∧ e.location = t.location ∧
        Viable before ∧ ¬ Viable (before ++ [t])) ∨
      ∃ t, ts.getLast? = some t ∧
        e.location = ⟨t.location.file, t.location.range.stop, t.location.range.stop⟩ ∧
        Viable ts ∧ ¬ Derives .body ts := by
  have hderives : ¬ Derives .body ts := by
    intro hderives
    obtain ⟨statements, hread⟩ := readStatements_of_derives hderives file
    rw [hread] at h
    cases h
  rw [readStatements] at h
  cases hrun : ({} : Reader).run ts with
  | error e' =>
    rw [hrun] at h
    obtain rfl := Except.error.inj h
    obtain ⟨before, t, after, last, cause, hts, hbefore, hstep, rfl⟩ :=
      Reader.exists_step_of_run_eq_error hrun
    exact .inl ⟨before, t, after, hts, rfl, viable_of_run hbefore, not_viable_of_step hbefore hstep⟩
  | ok last =>
    simp only [hrun] at h
    cases hfinish : last.finish with
    | ok statements =>
      rw [hfinish] at h
      cases h
    | error cause =>
      rw [hfinish] at h
      obtain rfl := Except.error.inj h
      -- Without any token there is nothing to complain of, so there is a last one.
      cases hlast : ts.getLast? with
      | none =>
        rw [List.getLast?_eq_none_iff] at hlast
        exact absurd (hlast ▸ .bodyEnd) hderives
      | some t => exact .inr ⟨t, rfl, endOfInput_of_getLast? hlast, viable_of_run hrun, hderives⟩

/-- **A syntax error is reported at the first token to blame.** Where all files could be opened and
cut into tokens and yet there is no tree, the error stands at the first token that leaves the row
viable no longer, in the file of that token; or, if the row is viable but not derived, at the end of
its last token. -/
theorem parse_blames_first_offender {ε : Type} (sources : Sources ε) {path : String}
    (hexpand : (sources.expandRoot (sources.disk.absolute path)).stop = none)
    (hfail : ∀ tree, (sources.parse path).result ≠ .ok tree) :
    let tokens := (sources.expandRoot (sources.disk.absolute path)).tokens
    ∃ e, (sources.parse path).result = .error (.error e) ∧
      ((∃ before t after, tokens = before ++ t :: after ∧ e.location = t.location ∧
          Viable before ∧ ¬ Viable (before ++ [t])) ∨
        ∃ t, tokens.getLast? = some t ∧
          e.location = ⟨t.location.file, t.location.range.stop, t.location.range.stop⟩ ∧
          Viable tokens ∧ ¬ Derives .body tokens) := by
  intro tokens
  simp only [Sources.parse, hexpand] at hfail ⊢
  cases hread : readStatements (sources.disk.absolute path) tokens with
  | ok statements =>
    rw [hread] at hfail
    exact absurd rfl (hfail _)
  | error e => exact ⟨e, rfl, blame_of_readStatements hread⟩

/-- A mission with a class that includes its contents. In the included file a semicolon is missing
after a list. -/
def unseparated : Sources Empty where
  disk.files :=
    [(["m", "description.ext"],
      .bytes (Text.encodeUtf8 "class C \x7b\n#include \"a.hpp\"\n\x7d;".toList)),
      (["m", "a.hpp"], .bytes (Text.encodeUtf8 "x[] = \x7b1, \x7b2\x7d\x7d\ny = 3;".toList))]

/-- The word on the next line is to blame. -/
theorem parse_blames_first_offender_unseparated :
    let tokens := (unseparated.expandRoot (unseparated.disk.absolute "/m/description.ext")).tokens
    (unseparated.expandRoot (unseparated.disk.absolute "/m/description.ext")).stop = none ∧
      ∃ e, (unseparated.parse "/m/description.ext").result = .error (.error e) ∧
        e.location = ⟨"/m/a.hpp", ⟨1, 0⟩, ⟨1, 1⟩⟩ ∧
        ∃ before t after, tokens = before ++ t :: after ∧ t.text = "y" ∧ Viable before ∧
          ¬ Viable (before ++ [t]) := by
  intro tokens
  have hexpand : (unseparated.expandRoot (unseparated.disk.absolute "/m/description.ext")).stop
      = none := by
    decide +kernel
  have hlocation : (match (unseparated.parse "/m/description.ext").result with
      | .error (.error e) => some e.location
      | _ => none) = some ⟨"/m/a.hpp", ⟨1, 0⟩, ⟨1, 1⟩⟩ := by
    decide +kernel
  have hfail : ∀ tree, (unseparated.parse "/m/description.ext").result ≠ .ok tree := by
    intro tree htree
    rw [htree] at hlocation
    cases hlocation
  obtain ⟨e, he, hblame⟩ := parse_blames_first_offender unseparated hexpand hfail
  rw [he] at hlocation
  have hplace := Option.some.inj hlocation
  refine ⟨hexpand, e, he, hplace, ?_⟩
  rcases hblame with ⟨before, t, after, htokens, ht, hbefore, hnext⟩ | ⟨t, hlast, ht, -⟩
  · refine ⟨before, t, after, htokens, ?_, hbefore, hnext⟩
    -- The tokens have different places.
    have hname : ∀ t ∈ tokens, t.location = ⟨"/m/a.hpp", ⟨1, 0⟩, ⟨1, 1⟩⟩ →
      t.text = "y" := by decide +kernel
    have hmem : t ∈ before ++ t :: after := List.mem_append_right _ List.mem_cons_self
    rw [← htokens] at hmem
    exact hname t hmem (ht.symm.trans hplace)
  · have hend : tokens.getLast?.map (·.location.file) = some "/m/description.ext" := by
      decide +kernel
    rw [hlast, Option.map_some, Option.some.injEq] at hend
    rw [hplace] at ht
    rw [← congrArg Location.file ht] at hend
    exact absurd hend (by decide)

end MissionIndex.Config
