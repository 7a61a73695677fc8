import MissionIndex.Proofs.Config.Layout
import MissionIndex.Proofs.Config.Stack
import MissionIndex.Proofs.Disk

/-!
# Nested includes

Includes may be nested, and some nests have no end. Still each expansion has: the files that are
being read are on a stack, where no path comes twice, and which never gets higher than `maxDepth`
files on top of the root. So a parse fails in which a file includes itself, directly or through
others.

The bound is also the least one that this needs. Files that include one another in a row, without a
fault in any of them, are parsed just if there are at most `maxDepth` includes in the row
(`Sources.Nest`).
-/

namespace MissionIndex.Config

open Text

variable {ε : Type}

namespace Sources

/-- Files that include one another in a row, the outermost first: each but the last includes the
next one, once, and is made of tokens otherwise. The tokens are those of all files, each file in the
place of its include. -/
inductive Nest (sources : Sources ε) (rootFolder : String) : List String → List Token → Prop
  | last {file : String} {text : List Char} {tokens : List Token} : sources.text? file = some text →
      pieces file text = tokens.map Piece.token → Nest sources rootFolder [file] tokens
  | cons {file next : String} {files : List String} {text : List Char} {target : String}
      {range : Range}
      {before inner after : List Token} : sources.text? file = some text →
      pieces file text = before.map Piece.token ++ .include target range :: after.map Piece.token →
      sources.includePath rootFolder file target = next →
      Nest sources rootFolder (next :: files) inner →
      Nest sources rootFolder (file :: next :: files) (before ++ inner ++ after)

variable {sources : Sources ε}

theorem Nest.isChain {rootFolder : String} {files : List String} {tokens : List Token}
    (h : sources.Nest rootFolder files tokens) : files.IsChain (sources.Includes rootFolder) := by
  induction h with
  | last => exact .singleton _
  | @cons file next files text target range before inner after htext hpieces hpath _ ih =>
    refine .cons_cons ⟨text, target, range, htext, ?_, hpath⟩ ih
    rw [hpieces]
    exact List.mem_append_right _ List.mem_cons_self

theorem Nest.exists_text? {rootFolder file : String} {files : List String} {tokens : List Token}
    (h : sources.Nest rootFolder (file :: files) tokens) :
    ∃ text, sources.text? file = some text := by
  cases h with
  | last htext | cons htext => exact ⟨_, htext⟩

theorem textOf_of_text? {path : String} {text : List Char} (h : sources.text? path = some text)
    (blame : Location) :
    sources.textOf path blame = .ok text := by
  rw [text?] at h
  cases htext : sources.textOf path default with
  | error stop =>
    rw [htext] at h
    cases h
  | ok text' =>
    rw [htext] at h
    obtain rfl : text' = text := Option.some.inj h
    exact sources.textOf_eq_ok htext

theorem finds_of_text? {path : String} {text : List Char} (h : sources.text? path = some text) :
    sources.Finds path := by
  have htext := textOf_of_text? h default
  rw [textOf] at htext
  split at htext
  · cases htext
  · next buffered hbuffer => exact ⟨_, hbuffer, rfl⟩
  · next hbuffer =>
    refine ⟨none, hbuffer, ?_⟩
    split at htext
    · next hread =>
      rw [Disk.isFile_of_readText hread]
      rfl
    · cases htext

/-- An include of a file that can be read, and is not being read, opens it. -/
theorem expandInclude_of_text? {rootFolder : String} {within : List String} {file target : String}
    {text : List Char} (h : sources.text? (sources.includePath rootFolder file target) = some text)
    (hnew : sources.includePath rootFolder file target ∉ within) (room : Nat) (range : Range) :
    sources.expandInclude rootFolder (room + 1) within file target range
      = sources.openFile (sources.expandInclude rootFolder room
          (within ++ [sources.includePath rootFolder file target])
            (sources.includePath rootFolder file target))
        (sources.includePath rootFolder file target) ⟨file, range⟩ := by
  obtain ⟨buffered, hbuffer, hthere⟩ := finds_of_text? h
  rw [expandInclude, if_neg (mt List.contains_iff_mem.mp hnew)]
  simp only [hbuffer, hthere]
  rfl

/-- **Nested files for which there is room expand to all their tokens.** -/
theorem openFile_of_nest {rootFolder file : String} {files : List String} {tokens : List Token}
    (h : sources.Nest rootFolder (file :: files) tokens) (hnodup : (file :: files).Nodup)
    {room : Nat} (hroom : files.length ≤ room) {within : List String}
    (hwithin : ∀ f ∈ files, f ∉ within) (blame : Location) :
    (sources.openFile (sources.expandInclude rootFolder room within file) file blame).stop = none ∧
      (sources.openFile (sources.expandInclude rootFolder room within file) file blame).tokens
        = tokens := by
  induction files generalizing file tokens room within blame with
  | nil =>
    cases h with
    | @last _ text _ htext hpieces =>
      have htokens := Expansion.ofPieces_tokens (sources.expandInclude rootFolder room within file)
        tokens []
      rw [List.append_nil] at htokens
      rw [openFile, textOf_of_text? htext]
      simp only [hpieces, htokens]
      exact ⟨rfl, List.append_nil tokens⟩
  | cons next files ih =>
    cases h with
    | @cons _ _ _ text target range before inner after htext hpieces hpath hinner =>
      subst hpath
      obtain ⟨less, rfl⟩ : ∃ less, room = less + 1 :=
        Nat.exists_eq_succ_of_ne_zero (Nat.ne_of_gt (Nat.lt_of_lt_of_le (Nat.succ_pos _) hroom))
      obtain ⟨hnew, hrest⟩ := List.forall_mem_cons.mp hwithin
      obtain ⟨-, hfiles⟩ := List.nodup_cons.mp hnodup
      obtain ⟨nextText, hnext⟩ := hinner.exists_text?
      have hinclude := expandInclude_of_text? hnext hnew less range
      have houtside : ∀ f ∈ files, f ∉ within ++ [sources.includePath rootFolder file target] :=
          fun f hf hold ↦
        (List.mem_append.mp hold).elim (hrest f hf) fun hnext ↦
          (List.nodup_cons.mp hfiles).1 (List.mem_singleton.mp hnext ▸ hf)
      obtain ⟨hstop, htokens⟩ :=
        ih hinner hfiles (Nat.le_of_succ_le_succ hroom) houtside ⟨file, range⟩
      have hafter :=
        Expansion.ofPieces_tokens (sources.expandInclude rootFolder (less + 1) within file) after []
      rw [List.append_nil] at hafter
      rw [openFile, textOf_of_text? htext]
      simp only [hpieces, Expansion.ofPieces_tokens, Expansion.ofPieces, hafter, hinclude,
        Expansion.andThen, hstop, htokens, List.append_nil, List.nil_append,
        List.append_assoc, and_self]

theorem isOk_parse_of_expandRoot {root : String} {tokens : List Token}
    (hstop : (sources.expandRoot (sources.disk.absolute root)).stop = none)
    (htokens : (sources.expandRoot (sources.disk.absolute root)).tokens = tokens)
    (hread : (readStatements (sources.disk.absolute root) tokens).isOk = true) :
    (sources.parse root).result.isOk = true := by
  simp only [parse, hstop, htokens]
  cases hstatements : readStatements (sources.disk.absolute root) tokens with
  | ok statements => rfl
  | error e =>
    rw [hstatements] at hread
    cases hread

/-- **Nested files parse just where there is room for them**, if what they consist of can be
read. -/
theorem isOk_parse_iff_of_nest {root : String} {files : List String} {tokens : List Token}
    (h : sources.Nest (Path.parent (sources.disk.absolute root)) (sources.disk.absolute root ::
      files) tokens)
    (hnodup : (sources.disk.absolute root :: files).Nodup)
    (hread : (readStatements (sources.disk.absolute root) tokens).isOk = true) :
    (sources.parse root).result.isOk = true ↔ files.length ≤ maxDepth := by
  constructor
  · intro hok
    cases hresult : (sources.parse root).result with
    | error stop =>
      rw [hresult] at hok
      cases hok
    | ok tree => exact (bounded_expandRoot (stop_eq_none_of_parse hresult) files h.isChain).1
  · intro hroom
    have hnew : ∀ f ∈ files, f ∉ [sources.disk.absolute root] := fun f hf hroot ↦
      (List.nodup_cons.mp hnodup).1 (List.mem_singleton.mp hroot ▸ hf)
    obtain ⟨hstop, htokens⟩ :=
      openFile_of_nest h hnodup hroom hnew ⟨sources.disk.absolute root, .empty⟩
    rw [← expandRoot_eq] at hstop htokens
    exact isOk_parse_of_expandRoot hstop htokens hread

end Sources

/-- **Each expansion comes to an end, with few files open at a time and each of them once.** From
the start on a root, every sequence of steps is finite, and the last state has expanded the root. In
between the stack never has a path twice, nor more than one path more than `maxDepth`. If a file
that the root includes, directly or through others, includes itself in this way, then the parse
gives nothing. And if the root and some other files include one another in a row, all of them
different and without a fault, the parse gives something just where there are at most `maxDepth`
others. -/
theorem expansion_ends (sources : Sources ε) (root : String) :
    let file := sources.disk.absolute root
    let folder := Path.parent file
    let start := Machine.start sources file
    Acc (fun next m : Machine ε ↦ m.step sources folder = some next) start ∧
    (∃ final, Relation.ReflTransGen (fun m next ↦ m.step sources folder = some next) start final ∧
      final.step sources folder = none ∧ final.frames = [] ∧ final.done = sources.expandRoot file) ∧
    (∀ m, Relation.ReflTransGen (fun m next ↦ m.step sources folder = some next) start m →
      m.stack.Nodup ∧ m.stack.length ≤ 33) ∧
    (∀ f, Relation.ReflTransGen (sources.Includes folder) file f →
      Relation.TransGen (sources.Includes folder) f f →
      (sources.parse root).result.isOk = false) ∧
    ∀ files tokens, sources.Nest folder (file :: files) tokens → (file :: files).Nodup →
      (readStatements file tokens).isOk = true →
      ((sources.parse root).result.isOk = true ↔ files.length ≤ 32) := by
  intro file folder start
  refine ⟨Machine.halts sources folder start, ?_, fun m hrun ↦ ?_, fun f hreach hcycle ↦ ?_,
    fun files tokens ↦ ?_⟩
  · obtain ⟨final, hrun, hframes, hdone⟩ := Machine.exists_final sources folder start
    exact ⟨final, hrun, Machine.step_eq_none_iff.mpr hframes, hframes,
      hdone.trans (Machine.outcome_start file)⟩
  · exact ⟨((Machine.sound_start file).run hrun).nodup,
      ((Machine.sound_start file).run hrun).length_le⟩
  · cases hresult : (sources.parse root).result with
    | error stop => rfl
    | ok tree => exact absurd hcycle (Sources.not_includes_itself
        (Sources.stop_eq_none_of_parse hresult) hreach)
  · exact Sources.isOk_parse_iff_of_nest

/-- A mission in which a class and an included file both go on in other files, and a root that comes
back to itself by way of a file that is next to it. -/
def looping : Sources String where
  disk.files :=
    [(["m", "description.ext"],
      .bytes (encodeUtf8 "class A \x7b\n#include \"a.hpp\"\n\x7d;".toList)),
      (["m", "a.hpp"], .bytes (encodeUtf8 "x = 1;\n#include <b/b.hpp>\nz = 3;".toList)),
      (["m", "b", "b.hpp"], .bytes (encodeUtf8 "y = 2;".toList)),
      (["m", "c.ext"], .bytes (encodeUtf8 "#include \"d.hpp\"".toList)),
      (["m", "d.hpp"], .bytes (encodeUtf8 "#include \"c.ext\"".toList))]

theorem expansion_ends_looping :
    (looping.parse "/m/c.ext").result.isOk = false ∧
    (looping.parse "/m/description.ext").result.isOk = true := by
  constructor
  · have hc : looping.Includes "/m" "/m/c.ext" "/m/d.hpp" :=
      ⟨"#include \"d.hpp\"".toList, "d.hpp", .ofLength .zero 16, by decide +kernel, by
        decide +kernel, by decide +kernel⟩
    have hd : looping.Includes "/m" "/m/d.hpp" "/m/c.ext" :=
      ⟨"#include \"c.ext\"".toList, "c.ext", .ofLength .zero 16, by decide +kernel, by
        decide +kernel, by decide +kernel⟩
    have hfile : looping.disk.absolute "/m/c.ext" = "/m/c.ext" := by decide +kernel
    have hfolder : Path.parent "/m/c.ext" = "/m" := by decide +kernel
    obtain ⟨-, -, -, hcycle, -⟩ := expansion_ends looping "/m/c.ext"
    rw [hfile, hfolder] at hcycle
    exact hcycle "/m/c.ext" .refl (.tail (.single hc) hd)
  · let rootText := "class A \x7b\n#include \"a.hpp\"\n\x7d;".toList
    let innerText := "x = 1;\n#include <b/b.hpp>\nz = 3;".toList
    let tokensOf (file : String) (text : List Char) : List Token :=
      (pieces file text).filterMap Piece.token?
    have hlast : pieces "/m/b/b.hpp" "y = 2;".toList
        = (tokensOf "/m/b/b.hpp" "y = 2;".toList).map Piece.token := by
      decide +kernel
    have hinner : pieces "/m/a.hpp" innerText
        = ((tokensOf "/m/a.hpp" innerText).take 4).map Piece.token ++
          .include "b/b.hpp" (.ofLength ⟨1, 0⟩ 18) ::
          ((tokensOf "/m/a.hpp" innerText).drop 4).map Piece.token := by
      decide +kernel
    have houter : pieces "/m/description.ext" rootText
        = ((tokensOf "/m/description.ext" rootText).take 3).map Piece.token ++
          .include "a.hpp" (.ofLength ⟨1, 0⟩ 16) ::
            ((tokensOf "/m/description.ext" rootText).drop 3).map Piece.token := by
      decide +kernel
    have hb : looping.Nest "/m" ["/m/b/b.hpp"] _ := .last (by decide +kernel) hlast
    have ha : looping.Nest "/m" ["/m/a.hpp", "/m/b/b.hpp"] _ :=
      .cons (by decide +kernel) hinner (by decide +kernel) hb
    have hroot : looping.Nest "/m" ["/m/description.ext", "/m/a.hpp", "/m/b/b.hpp"] _ :=
      .cons (by decide +kernel) houter (by decide +kernel) ha
    have hfile : looping.disk.absolute "/m/description.ext" = "/m/description.ext" := by
      decide +kernel
    have hfolder : Path.parent "/m/description.ext" = "/m" := by decide +kernel
    obtain ⟨-, -, -, -, hnest⟩ := expansion_ends looping "/m/description.ext"
    rw [hfile, hfolder] at hnest
    exact (hnest _ _ hroot (by decide) (by decide +kernel)).mpr (by decide)

end MissionIndex.Config
