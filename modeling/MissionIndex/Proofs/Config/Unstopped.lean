import Mathlib.Data.List.Chain
import MissionIndex.Proofs.Config.Inclusion

/-!
# Expansions without a stop

An expansion that does not stop has come to the end of each file that it opened. So nothing in these
files is at fault, and each include in them opens another file without a stop. Where one file
includes another one, and that one a third, and so on, such a chain of files has no file twice in
it, and there is room for it.
-/

namespace MissionIndex.Config

variable {ε : Type}

/-- Pieces without a stop: none of them is a fault, no include among them stops, and the files that
are opened are those that the includes open. -/
theorem Expansion.ofPieces_of_stop_eq_none {enter : String → Range → Expansion ε} {ps : List Piece}
    (hstop : (ofPieces enter ps).stop = none) :
    (∀ e, .fault e ∉ ps) ∧ (∀ target range, .include target range ∈ ps →
      (enter target range).stop = none) ∧
      ∀ f ∈ (ofPieces enter ps).opened,
        ∃ target range, .include target range ∈ ps ∧ f ∈ (enter target range).opened := by
  induction ps with
  | nil => exact ⟨nofun, nofun, nofun⟩
  | cons piece rest ih =>
    cases piece with
    | fault e => cases hstop
    | token t =>
      rw [ofPieces] at hstop ⊢
      obtain ⟨-, hrest, hopened, -⟩ := andThen_of_stop_eq_none hstop
      obtain ⟨hfaults, hincludes, hfiles⟩ := ih hrest
      rw [hopened]
      simp only [List.mem_cons, reduceCtorEq, false_or, List.nil_append]
      exact ⟨hfaults, hincludes, hfiles⟩
    | «include» target range =>
      rw [ofPieces] at hstop ⊢
      obtain ⟨hfirst, hrest, hopened, -⟩ := andThen_of_stop_eq_none hstop
      obtain ⟨hfaults, hincludes, hfiles⟩ := ih hrest
      rw [hopened]
      refine ⟨fun e he ↦ ?_, fun target' range' hmem ↦ ?_, fun f hf ↦ ?_⟩
      · rcases List.mem_cons.mp he with he | he
        · cases he
        · exact hfaults e he
      · rcases List.mem_cons.mp hmem with hmem | hmem
        · cases hmem
          exact hfirst
        · exact hincludes target' range' hmem
      · rcases List.mem_append.mp hf with hf | hf
        · exact ⟨target, range, List.mem_cons_self, hf⟩
        · obtain ⟨target', range', hmem, hf⟩ := hfiles f hf
          exact ⟨target', range', List.mem_cons_of_mem _ hmem, hf⟩

namespace Sources

variable (sources : Sources ε)

def Faultless (file : String) : Prop :=
  ∃ text, sources.text? file = some text ∧ ∀ e, .fault e ∉ pieces file text

variable {sources}

theorem faultless_of_mem_openFile {enter : String → Range → Expansion ε}
    (henter : ∀ target range, (enter target range).stop = none → ∀ f ∈ (enter target range).opened,
      sources.Faultless f)
    {path : String} {blame : Location} (hstop : (sources.openFile enter path blame).stop = none) :
    ∀ f ∈ (sources.openFile enter path blame).opened, sources.Faultless f := by
  obtain ⟨text, htext, hpieces, hopened, -⟩ := sources.openFile_of_stop_eq_none hstop
  obtain ⟨hfaults, hincludes, hfiles⟩ := Expansion.ofPieces_of_stop_eq_none hpieces
  intro f hf
  rw [hopened] at hf
  rcases List.mem_cons.mp hf with rfl | hf
  · exact ⟨text, htext, hfaults⟩
  · obtain ⟨target, range, hmem, hf⟩ := hfiles f hf
    exact henter target range (hincludes target range hmem) f hf

theorem faultless_of_mem_expandInclude {rootFolder : String} {room : Nat} {within : List String}
    {file target : String} {range : Range}
    (hstop : (sources.expandInclude rootFolder room within file target range).stop = none) :
    ∀ f ∈ (sources.expandInclude rootFolder room within file target range).opened,
    sources.Faultless f := by
  induction room generalizing within file target range with
  | zero => cases hstop
  | succ room ih =>
    have hexpand := sources.expandInclude_of_stop_eq_none hstop
    rw [hexpand] at hstop ⊢
    exact faultless_of_mem_openFile (fun target range hrange ↦ ih hrange) hstop

theorem stop_eq_none_of_parse {path : String} {tree : ConfigClass}
    (h : (sources.parse path).result = .ok tree) :
    (sources.expandRoot (sources.disk.absolute path)).stop = none := by
  simp only [parse] at h
  split at h
  · cases h
  · assumption

/-- **The files that a successful parse opens are without fault.** -/
theorem faultless_of_parse {path : String} {tree : ConfigClass}
    (h : (sources.parse path).result = .ok tree) :
    ∀ f ∈ (sources.parse path).opened, sources.Faultless f := by
  have hstop := stop_eq_none_of_parse h
  simp only [parse]
  rw [expandRoot_eq] at hstop ⊢
  exact faultless_of_mem_openFile (fun target range hrange ↦ faultless_of_mem_expandInclude hrange)
    hstop

/-! ## Chains of includes -/

variable (sources) in
def Includes (rootFolder file other : String) : Prop :=
  ∃ text target range, sources.text? file = some text ∧ .include target range ∈ pieces file text ∧
    sources.includePath rootFolder file target = other

/-- No chain of includes that starts with `file` is longer than the room for it, none has a file
twice, and none comes to a file of `within`. -/
def Bounded (sources : Sources ε) (rootFolder : String) (room : Nat) (within : List String)
    (file : String) : Prop :=
  ∀ files, (file :: files).IsChain (sources.Includes rootFolder) →
    files.length ≤ room ∧ (file :: files).Nodup ∧ ∀ f ∈ files, f ∉ within

theorem bounded_openFile {enter : String → Range → Expansion ε} {rootFolder path : String}
    {room : Nat} {within : List String}
    (henter : ∀ target range, (enter target range).stop = none →
      sources.includePath rootFolder path target ∉ within ++ [path] ∧ ∃ less, room = less + 1 ∧
        sources.Bounded rootFolder less (within ++ [path])
          (sources.includePath rootFolder path target))
    {blame : Location} (hstop : (sources.openFile enter path blame).stop = none) :
    sources.Bounded rootFolder room within path := by
  intro files hchain
  cases files with
  | nil => exact ⟨Nat.zero_le _, List.nodup_singleton path, nofun⟩
  | cons next more =>
    obtain ⟨⟨text, target, range, htext, hmem, rfl⟩, hmore⟩ := List.isChain_cons_cons.mp hchain
    obtain ⟨text', htext', hpieces, -, -⟩ := sources.openFile_of_stop_eq_none hstop
    obtain rfl : text = text' := Option.some.inj (htext.symm.trans htext')
    have hincluded := (Expansion.ofPieces_of_stop_eq_none hpieces).2.1 target range hmem
    obtain ⟨hnew, less, rfl, hbounded⟩ := henter target range hincluded
    obtain ⟨hlength, hnodup, hwithin⟩ := hbounded more hmore
    have houtside : ∀ f ∈ sources.includePath rootFolder path target :: more,
        f ∉ within ++ [path] :=
      List.forall_mem_cons.mpr ⟨hnew, hwithin⟩
    refine ⟨Nat.succ_le_succ hlength, List.nodup_cons.mpr ⟨fun hpath ↦ ?_, hnodup⟩,
      fun f hf hold ↦ ?_⟩
    · exact houtside path hpath (List.mem_append_right _ (List.mem_singleton_self path))
    · exact houtside f hf (List.mem_append_left _ hold)

theorem bounded_expandInclude {rootFolder : String} {room : Nat} {within : List String}
    {file target : String} {range : Range}
    (hstop : (sources.expandInclude rootFolder room within file target range).stop = none) :
    sources.includePath rootFolder file target ∉ within ∧ ∃ less, room = less + 1 ∧
      sources.Bounded rootFolder less within (sources.includePath rootFolder file target) := by
  induction room generalizing within file target range with
  | zero => cases hstop
  | succ room ih =>
    have hnew : sources.includePath rootFolder file target ∉ within := by
      intro hmem
      rw [expandInclude, if_pos (List.contains_iff_mem.mpr hmem)] at hstop
      cases hstop
    rw [sources.expandInclude_of_stop_eq_none hstop] at hstop
    exact ⟨hnew, room, rfl, bounded_openFile (fun target range hrange ↦ ih hrange) hstop⟩

/-- **Chains of includes from a root that expands without a stop are short, and do not come
back.** -/
theorem bounded_expandRoot {file : String} (hstop : (sources.expandRoot file).stop = none) :
    sources.Bounded (Path.parent file) maxDepth [] file := by
  rw [expandRoot_eq] at hstop
  exact bounded_openFile (fun target range hrange ↦ bounded_expandInclude hrange) hstop

/-- A root that expands without a stop does not lead to a file that includes itself, directly or
through others. -/
theorem not_includes_itself {root file : String} (hstop : (sources.expandRoot root).stop = none)
    (hreach : Relation.ReflTransGen (sources.Includes (Path.parent root)) root file) :
    ¬ Relation.TransGen (sources.Includes (Path.parent root)) file file := by
  intro hcycle
  -- A chain that leads to the file goes on around the cycle, and comes to the file again.
  obtain ⟨next, hnext, hback⟩ := Relation.TransGen.head'_iff.mp hcycle
  obtain ⟨there, hthere, hlast⟩ := List.exists_isChain_cons_of_relationReflTransGen hreach
  obtain ⟨around, haround, hagain⟩ := List.exists_isChain_cons_of_relationReflTransGen hback
  have hchain : (root :: (there ++ next :: around)).IsChain
      (sources.Includes (Path.parent root)) := by
    rw [← List.cons_append]
    refine hthere.append haround fun x hx y hy ↦ ?_
    rw [List.getLast?_eq_some_getLast (List.cons_ne_nil _ _), hlast] at hx
    obtain rfl := Option.some.inj hx
    obtain rfl := Option.some.inj hy
    exact hnext
  obtain ⟨-, hnodup, -⟩ := bounded_expandRoot hstop _ hchain
  rw [← List.cons_append] at hnodup
  refine (List.nodup_append.mp hnodup).2.2 file ?_ file ?_ rfl
  · exact hlast ▸ List.getLast_mem _
  · exact hagain ▸ List.getLast_mem _

end Sources

end MissionIndex.Config
