import MissionIndex.Proofs.Config.Relabelling

/-!
# Apart from places

Two rows of tokens may say the same and yet stand in different places. `unplaced` takes the places
away, from tokens and trees. This is a relabelling that changes no texts (`unplacing`), and reading
and executing carry it along. So rows that are the same apart from places give trees that are the
same apart from places (`exists_rootClass_of_unplaced`).
-/

namespace MissionIndex.Config

open Text

/-! ## Taking places away -/

def Token.unplaced (t : Token) : Token := { t with location := default }

mutual

/-- A tree without the places of its classes. -/
def ConfigClass.unplaced : ConfigClass → ConfigClass
  | ⟨name, base, _, body⟩ => ⟨name, base, default, body.unplaced⟩

@[inherit_doc ConfigClass.unplaced]
def Body.unplaced : Body ConfigClass → Body ConfigClass
  | ⟨values, classes⟩ => ⟨values, ConfigClass.unplacedAll classes⟩

@[inherit_doc ConfigClass.unplaced]
def ConfigClass.unplacedAll : List (String × ConfigClass) → List (String × ConfigClass)
  | [] => []
  | (key, c) :: rest => (key, c.unplaced) :: ConfigClass.unplacedAll rest

end

/-- The relabelling that takes all places away. -/
def unplacing : Relabelling where
  text := id
  location _ := default
  text_intercalate texts := by rw [List.map_id, id]

/-! ## As a relabelling -/

theorem Token.relabel_unplacing : Token.relabel unplacing = Token.unplaced := by
  funext ⟨kind, text, location⟩
  cases kind <;> rfl

mutual

theorem Value.relabel_unplacing (value : Value) : value.relabel unplacing = value := by
  cases value with
  | text s => rfl
  | list items => rw [relabel, Value.relabelAll_unplacing]

theorem Value.relabelAll_unplacing (items : List Value) :
    Value.relabelAll unplacing items = items := by
  cases items with
  | nil => rfl
  | cons item rest => rw [relabelAll, Value.relabel_unplacing item, Value.relabelAll_unplacing rest]

end

mutual

theorem ConfigClass.relabel_unplacing (c : ConfigClass) : c.relabel unplacing = c.unplaced := by
  obtain ⟨name, base, location, body⟩ := c
  rw [ConfigClass.relabel, ConfigClass.unplaced, Body.relabel_unplacing body]
  rfl

theorem Body.relabel_unplacing (body : Body ConfigClass) :
    body.relabel unplacing = body.unplaced := by
  obtain ⟨values, classes⟩ := body
  have hvalues : values.map (fun e ↦ (e.1, e.2.relabel unplacing)) = values := by
    simp only [Value.relabel_unplacing, List.map_id']
  rw [Body.relabel, Body.unplaced, hvalues, ConfigClass.relabelAll_unplacing classes]

theorem ConfigClass.relabelAll_unplacing (classes : List (String × ConfigClass)) :
    ConfigClass.relabelAll unplacing classes = ConfigClass.unplacedAll classes := by
  cases classes with
  | nil => rfl
  | cons e rest =>
    obtain ⟨key, c⟩ := e
    rw [ConfigClass.relabelAll, ConfigClass.unplacedAll, ConfigClass.relabel_unplacing c,
      ConfigClass.relabelAll_unplacing rest]

end

theorem endOfInput_unplaced (ts : List Token) :
    endOfInput "" (ts.map (Token.relabel unplacing)) = default := by
  rw [endOfInput, List.getLast?_map]
  cases ts.getLast? <;> rfl

/-! ## Trees apart from places -/

theorem unplaced_rootClass (file : String) (statements : List Statement) :
    (rootClass file statements).unplaced
      = Statement.effectAll [] { name := "", location := default }
        (statements.map (Statement.relabel unplacing)) := by
  rw [← ConfigClass.relabel_unplacing, relabel_rootClass]
  rfl

theorem readStatements_unplaced (file : String) (ts : List Token) :
    readStatements "" (ts.map Token.unplaced)
      = relabelStatements unplacing (readStatements file ts) := by
  rw [← Token.relabel_unplacing]
  exact readStatements_relabel unplacing (fun _ _ _ ↦ rfl) (endOfInput_unplaced ts)

/-- Tokens that can be read without their places can be read, and give the tree without places. -/
theorem exists_rootClass_of_signs (file : String) {ts : List Token} {statements : List Statement}
    (h : readStatements "" (ts.map Token.unplaced) = .ok statements) :
    ∃ placed, readStatements file ts = .ok placed ∧
      (rootClass file placed).unplaced
        = Statement.effectAll [] { name := "", location := default } statements := by
  rw [readStatements_unplaced file ts] at h
  cases hread : readStatements file ts with
  | error e =>
    rw [hread] at h
    cases h
  | ok placed =>
    rw [hread] at h
    refine ⟨placed, rfl, ?_⟩
    rw [unplaced_rootClass, Except.ok.inj h]

/-- **Rows of tokens that are the same apart from places give trees that are the same apart from
places.** -/
theorem exists_rootClass_of_unplaced {file : String} (file' : String) {ts ts' : List Token}
    (hts : ts'.map Token.unplaced = ts.map Token.unplaced) {statements : List Statement}
    (h : readStatements file ts = .ok statements) :
    ∃ statements', readStatements file' ts' = .ok statements' ∧
      (rootClass file' statements').unplaced = (rootClass file statements).unplaced := by
  have hread := readStatements_unplaced file ts
  rw [h, ← hts] at hread
  obtain ⟨statements', hread', htree⟩ := exists_rootClass_of_signs file' hread
  exact ⟨statements', hread', htree.trans (unplaced_rootClass file statements).symm⟩

end MissionIndex.Config
