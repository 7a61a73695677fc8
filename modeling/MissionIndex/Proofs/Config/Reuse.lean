import MissionIndex.Config.Parser
import MissionIndex.Proofs.Running

/-!
# Parsers that are used again

A parser keeps in its fields what a call has left there, and the next call gives the same as that of
a new parser. The fields that a call reads have all been assigned before it reads them, and the hook
that it replaces is put back, however it ends.

## Where the fields go

An act is compared with the expansion that it goes through (`Act.Amounts`): it ends early where the
expansion stops, and it adds to the fields what the expansion has opened, its tokens and its
announcements. The stack is the same afterwards as before, also behind an exception. From there on
`Sources.parse` says what a call gives, where no field is left.
-/

namespace MissionIndex.Config

open Text

variable {ω ε : Type}

namespace Act

variable {α β : Type}

/-- Lets an act take place: its result, and the scene afterwards. -/
def perform (a : Act ω ε α) (scene : Scene ω ε) : Except (Stop ε) α × Scene ω ε := a.run.run scene

@[simp] theorem perform_throw (stop : Stop ε) (scene : Scene ω ε) :
    perform (throw stop : Act ω ε α) scene = (.error stop, scene) := rfl

@[simp] theorem perform_get (scene : Scene ω ε) :
    perform (get : Act ω ε _) scene = (.ok scene, scene) := rfl

@[simp] theorem perform_update (f : Parser ω ε → Parser ω ε) (scene : Scene ω ε) :
    perform (Parser.update f) scene = (.ok (), { scene with parser := f scene.parser }) := rfl

@[simp] theorem perform_announce (path : String) (scene : Scene ω ε) :
    perform (Parser.announce path) scene
      = (.ok (), { scene with
          told := if scene.parser.announces then scene.told ++ [path] else scene.told }) := by
  have hmodify : perform (Parser.announce path) scene
      = (.ok (), if scene.parser.announces then { scene with told := scene.told ++ [path] }
        else scene) := rfl
  rw [hmodify]
  split <;> rfl

@[simp] theorem perform_liftExcept (r : Except (Stop ε) α) (scene : Scene ω ε) :
    perform (liftExcept r) scene = (r, scene) := by
  cases r <;> rfl

theorem perform_bind (a : Act ω ε α) (f : α → Act ω ε β) (scene : Scene ω ε) :
    perform (a >>= f) scene = match perform a scene with
      | (.ok x, next) => perform (f x) next
      | (.error stop, next) => (.error stop, next) := by
  rw [perform, run_bind, perform]
  rcases a.run.run scene with ⟨result, next⟩
  cases result <;> rfl

theorem perform_finally (a : Act ω ε α) (f : Parser ω ε → Parser ω ε) (scene : Scene ω ε) :
    perform (tryFinally a (Parser.update f)) scene
      = ((perform a scene).1,
          { (perform a scene).2 with parser := f (perform a scene).2.parser }) := by
  simp only [perform, tryFinally, tryFinally', ExceptT.run, ExceptT.mk, StateT.run, Functor.map,
    ExceptT.map, bind, StateT.bind, pure]
  cases a scene with
  | mk result next => cases result <;> rfl

theorem perform_tryCatch (a : Act ω ε α) (handle : Stop ε → Act ω ε α) (scene : Scene ω ε) :
    perform (tryCatch a handle) scene = match perform a scene with
      | (.ok x, next) => (.ok x, next)
      | (.error stop, next) => perform (handle stop) next := by
  simp only [perform, tryCatch, tryCatchThe, MonadExceptOf.tryCatch, ExceptT.tryCatch,
    ExceptT.run, ExceptT.mk, StateT.run, bind, StateT.bind]
  cases a scene with
  | mk result next => cases result <;> rfl

end Act

/-! ## Acts and expansions -/

/-- What comes out of going through an expansion. -/
def Expansion.answer (e : Expansion ε) : Except (Stop ε) Unit :=
  match e.stop with
  | none => .ok ()
  | some stop => .error stop

namespace Scene

/-- The scene when an expansion has been gone through. -/
def grown (scene : Scene ω ε) (e : Expansion ε) : Scene ω ε where
  parser := { scene.parser with
    files := scene.parser.files ++ e.opened
    tokens := scene.parser.tokens ++ e.tokens }
  told := if scene.parser.announces then scene.told ++ e.announced else scene.told

theorem grown_empty (scene : Scene ω ε) : scene.grown {} = scene := by
  obtain ⟨parser, told⟩ := scene
  simp only [grown, List.append_nil, ite_self]

theorem grown_andThen (scene : Scene ω ε) {a : Expansion ε} (h : a.stop = none)
    (b : Unit → Expansion ε) :
    scene.grown (a.andThen b) = (scene.grown a).grown (b ()) := by
  cases hannounces : scene.parser.announces <;> simp [grown, Expansion.andThen, h, hannounces]

/-- What the parser of a scene reads with, and where it is. -/
structure Reads (disk : ω → Disk) (now : ω) (sources : Sources ε) (rootFolder : String)
    (within : List String) (scene : Scene ω ε) : Prop where
  sources : scene.parser.sources disk now = sources
  rootFolder : scene.parser.rootFolder = rootFolder
  stack : scene.parser.stack = within

theorem Reads.grown {disk : ω → Disk} {now : ω} {sources : Sources ε} {rootFolder : String}
    {within : List String} {scene : Scene ω ε} (h : scene.Reads disk now sources rootFolder within)
    (e : Expansion ε) :
    (scene.grown e).Reads disk now sources rootFolder within :=
  ⟨h.sources, h.rootFolder, h.stack⟩

end Scene

namespace Act

def Amounts (a : Act ω ε Unit) (e : Expansion ε) (scene : Scene ω ε) : Prop :=
  perform a scene = (e.answer, scene.grown e)

theorem amounts_throw (stop : Stop ε) (scene : Scene ω ε) :
    Amounts (throw stop) { stop := some stop } scene := by
  rw [Amounts, perform_throw, Expansion.answer]
  refine Prod.ext rfl ?_
  obtain ⟨parser, told⟩ := scene
  simp only [Scene.grown, List.append_nil, ite_self]

theorem Amounts.bind {a : Act ω ε Unit} {b : Unit → Act ω ε Unit} {e : Expansion ε}
    {e' : Unit → Expansion ε} {scene : Scene ω ε} (ha : Amounts a e scene)
    (hb : e.stop = none → Amounts (b ()) (e' ()) (scene.grown e)) :
    Amounts (a >>= b) (e.andThen e') scene := by
  cases hstop : e.stop with
  | none =>
    have hanswer : (e.andThen e').answer = (e' ()).answer := by
      simp only [Expansion.answer, Expansion.andThen, hstop]
    have hfirst : e.answer = .ok () := by rw [Expansion.answer, hstop]
    rw [Amounts, perform_bind, ha, hfirst, scene.grown_andThen hstop, hanswer]
    exact hb hstop
  | some stop =>
    have hsame : e.andThen e' = e := by simp only [Expansion.andThen, hstop]
    have hfirst : e.answer = .error stop := by rw [Expansion.answer, hstop]
    rw [Amounts, perform_bind, ha, hsame, hfirst]

variable {disk : ω → Disk} {now : ω} {sources : Sources ε} {rootFolder : String}
    {within : List String}

/-- Going through pieces, where the includes among them go through what they expand to. -/
theorem amounts_tokenize {enter : String → Range → Act ω ε Unit} {enter' : String → Range →
    Expansion ε}
    (henter : ∀ target range scene, Scene.Reads disk now sources rootFolder within scene →
      Amounts (enter target range) (enter' target range) scene)
    (ps : List Piece) {scene : Scene ω ε}
    (hreads : scene.Reads disk now sources rootFolder within) :
    Amounts (Parser.tokenize enter ps) (.ofPieces enter' ps) scene := by
  induction ps generalizing scene with
  | nil =>
    rw [Amounts, Expansion.ofPieces, scene.grown_empty]
    rfl
  | cons piece rest ih =>
    cases piece with
    | token t =>
      have htoken : Amounts (Parser.update fun p ↦ { p with tokens := p.tokens ++ [t] })
          { tokens := [t] } scene := by
        rw [Amounts, perform_update]
        refine Prod.ext rfl ?_
        simp only [Scene.grown, List.append_nil, ite_self]
      exact htoken.bind fun _ ↦ ih (hreads.grown _)
    | «include» target range =>
        exact (henter target range scene hreads).bind fun _ ↦ ih (hreads.grown _)
    | fault e => exact amounts_throw _ _

theorem amounts_get {f : Scene ω ε → Act ω ε Unit} {e : Expansion ε} {scene : Scene ω ε}
    (h : Amounts (f scene) e scene) : Amounts (get >>= f) e scene := by
  rw [Amounts, perform_bind, perform_get]
  exact h

theorem amounts_within {a : Act ω ε Unit} {e : Expansion ε} {scene : Scene ω ε} (path : String)
    (h : Amounts a e { scene with parser.stack := scene.parser.stack ++ [path] }) :
    Amounts (do
      Parser.update fun p ↦ { p with stack := p.stack ++ [path] }
      try a finally Parser.update fun p ↦ { p with stack := p.stack.dropLast }) e scene := by
  rw [Amounts, perform_bind, perform_update]
  dsimp only
  rw [perform_finally, h]
  simp only [Scene.grown, List.dropLast_concat]

/-- Reading a file first says that it is opened. -/
theorem amounts_opening {path : String} {a : Act ω ε Unit} {e : Expansion ε} {scene : Scene ω ε}
    (hreads : scene.Reads disk now sources rootFolder within)
    (h : ∀ opening, Scene.Reads disk now sources rootFolder within opening → Amounts a e opening) :
    Amounts (do
      Parser.announce path
      Parser.update fun p ↦ { p with files := p.files ++ [path] }
      a) (({ announced := [path], opened := [path] } : Expansion ε).andThen fun _ ↦ e) scene := by
  have hannounce : Amounts (Parser.announce path) { announced := [path] } scene := by
    rw [Amounts, perform_announce]
    simp only [Scene.grown, Expansion.answer, List.append_nil]
  have hopen : ∀ opening : Scene ω ε,
      Amounts (Parser.update fun p ↦ { p with files := p.files ++ [path] }) { opened := [path] }
      opening := by
    intro opening
    rw [Amounts, perform_update]
    simp only [Scene.grown, Expansion.answer, List.append_nil, ite_self]
  have hsplit : (({ announced := [path], opened := [path] } : Expansion ε).andThen fun _ ↦ e)
      = ({ announced := [path] } : Expansion ε).andThen fun _ ↦
        ({ opened := [path] } : Expansion ε).andThen fun _ ↦ e := rfl
  rw [hsplit]
  refine hannounce.bind fun _ ↦ (hopen _).bind fun _ ↦ h _ ?_
  exact (hreads.grown _).grown _

theorem amounts_readFile {enter : String → Range → Act ω ε Unit} {enter' : String → Range →
    Expansion ε} (path : String)
    (henter : ∀ target range scene,
      Scene.Reads disk now sources rootFolder (within ++ [path]) scene →
      Amounts (enter target range) (enter' target range) scene)
    (range : Option Range) {scene : Scene ω ε}
    (hreads : scene.Reads disk now sources rootFolder within) :
    Amounts (Parser.readFile disk now enter path range)
      (sources.openFile enter' path ⟨within.getLast?.getD path, range.getD .empty⟩) scene := by
  rw [Parser.readFile, Sources.openFile]
  cases htext : sources.textOf path ⟨within.getLast?.getD path, range.getD .empty⟩ with
  | error stop =>
    refine amounts_opening (e := { stop := some stop }) hreads fun opening hopening ↦ amounts_get ?_
    dsimp only
    rw [hopening.sources, hopening.stack, htext, Amounts, perform_bind, perform_liftExcept]
    exact amounts_throw stop opening
  | ok text =>
    refine amounts_opening hreads fun opening hopening ↦ amounts_get ?_
    dsimp only
    rw [hopening.sources, hopening.stack, htext, Amounts, perform_bind, perform_liftExcept]
    exact amounts_within path
      (amounts_tokenize henter _ ⟨hopening.sources, hopening.rootFolder,
        congrArg (· ++ [path]) hopening.stack⟩)

/-- An include goes through what it expands to, with the files of the stack around it. -/
theorem amounts_expand (room : Nat) {file : String} (hfile : within.getLast? = some file)
    (target : String) (range : Range) {scene : Scene ω ε}
    (hreads : scene.Reads disk now sources rootFolder within) :
    Amounts (Parser.expand disk now room file target range)
      (sources.expandInclude rootFolder room within file target range) scene := by
  induction room generalizing within file target range scene with
  | zero => exact amounts_throw _ _
  | succ room ih =>
    rw [Parser.expand, Sources.expandInclude]
    refine amounts_get ?_
    have hdisk : disk now = sources.disk := hreads.sources ▸ rfl
    dsimp only
    rw [hreads.sources, hreads.rootFolder, hreads.stack, hdisk]
    generalize sources.includePath rootFolder file target = path
    by_cases hrecursive : within.contains path = true
    · simp only [if_pos hrecursive]
      exact amounts_throw _ _
    · simp only [if_neg hrecursive]
      cases sources.buffer path with
      | error reason => exact amounts_throw _ _
      | ok buffered =>
        by_cases hmissing : (buffered.isNone && !sources.disk.isFile path) = true
        · simp only [if_pos hmissing]
          exact amounts_throw _ _
        · simp only [if_neg hmissing]
          have hread := amounts_readFile path (fun target range scene hreads ↦
            ih List.getLast?_concat target range hreads) (some range) hreads
          rwa [hfile] at hread

theorem amounts_root {file : String} {scene : Scene ω ε}
    (hreads : scene.Reads disk now sources (Path.parent file) []) :
    Amounts (Parser.readFile disk now (Parser.expand disk now maxDepth file) file none)
      (sources.expandRoot file)
      scene := by
  rw [Sources.expandRoot_eq]
  exact amounts_readFile file (fun target range scene hreads ↦
    amounts_expand maxDepth List.getLast?_singleton target range hreads) none hreads

/-! ## Calls -/

theorem exists_perform_readTokens (r : Reader) (ts : List Token) (scene : Scene ω ε) :
    ∃ index, perform (Parser.readTokens r ts) scene
      = ((r.run ts).mapError .error, { scene with parser.index := index }) := by
  induction ts generalizing r scene with
  | nil => exact ⟨scene.parser.index, rfl⟩
  | cons t rest ih =>
    rw [Parser.readTokens, Reader.run]
    cases hstep : r.step t with
    | error cause => exact ⟨scene.parser.index, rfl⟩
    | ok next =>
      obtain ⟨index, hindex⟩ := ih next { scene with parser.index := scene.parser.index + 1 }
      refine ⟨index, ?_⟩
      dsimp only
      rw [perform_bind, perform_update]
      exact hindex

/-- Reading the tree of a file reads the statements of all its tokens. -/
theorem exists_perform_readTree {file : String} (scene : Scene ω ε)
    (hindex : scene.parser.index = 0) (hfile : scene.parser.files.head? = some file) :
    ∃ index, perform (Parser.readTree file) scene
      = (match readStatements file scene.parser.tokens with
          | .ok statements => .ok (rootClass file statements)
          | .error e => .error (.error e), { scene with parser.index := index }) := by
  obtain ⟨index, hread⟩ := exists_perform_readTokens {} scene.parser.tokens scene
  refine ⟨index, ?_⟩
  rw [Parser.readTree, perform_bind, perform_get]
  dsimp only
  rw [hindex, List.drop_zero, perform_bind, hread, readStatements, hfile]
  cases Reader.run {} scene.parser.tokens with
  | error e => rfl
  | ok r =>
    dsimp only [Except.mapError]
    cases r.finish <;> rfl

end Act

namespace Parser

/-- The settings of a parser are those of another one. -/
structure SetLike (q p : Parser ω ε) : Prop where
  mappings : q.mappings = p.mappings
  announces : q.announces = p.announces
  load : q.load = p.load

variable {disk : ω → Disk} {now : ω}

theorem head?_opened_openFile (sources : Sources ε) (enter : String → Range → Expansion ε)
    (path : String) (blame : Location) :
    (sources.openFile enter path blame).opened.head? = some path := by
  rw [Sources.openFile]
  split <;> rfl

/-- A root is read without what is left from earlier calls. -/
theorem exists_perform_readRoot {file : String} {e : Expansion ε} (scene : Scene ω ε)
    (he : (scene.parser.sources disk now).expandRoot file = e)
    (hroot : scene.parser.rootFolder = Path.parent file) (hstack : scene.parser.stack = [])
    (hfiles : scene.parser.files = []) :
    ∃ left : Scene ω ε, Act.perform (readRoot disk now file) scene
        = (match e.stop with
            | some stop => .error stop
            | none => match readStatements file e.tokens with
              | .ok statements => .ok (rootClass file statements)
              | .error e => .error (.error e), left) ∧
      left.parser.files = e.opened ∧
      left.told = (if scene.parser.announces then scene.told ++ e.announced else scene.told) ∧
      left.parser.SetLike scene.parser := by
  have hread : Act.Amounts (readFile disk now (expand disk now maxDepth file) file none) e
      { scene with parser.tokens := [] } := by
    rw [← he]
    exact Act.amounts_root ⟨rfl, hroot, hstack⟩
  rw [readRoot, Act.perform_bind, Act.perform_update]
  dsimp only
  rw [Act.perform_bind, hread, Expansion.answer]
  cases hstop : e.stop with
  | some stop => exact ⟨_, rfl, congrArg (· ++ e.opened) hfiles, rfl, rfl, rfl, rfl⟩
  | none =>
    dsimp only
    rw [Act.perform_bind, Act.perform_update]
    have hfirst : (scene.parser.files ++ e.opened).head? = some file := by
      rw [hfiles, List.nil_append, ← he, Sources.expandRoot_eq]
      exact head?_opened_openFile _ _ _ _
    obtain ⟨index, htree⟩ := Act.exists_perform_readTree
      { ({ scene with parser.tokens := [] } : Scene ω ε).grown e with parser.index := 0 } rfl hfirst
    exact ⟨_, htree, congrArg (· ++ e.opened) hfiles, rfl, rfl, rfl, rfl⟩

/-- A call of `parse` gives what `Sources.parse` says, whatever is left from earlier calls, and it
leaves the settings as they are. -/
theorem exists_perform_parse (disk : ω → Disk) (now : ω) (path : String) (scene : Scene ω ε) :
    ∃ left : Scene ω ε, Act.perform (parse disk now path) scene
        = (match ((scene.parser.sources disk now).parse path).result with
            | .ok tree => .ok (.ok tree)
            | .error (.error e) => .ok (.error e)
            | .error (.fault reason) => .error (.fault reason), left) ∧
      left.parser.files = ((scene.parser.sources disk now).parse path).opened ∧
      left.told = (if scene.parser.announces then
        scene.told ++ ((scene.parser.sources disk now).parse path).announced else scene.told) ∧
      left.parser.SetLike scene.parser := by
  obtain ⟨file, hfile⟩ : ∃ file, (disk now).absolute path = file := ⟨_, rfl⟩
  obtain ⟨e, he⟩ : ∃ e, (scene.parser.sources disk now).expandRoot file = e := ⟨_, rfl⟩
  have habsolute : (scene.parser.sources disk now).disk.absolute path = file := hfile
  obtain ⟨left, hperform, hfiles, htold, hset⟩ := exists_perform_readRoot
    { scene with
      parser := { scene.parser with rootFolder := Path.parent file, stack := [], files := [] } }
    he rfl rfl rfl
  simp only [Sources.parse, habsolute, he]
  refine ⟨left, ?_, hfiles, htold, hset.mappings, hset.announces, hset.load⟩
  rw [parse, Act.perform_bind, Act.perform_update]
  dsimp only
  rw [hfile, Act.perform_tryCatch, Act.perform_bind, hperform]
  cases e.stop with
  | some stop => cases stop <;> rfl
  | none =>
    dsimp only
    cases readStatements file e.tokens <;> rfl

theorem sources_loading (p : Parser ω ε) (path : String) (text : List Char) :
    ({ p with load := some (loading disk path text p.load) } : Parser ω ε).sources disk now
      = (p.sources disk now).withText path text := by
  simp only [sources, Sources.withText, loading]
  cases p.load <;> rfl

def Call.outcome (sources : Sources ε) : Call → Outcome ε
  | .parse path => sources.parse path
  | .parseText path text => sources.parseText path text

/-- A call gives what the sources of the moment say, and it puts back the hook that it has
replaced. -/
theorem exists_perform_act (disk : ω → Disk) (now : ω) (c : Call) (scene : Scene ω ε) :
    ∃ left : Scene ω ε, Act.perform (c.act disk now) scene
        = (match (c.outcome (scene.parser.sources disk now)).result with
            | .ok tree => .ok (.ok tree)
            | .error (.error e) => .ok (.error e)
            | .error (.fault reason) => .error (.fault reason), left) ∧
      left.parser.files = (c.outcome (scene.parser.sources disk now)).opened ∧
      left.told = (if scene.parser.announces then
        scene.told ++ (c.outcome (scene.parser.sources disk now)).announced else scene.told) ∧
      left.parser.SetLike scene.parser := by
  cases c with
  | parse path => exact exists_perform_parse disk now path scene
  | parseText path text =>
    obtain ⟨left, hperform, hfiles, htold, hset⟩ := exists_perform_parse disk now path
      { scene with parser.load := some (loading disk path text scene.parser.load) }
    rw [sources_loading] at hperform hfiles htold
    refine ⟨{ left with parser.load := scene.parser.load }, ?_, hfiles, htold, hset.mappings,
      hset.announces, rfl⟩
    rw [Call.act, parseText, Act.perform_bind, Act.perform_get]
    dsimp only
    rw [Act.perform_bind, Act.perform_update]
    dsimp only
    rw [Act.perform_finally, hperform]
    rfl

/-- **What comes out of a call depends on the settings of the parser only**, and the call leaves
them as they are. -/
theorem call_eq (disk : ω → Disk) (now : ω) (c : Call) (p : Parser ω ε) :
    (p.call disk now c).1 = (let outcome := c.outcome (p.sources disk now)
      { outcome with announced := if p.announces then outcome.announced else [] }) ∧
    (p.call disk now c).2.SetLike p := by
  obtain ⟨left, hperform, hfiles, htold, hset⟩ := exists_perform_act disk now c { parser := p }
  have hrun : (c.act disk now).run.run { parser := p } = _ := hperform
  simp only [call, hrun]
  refine ⟨?_, hset⟩
  rw [hfiles, htold]
  obtain ⟨opened, announced, result⟩ := c.outcome (p.sources disk now)
  match result with
  | .ok tree => rfl
  | .error (.error e) => rfl
  | .error (.fault reason) => rfl

/-- A new parser with the settings of another one. -/
def renewed (p : Parser ω ε) : Parser ω ε where
  mappings := p.mappings
  announces := p.announces
  load := p.load

/-- **A parser carries nothing from one call to the next.** Whatever is left in it, each of its
calls gives what a new parser with its settings gives at that moment, and afterwards it has the hook
that it had before. -/
theorem calls_eq_of_renewed (p : Parser ω ε) (disk : ω → Disk) (cs : List (ω × Call)) :
    (p.calls disk cs).1 = cs.map (fun (now, c) ↦ (p.renewed.call disk now c).1) ∧
      (p.calls disk cs).2.load = p.load := by
  induction cs generalizing p with
  | nil => exact ⟨rfl, rfl⟩
  | cons first rest ih =>
    obtain ⟨now, c⟩ := first
    obtain ⟨hfirst, hset⟩ := call_eq disk now c p
    obtain ⟨houtcomes, hload⟩ := ih (p.call disk now c).2
    have hrenewed : (p.call disk now c).2.renewed = p.renewed := by
      simp only [renewed, hset.mappings, hset.announces, hset.load]
    rw [hrenewed] at houtcomes
    have hsame : (p.call disk now c).1 = (p.renewed.call disk now c).1 :=
      hfirst.trans (call_eq disk now c p.renewed).1.symm
    refine ⟨?_, hload.trans hset.load⟩
    rw [List.map_cons, ← houtcomes]
    dsimp only
    rw [← hsame]
    rfl

/-- A mission in which an included file has a quoted text without an end, until it is mended. -/
def mendedDisk (mended : Bool) : Disk where
  files :=
    [(["m", "description.ext"],
      .bytes (encodeUtf8 "class A \x7b\n#include \"a.hpp\"\n\x7d;".toList)),
      (["m", "a.hpp"], .bytes (encodeUtf8 (if mended then "x = 1;" else "x = \"1;").toList))]

/-- A call fails in the included file, and one behind it, and still the last one finds nothing of
theirs. -/
theorem calls_eq_of_renewed_mended :
    let p : Parser Bool String := { announces := true }
    let cs : List (Bool × Call) := [(false, .parse "/m/description.ext"),
      (true, .parseText "/m/description.ext" "#include \"a.hpp\"\n\x7d".toList),
      (true, .parse "/m/description.ext")]
    (p.calls mendedDisk cs).1 = cs.map (fun (now, c) ↦ (p.renewed.call mendedDisk now c).1) ∧
      (p.calls mendedDisk cs).1.map (fun outcome ↦ (outcome.announced, outcome.result.isOk))
        = [(["/m/description.ext", "/m/a.hpp"], false), (["/m/description.ext", "/m/a.hpp"], false),
          (["/m/description.ext", "/m/a.hpp"], true)] := by
  intro p cs
  exact ⟨(p.calls_eq_of_renewed mendedDisk cs).1, by decide +kernel⟩

end Parser

end MissionIndex.Config
