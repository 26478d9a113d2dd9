/-
  Views of a run.

  What a run shows on the way (the tree, the description, the listing) and
  what it writes does not matter for the program: how it ends, what it
  complains about and what it prints itself. These depend on the source, the
  configuration and the folder alone (`Options.programIn`), and if there is no
  unit, nothing but the tree is shown and nothing is written.

  * `Folder.read_write`: a file that was written holds what was written;
  * `runIn_runUnit`: what becomes of a unit, which can always be listed;
  * `runIn_run_of_error`, `runIn_run_of_ok`: runs without and with a unit;
  * `commandLine_views`: two answers to arguments that differ in their views.
-/
import Stacklet.CommandLine
import Stacklet.CommandLine.Surroundings
import Stacklet.Proofs.Compilable
import Stacklet.Proofs.RoundTrip

namespace Stacklet

/-- A compiled unit can be listed. -/
theorem CodeUnit.Holds.exists_listing {t : Numbering} {tree : Tree} {u : CodeUnit}
    {is : List Instr} {depth : Nat} (h : Holds t tree u is depth) :
    ∃ text, u.listing t = .ok text := by
  rw [listing, h.instructions]
  exact ⟨_, rfl⟩

namespace CommandLine

/-! ## Folders -/

theorem bind_eq_ok_iff {ε α β : Type} {x : Except ε α} {f : α → Except ε β} {b : β} :
    x >>= f = .ok b ↔ ∃ a, x = .ok a ∧ f a = .ok b := by
  cases x with
  | error e => simp [bind, Except.bind]
  | ok a => simp [bind, Except.bind]

theorem bind_ok {ε α β : Type} (a : α) (f : α → Except ε β) : .ok a >>= f = f a := rfl

theorem mapError_eq_ok_iff {ε ε' α : Type} {x : Except ε α} {f : ε → ε'} {a : α} :
    x.mapError f = .ok a ↔ x = .ok a := by
  cases x with
  | error e => simp [Except.mapError]
  | ok b => simp [Except.mapError]

namespace Folder
variable {d e : Folder} {path : String} {bytes : List UInt8}

theorem enter_eq_ok_iff {here : Place} : d.enter here = .ok () ↔ d.hasDirectory here := by
  rw [enter]
  split_ifs with h <;> simp [h]

theorem step_eq_ok_iff {here there : Place} {component : String} :
    d.step here component = .ok there ↔
      d.hasDirectory here ∧ component.utf8ByteSize ≤ 255 ∧ here.past component = there := by
  simp only [step, bind_eq_ok_iff]
  constructor
  · rintro ⟨_, henter, h⟩
    split_ifs at h with hsize
    exact ⟨enter_eq_ok_iff.1 henter, hsize, Except.ok.inj h⟩
  · rintro ⟨hhere, hsize, rfl⟩
    exact ⟨(), enter_eq_ok_iff.2 hhere, by rw [if_pos hsize]; rfl⟩

/-- A walk that succeeds looks at directories only. -/
theorem walk_of_directories (hde : e.directories = d.directories) {components : List String}
    {here there : Place} (h : d.walk here components = .ok there) :
    e.walk here components = .ok there := by
  have hdirectory (here : Place) : e.hasDirectory here = d.hasDirectory here := by
    rw [hasDirectory, hasDirectory, hde]
  induction components generalizing here with
  | nil => exact h
  | cons c components ih =>
    rw [walk, List.foldlM_cons, bind_eq_ok_iff] at h ⊢
    obtain ⟨next, hstep, h⟩ := h
    refine ⟨next, ?_, ih h⟩
    rw [step_eq_ok_iff] at hstep ⊢
    rwa [hdirectory]

/-- A path leads to a place where a file can be written. -/
def LeadsTo (d : Folder) (path : String) (there : Place) : Prop :=
  ∃ route here last, Route.ofRequest path = .ok route ∧
    d.walk route.start route.components.dropLast = .ok here ∧
    route.components.getLast? = some last ∧ (route.slash || last == "." || last == "..") = false ∧
    d.step here last = .ok there ∧ d.hasDirectory there = false

theorem write_eq_ok_iff :
    d.write path bytes = .ok e ↔
      ∃ there, d.LeadsTo path there ∧
        (if there == Place.null then d else d.put there bytes) = e := by
  simp only [write, bind_eq_ok_iff]
  constructor
  · rintro ⟨route, hroute, here, hwalk, -, -, h⟩
    cases hlast : route.components.getLast? with
    | none =>
      rw [hlast] at h
      cases h
    | some last =>
      simp only [hlast] at h
      split_ifs at h with hfile
      · obtain ⟨-, h, -⟩ := bind_eq_ok_iff.1 h
        cases h
      · obtain ⟨there, hstep, h⟩ := bind_eq_ok_iff.1 h
        rw [Bool.not_eq_true] at hfile
        cases hthere : d.hasDirectory there with
        | true =>
          rw [hthere] at h
          obtain ⟨-, h, -⟩ := bind_eq_ok_iff.1 h
          cases h
        | false =>
          rw [hthere] at h
          exact ⟨there, ⟨route, here, last, hroute, hwalk, hlast, hfile, hstep, hthere⟩,
            Except.ok.inj h⟩
  · rintro ⟨there, ⟨route, here, last, hroute, hwalk, hlast, hfile, hstep, hthere⟩, rfl⟩
    refine ⟨route, hroute, here, hwalk, (), ?_, ?_⟩
    · exact enter_eq_ok_iff.2 (step_eq_ok_iff.1 hstep).1
    · simp only [hlast, hfile, Bool.false_eq_true, if_false]
      exact bind_eq_ok_iff.2 ⟨there, hstep, by rw [if_neg (by simp [hthere])]; rfl⟩

/-- **A file that was written holds what was written**, unless everything that
    is written there is lost. -/
theorem read_write (h : d.write path bytes = .ok e) :
    e.read path = .ok bytes ∨ ∀ lost, d.write path lost = .ok d := by
  obtain ⟨there, hthere, he⟩ := write_eq_ok_iff.1 h
  by_cases hnull : there == Place.null
  · exact Or.inr fun lost => write_eq_ok_iff.2 ⟨there, hthere, if_pos hnull⟩
  · rw [if_neg hnull] at he
    subst he
    obtain ⟨route, here, last, hroute, hwalk, hlast, hfile, hstep, -⟩ := hthere
    have hslash : route.slash = false := by
      rw [Bool.or_eq_false_iff, Bool.or_eq_false_iff] at hfile
      exact hfile.1.1
    have hsame : (d.put there bytes).directories = d.directories := rfl
    have hwhole : (d.put there bytes).walk route.start route.components = .ok there := by
      refine walk_of_directories hsame ?_
      rw [← List.dropLast_append_getLast? _ hlast, walk, List.foldlM_append, bind_eq_ok_iff]
      refine ⟨here, hwalk, ?_⟩
      rw [List.foldlM_cons, bind_eq_ok_iff]
      exact ⟨there, hstep, rfl⟩
    left
    simp only [read, bind_eq_ok_iff]
    refine ⟨route, hroute, there, hwhole, ?_⟩
    simp only [hslash, Bool.false_eq_true, if_false, file?_put, if_true]
    rfl

/-- The folder with bytes in the file that they are to be written to, if they are
    to be written. -/
def saving (d : Folder) (emit : Option String) (bytes : List UInt8) : Except SystemError Folder :=
  match emit with
  | some path => d.write path bytes
  | none => .ok d

end Folder

/-! ## Scripts -/

/-- Surroundings in which more has been printed. -/
def Surroundings.showing (s : Surroundings) (text : String) : Surroundings :=
  { s with output := s.output ++ text }

theorem Surroundings.showing_showing (s : Surroundings) (text more : String) :
    (s.showing text).showing more = s.showing (text ++ more) := by
  simp only [showing, String.append_assoc]

theorem Surroundings.showing_empty (s : Surroundings) : s.showing "" = s := by
  simp only [showing, String.append_empty]

namespace Run
variable {ε α β : Type}

theorem runIn_ofExcept (message : ε → String) (r : Except ε α) (s : Surroundings) :
    (ofExcept message r).run.runIn s = (r.mapError message, s) := by
  cases r <;> rfl

theorem runIn_readFile (path : String) (s : Surroundings) :
    (readFile path).run.runIn s = (.ok (s.folder.read path), s) := rfl

/-- A view is printed, or it is not. -/
theorem runIn_view (shown : Bool) (text : String) (s : Surroundings) :
    (if shown then print text else pure () : Run Unit).run.runIn s =
      (.ok (), s.showing (if shown then text else "")) := by
  cases shown with
  | true => rfl
  | false =>
    rw [if_neg Bool.false_ne_true, if_neg Bool.false_ne_true, s.showing_empty]
    rfl

/-- A run goes on with a value. -/
theorem runIn_bind_ok {x : Run α} {f : α → Run β} {a : α} {s v : Surroundings}
    (h : x.run.runIn s = (.ok a, v)) : (x >>= f).run.runIn s = (f a).run.runIn v := by
  rw [runIn_bind, h]

end Run

namespace Options
variable (o : Options)

/-! ## What a run reads -/

section
variable (folder : Folder) (input : List UInt8)

/-- The configuration that is asked for, or what is wrong with it. -/
def configIn : Except String Config :=
  match o.config with
  | none => .ok .default
  | some path => do
    let text ← (textOf (folder.read path)).mapError fun reason =>
      (ConfigError.read path reason).message
    match Config.ofToml? text with
    | some config => return config
    | none => throw ConfigError.invalid.message

/-- The source that is asked for, or why it cannot be read. -/
def sourceIn : Except String String :=
  match o.eval, o.file with
  | some text, _ => .ok text
  | none, some path =>
    (textOf (folder.read path)).mapError ("Failed to read '" ++ path ++ "': " ++ ·)
  | none, none => (textOf (.ok input)).mapError ("Failed to read stdin: " ++ ·)

/-- The tree of the source, with the configuration and its numbering, or what
    fails first. -/
def treeIn : Except String (Config × Numbering × Tree) := do
  let config ← o.configIn folder
  let t ← config.numbering.mapError fun e => (ConfigError.numbering e).message
  let source ← o.sourceIn folder input
  let tree ← (Tree.ofSource source).mapError SourceError.message
  return (config, t, tree)

/-- The unit and the numbering of its bytes, or what fails first. -/
def unitIn : Except String (Numbering × CodeUnit) := do
  let (config, t, tree) ← o.treeIn folder input
  let u ← (CodeUnit.ofTree t (o.describe config.options) tree).mapError CompileError.message
  return (t, u)

end

theorem runIn_loadConfig (s : Surroundings) :
    o.loadConfig.run.runIn s = (o.configIn s.folder, s) := by
  rw [loadConfig, configIn]
  cases o.config with
  | none => rfl
  | some path =>
    simp only [readConfig]
    rw [Run.runIn_bind_ok (Run.runIn_readFile path s), Run.runIn_bind, Run.runIn_ofExcept]
    cases textOf (s.folder.read path) with
    | error reason => rfl
    | ok text =>
      simp only [Except.mapError, bind, Except.bind]
      cases Config.ofToml? text <;> rfl

/-- Reading a source may use up the input. -/
theorem runIn_loadSource (s : Surroundings) :
    ∃ rest, o.loadSource.run.runIn s = (o.sourceIn s.folder s.input, { s with input := rest }) := by
  rw [loadSource, sourceIn]
  cases o.eval with
  | some text => exact ⟨s.input, rfl⟩
  | none =>
    cases o.file with
    | some path =>
      refine ⟨s.input, ?_⟩
      simp only [readSource]
      rw [Run.runIn_bind_ok (Run.runIn_readFile path s), Run.runIn_ofExcept]
    | none =>
      refine ⟨[], ?_⟩
      simp only [readInput]
      exact Run.runIn_ofExcept _ _ _

/-! ## What becomes of a unit -/

/-- How a program ends, and what it prints. -/
def execution (t : Numbering) (u : CodeUnit) : Except String Unit × String :=
  if o.noRun then (.ok (), "")
  else
    match (Host.fresh t .default .empty).run u with
    | (.ok _, host) => (.ok (), host.session.sink.printed)
    | (.error e, host) => (.error e.message, host.session.sink.printed)

theorem runIn_execute (t : Numbering) (u : CodeUnit) (s : Surroundings) :
    (if o.noRun then pure () else execute t u : Run Unit).run.runIn s =
      ((o.execution t u).1, s.showing (o.execution t u).2) := by
  rw [execution]
  cases o.noRun with
  | true =>
    rw [if_pos rfl, if_pos rfl, s.showing_empty]
    rfl
  | false =>
    rw [if_neg Bool.false_ne_true, if_neg Bool.false_ne_true, execute]
    rcases (Host.fresh t .default .empty).run u with ⟨e | v, host⟩ <;> rfl

/-- The listing of a unit that can be listed is a view like the others. -/
theorem runIn_listing {t : Numbering} {u : CodeUnit} {text : String} (h : u.listing t = .ok text)
    (s : Surroundings) :
    (if o.dis then showListing t u else pure () : Run Unit).run.runIn s =
      (.ok (), s.showing (if o.dis then u.banner ++ (text ++ "\n") else "")) := by
  cases o.dis with
  | true =>
    rw [if_pos rfl, if_pos rfl, showListing, h, ← s.showing_showing]
    rfl
  | false =>
    rw [if_neg Bool.false_ne_true, if_neg Bool.false_ne_true, s.showing_empty]
    rfl

theorem runIn_saving {u : CodeUnit} {d : Folder} (s : Surroundings)
    (h : s.folder.saving o.emit u.toBytes = .ok d) :
    (match o.emit with | some path => writeUnit u path | none => pure () : Run Unit).run.runIn s =
      (.ok (), { s with folder := d }) := by
  cases hemit : o.emit with
  | none =>
    rw [hemit, Folder.saving] at h
    cases h
    rfl
  | some path =>
    rw [hemit, Folder.saving] at h
    simp only [writeUnit]
    have hwrite : (Run.writeFile path u.toBytes).run.runIn s =
        (.ok (.ok ()), { s with folder := d }) := by
      rw [Run.writeFile, ExceptT.run, Script.runIn, h]
      rfl
    rw [Run.runIn_bind_ok hwrite]
    rfl

/-- A unit is shown, written and run, in this order. -/
theorem runUnit_eq (t : Numbering) (u : CodeUnit) :
    o.runUnit t u = (do
      (if o.info then Run.print u.info else pure ())
      (if o.dis then showListing t u else pure ())
      (match o.emit with | some path => writeUnit u path | none => pure ())
      (if o.noRun then pure () else execute t u)) := by
  rw [runUnit]
  cases o.info <;> cases o.dis <;> cases o.emit <;> rfl

/-- **A unit that can be listed and written is run**, whatever is shown of it. -/
theorem runIn_runUnit {t : Numbering} {u : CodeUnit} {text : String}
    (hlist : u.listing t = .ok text) {d : Folder} (s : Surroundings)
    (hd : s.folder.saving o.emit u.toBytes = .ok d) :
    ∃ shown, (o.runUnit t u).run.runIn s =
      ((o.execution t u).1,
        ({ s with folder := d } : Surroundings).showing (shown ++ (o.execution t u).2)) := by
  refine ⟨(if o.info then u.info else "") ++
    (if o.dis then u.banner ++ (text ++ "\n") else ""), ?_⟩
  rw [runUnit_eq, Run.runIn_bind_ok (Run.runIn_view _ _ _),
    Run.runIn_bind_ok (o.runIn_listing hlist _), Surroundings.showing_showing,
    Run.runIn_bind_ok (o.runIn_saving (s.showing _) hd), runIn_execute]
  simp only [Surroundings.showing, String.append_assoc]

/-! ## Runs -/

/-- What is left to do when there is a tree. -/
def runTree (config : Config) (t : Numbering) (tree : Tree) : Run Unit := do
  let u ← Run.ofExcept CompileError.message (CodeUnit.ofTree t (o.describe config.options) tree)
  o.runUnit t u

section
variable (folder : Folder) (input : List UInt8)

/-- The tree as a view: there may be none, and it may not be asked for. -/
def treeShown : String :=
  match o.treeIn folder input with
  | .ok (_, _, tree) => if o.ast then tree.outline ++ "\n" else ""
  | .error _ => ""

/-- How the program of a source ends, and what it prints. -/
def programIn : Except String Unit × String :=
  match o.unitIn folder input with
  | .ok (t, u) => o.execution t u
  | .error message => (.error message, "")

theorem treeIn_of_unitIn {t : Numbering} {u : CodeUnit}
    (h : o.unitIn folder input = .ok (t, u)) :
    ∃ config tree, o.treeIn folder input = .ok (config, t, tree) ∧
      CodeUnit.ofTree t (o.describe config.options) tree = .ok u := by
  obtain ⟨⟨config, t', tree⟩, htree, h⟩ := bind_eq_ok_iff.1 h
  obtain ⟨u', hu, h⟩ := bind_eq_ok_iff.1 h
  cases h
  exact ⟨config, tree, htree, mapError_eq_ok_iff.1 hu⟩

variable (htokens : o.tokens = false)
include htokens

/-- A run comes to a tree or ends there. -/
theorem runIn_run :
    ∃ rest, o.run.run.runIn (.fresh folder input) =
      match o.treeIn folder input with
      | .ok (config, t, tree) =>
        (o.runTree config t tree).run.runIn ⟨folder, rest, o.treeShown folder input, ""⟩
      | .error message => (.error message, ⟨folder, rest, "", ""⟩) := by
  simp only [treeShown, treeIn, run]
  rw [Run.runIn_bind, runIn_loadConfig, Surroundings.fresh]
  cases o.configIn folder with
  | error message => exact ⟨input, rfl⟩
  | ok config =>
    simp only [bind_ok]
    rw [Run.runIn_bind, Run.runIn_ofExcept]
    cases config.numbering with
    | error e => exact ⟨input, rfl⟩
    | ok t =>
      obtain ⟨rest, hsource⟩ := o.runIn_loadSource ⟨folder, input, "", ""⟩
      refine ⟨rest, ?_⟩
      simp only [Except.mapError, bind_ok]
      rw [Run.runIn_bind, hsource]
      cases o.sourceIn folder input with
      | error message => rfl
      | ok source =>
        simp only [bind_ok, htokens, Bool.false_eq_true, if_false, runSource]
        rw [Run.runIn_bind, Run.runIn_ofExcept]
        cases Tree.ofSource source with
        | error e => rfl
        | ok tree => cases o.ast <;> rfl

/-- **Without a unit, a run shows the tree at most**, and writes nothing. -/
theorem runIn_run_of_error {message : String} (h : o.unitIn folder input = .error message) :
    ∃ rest, o.run.run.runIn (.fresh folder input) =
      (.error message, ⟨folder, rest, o.treeShown folder input, ""⟩) := by
  obtain ⟨rest, hrun⟩ := o.runIn_run folder input htokens
  refine ⟨rest, hrun.trans ?_⟩
  rw [unitIn] at h
  cases htree : o.treeIn folder input with
  | error e =>
    rw [htree] at h
    cases h
    rw [treeShown, htree]
  | ok found =>
    obtain ⟨config, t, tree⟩ := found
    simp only [htree, bind_ok] at h
    simp only [runTree]
    rw [Run.runIn_bind, Run.runIn_ofExcept]
    cases hcompile : CodeUnit.ofTree t (o.describe config.options) tree with
    | error e =>
      rw [hcompile] at h
      cases h
      rfl
    | ok u =>
      rw [hcompile] at h
      cases h

/-- **With a unit, a run ends as the program does**, if the unit can be written,
    and what the program prints comes last. -/
theorem runIn_run_of_ok {t : Numbering} {u : CodeUnit} {d : Folder}
    (h : o.unitIn folder input = .ok (t, u)) (hd : folder.saving o.emit u.toBytes = .ok d) :
    ∃ rest shown, o.run.run.runIn (.fresh folder input) =
      ((o.execution t u).1, ⟨d, rest, shown ++ (o.execution t u).2, ""⟩) := by
  obtain ⟨config, tree, htree, hu⟩ := o.treeIn_of_unitIn folder input h
  obtain ⟨is, depth, hholds⟩ := CodeUnit.holds_of_ofTree hu
  obtain ⟨rest, hrun⟩ := o.runIn_run folder input htokens
  obtain ⟨text, hlist⟩ := hholds.exists_listing
  obtain ⟨shown, hshown⟩ := o.runIn_runUnit hlist ⟨folder, rest, o.treeShown folder input, ""⟩ hd
  refine ⟨rest, o.treeShown folder input ++ shown, hrun.trans ?_⟩
  rw [htree]
  simp only [runTree]
  rw [Run.runIn_bind, Run.runIn_ofExcept, hu]
  simp only [Except.mapError]
  rw [hshown, Surroundings.showing, String.append_assoc]

end

end Options

/-! ## Answers -/

/-- The exit status. -/
def statusOf : Except String Unit → UInt32
  | .ok () => 0
  | .error _ => 1

/-- What is complained about. -/
def complaintOf : Except String Unit → String
  | .ok () => ""
  | .error message => message ++ "\n"

/-- What becomes of arguments in a folder, with an input. -/
def answer (args : List String) (folder : Folder) (input : List UInt8) : UInt32 × Surroundings :=
  (commandLine args).runIn (.fresh folder input)

theorem answer_of_runIn {args : List String} {o : Options} (h : Options.ofArgs args = .ok o)
    {folder d : Folder} {input rest : List UInt8} {ending : Except String Unit} {output : String}
    (hrun : o.run.run.runIn (.fresh folder input) = (ending, ⟨d, rest, output, ""⟩)) :
    answer args folder input =
      (statusOf ending, ⟨d, rest, output, complaintOf ending⟩) := by
  rw [answer, commandLine, h]
  simp only
  rw [Script.runIn_bind, hrun]
  cases ending <;> rfl

/-- Anything can be written to a path. -/
def Folder.Writable (d : Folder) (path : String) : Prop :=
  ∀ bytes, ∃ e, d.write path bytes = .ok e

theorem Folder.exists_saving {d : Folder} {emit : Option String}
    (h : ∀ path ∈ emit, d.Writable path) (bytes : List UInt8) :
    ∃ e, d.saving emit bytes = .ok e := by
  cases emit with
  | none => exact ⟨d, rfl⟩
  | some path => exact h path rfl bytes

section
variable {args : List String} {o : Options} (h : Options.ofArgs args = .ok o)
  (htokens : o.tokens = false) (folder : Folder) (input : List UInt8)
include h htokens

theorem answer_of_error {message : String} (hnone : o.unitIn folder input = .error message) :
    ∃ rest, answer args folder input =
      (1, ⟨folder, rest, o.treeShown folder input, message ++ "\n"⟩) := by
  obtain ⟨rest, hrun⟩ := o.runIn_run_of_error folder input htokens hnone
  exact ⟨rest, answer_of_runIn h hrun⟩

theorem answer_of_ok {t : Numbering} {u : CodeUnit} (hu : o.unitIn folder input = .ok (t, u))
    (hwritable : ∀ path ∈ o.emit, folder.Writable path) :
    ∃ d rest shown, folder.saving o.emit u.toBytes = .ok d ∧
      answer args folder input = (statusOf (o.execution t u).1,
        ⟨d, rest, shown ++ (o.execution t u).2, complaintOf (o.execution t u).1⟩) := by
  obtain ⟨d, hd⟩ := Folder.exists_saving hwritable u.toBytes
  obtain ⟨rest, shown, hrun⟩ := o.runIn_run_of_ok folder input htokens hu hd
  exact ⟨d, rest, shown, hd, answer_of_runIn h hrun⟩

/-- The answer is that of the program, with the views before it. -/
theorem answer_spec (hwritable : ∀ path ∈ o.emit, folder.Writable path) :
    (answer args folder input).1 = statusOf (o.programIn folder input).1 ∧
      (answer args folder input).2.complaints = complaintOf (o.programIn folder input).1 ∧
      ∃ shown, (answer args folder input).2.output = shown ++ (o.programIn folder input).2 := by
  rw [Options.programIn]
  cases hunit : o.unitIn folder input with
  | error message =>
    obtain ⟨rest, hanswer⟩ := answer_of_error h htokens folder input hunit
    rw [hanswer]
    exact ⟨rfl, rfl, _, (String.append_empty).symm⟩
  | ok found =>
    obtain ⟨t, u⟩ := found
    obtain ⟨d, rest, shown, -, hanswer⟩ := answer_of_ok h htokens folder input hunit hwritable
    rw [hanswer]
    exact ⟨rfl, rfl, shown, rfl⟩

end

/-- **Views change nothing but what is shown**, and failures leave nothing
    behind. If two lists of arguments ask for the same but for the tree, the
    description, the listing and the file for the unit, both answers have the
    status, the complaints and, at the end of the output, the text of the same
    program. The file holds the bytes of the unit that is run, however the run
    ends (only where everything that is written is lost, it does not). If there
    is no unit, the status is a failure, the folder is as before, and nothing
    but the tree is shown. -/
theorem commandLine_views {args args' : List String} {o : Options} {ast info dis : Bool}
    {emit : Option String} (h : Options.ofArgs args = .ok o)
    (h' : Options.ofArgs args' = .ok { o with ast := ast, info := info, dis := dis, emit := emit })
    (htokens : o.tokens = false) (folder : Folder) (input : List UInt8) :
    ((∀ path ∈ o.emit, folder.Writable path) → (∀ path ∈ emit, folder.Writable path) →
      (answer args folder input).1 = (answer args' folder input).1 ∧
        (answer args folder input).2.complaints = (answer args' folder input).2.complaints ∧
        ∃ shown shown',
          (answer args folder input).2.output = shown ++ (o.programIn folder input).2 ∧
          (answer args' folder input).2.output = shown' ++ (o.programIn folder input).2) ∧
      (∀ t u, o.unitIn folder input = .ok (t, u) → (∀ path ∈ o.emit, folder.Writable path) →
        (answer args folder input).1 = statusOf (o.execution t u).1 ∧
          (answer args folder input).2.complaints = complaintOf (o.execution t u).1 ∧
          folder.saving o.emit u.toBytes = .ok (answer args folder input).2.folder ∧
          ∀ path ∈ o.emit, (answer args folder input).2.folder.read path = .ok u.toBytes ∨
            ∀ lost, folder.write path lost = .ok folder) ∧
      ∀ message, o.unitIn folder input = .error message →
        (answer args folder input).1 = 1 ∧
          (answer args folder input).2.complaints = message ++ "\n" ∧
          (answer args folder input).2.folder = folder ∧
          (answer args folder input).2.output = o.treeShown folder input := by
  refine ⟨fun hw hw' => ?_, fun t u hu hw => ?_, fun message hnone => ?_⟩
  · obtain ⟨hstatus, hcomplaint, shown, hshown⟩ := answer_spec h htokens folder input hw
    obtain ⟨hstatus', hcomplaint', shown', hshown'⟩ := answer_spec h' htokens folder input hw'
    exact ⟨hstatus.trans hstatus'.symm, hcomplaint.trans hcomplaint'.symm, shown, shown', hshown,
      hshown'⟩
  · obtain ⟨d, rest, shown, hd, hanswer⟩ := answer_of_ok h htokens folder input hu hw
    rw [hanswer]
    refine ⟨rfl, rfl, hd, fun path hpath => ?_⟩
    rw [hpath, Folder.saving] at hd
    exact Folder.read_write hd
  · obtain ⟨rest, hanswer⟩ := answer_of_error h htokens folder input hnone
    rw [hanswer]
    exact ⟨rfl, rfl, rfl, rfl⟩

theorem ofSource_printSum : Tree.ofSource "print(1 + 2)" = .ok .printSum := by
  have hletters : ∀ c ∈ ['r', 'i', 'n', 't'], isIdentChar c := List.all_eq_true.1 rfl
  have hprint : IsIdent "print" := ⟨'p', _, rfl, by decide, hletters⟩
  have hsum : (Tree.binary (.num (.int 1)) .add (.num (.int 2))).IsExpression :=
    .binary (.int (by decide)) (.int (by decide))
  have hcall := statement_tokens
    (.expr (.call (.name hprint) (List.forall_mem_singleton.2 hsum)))
    (List.forall_mem_singleton.2 (by decide))
  have hnone : Phrase.Separators [] := nofun
  have hblock := (Writes.mk hnone (.done hnone)).block (List.forall_mem_singleton.2 hcall)
  refine ofSource_of_spells hblock ?_
  show Spells 0 [.ident "print", .openParen, .integer 1, .plus, .integer 2, .closeParen]
    ([] ++ (['p', 'r', 'i', 'n', 't'] ++ ([] ++ (['('] ++ ([] ++ (['1'] ++ ([' '] ++ (['+'] ++
      ([' '] ++ (['2'] ++ ([] ++ ([')'] ++ []))))))))))))
  have hblank : ∀ {depth behind}, Gap depth behind [' '] := .blank (Or.inl rfl) .nil
  have hname : Spelling ['p', 'r', 'i', 'n', 't'] (.ident "print") :=
    .ident (c := 'p') (by decide) hletters
  exact .cons .nil hname <| .cons .nil (.symbol rfl) <|
    .cons .nil (.integer (by decide) nofun (by decide)) <| .cons hblank (.symbol rfl) <|
    .cons hblank (.integer (by decide) nofun (by decide)) <| .cons .nil (.symbol rfl) <|
    .nil .nil

/-- The answers for a program, without views and with all of them. -/
theorem commandLine_views_printSum :
    let folder := Folder.holding [] []
    let plain := answer ["-e", "print(1 + 2)"] folder []
    let viewed :=
      answer ["-e", "print(1 + 2)", "--ast", "--info", "--dis", "--emit", "out"] folder []
    plain.1 = viewed.1 ∧ plain.2.complaints = viewed.2.complaints ∧
      ∃ u, CodeUnit.ofTree .classic .default .printSum = .ok u ∧
        viewed.2.folder.read "out" = .ok u.toBytes := by
  intro folder plain viewed
  let o := { Options.empty with eval := some "print(1 + 2)" }
  let o' := { o with ast := true, info := true, dis := true, emit := some "out" }
  have hplain : Options.ofArgs ["-e", "print(1 + 2)"] = .ok o := rfl
  have hviewed :
      Options.ofArgs ["-e", "print(1 + 2)", "--ast", "--info", "--dis", "--emit", "out"] =
        .ok o' := rfl
  have hroute : Route.ofRequest "out" = .ok ⟨[], ["out"], false⟩ := by
    simp +decide [Route.ofRequest, Route.ofPath, String.splitOn, String.splitOnAux]
  have hwrite (bytes : List UInt8) : folder.write "out" bytes = .ok (folder.put ["out"] bytes) := by
    rw [Folder.write, hroute]
    rfl
  have hwritable : ∀ path ∈ some "out", folder.Writable path := by
    rintro _ ⟨⟩ bytes
    exact ⟨_, hwrite bytes⟩
  obtain ⟨hsame, -, -⟩ := commandLine_views hplain hviewed rfl folder []
  obtain ⟨hstatus, hcomplaints, -⟩ := hsame (by simp [o, Options.empty]) hwritable
  obtain ⟨u, hu⟩ := (CodeUnit.exists_ofTree_iff .classic .default .printSum).2 (by decide)
  have hunit : o'.unitIn folder [] = .ok (.classic, u) := by
    have hnumbering : Config.default.numbering = .ok .classic := rfl
    refine bind_eq_ok_iff.2 ⟨(.default, .classic, .printSum), ?_, ?_⟩
    · refine bind_eq_ok_iff.2 ⟨.default, rfl, bind_eq_ok_iff.2 ⟨.classic, ?_, ?_⟩⟩
      · exact mapError_eq_ok_iff.2 hnumbering
      · exact bind_eq_ok_iff.2 ⟨_, rfl, bind_eq_ok_iff.2
          ⟨_, mapError_eq_ok_iff.2 ofSource_printSum, rfl⟩⟩
    · exact bind_eq_ok_iff.2 ⟨u, mapError_eq_ok_iff.2 hu, rfl⟩
  obtain ⟨-, hwritten, -⟩ := commandLine_views hviewed hplain rfl folder []
  obtain ⟨-, -, -, hread⟩ := hwritten .classic u hunit hwritable
  refine ⟨hstatus, hcomplaints, u, hu, (hread "out" rfl).resolve_right fun hlost => ?_⟩
  have hsame := Except.ok.inj ((hwrite []).symm.trans (hlost []))
  exact absurd (congrArg (fun d => d.files.length) hsame) (by decide)

end CommandLine

end Stacklet
