import PackedMovie.Proofs.Command.Settings
import PackedMovie.Proofs.Command.Words
import PackedMovie.Proofs.Resource.Payloads
import PackedMovie.Proofs.Storage.Writing

/-!
# What a run does

Up to the point where a run has an order with a name in it, it has only looked: a run that fails by
then leaves the files and standard output as they were. From there on it does what the library does,
to the sink that was asked for.

Main statement: `run_refines`.
-/
namespace PackedMovie.Command

open PackedMovie.Abc (run_bind_eq)
open PackedMovie.Resource (Order Unpacker)
open PackedMovie.Swf (Codec Movie)

/-! ### The resources of an input -/

/-- What a session has for the name of an input that is not on the web. -/
inductive Supplies (s : Session) : String → Except SystemError Bytes → Prop where
  | standard : Supplies s "-" (.ok s.standardInput)
  | file {path : String} (hname : path ≠ "-") (hplain : ¬ "http://".toList <+: path.toList)
    (hsecure : ¬ "https://".toList <+: path.toList) :
    Supplies s path (s.tree.read s.working path)

/-- The bytes are a movie with a first frame, in which an order with names is found. -/
inductive Finds [Codec] (options : Resource.Options) :
    Except SystemError Bytes → Unpacker → Order → Prop where
  | intro {file : Bytes} {movie : Movie} {u : Unpacker} {order : Order}
    (hmovie : Movie.read file = .ok movie) (hnew : Unpacker.new movie = .ok u)
    (horder : (u.withOptions options).resolveOrder.1 = .ok order) (hnames : order ≠ []) :
    Finds options (.ok file) (u.withOptions options) order

theorem mapError_eq_ok_iff {ε ε' α : Type} {f : ε → ε'} {x : Except ε α} {a : α} :
    x.mapError f = .ok a ↔ x = .ok a := by
  cases x <;> simp [Except.mapError]

variable {options : Resource.Options} {file : Bytes} {u v : Unpacker} {order : Order}

theorem Finds.exists_file [Codec] {supplied : Except SystemError Bytes}
    (h : Finds options supplied u order) :
    ∃ file, supplied = .ok file ∧ u.resolveOrder.1 = .ok order := by
  cases h with
  | @intro file _ _ _ _ _ horder _ => exact ⟨file, rfl, horder⟩

theorem Finds.resolve_eq [Codec] (h : Finds options (.ok file) u order)
    (hresolve : u.resolveOrder = (.ok order, v)) : resolve options file = .ok v := by
  cases h with
  | @intro _ movie u order hmovie hnew _ hnames =>
    have hsome : order.isEmpty = false := by simpa using hnames
    refine Resource.bind_eq_ok_iff.2 ⟨movie, mapError_eq_ok_iff.2 hmovie, ?_⟩
    refine Resource.bind_eq_ok_iff.2 ⟨u, mapError_eq_ok_iff.2 hnew, ?_⟩
    simp only [hresolve, hsome]
    rfl

theorem exists_finds_of_resolve [Codec] (h : resolve options file = .ok v) :
    ∃ u order, Finds options (.ok file) u order := by
  obtain ⟨movie, hmovie, h⟩ := Resource.bind_eq_ok_iff.1 h
  obtain ⟨u, hnew, h⟩ := Resource.bind_eq_ok_iff.1 h
  split at h
  · cases h
  · rename_i order v hresolve
    split at h
    · cases h
    · rename_i hsome
      have hnames : order ≠ [] := by simpa using hsome
      refine ⟨u.withOptions options, order, .intro (mapError_eq_ok_iff.1 hmovie)
        (mapError_eq_ok_iff.1 hnew) ?_ hnames⟩
      rw [hresolve]

/-! ### Delivery -/

/-- The sink has these bytes: they stand behind what was printed before, or they are what the file
holds, and nothing else has changed. -/
inductive Delivered (s : Session) (output : String) (bytes : Bytes) : Session → Prop where
  | standard (hname : output = "-") :
    Delivered s output bytes { s with standardOutput := s.standardOutput ++ bytes }
  | file {location : Location} (hname : output ≠ "-")
    (hread : (s.tree.set location (.file bytes)).read s.working output = .ok bytes) :
    Delivered s output bytes { s with tree := s.tree.set location (.file bytes) }

/-- An empty file can be made under this name, or the file that has it can be emptied. -/
def Creatable (s : Session) (output : String) : Prop :=
  ∃ tree, s.tree.write s.working output [] = .ok tree

/-- The order is printed if it is asked for. Otherwise what the library writes is delivered to the
output that is named, and that is a success if no payload is missing. -/
structure Serves (s : Session) (words : List Word) (u : Unpacker) (order : Order)
    (answer : Except Failure Unit × Session) : Prop where
  printed : .flag .orderOnly ∈ words → answer = (.ok (), { s with
    standardOutput := s.standardOutput ++
      Utf8.encode (orderText (decide (.flag .json ∈ words)) order) })
  delivered : .flag .orderOnly ∉ words → ∃ output, outputOf? words = some output ∧
    ((output ≠ "-" → Creatable s output) →
      Delivered s output (u.unpack .unlimited).1.2.written answer.2 ∧
        (answer.1 = .ok () ↔ (u.unpack .unlimited).1.1 = .ok none))

theorem verdict_eq_ok_iff {missing : Except Resource.Error (Option String)} :
    verdict missing = .ok () ↔ missing = .ok none := by
  rcases missing with e | _ | name <;> simp [verdict]

theorem run_writeFile {s : Session} {path : String} {bytes : Bytes} {tree : FileTree}
    (h : s.tree.write s.working path bytes = .ok tree) :
    (Host.writeFile path bytes : StateM Session _).run s = (.ok (), { s with tree }) := by
  have hget : (get : StateM Session Session).run s = (s, s) := rfl
  simp only [Host.writeFile]
  rw [run_bind_eq hget]
  simp only [h]
  rfl

theorem run_writeOutput {s : Session} {output : String} (bytes : Bytes)
    (hwritable : output ≠ "-" → Creatable s output) :
    ∃ t, (writeOutput output bytes : StateM Session _).run s = (.ok (), t) ∧
      Delivered s output bytes t := by
  have hstandard : standardOutputName = "-" := rfl
  by_cases hname : output = "-"
  · refine ⟨_, ?_, .standard hname⟩
    rw [writeOutput, hstandard, if_pos hname]
    rfl
  · obtain ⟨tree, hempty⟩ := hwritable hname
    obtain ⟨location, hwrite, hread⟩ := FileTree.exists_write hempty bytes
    refine ⟨_, ?_, .file hname hread⟩
    rw [writeOutput, hstandard, if_neg hname, run_bind_eq (run_writeFile hwrite)]
    rfl

theorem run_deliver_order {s : Session} (asJson : Bool) (horder : v.resolution.order = order) :
    (deliver (.order asJson) v : StateM Session _).run s = (.ok (), { s with
      standardOutput := s.standardOutput ++ Utf8.encode (orderText asJson order) }) := by
  rw [deliver, horder]
  rfl

theorem run_deliver_resources {s : Session} {output : String}
    (hresolve : u.resolveOrder = (.ok order, v)) (hwritable : output ≠ "-" → Creatable s output) :
    ∃ t, (deliver (.resources output) v : StateM Session _).run s =
        (verdict (u.unpack .unlimited).1.1, t) ∧
      Delivered s output (u.unpack .unlimited).1.2.written t := by
  have hwritten : v.resolveBinaries.writeBinaries .unlimited = (u.unpack .unlimited).1 := by
    rw [Unpacker.unpack, hresolve]
  obtain ⟨t, hrun, hdelivered⟩ := run_writeOutput (u.unpack .unlimited).1.2.written hwritable
  refine ⟨t, ?_, hdelivered⟩
  rw [deliver, hwritten, run_bind_eq hrun]
  rfl

theorem serves_deliver {s : Session} {words : List Word} {job : Job} (hsaid : Says words job)
    (hresolve : u.resolveOrder = (.ok order, v)) (horder : v.resolution.order = order) :
    Serves s words u order ((deliver job.product v : StateM Session _).run s) where
  printed hmem := by
    rw [hsaid.order hmem]
    exact run_deliver_order _ horder
  delivered hmem := by
    obtain ⟨output, houtput, hproduct⟩ := hsaid.resources hmem
    refine ⟨output, houtput, fun hwritable => ?_⟩
    obtain ⟨t, hrun, hdelivered⟩ := run_deliver_resources hresolve hwritable
    rw [hproduct, hrun]
    exact ⟨hdelivered, verdict_eq_ok_iff⟩

/-! ### A run -/

/-- What the flags say, or else the settings, or else the standard. Both may ask for strictness. -/
def mergedOptions (flags settings : Preferences) : Resource.Options where
  classIndex := (flags.classIndex?.or settings.classIndex?).getD 0
  target := (flags.target?.or settings.target?).getD "writeBytes"
  strict := flags.strict || settings.strict

def mergedInput (flags settings : Preferences) : String :=
  (flags.input?.or settings.input?).getD Preferences.standardInput

theorem run_step {α β : Type} {step : StateM Session (Except Failure α)}
    {next : α → ExceptT Failure (StateM Session) β} {s t : Session} {answer : Except Failure α}
    (h : step.run s = (answer, t)) :
    (ExceptT.mk step >>= next).run.run s =
      match answer with
      | .ok a => (next a).run.run t
      | .error e => (.error e, t) := by
  change (step >>= ExceptT.bindCont next).run s = _
  rw [run_bind_eq h]
  cases answer <;> rfl

theorem run_readInput {s : Session} {name : String} {supplied : Except SystemError Bytes}
    (h : Supplies s name supplied) :
    (readInput (.ofText name) : StateM Session _).run s =
      (supplied.mapError fun e => .inputUnreadable name (.system e), s) := by
  cases h with
  | standard => rfl
  | file hname hplain hsecure =>
    have hfile : Input.ofText name = .file name := by
      rw [Input.ofText, if_neg hname, if_neg]
      simp only [Bool.or_eq_true, List.isPrefixOf_iff_prefix]
      exact not_or.2 ⟨hplain, hsecure⟩
    rw [hfile]
    change ((Except.mapError _ (Except.mapError _ (s.tree.read s.working name)) :
      Except Failure Bytes), s) = _
    cases s.tree.read s.working name <;> rfl

section

variable {job : Job} {s : Session} {settings : Preferences} {supplied : Except SystemError Bytes}

/-- Without its settings a run is over. -/
theorem run_of_not_configures [Codec] (h : ¬ ∃ settings, Configures s job.settings? settings) :
    ∃ e, (run job : StateM Session _).run s = (.error e, s) := by
  obtain ⟨e, hload⟩ := run_loadSettings_of_not_configures h
  exact ⟨e, by rw [run, run_step hload]⟩

/-- Behind an input that was read a run resolves the order, and only then delivers. -/
theorem run_supplied [Codec] (hsettings : Configures s job.settings? settings)
    (hinput : Supplies s (mergedInput job.preferences settings) supplied) :
    (run job : StateM Session _).run s =
      match supplied with
      | .error e =>
        (.error (.inputUnreadable (mergedInput job.preferences settings) (.system e)), s)
      | .ok file =>
        match resolve (mergedOptions job.preferences settings) file with
        | .error e => (.error e, s)
        | .ok v => (deliver job.product v : StateM Session _).run s := by
  have hread : (readInput (job.preferences.orElse settings).input : StateM Session _).run s = _ :=
    run_readInput hinput
  rw [run, run_step (loadSettings_eq_ok_iff.2 hsettings)]
  simp only
  rw [run_step hread]
  cases supplied with
  | error e => rfl
  | ok file =>
    have hoptions : (job.preferences.orElse settings).options =
        mergedOptions job.preferences settings := rfl
    simp only [Except.mapError]
    rw [hoptions]
    cases resolve (mergedOptions job.preferences settings) file <;> rfl

theorem run_of_not_finds [Codec] (hsettings : Configures s job.settings? settings)
    (hinput : Supplies s (mergedInput job.preferences settings) supplied)
    (hnone : ¬ ∃ u order, Finds (mergedOptions job.preferences settings) supplied u order) :
    ∃ e, (run job : StateM Session _).run s = (.error e, s) := by
  rw [run_supplied hsettings hinput]
  cases supplied with
  | error e => exact ⟨_, rfl⟩
  | ok file =>
    simp only
    cases hresolve : resolve (mergedOptions job.preferences settings) file with
    | error e => exact ⟨e, rfl⟩
    | ok v => exact (hnone (exists_finds_of_resolve hresolve)).elim

theorem run_of_finds [Codec] (hsettings : Configures s job.settings? settings)
    (hinput : Supplies s (mergedInput job.preferences settings) supplied)
    (hfinds : Finds (mergedOptions job.preferences settings) supplied u order) :
    ∃ v, u.resolveOrder = (.ok order, v) ∧ v.resolution.order = order ∧
      (run job : StateM Session _).run s = (deliver job.product v : StateM Session _).run s := by
  obtain ⟨file, rfl, horder⟩ := hfinds.exists_file
  obtain ⟨r, hheld, hresolve⟩ := Unpacker.resolveOrder_of_ok horder
  refine ⟨_, hresolve, hheld, ?_⟩
  rw [run_supplied hsettings hinput]
  simp only
  rw [hfinds.resolve_eq hresolve]

/-- A run that a command line asks for refines the library. If there are no settings to be read, or
the input is not read, is no movie, has no first frame, or has no order or an empty one, the run
fails and leaves everything as it was. Otherwise the order is printed, or what the library writes
for the merged options is delivered, as the words of the command line say. -/
theorem run_refines [Codec] {arguments : List String}
    (haccepted : Request.ofArguments? arguments = some (.run job)) :
    IsSpelled arguments ∧ ∀ words, Spells arguments words → ∀ s,
      let named := valueOf? .settings words
      let answer := (run job : StateM Session _).run s
      ((¬ ∃ settings, Configures s named settings) → ∃ e, answer = (.error e, s)) ∧
        ∀ settings supplied, Configures s named settings →
          Supplies s (mergedInput (asked words) settings) supplied →
          let options := mergedOptions (asked words) settings
          ((¬ ∃ u order, Finds options supplied u order) → ∃ e, answer = (.error e, s)) ∧
            ∀ u order, Finds options supplied u order → Serves s words u order answer := by
  obtain ⟨hspelled, hwords⟩ := says_of_ofArguments? haccepted
  refine ⟨hspelled, fun words hspells s => ?_⟩
  have hsaid := hwords words hspells
  rw [← hsaid.settings, ← hsaid.preferences]
  refine ⟨run_of_not_configures, fun settings supplied hsettings hinput => ?_⟩
  refine ⟨run_of_not_finds hsettings hinput, fun u order hfinds => ?_⟩
  obtain ⟨v, hresolve, hheld, hrun⟩ := run_of_finds hsettings hinput hfinds
  rw [hrun]
  exact serves_deliver hsaid hresolve hheld

end

/-! ### A run over an older output -/

def targetSettings : Preferences := ⟨none, none, some "a", false⟩

/-- The settings name the target, and there is an older output. -/
def reused : Session where
  tree := ⟨[(["w"], .directory), (["w", "cfg"], .file (Utf8.encode "target = \"a\"")),
    (["w", "out"], .file [1, 2, 3])]⟩
  working := ["w"]
  standardInput := Unpacker.collidingFile
  standardOutput := [7]

theorem configures_reused : Configures reused (some "cfg") targetSettings := by
  have hlocate : reused.tree.locate reused.working "cfg" (FileTree.names "cfg") =
      .ok (.found ["w", "cfg"] (.file (Utf8.encode "target = \"a\""))) := by
    rw [FileTree.locate_plain (by decide) (by decide) (by decide) (by decide)]
    decide +kernel
  have hfind := FileTree.find_of_locate (by decide +kernel) hlocate
  have hentry : reused.tree.hasEntry reused.working "cfg" = true := by
    rw [FileTree.hasEntry, hfind]
  have hfound : (settingsPaths reused (some "cfg")).find?
      (reused.tree.hasEntry reused.working) = some "cfg" := by
    rw [settingsPaths, List.find?_cons, hentry]
  have hpreferences : preferencesOf (Utf8.encode "target = \"a\"") = .ok targetSettings := by
    decide +kernel
  obtain ⟨text, es, htext, hparse, hsettles⟩ := preferencesOf_eq_ok_iff.1 hpreferences
  exact .file hfound (FileTree.read_of_find hfind) htext hparse hsettles

theorem creatable_reused : Creatable reused "out" := by
  have hlocate : reused.tree.locate reused.working "out" (FileTree.names "out") =
      .ok (.found ["w", "out"] (.file [1, 2, 3])) := by
    rw [FileTree.locate_plain (by decide) (by decide) (by decide) (by decide)]
    decide +kernel
  have hslash : FileTree.endsInSlash "out" = false := by decide +kernel
  exact ⟨_, FileTree.write_eq_ok_iff.2 ⟨hslash, _, _, hlocate, .file _, rfl⟩⟩

theorem finds_colliding (strict : Bool) :
    Finds ⟨0, "a", strict⟩ (.ok Unpacker.collidingFile)
      (Unpacker.colliding.withOptions ⟨0, "a", strict⟩) ["b", "a", "b"] := by
  have hmovie : Movie.read Unpacker.collidingFile = .ok Unpacker.colliding.movie := by
    decide +kernel
  have hnew : Unpacker.new Unpacker.colliding.movie =
      .ok (Unpacker.colliding.withOptions .standard) := rfl
  have horder : (Unpacker.colliding.withOptions ⟨0, "a", strict⟩).resolveOrder.1 =
      .ok ["b", "a", "b"] := by
    cases strict <;> decide +kernel
  exact .intro (u := Unpacker.colliding.withOptions .standard) hmovie hnew horder
    (List.cons_ne_nil _ _)

/-- A command line that names an output for the resources. -/
def reusing : List String := ["-i", "-", "--config", "cfg", "out"]

/-- A command line that names the output, too, and asks for the order all the same. -/
def ordering : List String := ["--strict", "-vi-", "--order-only", "out", "--config=cfg", "--json"]

theorem spells_reusing :
    Spells reusing [.parameter .input "-", .parameter .settings "cfg", .output "out"] := by
  have hplain : IsPlain "cfg" ∧ IsPlain "out" := by simp [IsPlain]
  exact .letterFollowing 0 (.inl rfl) (.following .settings hplain.1 (.output hplain.2 .nil))

theorem spells_ordering :
    Spells ordering [.flag .strict, .flag .verbose, .parameter .input "-", .flag .orderOnly,
      .output "out", .parameter .settings "cfg", .flag .json] := by
  have hplain : IsPlain "out" := by simp [IsPlain]
  have hhyphen : '-' ≠ '=' := by decide
  exact .flag .strict (.letterAttached 1 '-' [] hhyphen (.flag .orderOnly (.output hplain
    (.attached .settings "cfg" (.flag .json .nil)))))

/-- For the resources the second name has no payload: the run fails, and the file holds the payload
of the first. The order is printed, and the file is not touched. -/
theorem run_refines_reused :
    (∃ job, Request.ofArguments? reusing = some (.run job) ∧
      Finds ⟨0, "a", false⟩ (.ok reused.standardInput) Unpacker.colliding ["b", "a", "b"] ∧
      let answer := (run job : StateM Session _).run reused
      answer.1 ≠ .ok () ∧ Delivered reused "out" [8] answer.2) ∧
    ∃ job, Request.ofArguments? ordering = some (.run job) ∧
      (run job : StateM Session _).run reused = (.ok (), { reused with
        standardOutput := 7 :: Utf8.encode "[\n  \"b\",\n  \"a\",\n  \"b\"\n]\n" }) := by
  have hinput : Supplies reused "-" (.ok reused.standardInput) := .standard
  constructor
  · have haccepted : Request.ofArguments? reusing =
        some (.run ⟨⟨some "-", none, none, false⟩, some "cfg", .resources "out"⟩) := by
      decide +kernel
    have hresult : ((Unpacker.colliding.withOptions ⟨0, "a", false⟩).unpack .unlimited).1 =
        (.ok (some "a"), ⟨[8], none, false⟩) := by decide +kernel
    obtain ⟨-, hrefines⟩ := run_refines haccepted
    obtain ⟨-, hrun⟩ := hrefines _ spells_reusing reused
    obtain ⟨-, hserves⟩ := hrun _ _ configures_reused hinput
    obtain ⟨output, houtput, hdone⟩ :=
      (hserves _ _ (finds_colliding false)).delivered (by decide)
    obtain rfl : output = "out" := (Option.some.inj houtput).symm
    obtain ⟨hdelivered, hsuccess⟩ := hdone fun _ => creatable_reused
    rw [hresult] at hdelivered hsuccess
    refine ⟨_, haccepted, finds_colliding false, fun hok => ?_, hdelivered⟩
    cases hsuccess.1 hok
  · have haccepted : Request.ofArguments? ordering =
        some (.run ⟨⟨some "-", none, none, true⟩, some "cfg", .order true⟩) := by
      decide +kernel
    have htext : orderText true ["b", "a", "b"] = "[\n  \"b\",\n  \"a\",\n  \"b\"\n]\n" := by
      decide +kernel
    obtain ⟨-, hrefines⟩ := run_refines haccepted
    obtain ⟨-, hrun⟩ := hrefines _ spells_ordering reused
    obtain ⟨-, hserves⟩ := hrun _ _ configures_reused hinput
    refine ⟨_, haccepted, ?_⟩
    rw [← htext]
    exact (hserves _ _ (finds_colliding true)).printed (by decide)

end PackedMovie.Command
