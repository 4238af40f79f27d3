import Positional.Proofs.Codec.Canonical
import Positional.Proofs.Command.Packing
import Positional.Proofs.Command.Sources
import Positional.Proofs.Wire.Returns

/-!
# Commands succeed or do nothing

A command is carried out on a console, step by step: it reads files and works on what it read, it
writes a file, it prints. Whatever comes before the writing leaves the console as it is, a writing
that fails has no effect, and nothing can fail after it; so a command that fails has done nothing.
The steps come to the runs of the command line, whatever libraries it uses. Runs that follow each
other see nothing of the ones that failed.
-/

namespace Positional

/-- What a command works on: the files, and what it has printed. -/
structure Console where
  directory : Directory
  stdout : String

/-- Steps of a command. What they did before one of them fails stays done. -/
abbrev Session := ExceptT Failure (StateM Console)

namespace Session

/-- What the files give as they are at this step. -/
def reading (load : (String → Except FileError Bytes) → Except Failure α) : Session α :=
  fun console => (load console.directory.read, console)

def writeFile (name : String) (content : Bytes) : Session Unit :=
  fun console =>
    match console.directory.write name content with
    | .ok changed => (.ok (), { console with directory := changed })
    | .error error => (.error (.file name error), console)

def print (text : String) : Session Unit :=
  fun console => (.ok (), { console with stdout := console.stdout ++ text })

/-- Carries out an invocation, each step on the files as the steps before have left them. -/
def perform (libraries : Libraries) : Invocation → Session Unit
  | .compile description json => do
    let program ← reading (Invocation.loadDescription libraries.floats · description)
    print (if json then program.toJson.pretty ++ "\n" else program.listing)
  | .inspect program => do
    let program ← reading (Invocation.loadInterchange libraries.floats · program)
    print program.listing
  | .encode program document output compressed => do
    let program ← reading (Invocation.loadProgram libraries.floats · program)
    let value ← reading (Invocation.loadDocument libraries.floats · document)
    let encoded ← reading fun _ => (program.encode value).mapError .codec
    let written ← reading fun _ => libraries.pack compressed encoded
    writeFile output written
    print ((Invocation.encodeReport output encoded written compressed).pretty ++ "\n")
  | .decode program input compressed options => do
    let program ← reading (Invocation.loadProgram libraries.floats · program)
    let content ← reading (Invocation.load · input)
    let buffer ← reading fun _ => libraries.unpack compressed content
    let value ← reading fun _ => (program.decode options buffer).mapError .codec
    print (value.toJson.pretty ++ "\n")
  | .help topic => print (libraries.page topic)

-- ---------------------------------------------------------------------------
-- What parts of a command leave as it is
-- ---------------------------------------------------------------------------

variable {libraries : Libraries} {console last : Console} {part : Session α} {next : α → Session β}

theorem run_reading (load : (String → Except FileError Bytes) → Except Failure α) :
    (reading load).run console = (load console.directory.read, console) := rfl

theorem run_writeFile : (writeFile name content).run console =
    match console.directory.write name content with
    | .ok changed => (.ok (), { console with directory := changed })
    | .error error => (.error (.file name error), console) := rfl

/-- What a view shows of the console stays, whether the part fails or not. -/
def Keeps (view : Console → γ) (part : Session α) : Prop :=
  ∀ console, view (part.run console).2 = view console

theorem Keeps.bind {view : Console → γ} (h : Keeps view part)
    (hn : ∀ value, Keeps view (next value)) : Keeps view (part >>= next) := by
  intro console
  have hpart := h console
  rcases hrun : part.run console with ⟨failure | value, after⟩
  · rw [hrun] at hpart
    rw [Reader.run_bind_error hrun, hpart]
  · rw [hrun] at hpart
    rw [Reader.run_bind_ok hrun, hn, hpart]

theorem keeps_reading {view : Console → γ}
    {load : (String → Except FileError Bytes) → Except Failure α} : Keeps view (reading load) :=
  fun _ => rfl

theorem keeps_print : Keeps Console.directory (print text) :=
  fun _ => rfl

/-- A part that fails has done nothing. -/
def Atomic (part : Session α) : Prop :=
  ∀ console failure last, part.run console = (.error failure, last) → last = console

theorem atomic_print (text : String) : Atomic (print text) := by
  intro console failure last h
  cases h

theorem atomic_writeFile (name : String) (content : Bytes) : Atomic (writeFile name content) := by
  intro console failure last h
  rw [run_writeFile] at h
  split at h
  · cases h
  · cases h
    rfl

/-- Nothing was done before the rest. -/
theorem Atomic.bind (h : Keeps id part) (hn : ∀ value, Atomic (next value)) :
    Atomic (part >>= next) := by
  intro console failure last hrun
  rcases Reader.bind_error.mp hrun with hpart | ⟨value, after, hpart, hnext⟩
  · have hkept := h console
    rw [hpart] at hkept
    exact hkept
  · have hkept := h console
    rw [hpart] at hkept
    exact (hn value _ _ _ hnext).trans hkept

/-- Nothing can fail after the part. -/
theorem Atomic.bind_print (h : Atomic part) (text : α → String) :
    Atomic (part >>= fun value => print (text value)) := by
  intro console failure last hrun
  rcases Reader.bind_error.mp hrun with hpart | ⟨value, after, -, hprint⟩
  · exact h _ _ _ hpart
  · cases hprint

/-- Only the writing of a file comes between the readings and the printing. -/
theorem atomic_perform (invocation : Invocation) : Atomic (perform libraries invocation) := by
  cases invocation with
  | compile description json => exact .bind keeps_reading fun _ => atomic_print _
  | inspect program => exact .bind keeps_reading fun _ => atomic_print _
  | encode program document output compressed =>
    refine .bind keeps_reading fun program => ?_
    refine .bind keeps_reading fun value => ?_
    refine .bind keeps_reading fun encoded => ?_
    refine .bind keeps_reading fun written => ?_
    exact (atomic_writeFile output written).bind_print _
  | decode program input compressed options =>
    refine .bind keeps_reading fun program => ?_
    refine .bind keeps_reading fun content => ?_
    refine .bind keeps_reading fun buffer => ?_
    exact .bind keeps_reading fun value => atomic_print _
  | help topic => exact atomic_print _

theorem keeps_perform {invocation : Invocation}
    (h : ∀ program document output compressed,
      invocation ≠ .encode program document output compressed) :
    Keeps Console.directory (perform libraries invocation) := by
  cases invocation with
  | compile description json => exact .bind keeps_reading fun _ => keeps_print
  | inspect program => exact .bind keeps_reading fun _ => keeps_print
  | encode program document output compressed => exact absurd rfl (h _ _ _ _)
  | decode program input compressed options =>
    refine .bind keeps_reading fun program => ?_
    refine .bind keeps_reading fun content => ?_
    refine .bind keeps_reading fun buffer => ?_
    exact .bind keeps_reading fun value => keeps_print
  | help topic => exact keeps_print

-- ---------------------------------------------------------------------------
-- Readings and effects
-- ---------------------------------------------------------------------------

theorem reading_ok {load : (String → Except FileError Bytes) → Except Failure α} {value : α} :
    (reading load).run console = (.ok value, last) ↔
      load console.directory.read = .ok value ∧ last = console := by
  rw [run_reading]
  change (load console.directory.read, console) = (.ok value, last) ↔ _
  rw [Prod.mk.injEq, eq_comm (b := last)]

theorem writeFile_ok {result : Unit} :
    (writeFile name content).run console = (.ok result, last) ↔ ∃ changed,
      console.directory.write name content = .ok changed ∧
        last = { console with directory := changed } := by
  constructor
  · intro h
    rw [run_writeFile] at h
    split at h
    · rename_i changed hwrite
      cases h
      exact ⟨changed, hwrite, rfl⟩
    · cases h
  · rintro ⟨changed, hwrite, rfl⟩
    rw [run_writeFile, hwrite]

theorem encode_of_perform
    (h : (perform libraries (.encode source document output compressed)).run console
      = (.ok (), last)) :
    ∃ program value encoded written changed,
      Invocation.loadProgram libraries.floats console.directory.read source = .ok program ∧
      Invocation.loadDocument libraries.floats console.directory.read document = .ok value ∧
      program.encode value = .ok encoded ∧
      libraries.pack compressed encoded = .ok written ∧
      console.directory.write output written = .ok changed ∧ last.directory = changed := by
  simp only [perform, Reader.bind_ok, reading_ok, writeFile_ok] at h
  obtain ⟨program, _, ⟨hprogram, rfl⟩, value, _, ⟨hvalue, rfl⟩, encoded, _, ⟨hencoded, rfl⟩,
    written, _, ⟨hwritten, rfl⟩, _, _, ⟨changed, hchanged, rfl⟩, hprint⟩ := h
  cases hprint
  cases he : program.encode value with
  | error error =>
    rw [he] at hencoded
    cases hencoded
  | ok bytes =>
    rw [he] at hencoded
    cases hencoded
    exact ⟨program, value, encoded, written, changed, hprogram, hvalue, he, hwritten, hchanged, rfl⟩

theorem reading_bind (load : (String → Except FileError Bytes) → Except Failure α)
    (next : α → (String → Except FileError Bytes) → Except Failure β) :
    reading (fun read => load read >>= fun value => next value read) =
      reading load >>= fun value => reading (next value) := by
  funext console
  cases h : load console.directory.read with
  | error failure =>
    refine Eq.trans ?_ (Reader.run_bind_error (by rw [run_reading, h])).symm
    change (load console.directory.read >>= _, console) = _
    rw [h]
    rfl
  | ok value =>
    refine Eq.trans ?_ (Reader.run_bind_ok (reading_ok.mpr ⟨h, rfl⟩)).symm
    change (load console.directory.read >>= _, console) = _
    rw [h]
    rfl

theorem reading_pure (value : α) : reading (fun _ => pure value) = pure value := rfl

def leave (effect : Effect) : Session Unit := do
  match effect.written with
  | some (name, content) => writeFile name content
  | none => pure ()
  print effect.stdout

/-- The steps come to the effect of the invocation. -/
theorem perform_eq (libraries : Libraries) (invocation : Invocation) :
    perform libraries invocation = reading (Invocation.execute libraries · invocation) >>= leave := by
  cases invocation with
  | help topic =>
    simp only [perform, Invocation.execute, reading_pure, pure_bind]
    rfl
  | _ =>
    simp only [perform, Invocation.execute, reading_bind, bind_assoc, reading_pure, pure_bind]
    rfl

end Session

def Outcome.ofResult : Except Failure Unit × Console → Outcome
  | (.ok (), console) => ⟨0, console.stdout, "", console.directory⟩
  | (.error failure, console) =>
    ⟨1, console.stdout, s!"error: {failure.message}\n", console.directory⟩

namespace Directory

variable {directory changed : Directory} {invocation : Invocation} {libraries : Libraries}

-- ---------------------------------------------------------------------------
-- One run
-- ---------------------------------------------------------------------------

/-- Runs a command line step by step. Whatever its steps did is left behind, also if one of them
fails. -/
def runStepwise (directory : Directory) (words : List String) (libraries : Libraries) : Outcome :=
  match libraries.parse? words with
  | none => ⟨2, "", "", directory⟩
  | some invocation => .ofResult ((Session.perform libraries invocation).run ⟨directory, ""⟩)

theorem carryOut_eq_perform (directory : Directory) (invocation : Invocation)
    (libraries : Libraries) : directory.carryOut invocation libraries =
      .ofResult ((Session.perform libraries invocation).run ⟨directory, ""⟩) := by
  rw [carryOut, Session.perform_eq]
  cases hexecute : invocation.execute libraries directory.read with
  | error failure =>
    have hread : (Session.reading (Invocation.execute libraries · invocation)).run ⟨directory, ""⟩ =
        (.error failure, ⟨directory, ""⟩) := by rw [Session.run_reading, hexecute]
    rw [Reader.run_bind_error hread]
    rfl
  | ok effect =>
    rw [Reader.run_bind_ok (Session.reading_ok.mpr ⟨hexecute, rfl⟩)]
    obtain ⟨stdout, _ | ⟨name, content⟩⟩ := effect
    · change Outcome.mk 0 stdout "" directory = ⟨0, "" ++ stdout, "", directory⟩
      rw [String.empty_append]
    · cases hwrite : directory.write name content with
      | error error =>
        have hstep : (Session.writeFile name content).run ⟨directory, ""⟩ =
            (.error (.file name error), ⟨directory, ""⟩) := by
          rw [Session.run_writeFile, hwrite]
        rw [Session.leave, Reader.run_bind_error hstep]
        simp only [hwrite]
        rfl
      | ok changed =>
        have hstep : (Session.writeFile name content).run ⟨directory, ""⟩ = (.ok (), ⟨changed, ""⟩) := by
          rw [Session.run_writeFile, hwrite]
        rw [Session.leave, Reader.run_bind_ok hstep]
        simp only [hwrite]
        change Outcome.mk 0 stdout "" changed = ⟨0, "" ++ stdout, "", changed⟩
        rw [String.empty_append]

theorem runStepwise_eq (directory : Directory) (words : List String) (libraries : Libraries) :
    directory.runStepwise words libraries = directory.run words libraries := by
  rw [run, runStepwise]
  cases libraries.parse? words with
  | none => rfl
  | some invocation => exact (carryOut_eq_perform directory invocation libraries).symm

theorem carryOut_of_exitCode_ne (h : (directory.carryOut invocation libraries).exitCode ≠ 0) :
    (directory.carryOut invocation libraries).directory = directory ∧
      (directory.carryOut invocation libraries).stdout = "" := by
  rw [carryOut_eq_perform] at h ⊢
  rcases hrun : (Session.perform libraries invocation).run ⟨directory, ""⟩ with ⟨failure | _, console⟩
  · rw [Session.atomic_perform invocation _ _ _ hrun]
    exact ⟨rfl, rfl⟩
  · rw [hrun] at h
    exact absurd rfl h

theorem run_of_exitCode_ne (h : (directory.run words libraries).exitCode ≠ 0) :
    (directory.run words libraries).directory = directory ∧
      (directory.run words libraries).stdout = "" := by
  rw [run] at h ⊢
  split
  · exact ⟨rfl, rfl⟩
  · rename_i hwords
    simp only [hwords] at h
    exact carryOut_of_exitCode_ne h

theorem directory_carryOut (h : ∀ source document output compressed,
    invocation ≠ .encode source document output compressed) :
    (directory.carryOut invocation libraries).directory = directory := by
  have hkept := @Session.keeps_perform libraries _ h ⟨directory, ""⟩
  rw [carryOut_eq_perform]
  rcases hrun : (Session.perform libraries invocation).run ⟨directory, ""⟩ with ⟨failure | _, console⟩
  · rw [hrun] at hkept
    exact hkept
  · rw [hrun] at hkept
    exact hkept

theorem write_of_carryOut
    (h0 : (directory.carryOut (.encode source document output compressed) libraries).exitCode = 0) :
    ∃ program value encoded written,
      Invocation.loadProgram libraries.floats directory.read source = .ok program ∧
      Invocation.loadDocument libraries.floats directory.read document = .ok value ∧
      program.encode value = .ok encoded ∧
      libraries.pack compressed encoded = .ok written ∧
      directory.write output written =
        .ok (directory.carryOut (.encode source document output compressed) libraries).directory := by
  rw [carryOut_eq_perform] at h0 ⊢
  rcases hrun : (Session.perform libraries (.encode source document output compressed)).run
    ⟨directory, ""⟩ with ⟨failure | _, console⟩
  · rw [hrun] at h0
    cases h0
  · obtain ⟨program, value, encoded, written, changed, hprogram, hvalue, hencoded, hwritten, hchanged,
      rfl⟩ := Session.encode_of_perform hrun
    exact ⟨program, value, encoded, written, hprogram, hvalue, hencoded, hwritten, hchanged⟩

theorem lookup_of_write (h : directory.write name content = .ok changed) : ∃ location,
    directory.target name = .ok (.file location false) ∧ ∀ other,
      changed.files.lookup other =
        if other = location then some content else directory.files.lookup other := by
  obtain ⟨location, htarget, -, rfl⟩ := write_ok.mp h
  exact ⟨location, htarget, fun other => lookup_putFile ..⟩

-- ---------------------------------------------------------------------------
-- Runs in a row
-- ---------------------------------------------------------------------------

def runs (directory : Directory) (lines : List (List String)) (libraries : Libraries) :
    List Outcome :=
  match lines with
  | [] => []
  | words :: rest =>
    directory.run words libraries :: (directory.run words libraries).directory.runs rest libraries

def afterAll (directory : Directory) (lines : List (List String)) (libraries : Libraries) :
    Directory :=
  lines.foldl (fun directory words => (directory.run words libraries).directory) directory

/-- The command lines that succeed where they stand. -/
def succeeding (directory : Directory) (lines : List (List String)) (libraries : Libraries) :
    List (List String) :=
  ((lines.zip (directory.runs lines libraries)).filter fun line => line.2.exitCode == 0).map Prod.fst

theorem runs_append (directory : Directory) (first second : List (List String)) :
    directory.runs (first ++ second) libraries =
      directory.runs first libraries ++ (directory.afterAll first libraries).runs second libraries := by
  induction first generalizing directory with
  | nil => rfl
  | cons words rest ih =>
    rw [List.cons_append, runs, runs, ih]
    rfl

theorem succeeding_cons (directory : Directory) (words : List String) (rest : List (List String)) :
    directory.succeeding (words :: rest) libraries =
      if (directory.run words libraries).exitCode = 0 then
        words :: (directory.run words libraries).directory.succeeding rest libraries
      else (directory.run words libraries).directory.succeeding rest libraries := by
  rw [succeeding, runs, List.zip_cons_cons, List.filter_cons]
  by_cases h : (directory.run words libraries).exitCode = 0
  · simp [h, succeeding]
  · simp [h, succeeding]

/-- Without the command lines that fail, the others leave the same behind. -/
theorem runs_succeeding (directory : Directory) (lines : List (List String)) :
    directory.runs (directory.succeeding lines libraries) libraries =
      (directory.runs lines libraries).filter (·.exitCode == 0) := by
  induction lines generalizing directory with
  | nil => rfl
  | cons words rest ih =>
    rw [succeeding_cons, runs, List.filter_cons]
    by_cases h : (directory.run words libraries).exitCode = 0
    · rw [if_pos h, if_pos (beq_iff_eq.mpr h), runs, ih]
    · rw [if_neg h, if_neg (by simpa using h), (run_of_exitCode_ne h).1, ih]

/-- The command line is atomic. Run step by step, a command line that fails leaves every file as it
was and prints nothing; one that succeeds changes a file only if it is an encoding, and then the file
named for the output, whatever other names lead to it. That file holds the encoding of the document by
the program as both were before the run, or what it is compressed to, which gives it back if it is not
too large to be read. Among runs that follow each other, those that fail can be left out. -/
theorem run_atomic {libraries : Libraries} (hz : libraries.Restores) (directory : Directory) :
    (∀ words, directory.runStepwise words libraries = directory.run words libraries) ∧
    (∀ words, (directory.run words libraries).exitCode ≠ 0 →
      (directory.run words libraries).directory = directory ∧
        (directory.run words libraries).stdout = "") ∧
    (∀ words, (∀ source document output compressed,
        libraries.parse? words ≠ some (.encode source document output compressed)) →
      (directory.run words libraries).directory = directory) ∧
    (∀ words source document output compressed,
      libraries.parse? words = some (.encode source document output compressed) →
      (directory.run words libraries).exitCode = 0 → ∃ program value encoded written location,
        Invocation.loadProgram libraries.floats directory.read source = .ok program ∧
        Invocation.loadDocument libraries.floats directory.read document = .ok value ∧
        program.encode value = .ok encoded ∧
        (compressed = false → written = encoded) ∧
        (compressed = true → libraries.compress? encoded = some written ∧
          (libraries.decode written).Gives encoded ∧
          libraries.unpack true written =
            if encoded.length ≤ maxDecompressed then .ok encoded else .error .tooLarge) ∧
        directory.target output = .ok (.file location false) ∧
        (directory.run words libraries).directory.read output = .ok written ∧
        ∀ other, (directory.run words libraries).directory.files.lookup other =
          if other = location then some written else directory.files.lookup other) ∧
    (∀ before words after, ((directory.afterAll before libraries).run words libraries).exitCode ≠ 0 →
      directory.runs (before ++ words :: after) libraries =
          directory.runs before libraries ++ (directory.afterAll before libraries).run words libraries ::
            (directory.afterAll before libraries).runs after libraries ∧
        directory.runs (before ++ after) libraries = directory.runs before libraries ++
          (directory.afterAll before libraries).runs after libraries) ∧
    ∀ lines, directory.runs (directory.succeeding lines libraries) libraries =
      (directory.runs lines libraries).filter (·.exitCode == 0) := by
  refine ⟨fun words => runStepwise_eq directory words libraries, fun words => run_of_exitCode_ne,
    fun words h => ?_, ?_, ?_, runs_succeeding directory⟩
  · rw [run]
    split
    · rfl
    · rename_i hwords
      exact directory_carryOut fun source document output compressed heq =>
        h source document output compressed (hwords.trans (congrArg some heq))
  · intro words source document output compressed hwords h0
    rw [run_of_parse? hwords] at h0 ⊢
    obtain ⟨program, value, encoded, written, hprogram, hvalue, hencoded, hpacked, hwritten⟩ :=
      write_of_carryOut h0
    obtain ⟨location, htarget, hlookup⟩ := lookup_of_write hwritten
    refine ⟨program, value, encoded, written, location, hprogram, hvalue, hencoded, ?_, ?_, htarget,
      read_of_write hwritten, hlookup⟩
    · rintro rfl
      exact (Except.ok.inj hpacked).symm
    · rintro rfl
      have hfile := Libraries.compress?_of_pack hpacked
      have hgives := hz encoded written hfile
      exact ⟨hfile, hgives, Libraries.unpack_eq hgives⟩
  · intro before words after h
    rw [runs_append, runs_append, runs, (run_of_exitCode_ne h).1]
    exact ⟨rfl, rfl⟩

/-- A document is encoded over itself. A second attempt finds no document there and can be left out. -/
theorem run_atomic_aliased : ∃ (directory changed : Directory) (encode decode : List String),
    encode = ["encode", "--schema", "d", "v", "--output", "v"] ∧
    decode = ["decode", "--schema", "d", "v"] ∧
    directory.read "v" = .ok (Wire.utf8 "true") ∧
    (directory.run encode).exitCode = 0 ∧ (directory.run encode).directory = changed ∧
    changed.read "v" = .ok [1] ∧
    (changed.run encode).exitCode = 1 ∧ (changed.run encode).directory = changed ∧
    (changed.run decode).directory = changed ∧
    directory.runs [encode, encode, decode] .standard
      = [directory.run encode, changed.run encode, changed.run decode] ∧
    directory.runs [encode, decode] .standard = [directory.run encode, changed.run decode] := by
  obtain ⟨encode, hencode⟩ : ∃ words, words = ["encode", "--schema", "d", "v", "--output", "v"] :=
    ⟨_, rfl⟩
  obtain ⟨decode, hdecode⟩ : ∃ words, words = ["decode", "--schema", "d", "v"] := ⟨_, rfl⟩
  have hwords : Libraries.standard.parse? encode
      = some (.encode (some (.description "d")) "v" "v" false) := by
    subst hencode
    decide +kernel
  have hother : Libraries.standard.parse? decode
      = some (.decode (some (.description "d")) "v" false {}) := by
    subst hdecode
    decide +kernel
  obtain ⟨json, hjson⟩ : ∃ json, json = Json.object [("type", .string "boolean")] := ⟨_, rfl⟩
  obtain ⟨directory, hdirectory⟩ : ∃ directory : Directory, directory =
    ⟨[(⟨.above 0, "d"⟩, Wire.utf8 json.compact), (⟨.above 0, "v"⟩, Wire.utf8 "true")]⟩ := ⟨_, rfl⟩
  have hd : directory.read "d" = .ok (Wire.utf8 json.compact) := by
    subst hdirectory
    exact read_ok.mpr ⟨_, rfl, by decide, rfl⟩
  have hv : directory.read "v" = .ok (Wire.utf8 "true") := by
    subst hdirectory
    exact read_ok.mpr ⟨_, rfl, by decide, rfl⟩
  obtain ⟨program, hp, he⟩ : ∃ program,
      Invocation.loadProgram Libraries.standard.floats directory.read (some (.description "d"))
        = .ok program ∧ program.encode (.bool true) = .ok [1] := by
    subst hjson
    exact ⟨_, Invocation.loadDescription_compact (by decide +kernel) (by decide +kernel)
      (by decide +kernel) hd rfl rfl rfl, Program.encode_ok.mpr (by decide +kernel)⟩
  have hvalue : Invocation.loadDocument Libraries.standard.floats directory.read "v"
      = .ok (.bool true) :=
    @Invocation.loadDocument_compact _ _ _ (.bool true) rfl (by decide) (by decide +kernel) hv
  obtain ⟨changed, hw⟩ : ∃ changed, directory.write "v" [1] = .ok changed :=
    ⟨_, write_ok.mpr ⟨_, rfl, by decide, rfl⟩⟩
  have hrun := @run_of_parse? _ directory _ _ hwords
  rw [carryOut_encode hp hvalue he hw] at hrun
  have h0 : (directory.run encode).exitCode = 0 := by rw [hrun]
  have hafter : (directory.run encode).directory = changed := by rw [hrun]
  -- the second attempt reads the byte that the first has written
  have hplace : directory.target "d" ≠ directory.target "v" := target_ne rfl rfl (by decide)
  have hload : Invocation.loadProgram Libraries.standard.floats changed.read (some (.description "d"))
      = .ok program :=
    (Invocation.loadDescription_congr ((read_of_write_other hw hd hplace).trans hd.symm)).trans hp
  have hexecute : (Invocation.encode (some (.description "d")) "v" "v" false).execute .standard
      changed.read = .error (.notJson "v") := by
    have hbyte : [1] = Wire.utf8 "\x01" := by decide +kernel
    have hnone : Invocation.loadDocument Libraries.standard.floats changed.read "v"
        = .error (.notJson "v") :=
      Invocation.loadDocument_notJson (hbyte ▸ read_of_write hw) (by decide +kernel)
    rw [Invocation.execute, hload, hnone]
    rfl
  have h1 : (changed.run encode).exitCode = 1 := by
    rw [run_of_parse? hwords, carryOut_error hexecute]
    rfl
  -- what the theorem says of the two directories
  obtain ⟨-, -, -, hencoded, hrow, -⟩ := run_atomic Libraries.restores_standard directory
  obtain ⟨-, hfails, hkept, -⟩ := run_atomic Libraries.restores_standard changed
  obtain ⟨own, value, encoded, written, location, hown, hsame, hmade, hwritten, -, -, hread, -⟩ :=
    hencoded encode _ _ _ _ hwords h0
  obtain rfl := Except.ok.inj (hown.symm.trans hp)
  obtain rfl := Except.ok.inj (hsame.symm.trans hvalue)
  obtain rfl := Except.ok.inj (hmade.symm.trans he)
  obtain rfl : written = [1] := hwritten rfl
  have hlater : directory.afterAll [encode] .standard = changed := hafter
  have hrows := hrow [encode] encode [decode]
  rw [hlater] at hrows
  obtain ⟨hall, hfewer⟩ := hrows (by rw [h1]; decide)
  refine ⟨directory, changed, encode, decode, hencode, hdecode, hv, h0, hafter, hafter ▸ hread, h1,
    (hfails encode (by rw [h1]; decide)).1, hkept decode (by simp [hother]), hall, hfewer⟩

end Directory

end Positional
