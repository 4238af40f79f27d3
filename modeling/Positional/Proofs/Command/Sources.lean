import Positional.Command.Run
import Positional.Proofs.Schema.Described
import Positional.Proofs.Wire.Primitives

/-!
# The two sources of a program

A command takes its program from a file of interchange text or from a description. The text that is
printed for a description stands for it in both commands that use a program, as long as its floats are
read back and it nests no deeper than a text may; a deeper one is printed all the same and cannot be
read.
-/

namespace Positional

namespace Directory

variable {directory changed : Directory} {content bytes : Bytes} {name other : String}

theorem read_ok : directory.read name = .ok content ↔ ∃ location,
    directory.target name = .ok (.file location false) ∧
      location.name.utf8ByteSize ≤ maxPartSize ∧ directory.files.lookup location = some content := by
  unfold read
  cases ht : directory.target name with
  | error e => simp
  | ok target =>
    cases target with
    | folder => simp
    | file location slashed =>
      by_cases hlong : maxPartSize < location.name.utf8ByteSize
      · simp [hlong]
      · have hshort := Nat.le_of_not_lt hlong
        cases slashed <;> cases hl : directory.files.lookup location <;> simp [hlong, hshort, hl]

theorem write_ok : directory.write name content = .ok changed ↔ ∃ location,
    directory.target name = .ok (.file location false) ∧
      location.name.utf8ByteSize ≤ maxPartSize ∧ changed = ⟨putFile location content directory.files⟩ := by
  unfold write
  cases ht : directory.target name with
  | error e => simp
  | ok target =>
    cases target with
    | folder => simp
    | file location slashed =>
      by_cases hlong : maxPartSize < location.name.utf8ByteSize
      · cases slashed <;> simp [hlong]
      · have hshort := Nat.le_of_not_lt hlong
        cases slashed <;> simp [hlong, hshort, eq_comm]

theorem target_ne {location place : Location} (h : directory.target name = .ok (.file location false))
    (h' : directory.target other = .ok (.file place false)) (hne : location ≠ place) :
    directory.target name ≠ directory.target other := by
  rw [h, h']
  simpa using hne

theorem read_of_write_other (h : directory.write name content = .ok changed)
    (hr : directory.read other = .ok bytes) (hne : directory.target other ≠ directory.target name) :
    changed.read other = .ok bytes := by
  obtain ⟨location, ht, -, rfl⟩ := write_ok.mp h
  obtain ⟨place, hp, hshort, hl⟩ := read_ok.mp hr
  have hplace : place ≠ location := by
    rintro rfl
    exact hne (hp.trans ht.symm)
  exact read_ok.mpr ⟨place, target_of_target _ hp, hshort, by rw [lookup_putFile, if_neg hplace, hl]⟩

end Directory

namespace Invocation

variable {libraries : Libraries} {floats : Json.FloatReader}
  {read later : String → Except FileError Bytes} {program : Program} {failure : Failure}

/-- The same work, with the program from the one file or from the other. -/
inductive FromEither (first second : ProgramFile) : Invocation → Invocation → Prop
  | encode : FromEither first second (encode (some first) document output compressed)
      (encode (some second) document output compressed)
  | decode : FromEither first second (decode (some first) input compressed options)
      (decode (some second) input compressed options)

/-- Commands use nothing of the source of a program but the program. -/
theorem execute_congr (h : FromEither source other first second)
    (hload : loadProgram libraries.floats read (some source)
      = loadProgram libraries.floats read (some other)) :
    first.execute libraries read = second.execute libraries read := by
  cases h <;> rw [execute, execute, hload]

theorem execute_error (h : FromEither source other first second)
    (hload : loadProgram libraries.floats read (some source) = .error failure) :
    first.execute libraries read = .error failure := by
  cases h <;> rw [execute, hload] <;> rfl

theorem loadDescription_congr (h : later name = read name) :
    loadDescription floats later name = loadDescription floats read name := by
  rw [loadDescription, loadDescription, loadText, loadText, load, load, h]

theorem loadText_utf8 (h : read name = .ok (Wire.utf8 text)) : loadText read name = .ok text := by
  rw [loadText, load, h]
  simp only [Except.mapError, bind, Except.bind, Wire.ofUtf8?_utf8, pure, Except.pure]

section

variable {json : Json} (hj : json.printable = true)
  (hr : ∀ x ∈ json.floats, floats.rereads x = true) (hheight : json.height ≤ Json.maxOpen)
  (h : read name = .ok (Wire.utf8 json.compact))
include hj hr hheight h

theorem loadDescription_compact {description : Description} {schema : Schema}
    (hd : Description.ofJson? false json = some description)
    (hs : description.toSchema = .ok schema) (hc : schema.compile = .ok program) :
    loadDescription floats read name = .ok program := by
  have hparse : Description.parse? json.compact floats = some description := by
    rw [Description.parse?, Json.parse?_compact hj hr, if_pos hheight, Option.bind_some, hd]
  rw [loadDescription, loadText_utf8 h]
  simp only [Except.mapError, bind, Except.bind, Program.ofDescription, hparse, hs, hc]

theorem loadDocument_compact : loadDocument floats read name = .ok json.toValue := by
  rw [loadDocument, loadText_utf8 h]
  simp only [bind, Except.bind, pure, Except.pure, Json.parse?_compact hj hr, if_pos hheight]

end

theorem loadDocument_notJson (h : read name = .ok (Wire.utf8 text))
    (ht : Json.parse? text floats = none) :
    loadDocument floats read name = .error (.notJson name) := by
  rw [loadDocument, loadText_utf8 h]
  simp only [bind, Except.bind, ht]
  rfl

theorem loadInterchange_utf8 (h : read name = .ok (Wire.utf8 text)) :
    loadInterchange floats read name =
      (Program.ofInterchange text floats).mapError (.ofSource name) := by
  rw [loadInterchange, loadText_utf8 h]
  rfl

theorem readable_of_loadDescription (h : loadDescription floats read name = .ok program) :
    ∀ block ∈ program, block.Every Block.Readable := by
  obtain ⟨text, -, h⟩ := Schema.bind_ok.mp h
  cases ho : Program.ofDescription text floats with
  | error e =>
    rw [ho] at h
    cases h
  | ok own =>
    rw [ho] at h
    cases h
    exact Program.readable_of_ofDescription ho

/-- What is printed for a description is a program's text, which is read unless it nests too deep. -/
theorem loadInterchange_printed (hp : loadDescription floats read description = .ok program)
    (hr : ∀ x ∈ program.toJson.floats, floats.rereads x = true)
    (h : later name = .ok (Wire.utf8 (program.toJson.pretty ++ "\n"))) :
    loadInterchange floats later name =
      if program.toJson.height ≤ Json.maxOpen then .ok program else .error (.notJson name) := by
  rw [loadInterchange_utf8 h, Program.ofInterchange,
    Program.parse?_pretty (readable_of_loadDescription hp) hr]
  by_cases hheight : program.toJson.height ≤ Json.maxOpen
  · rw [if_pos hheight, if_pos hheight]
    rfl
  · rw [if_neg hheight, if_neg hheight]
    rfl

end Invocation

namespace Directory

variable {libraries : Libraries} {directory later : Directory} {failure : Failure}
  {invocation first second : Invocation} {program : Program}

theorem run_of_parse? (h : libraries.parse? words = some invocation) :
    directory.run words libraries = directory.carryOut invocation libraries := by
  rw [run, h]

theorem carryOut_error (h : invocation.execute libraries directory.read = .error failure) :
    directory.carryOut invocation libraries = directory.fails failure := by
  rw [carryOut, h]

theorem carryOut_congr
    (h : first.execute libraries directory.read = second.execute libraries directory.read) :
    directory.carryOut first libraries = directory.carryOut second libraries := by
  rw [carryOut, carryOut, h]

theorem carryOut_compile
    (hp : Invocation.loadDescription libraries.floats directory.read description = .ok program) :
    directory.carryOut (.compile description true) libraries =
      ⟨0, program.toJson.pretty ++ "\n", "", directory⟩ := by
  rw [carryOut, Invocation.execute, hp]
  rfl

theorem carryOut_encode
    (hp : Invocation.loadProgram libraries.floats directory.read source = .ok program)
    (hd : Invocation.loadDocument libraries.floats directory.read document = .ok value)
    (he : program.encode value = .ok encoded) (hw : directory.write output encoded = .ok later) :
    directory.carryOut (.encode source document output false) libraries =
      ⟨0, (Invocation.encodeReport output encoded encoded false).pretty ++ "\n", "", later⟩ := by
  rw [carryOut, Invocation.execute, hp, hd]
  simp only [Except.mapError, bind, Except.bind, pure, Except.pure, he, Libraries.pack,
    Bool.false_eq_true, if_false, hw]

theorem carryOut_decode
    (hp : Invocation.loadProgram libraries.floats directory.read source = .ok program)
    (hi : directory.read input = .ok content) (hv : program.decode options content = .ok value) :
    directory.carryOut (.decode source input false options) libraries =
      ⟨0, value.toJson.pretty ++ "\n", "", directory⟩ := by
  rw [carryOut, Invocation.execute, hp, Invocation.load, hi]
  simp only [Except.mapError, bind, Except.bind, pure, Except.pure, Libraries.unpack,
    Bool.false_eq_true, if_false, hv]

theorem loadDescription_of_carryOut
    (h0 : (directory.carryOut (.compile description true) libraries).exitCode = 0) : ∃ program,
    Invocation.loadDescription libraries.floats directory.read description = .ok program := by
  cases hp : Invocation.loadDescription libraries.floats directory.read description with
  | error failure =>
    rw [carryOut, Invocation.execute, hp] at h0
    cases h0
  | ok program => exact ⟨program, rfl⟩

/-- Where a file holds what was printed for a description, a command with that file as its program
does the same as with the description, if what was printed nests no deeper than a text may and its
floats are read back. If it nests deeper the command fails, whatever it is to do. -/
theorem carryOut_either_source {description file : String}
    (h0 : (directory.carryOut (.compile description true) libraries).exitCode = 0)
    (hd : later.read description = directory.read description)
    (hf : later.read file =
      .ok (Wire.utf8 (directory.carryOut (.compile description true) libraries).stdout)) :
    ∃ program,
      Invocation.loadDescription libraries.floats directory.read description = .ok program ∧
      ((∀ x ∈ program.toJson.floats, libraries.floats.rereads x = true) →
        ∀ viaFile viaDescription,
          Invocation.FromEither (.interchange file) (.description description) viaFile
            viaDescription →
          later.carryOut viaFile libraries = if program.toJson.height ≤ Json.maxOpen then
            later.carryOut viaDescription libraries else later.fails (.notJson file)) := by
  obtain ⟨program, hp⟩ := loadDescription_of_carryOut h0
  refine ⟨program, hp, fun hr viaFile viaDescription heither => ?_⟩
  -- the file holds the text of the program that the description still makes
  rw [carryOut_compile hp] at hf
  have hload := Invocation.loadInterchange_printed hp hr hf
  split
  · rename_i hheight
    rw [if_pos hheight, ← hp, ← Invocation.loadDescription_congr hd] at hload
    exact carryOut_congr (Invocation.execute_congr heither hload)
  · rename_i hheight
    rw [if_neg hheight] at hload
    exact carryOut_error (Invocation.execute_error heither hload)

/-- A union of two records, decoded from one file and encoded from another. -/
theorem carryOut_either_source_union : ∃ directory later : Directory,
    (directory.carryOut (.compile "d" true)).exitCode = 0 ∧
    directory.write "q" (Wire.utf8 (directory.carryOut (.compile "d" true)).stdout) = .ok later ∧
    later.carryOut (.decode (some (.interchange "q")) "b" false {})
      = later.carryOut (.decode (some (.description "d")) "b" false {}) ∧
    later.carryOut (.encode (some (.interchange "q")) "v" "o" false)
      = later.carryOut (.encode (some (.description "d")) "v" "o" false) := by
  obtain ⟨json, hjson⟩ : ∃ json, json = Json.object [("type", .string "union"),
    ("discriminator", .string "t"), ("options", .array [
      .object [("type", .string "object"), ("fields", .array [
        .array [.string "t", .object [("type", .string "literal"), ("value", .string "a")]],
        .array [.string "n", .object [("type", .string "number"), ("int", .bool true)]]])],
      .object [("type", .string "object"), ("fields", .array [
        .array [.string "t", .object [("type", .string "literal"), ("value", .string "b")]],
        .array [.string "s", .object [("type", .string "optional"),
          ("inner", .object [("type", .string "string")])]]])]])] := ⟨_, rfl⟩
  obtain ⟨directory, hdirectory⟩ : ∃ directory : Directory, directory =
    ⟨[(⟨.above 0, "d"⟩, Wire.utf8 json.compact), (⟨.above 0, "b"⟩, [1, 98, 0]),
      (⟨.above 0, "v"⟩, Wire.utf8 "\x7b\"t\": \"a\", \"n\": 5\x7d")]⟩ := ⟨_, rfl⟩
  have hd : directory.read "d" = .ok (Wire.utf8 json.compact) := by
    subst hdirectory
    exact read_ok.mpr ⟨_, rfl, by decide, rfl⟩
  obtain ⟨program, hp, hheight, hr⟩ : ∃ program,
      Invocation.loadDescription Libraries.standard.floats directory.read "d" = .ok program ∧
        program.toJson.height ≤ Json.maxOpen ∧
        ∀ x ∈ program.toJson.floats, Libraries.standard.floats.rereads x = true := by
    subst hjson
    exact ⟨_, Invocation.loadDescription_compact (by decide +kernel) (by decide +kernel)
      (by decide +kernel) hd rfl rfl rfl, by decide +kernel, by decide +kernel⟩
  have h0 : (directory.carryOut (.compile "d" true)).exitCode = 0 := by rw [carryOut_compile hp]
  obtain ⟨later, hw⟩ : ∃ later, directory.write "q"
      (Wire.utf8 (directory.carryOut (.compile "d" true)).stdout) = .ok later :=
    ⟨_, write_ok.mpr ⟨_, rfl, by decide, rfl⟩⟩
  have hplace : directory.target "d" ≠ directory.target "q" := target_ne rfl rfl (by decide)
  obtain ⟨own, hown, hrun⟩ := carryOut_either_source h0
    ((read_of_write_other hw hd hplace).trans hd.symm) (read_of_write hw)
  obtain rfl := Except.ok.inj (hown.symm.trans hp)
  simp only [if_pos hheight] at hrun
  exact ⟨directory, later, h0, hw, hrun hr _ _ .decode, hrun hr _ _ .encode⟩

/-- The description of a text inside 32 optional layers compiles, but its program nests 131 deep. -/
theorem sources_apart : ∃ directory later : Directory,
    (directory.run ["compile", "d", "--json"]).exitCode = 0 ∧
    directory.write "q" (Wire.utf8 (directory.run ["compile", "d", "--json"]).stdout) = .ok later ∧
    (later.run ["decode", "--schema", "d", "b"]).exitCode = 0 ∧
    (later.run ["decode", "--program", "q", "b"]).exitCode = 1 := by
  have hwords : Libraries.standard.parse? ["compile", "d", "--json"] = some (.compile "d" true) := by
    decide +kernel
  have hschema : Libraries.standard.parse? ["decode", "--schema", "d", "b"]
      = some (.decode (some (.description "d")) "b" false {}) := by decide +kernel
  have hprogram : Libraries.standard.parse? ["decode", "--program", "q", "b"]
      = some (.decode (some (.interchange "q")) "b" false {}) := by decide +kernel
  obtain ⟨json, hjson⟩ : ∃ json, json = Nat.repeat
    (fun inner => Json.object [("type", .string "optional"), ("inner", inner)]) 32
    (.object [("type", .string "string")]) := ⟨_, rfl⟩
  obtain ⟨directory, hdirectory⟩ : ∃ directory : Directory,
    directory = ⟨[(⟨.above 0, "d"⟩, Wire.utf8 json.compact), (⟨.above 0, "b"⟩, [0])]⟩ := ⟨_, rfl⟩
  have hd : directory.read "d" = .ok (Wire.utf8 json.compact) := by
    subst hdirectory
    exact read_ok.mpr ⟨_, rfl, by decide, rfl⟩
  have hb : directory.read "b" = .ok [0] := by
    subst hdirectory
    exact read_ok.mpr ⟨_, rfl, by decide, rfl⟩
  obtain ⟨program, hp, hheight, hr, hv⟩ : ∃ program,
      Invocation.loadDescription Libraries.standard.floats directory.read "d" = .ok program ∧
        ¬ program.toJson.height ≤ Json.maxOpen ∧
        (∀ x ∈ program.toJson.floats, Libraries.standard.floats.rereads x = true) ∧
        program.decode {} [0] = .ok (.object []) := by
    subst hjson
    exact ⟨_, Invocation.loadDescription_compact (by decide +kernel) (by decide +kernel)
      (by decide +kernel) hd rfl rfl rfl, by decide +kernel, by decide +kernel, rfl⟩
  have hcompiled := @run_of_parse? _ directory _ _ hwords
  rw [carryOut_compile hp] at hcompiled
  obtain ⟨later, hw⟩ : ∃ later, directory.write "q" (Wire.utf8 (program.toJson.pretty ++ "\n"))
      = .ok later := ⟨_, write_ok.mpr ⟨_, rfl, by decide, rfl⟩⟩
  have hplace : directory.target "d" ≠ directory.target "q" := target_ne rfl rfl (by decide)
  have hplace' : directory.target "b" ≠ directory.target "q" := target_ne rfl rfl (by decide)
  refine ⟨directory, later, by rw [hcompiled], by rw [hcompiled, hw], ?_, ?_⟩
  · have hload : Invocation.loadProgram Libraries.standard.floats later.read
        (some (.description "d")) = .ok program :=
      (Invocation.loadDescription_congr ((read_of_write_other hw hd hplace).trans hd.symm)).trans hp
    rw [run_of_parse? hschema, carryOut_decode hload (read_of_write_other hw hb hplace') hv]
  · have hload := Invocation.loadInterchange_printed hp hr (read_of_write hw)
    rw [if_neg hheight] at hload
    have hexecute : (Invocation.decode (some (.interchange "q")) "b" false {}).execute .standard
        later.read = .error (.notJson "q") := by
      rw [Invocation.execute, Invocation.loadProgram, hload]
      rfl
    rw [run_of_parse? hprogram, carryOut_error hexecute]
    rfl

end Directory

end Positional
