import Positional.Document.Basic

/-!
# Directories

The files that a command line works on. A name is walked from the working directory, or from the
root, one part between slashes after the other. Of the directories around the working directory it
is known that they exist, and no more.
-/

namespace Positional

inductive FileError where
  | missing
  | notDirectory
  | isDirectory
  | nameTooLong
deriving DecidableEq

/-- The report of the operating system, with its number. -/
def FileError.message : FileError → String
  | missing => "No such file or directory (os error 2)"
  | notDirectory => "Not a directory (os error 20)"
  | isDirectory => "Is a directory (os error 21)"
  | nameTooLong => "File name too long (os error 36)"

inductive Folder where
  /-- So many steps above the working directory; with none, the working directory itself. -/
  | above (steps : Nat)
  | root
deriving DecidableEq

/-- The directory that holds a directory. The root holds itself. -/
def Folder.parent : Folder → Folder
  | above steps => above (steps + 1)
  | root => root

def Folder.dots? (folder : Folder) (step : String) : Option Folder :=
  if step == "." then some folder else if step == ".." then some folder.parent else none

structure Location where
  folder : Folder
  name : String
deriving DecidableEq

inductive Target where
  | folder
  /-- A file, which need not exist. A slash behind its name asks for a directory. -/
  | file (location : Location) (slashed : Bool)
deriving DecidableEq

structure Directory where
  files : List (Location × Bytes)
deriving DecidableEq

namespace Directory

def maxPartSize : Nat := 255

def maxNameSize : Nat := 4095

/-- The parts of a name between slashes: the first, of which there is always one, and the rest. -/
def slashParts : List Char → List Char × List (List Char)
  | [] => ([], [])
  | c :: rest =>
    let (first, others) := slashParts rest
    if c == '/' then ([], first :: others) else (c :: first, others)

def steps (name : String) : List String :=
  let (first, others) := slashParts name.toList
  ((first :: others).filter fun part => !part.isEmpty).map String.ofList

/-- One step from directory to directory. No directory lies inside another known one, so that a
step down finds a file or nothing. -/
def enter (directory : Directory) (folder : Folder) (step : String) : Except FileError Folder :=
  match folder.dots? step with
  | some next => .ok next
  | none =>
    if maxPartSize < step.utf8ByteSize then .error .nameTooLong
    else match directory.files.lookup ⟨folder, step⟩ with
      | some _ => .error .notDirectory
      | none => .error .missing

def start (name : String) : Folder :=
  if name.toList.head? == some '/' then .root else .above 0

def lastTarget (name : String) (folder : Folder) : Target :=
  match (steps name).getLast? with
  | none => .folder
  | some last =>
    if (folder.dots? last).isSome then .folder
    else .file ⟨folder, last⟩ (name.toList.getLast? == some '/')

/-- What a name leads to that is walked step by step: all of its steps but the last have to be
directories. -/
def walk (directory : Directory) (name : String) : Except FileError Target :=
  ((steps name).dropLast.foldlM directory.enter (start name)).map (lastTarget name)

def target (directory : Directory) (name : String) : Except FileError Target :=
  if name == "" then .error .missing
  else if maxNameSize < name.utf8ByteSize then .error .nameTooLong
  else directory.walk name

def read (directory : Directory) (name : String) : Except FileError Bytes :=
  match directory.target name with
  | .error error => .error error
  | .ok .folder => .error .isDirectory
  | .ok (.file location slashed) =>
    if maxPartSize < location.name.utf8ByteSize then .error .nameTooLong
    else match directory.files.lookup location with
      | none => .error .missing
      | some content => if slashed then .error .notDirectory else .ok content

/-- Gives a file its content: in place if it exists, at the end if it is new. -/
def putFile (location : Location) (content : Bytes) :
    List (Location × Bytes) → List (Location × Bytes)
  | [] => [(location, content)]
  | (other, old) :: rest =>
    if other == location then (other, content) :: rest
    else (other, old) :: putFile location content rest

/-- The directory with a file written. A slash behind the name of a file to be written always
counts as a directory's. -/
def write (directory : Directory) (name : String) (content : Bytes) :
    Except FileError Directory :=
  match directory.target name with
  | .error error => .error error
  | .ok .folder => .error .isDirectory
  | .ok (.file location slashed) =>
    if slashed then .error .isDirectory
    else if maxPartSize < location.name.utf8ByteSize then .error .nameTooLong
    else .ok ⟨putFile location content directory.files⟩

theorem lookup_putFile (location other : Location) (content : Bytes)
    (files : List (Location × Bytes)) :
    (putFile location content files).lookup other =
      if other = location then some content else files.lookup other := by
  induction files with
  | nil =>
    by_cases h : other = location
    · simp [putFile, h]
    · simp [putFile, List.lookup_cons, h, beq_eq_false_iff_ne.mpr h]
  | cons file rest ih =>
    obtain ⟨place, old⟩ := file
    by_cases hp : place = location
    · subst hp
      by_cases h : other = place
      · simp [putFile, h]
      · simp [putFile, List.lookup_cons, h, beq_eq_false_iff_ne.mpr h]
    · by_cases h : other = place
      · subst h
        simp [putFile, hp]
      · simp [putFile, List.lookup_cons, hp, beq_eq_false_iff_ne.mpr h, ih]

theorem enter_of_enter {directory : Directory} (other : Directory) {folder next : Folder}
    {step : String} (h : directory.enter folder step = .ok next) :
    other.enter folder step = .ok next := by
  unfold enter at h ⊢
  cases hd : folder.dots? step with
  | some last => simpa [hd] using h
  | none =>
    simp only [hd] at h
    split at h
    · cases h
    · split at h <;> cases h

theorem foldlM_enter_of_foldlM_enter {directory : Directory} (other : Directory)
    {steps : List String} {folder last : Folder}
    (h : steps.foldlM directory.enter folder = .ok last) :
    steps.foldlM other.enter folder = .ok last := by
  induction steps generalizing folder with
  | nil => exact h
  | cons step rest ih =>
    rw [List.foldlM_cons] at h ⊢
    cases hn : directory.enter folder step with
    | error e => simp [hn, bind, Except.bind] at h
    | ok next =>
      rw [hn] at h
      rw [enter_of_enter other hn]
      exact ih h

theorem target_of_target {directory : Directory} (other : Directory) {name : String}
    {target : Target} (h : directory.target name = .ok target) :
    other.target name = .ok target := by
  unfold Directory.target walk at h ⊢
  split at h
  · cases h
  · split at h
    · cases h
    · rename_i hn hs
      rw [if_neg hn, if_neg hs]
      cases hf : (steps name).dropLast.foldlM directory.enter (start name) with
      | error e =>
        rw [hf] at h
        cases h
      | ok folder =>
        rw [foldlM_enter_of_foldlM_enter other hf]
        rw [hf] at h
        exact h

theorem read_of_write {directory changed : Directory} {name : String} {content : Bytes}
    (h : directory.write name content = .ok changed) : changed.read name = .ok content := by
  unfold write at h
  cases ht : directory.target name with
  | error e => simp [ht] at h
  | ok target =>
    cases target with
    | folder => simp [ht] at h
    | file location slashed =>
      simp only [ht] at h
      split at h
      · cases h
      · split at h
        · cases h
        · rename_i hs hl
          cases h
          simp [read, target_of_target _ ht, hl, lookup_putFile, hs]

end Directory

end Positional
