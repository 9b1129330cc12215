import StyleExpansion.Context
import StyleExpansion.Discovery

/-!
Builds: the sources that were looked at so far and the definitions they declare. The text and the
declaration spans of each source are remembered by the time of its last change, so that a second
scan only reads the files that changed. All sources are to be scanned before one is expanded, as
definitions are used across files.
-/

namespace StyleExpansion

/-- Why a step on files fails. -/
inductive Fault where
  | expansion (cause : Error)
  | file (cause : FileError)
  /-- The source counts as unchanged since time zero and so was never read. -/
  | neverRead
  /-- A flag was written without the value that the step needs. -/
  | missingValue
deriving DecidableEq, Repr

namespace Act

variable {σ α : Type}

def ofFile (x : Except FileError α) : Act σ Fault α := fun s => (s, ⟨[], x.mapError Fault.file⟩)

/-- Gives a failed expansion as an answer; other faults stay faults. -/
def attempt (x : Act σ Fault α) : Act σ Fault (Except Error α) := fun s =>
  match x s with
  | (t, ⟨log, .ok a⟩) => (t, ⟨log, .ok (.ok a)⟩)
  | (t, ⟨log, .error (.expansion e)⟩) => (t, ⟨log, .ok (.error e)⟩)
  | (t, ⟨log, .error f⟩) => (t, ⟨log, .error f⟩)

end Act

/-- A value, if it was ever made, and the time at which it was last made. -/
structure Memo (α : Type) where
  updated : Int := 0
  value? : Option α := none
deriving DecidableEq, Repr

namespace Memo

variable {σ ε α : Type}

/-- Whether the value has to be made again after a change at the given time. A memo that was never
made counts as made at time zero. -/
def expired (m : Memo α) (changed : Int) : Bool := m.updated < changed

/-- The memo with its value made again by `update` at time `now` if it has expired. -/
def refresh (m : Memo α) (changed now : Int) (update : Act σ ε α) : Act σ ε (Memo α) :=
  if m.expired changed then do
    let a ← update
    return ⟨now, some a⟩
  else return m

def describe (m : Memo α) (shown : α → Text) : Text :=
  "<Memoized:".toList ++ m.value?.elim "None".toList shown ++ ">".toList

end Memo

/-- The files as they are, and the time. One request sees one time: the clock stands still from its
first step to its last, so a text and its spans that are both made again within it carry the same
stamp. -/
structure Disk where
  tree : FileTree := {}
  now : Int := 0

structure Source where
  text : Memo Text := {}
  spans : Memo (List Span) := {}
deriving DecidableEq, Repr

/-- The definitions of a build, and its sources in the order in which they first came. -/
structure Build where
  context : Context := {}
  sources : Table Path Source := .empty

namespace Build

def source (b : Build) (p : Path) : Source := (b.sources.get? p).getD {}

def alterSource (p : Path) (f : Source → Source) (b : Build) : Build :=
  { b with sources := b.sources.insert p (f (b.source p)) }

/-- Takes a source into the build, unless it is there. -/
def visit (p : Path) : Act Build Fault Unit := Act.modify (alterSource p id)

def onContext {α : Type} (x : Act Context Error α) : Act Build Fault α :=
  Act.zoom Build.context (fun c b => { b with context := c }) (x.mapError Fault.expansion)

/-- The text of a source, read again if the file changed since it was last read. There is none if
the file was never read. -/
def text (disk : Disk) (p : Path) : Act Build Fault (Option Text) := do
  let file ← Act.ofFile (disk.tree.file (FileTree.written p))
  let b ← Act.get
  let memo ← (b.source p).text.refresh file.modified disk.now (Act.ofFile file.text)
  Act.modify (alterSource p fun s => { s with text := memo })
  return memo.value?

/-- The declaration spans of a source. If the file changed since they were last found, they are
found again, and its definitions are registered with that. -/
def spans (disk : Disk) (p : Path) : Act Build Fault (Option (List Span)) := do
  let file ← Act.ofFile (disk.tree.file (FileTree.written p))
  let b ← Act.get
  let memo ← (b.source p).spans.refresh file.modified disk.now do
    match ← text disk p with
    | some t => onContext (Context.extract t)
    | none => Act.fail .neverRead
  Act.modify (alterSource p fun s => { s with spans := memo })
  return memo.value?

def scanFile (disk : Disk) (path : Text) : Act Build Fault Path := do
  let p := Path.normalize disk.tree.workdir path
  visit p
  let _ ← spans disk p
  return p

/-- Scans the sources of one root; a root that does not exist is skipped. -/
def scanRoot (disk : Disk) (root : Text) : Act Build Fault (List Path) := do
  match ← Act.ofFile (Discovery.sources disk.tree root) with
  | some paths => Act.each (scanFile disk) paths
  | none => do
    Act.note (.skippedRoot root)
    return []

def scan (disk : Disk) (roots : List Text) : Act Build Fault (List Path) := do
  let found ← Act.each (scanRoot disk) roots
  return found.flatten

/-- Scans the dependencies of a project and then its root. -/
def scanWithDependencies (disk : Disk) (root : Text) (dependencies : List Text) :
    Act Build Fault (List Path) :=
  scan disk (dependencies.map (Path.join (Path.join root dependencyFolder)) ++ [root])

/-- Takes the file into the build, registers its definitions, and gives its text and declaration
spans. -/
def load (disk : Disk) (path : Text) : Act Build Fault (Text × List Span) := do
  let p := Path.normalize disk.tree.workdir path
  visit p
  let spans? ← spans disk p
  let text? ← text disk p
  match text?, spans? with
  | some t, some found => return (t, found)
  | _, _ => Act.fail .neverRead

def render (blank : Bool) (t : Text) (spans : List Span) : Act Build Fault Text :=
  onContext fun c => (c, c.render blank t spans)

def compile (disk : Disk) (path : Text) (blank : Bool) : Act Build Fault Text := do
  let (t, spans) ← load disk path
  render blank t spans

/-- The expansion of a file that is read for this and not remembered. -/
def compileFile (disk : Disk) (path : Text) (blank : Bool) : Act Context Fault Text := do
  let file ← Act.ofFile (disk.tree.file path)
  let t ← Act.ofFile file.text
  (Context.compile t blank).mapError Fault.expansion

def describe (b : Build) : Text :=
  "<Graph:".toList ++ (toString b.sources.size).toList ++ " sources>".toList

def describeSource (workdir p : Path) : Text :=
  "<Source:".toList ++ Path.relativeTo workdir p ++ ">".toList

end Build

namespace Host

/-- The language of a module: what follows `lang.` in the query of its id, else the extension of
its path, else the whole path. -/
def language (id : Text) : Text :=
  let (path, query) := (Text.splitOnce? ['?'] id).getD (id, [])
  match Text.splitOnce? "lang.".toList query with
  | some (_, lang) => lang
  | none => Text.afterLast '.' path

def styleTag : Text := "<style".toList

/-- Expands a module: a style source whole, a component from its first style on. Other modules, and
components without a style, are left to others. -/
def expandModule (code id : Text) (blank : Bool) : Act Context Error (Option Text) :=
  if styleExtensions.contains (language id) then some <$> Context.compile code blank
  else if componentExtensions.contains (language id) then
    match Text.splitOnce? styleTag code with
    | some (before, after) => do
      let styled ← Context.compile (styleTag ++ after) blank
      return some (before ++ styled)
    | none => return none
  else return none

def isFrom (dependency filename : Text) : Bool :=
  (Text.splitOnce? (dependencyFolder ++ '/' :: dependency ++ ['/']) filename).isSome

/-- Expands the style of a component if its file belongs to one of the dependencies. -/
def dependencyStyle (content filename : Text) (dependencies : List Text) (blank : Bool) :
    Act Context Error (Option Text) :=
  if dependencies.any (isFrom · filename) then some <$> Context.compile content blank
  else return none

end Host

end StyleExpansion
