import StyleExpansion.Build
import StyleExpansion.Options

/-!
The command: it scans dependencies, included paths and files for definitions, and then writes the
expansion of each file, once and in order. A file that fails is told in the log and leaves no
output; the others are still written. A missing value ends the run at the step that needs it.
-/

namespace StyleExpansion

namespace Command

def usage : Text := "functionsmixins FILE...\n".toList

structure Run where
  build : Build := {}
  /-- Whether something failed. -/
  failed : Bool := false
  /-- The paths whose definitions could not be read. -/
  unreadable : List Text := []
  /-- The paths to expand, in order. -/
  inputs : List Text := []
  output : Text := []

def onBuild {α : Type} (x : Act Build Fault α) : Act Run Fault α :=
  Act.zoom Run.build (fun b r => { r with build := b }) x

def complain (n : Notice) : Act Run Fault Unit := do
  Act.note n
  Act.modify fun r => { r with failed := true }

def scanPath (disk : Disk) (path : Text) : Act Run Fault Unit := do
  match ← Act.attempt (onBuild (Build.scan disk [path])) with
  | .ok _ => return ()
  | .error e =>
    complain (.unreadableDeclarations path e)
    Act.modify fun r => { r with unreadable := r.unreadable ++ [path] }

/-- Reads the definitions below one root. What a root holds that is also named as a file is to be
expanded. -/
def scanFrom (disk : Disk) (files : List Text) (root : Text) : Act Run Fault Unit := do
  match ← Act.ofFile (Discovery.sources disk.tree root), files.contains root with
  | none, true => complain (.missingRoot root true)
  | none, false => Act.note (.missingRoot root false)
  | some paths, required => do
    if required then Act.modify fun r => { r with inputs := r.inputs ++ paths }
    let _ ← Act.each (scanPath disk) paths

/-- Reads the definitions below one root, which has to be given. -/
def scanRoot (disk : Disk) (files : List Text) : Option Text → Act Run Fault Unit
  | some root => scanFrom disk files root
  | none => Act.fail .missingValue

/-- The expansion of one path. Code cannot be expanded without a bound on the passes. -/
def expansion (disk : Disk) (o : Options) (path : Text) : Act Build Fault Text := do
  let (t, spans) ← Build.load disk path
  if o.maxDepth?.isNone && (Segment.split t spans).any Segment.needsExpansion then
    Act.fail .missingValue
  else Build.render (!o.keepDefinitions) t spans

def writePath (disk : Disk) (o : Options) (path : Text) : Act Run Fault Unit := do
  if (← Act.get).unreadable.contains path then return ()
  match ← Act.attempt (onBuild (expansion disk o path)) with
  | .ok t => Act.modify fun r => { r with output := r.output ++ t }
  | .error e => complain (.failedExpansion path e)

/-- The roots in the order in which they are scanned. -/
def roots (o : Options) : List (Option Text) :=
  o.dependencies.map (Option.map (Path.join dependencyFolder)) ++ o.includes ++ o.files.map some

/-- Scans all roots. No root is scanned if a dependency is not given. -/
def scanAll (disk : Disk) (o : Options) : Act Run Fault Unit := do
  if o.dependencies.contains none then Act.fail .missingValue
  let _ ← Act.each (scanRoot disk o.files) (roots o)

def writeAll (disk : Disk) (o : Options) : Act Run Fault Unit := do
  let r ← Act.get
  let _ ← Act.each (writePath disk o) r.inputs

/-- What came of a run: the exit status or the fault that ended it, what it wrote, its log, and the
tree it left. -/
structure Outcome where
  status : Except Fault Nat
  stdout : Text := []
  log : List Notice := []
  tree : FileTree
  /-- What was written to the output file, if one was opened. -/
  written? : Option Text := none

/-- The file that the output goes to, if it does not go to standard output. -/
def outputPath? (o : Options) : Option Text := o.output?.filter fun path => !path.isEmpty

def Run.status (r : Run) : Nat := if r.failed then 1 else 0

def writeToStdout (disk : Disk) (o : Options) (log : List Notice) (r : Run) : Outcome :=
  let (s, written) := writeAll disk o r
  { status := written.result.map fun _ => s.status
    stdout := s.output
    log := log ++ written.log
    tree := disk.tree }

/-- Writes all inputs to a file, which is opened after all definitions were read and is stamped
later than the present time. -/
def writeToFile (disk : Disk) (o : Options) (log : List Notice) (r : Run) (path : Text) : Outcome :=
  let stamp := disk.now + 1
  match disk.tree.create path stamp with
  | .error e => { status := .error (.file e), log := log, tree := disk.tree }
  | .ok (place, tree) =>
    let (s, written) := writeAll { disk with tree := tree } o r
    let data := (String.ofList s.output).toUTF8
    { status := written.result.map fun _ => s.status
      log := log ++ written.log
      tree := { tree with root := (Node.file data stamp).put place tree.root }
      written? := some s.output }

def run (disk : Disk) (o : Options) : Outcome :=
  let context : Context := { maxDepth := o.maxDepth?.getD defaultCeiling, strict := o.strict }
  let (r, scanned) := scanAll disk o { build := { context := context } }
  match scanned.result, outputPath? o with
  | .error f, _ => { status := .error f, log := scanned.log, tree := disk.tree }
  | .ok _, none => writeToStdout disk o scanned.log r
  | .ok _, some path => writeToFile disk o scanned.log r path

/-- The lines of the log that are shown: all of them if asked for, else those above debugging. -/
def logLines (verbose : Bool) (log : List Notice) : Text :=
  (log.filter fun n => verbose || n.level ≠ .debug).flatMap fun n =>
    n.level.label ++ ":root:".toList ++ n.message ++ ['\n']

/-- What the command line comes to. -/
inductive Answer where
  /-- The command line is not run. -/
  | stopped (stop : Stop)
  /-- No file is given. -/
  | noFile
  /-- The command ran. -/
  | ran (options : Options) (outcome : Outcome)

namespace Answer

def status : Answer → Except Fault Nat
  | stopped stop => .ok stop.status
  | noFile => .ok 1
  | ran _ outcome => outcome.status

def stdout : Answer → Text
  | ran _ outcome => outcome.stdout
  | _ => []

def stderr : Answer → Text
  | stopped _ => []
  | noFile => usage
  | ran o outcome => logLines o.verbose outcome.log

/-- The files after the command, where they were `tree` before it. -/
def treeAfter (tree : FileTree) : Answer → FileTree
  | ran _ outcome => outcome.tree
  | _ => tree

end Answer

def answer (disk : Disk) (args : List Text) : Answer :=
  match Options.parse args with
  | .error stop => .stopped stop
  | .ok o =>
    if o.files.isEmpty then .noFile else .ran o (run disk o)

end Command

namespace About

def version : Text := "0.1.0".toList

def license : Text := "http://ffctn.com/doc/licenses/bsd".toList

end About

end StyleExpansion
