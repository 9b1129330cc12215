import StyleExpansion.Command

namespace StyleExpansion

namespace Program

/-- Reads what stands at a path of the disk. Below a folder, only what a search looks at is read,
and a link to a file is read as that file. -/
partial def readNode? (path : String) (top : Bool) : IO (Option Node) := do
  try
    let place ← IO.FS.realPath path
    let info ← place.metadata
    match info.type with
    | .file =>
      if top || hasStyleExtension path.toList then
        return some (.file (← IO.FS.readBinFile place) info.modified.sec)
      else return none
    | .dir =>
      let mut entries := []
      for entry in ← place.readDir do
        let name := entry.fileName.toList
        let isLink := match (← entry.path.symlinkMetadata).type with
          | .symlink => true
          | _ => false
        if Discovery.admits true name then
          match ← readNode? entry.path.toString false with
          | some (.folder inner) => unless isLink do entries := (name, .folder inner) :: entries
          | some n => entries := (name, n) :: entries
          | none => pure ()
      return some (.folder entries)
    | _ => return none
  catch _ => return none

def ancestors (path : Text) : List Text :=
  (List.range path.length).filterMap fun i =>
    if path[i]? = some '/' then some (path.take (i + 1)) else none

/-- Adds the folders that a path leads through. -/
def readAncestors (tree : FileTree) (path : Text) : IO FileTree := do
  let mut tree := tree
  for folder in ancestors path do
    let place ← IO.FS.realPath (String.ofList folder)
    if ← place.isDir then tree := tree.makeFolder folder
  return tree

def readRoot (tree : FileTree) (path : Text) : IO FileTree := do
  let tree ← try readAncestors tree path catch _ => pure tree
  match ← readNode? (String.ofList path) true with
  | some n => return tree.put path n
  | none => return tree

/-- Reads what a command line names. The time of the run is later than every change. -/
def readDisk (o : Options) : IO Disk := do
  let workdir := Path.normalize [] (← IO.currentDir).toString.toList
  let empty : FileTree := { root := Node.put (.folder []) workdir (.folder []), workdir := workdir }
  let tree ← ((Command.roots o).filterMap id).foldlM readRoot empty
  let tree ← match Command.outputPath? o with
    | none => pure tree
    | some path => do
      let tree ← try readAncestors tree path catch _ => pure tree
      match ← readNode? (String.ofList path) true with
      | some (.folder _) => pure (tree.makeFolder path)
      | _ => pure tree
  return { tree := tree, now := tree.root.latest + 1 }

def faultText : Fault → Text
  | .expansion e => e.message
  | .file .notFound => "No such file or directory".toList
  | .file .notAFolder => "Not a directory".toList
  | .file .isAFolder => "Is a directory".toList
  | .file .undecodable => "Not a UTF-8 text".toList
  | .file .tooManyLinks => "Too many levels of symbolic links".toList
  | .neverRead => "A source was never read".toList
  | .missingValue => "A value is missing".toList

def run (args : List Text) : IO UInt32 := do
  let disk ← match Options.parse args with
    | .ok o => readDisk o
    | .error _ => pure {}
  let answer := Command.answer disk args
  match answer with
  | .stopped .help => IO.print (String.ofList Command.usage)
  | .stopped .refused => IO.eprint (String.ofList Command.usage)
  | .ran o outcome =>
    match Command.outputPath? o, outcome.written? with
    | some path, some t => IO.FS.writeBinFile (String.ofList path) (String.ofList t).toUTF8
    | _, _ => pure ()
  | .noFile => pure ()
  IO.eprint (String.ofList answer.stderr)
  IO.print (String.ofList answer.stdout)
  match answer.status with
  | .ok n => return n.toUInt32
  | .error f =>
    IO.eprintln (String.ofList (faultText f))
    return 1

end Program

end StyleExpansion

def main (args : List String) : IO UInt32 :=
  StyleExpansion.Program.run (args.map String.toList)
