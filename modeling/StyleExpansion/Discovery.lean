import StyleExpansion.FileTree

namespace StyleExpansion

def styleExtensions : List Text :=
  ["css".toList, "scss".toList, "sass".toList, "less".toList, "styl".toList, "stylus".toList]

/-- The extensions of components, which hold a style among other things. -/
def componentExtensions : List Text := ["svelte".toList, "vue".toList]

def dependencyFolder : Text := "node_modules".toList

/-- The text after its last `mark`, or all of it when there is none. -/
def Text.afterLast (mark : Char) (s : Text) : Text :=
  (s.reverse.takeWhile (· ≠ mark)).reverse

/-- The extension of the last component of a path, without its dot. The dots that the component
starts with start no extension. -/
def extension (path : Text) : Text :=
  let stem := (Text.afterLast '/' path).dropWhile (· = '.')
  if stem.contains '.' then Text.afterLast '.' stem else []

def hasStyleExtension (path : Text) : Bool := styleExtensions.contains (extension path)

namespace Discovery

def ignoredNames : List Text := [".git".toList, "dist".toList]

/-- Whether a search looks at what stands under a name. The folder of dependencies is passed over if
asked for. -/
def admits (skipDependencies : Bool) (name : Text) : Bool :=
  !ignoredNames.contains name && !(skipDependencies && name == dependencyFolder)

def sorted (entries : List (Text × Node)) : List (Text × Node) :=
  entries.mergeSort fun a b => Text.le a.1 b.1

/-- Whether the link at a place leads to a file. One that leads to nothing does not. -/
def leadsToFile (tree : FileTree) (place : Path) : Except FileError Bool :=
  match tree.lookup (FileTree.written place) with
  | .ok (.file ..) => .ok true
  | .ok _ => .ok false
  | .error .notFound => .ok false
  | .error e => .error e

/-- The style sources below a node, which stands at `place`, as names from there on, in the order of
the names. A link that leads through a file, or round in a circle, ends the search. -/
def below (tree : FileTree) (skipDependencies : Bool) (place : Path) :
    Node → Except FileError (List Path)
  | .file .. => .ok []
  | .link _ => .ok []
  | .folder entries => do
    let found ← (sorted entries).attach.mapM fun ⟨(name, node), _held⟩ =>
      if admits skipDependencies name then
        match _kind : node with
        | .folder _ => (below tree skipDependencies (place ++ [name]) node).map (·.map (name :: ·))
        | .file .. => .ok (if hasStyleExtension name then [[name]] else [])
        | .link _ =>
          (leadsToFile tree (place ++ [name])).map fun isFile =>
            if isFile && hasStyleExtension name then [[name]] else []
      else .ok []
    return found.flatten
termination_by n => sizeOf n
decreasing_by
  have held := List.sizeOf_lt_of_mem (List.mem_mergeSort.1 _held)
  simp only [_kind, Prod.mk.sizeOf_spec, Node.folder.sizeOf_spec] at held ⊢
  omega

/-- The style sources below a folder as written paths that start with the path of the folder. -/
def find (tree : FileTree) (skipDependencies : Bool) (root : Text) :
    Except FileError (List Text) :=
  match tree.resolve root with
  | .error e => .error e
  | .ok p =>
    match tree.root.at? p with
    | some (.folder entries) =>
      (below tree skipDependencies p (.folder entries)).map fun found =>
        found.map fun names => Path.join root (['/'].intercalate names)
    | some _ => .error .notAFolder
    | none => .error .notFound

/-- The style sources that a root stands for: those below a folder, without its dependencies, or a
file itself. A root that does not exist stands for none. -/
def sources (tree : FileTree) (root : Text) : Except FileError (Option (List Text)) :=
  if tree.isFolder root then (find tree true root).map some
  else if tree.isFile root then .ok (some [root])
  else .ok none

end Discovery

end StyleExpansion
