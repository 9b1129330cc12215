import StyleExpansion.Text

namespace StyleExpansion

/-- The names from the root of the tree down to a place in it. -/
abbrev Path := List Text

namespace Path

/-- The pieces of a text between slashes, empty ones included. -/
def pieces : Text → List Text
  | [] => [[]]
  | c :: s =>
    if c = '/' then [] :: pieces s
    else
      match pieces s with
      | [] => [[c]]
      | p :: ps => (c :: p) :: ps

def isAbsolute (s : Text) : Bool := s.head? == some '/'

def here : Text := ['.']

def parent : Text := ['.', '.']

/-- One step from a place by a piece of a path, looking at names only. -/
def step (place : Path) (piece : Text) : Path :=
  if piece = [] ∨ piece = here then place
  else if piece = parent then place.dropLast
  else place ++ [piece]

/-- The place that a written path names, seen from the working folder and looking at names
only. Two slashes at the start count as one. -/
def normalize (workdir : Path) (s : Text) : Path :=
  (pieces s).foldl step (if isAbsolute s then [] else workdir)

/-- A written path followed by another one. An absolute path stands for itself. -/
def join (a b : Text) : Text :=
  if isAbsolute b then b
  else if a.isEmpty || a.getLast? == some '/' then a ++ b
  else a ++ '/' :: b

def relativeTo (base p : Path) : Text :=
  match base, p with
  | b :: bs, c :: cs =>
    if b = c then relativeTo bs cs else written ((b :: bs).map (fun _ => parent) ++ c :: cs)
  | bs, cs => written (bs.map (fun _ => parent) ++ cs)
where
  written (ps : List Text) : Text := if ps.isEmpty then here else ['/'].intercalate ps

end Path

/-- What stands under a name. -/
inductive Node where
  /-- A file: its bytes and the time of its last change. -/
  | file (data : ByteArray) (modified : Int)
  /-- A symbolic link to a written path, seen from the folder of the link. -/
  | link (target : Text)
  | folder (entries : List (Text × Node))

namespace Node

def child? (name : Text) (entries : List (Text × Node)) : Option Node :=
  (entries.find? fun e => e.1 = name).map Prod.snd

/-- The node at a place below this one. Links are not followed. -/
def at? : Node → Path → Option Node
  | n, [] => some n
  | .folder entries, name :: rest =>
    match child? name entries with
    | some n => n.at? rest
    | none => none
  | _, _ :: _ => none

/-- The entries of a folder with a change to the one under `name`, which is put last when there is
none. -/
def alterEntry (name : Text) (f : Option Node → Node) : List (Text × Node) → List (Text × Node)
  | [] => [(name, f none)]
  | e :: es => if e.1 = name then (name, f (some e.2)) :: es else e :: alterEntry name f es

/-- Puts a node at a place, and makes the folders on the way. -/
def put (new : Node) : Path → Node → Node
  | [], _ => new
  | name :: rest, .folder entries =>
    .folder (alterEntry name (fun old? => put new rest (old?.getD (.folder []))) entries)
  | name :: rest, _ => .folder [(name, put new rest (.folder []))]

/-- Takes away the node at a place. -/
def erase : Path → Node → Node
  | [name], .folder entries => .folder (entries.filter fun e => e.1 ≠ name)
  | name :: rest, .folder entries =>
    .folder (entries.map fun e => if e.1 = name then (e.1, erase rest e.2) else e)
  | _, n => n

/-- The latest time of change of a file at or below the node, and zero if there is none later. -/
def latest : Node → Int
  | .file _ modified => max 0 modified
  | .link _ => 0
  | .folder entries => entries.attach.foldl (fun t ⟨e, _⟩ => max t e.2.latest) 0
termination_by n => sizeOf n
decreasing_by
  rename_i held
  have inner := List.sizeOf_lt_of_mem held
  have whole : sizeOf e = 1 + sizeOf e.1 + sizeOf e.2 := rfl
  simp only [folder.sizeOf_spec]
  omega

end Node

inductive FileError where
  | notFound
  | notAFolder
  | isAFolder
  | undecodable
  /-- The links on the way do not come to an end. -/
  | tooManyLinks
deriving DecidableEq, Repr

/-- The tree from its root, and the folder that relative paths start from. -/
structure FileTree where
  root : Node := .folder []
  workdir : Path := []

namespace FileTree

/-- How many links may be followed on the way to one file. -/
def maxLinks : Nat := 40

/-- The names on a path that may be missing. -/
inductive Missing where
  | none
  /-- The last one, as that of a file which is to be made. -/
  | last
  /-- All of them, as those of folders which are to be made. -/
  | all
deriving DecidableEq, Repr

/-- Follows the pieces of a path from a folder, with at most `links` links. -/
def walk (tree : FileTree) (missing : Missing) (links : Nat) (place : Path) :
    List Text → Except FileError Path
  | [] => .ok place
  | piece :: pieces =>
    match tree.root.at? place with
    | some (.folder entries) =>
      if piece = [] ∨ piece = Path.here then walk tree missing links place pieces
      else if piece = Path.parent then walk tree missing links place.dropLast pieces
      else
        match Node.child? piece entries with
        | some (.link target) =>
          match links with
          | 0 => .error .tooManyLinks
          | links + 1 =>
            walk tree missing links (if Path.isAbsolute target then [] else place)
              (Path.pieces target ++ pieces)
        | some _ => walk tree missing links (place ++ [piece]) pieces
        | none =>
          if missing = .all ∨ missing = .last ∧ pieces = [] then
            walk tree missing links (place ++ [piece]) pieces
          else .error .notFound
    | some _ => .error .notAFolder
    | none =>
      if missing = .all then walk tree missing links (Path.step place piece) pieces
      else .error .notFound
termination_by pieces => (links, pieces.length)

/-- The place that a written path leads to, where the given names may be missing. -/
def follow (tree : FileTree) (missing : Missing) (path : Text) : Except FileError Path :=
  tree.walk missing maxLinks (if Path.isAbsolute path then [] else tree.workdir) (Path.pieces path)

/-- The place that a written path leads to. The empty path leads nowhere. -/
def resolve (tree : FileTree) (path : Text) : Except FileError Path :=
  if path.isEmpty then .error .notFound else tree.follow .none path

def lookup (tree : FileTree) (path : Text) : Except FileError Node :=
  match tree.resolve path with
  | .error e => .error e
  | .ok p =>
    match tree.root.at? p with
    | some n => .ok n
    | none => .error .notFound

def written (p : Path) : Text := '/' :: ['/'].intercalate p

def isFolder (tree : FileTree) (path : Text) : Bool :=
  match tree.lookup path with
  | .ok (.folder _) => true
  | _ => false

def isFile (tree : FileTree) (path : Text) : Bool :=
  match tree.lookup path with
  | .ok (.file ..) => true
  | _ => false

@[ext] structure File where
  data : ByteArray
  modified : Int

def file (tree : FileTree) (path : Text) : Except FileError File :=
  match tree.lookup path with
  | .error e => .error e
  | .ok (.file data modified) => .ok ⟨data, modified⟩
  | .ok (.folder _) => .error .isAFolder
  | .ok (.link _) => .error .notFound

theorem file_eq_ok_iff {tree : FileTree} {path : Text} {f : File} :
    tree.file path = .ok f ↔
      ∃ p, tree.resolve path = .ok p ∧ tree.root.at? p = some (.file f.data f.modified) := by
  unfold file lookup
  cases tree.resolve path with
  | error e => simp
  | ok p =>
    simp only [Except.ok.injEq, exists_eq_left']
    rcases tree.root.at? p with _ | ⟨data, modified⟩ | _ | _ <;> simp [File.ext_iff]

/-- Newlines in one form: a carriage return, with a newline after it or without, is a newline. -/
def unifyNewlines : Text → Text
  | [] => []
  | c :: s =>
    if c = '\r' then '\n' :: unifyNewlines (if s.head? = some '\n' then s.tail else s)
    else c :: unifyNewlines s
termination_by s => s.length
decreasing_by
  · split <;> simp only [List.length_tail, List.length_cons] <;> omega
  · simp

namespace File

def exactText (f : File) : Except FileError Text :=
  match String.fromUTF8? f.data with
  | some s => .ok s.toList
  | none => .error .undecodable

def text (f : File) : Except FileError Text := f.exactText.map unifyNewlines

end File

/-- Puts a node where the path leads, and makes the folders on the way. -/
def put (tree : FileTree) (path : Text) (n : Node) : FileTree :=
  match tree.follow .all path with
  | .ok p => { tree with root := n.put p tree.root }
  | .error _ => tree

/-- Makes a folder where the path leads, unless there is one. -/
def makeFolder (tree : FileTree) (path : Text) : FileTree :=
  if tree.isFolder path then tree else tree.put path (.folder [])

/-- The written path of the folder that holds what the path names, and the name in it. -/
def splitLast (path : Text) : Text × Text :=
  let ps := Path.pieces path
  (if ps.length = 1 then Path.here else ['/'].intercalate ps.dropLast ++ ['/'], ps.getLast?.getD [])

/-- Puts a node under the very name of the path, where a link is not followed. -/
def putEntry (tree : FileTree) (path : Text) (n : Node) : FileTree :=
  let (folder, name) := splitLast path
  match tree.follow .all folder with
  | .ok p => { tree with root := n.put (p ++ [name]) tree.root }
  | .error _ => tree

/-- Takes away the file or the link under the very name of the path. A folder is not taken away. -/
def erase (tree : FileTree) (path : Text) : Except FileError FileTree :=
  let (folder, name) := splitLast path
  match tree.resolve folder with
  | .error e => .error e
  | .ok p =>
    if name = [] ∨ name = Path.here ∨ name = Path.parent then .error .isAFolder
    else
      match tree.root.at? (p ++ [name]) with
      | some (.folder _) => .error .isAFolder
      | some _ => .ok { tree with root := Node.erase (p ++ [name]) tree.root }
      | none => .error .notFound

/-- Gives the file that the path leads to another time of change. -/
def touch (tree : FileTree) (path : Text) (modified : Int) : Except FileError FileTree :=
  match tree.file path with
  | .ok f => .ok (tree.put path (.file f.data modified))
  | .error .isAFolder => .ok tree
  | .error e => .error e

def withoutTrailingSlashes (path : Text) : Text :=
  (path.reverse.dropWhile (· = '/')).reverse

/-- Opens a file for writing: an existing file is emptied, a missing one is made in a folder that
has to exist. A path that ends with a slash names a folder. The answer is the place of the file and
the tree with the empty file. -/
def create (tree : FileTree) (path : Text) (modified : Int) :
    Except FileError (Path × FileTree) :=
  match tree.resolve (splitLast (withoutTrailingSlashes path)).1 with
  | .error e => .error e
  | .ok p =>
    match tree.root.at? p with
    | some (.folder _) =>
      if path.getLast? = some '/' || tree.isFolder path then .error .isAFolder
      else
        match tree.follow .last path with
        | .ok made =>
          .ok (made, { tree with root := (Node.file .empty modified).put made tree.root })
        | .error e => .error e
    | _ => .error .notAFolder

/-- Writes a whole file where the path leads, and makes the folders on the way. -/
def writeFile (tree : FileTree) (path : Text) (data : ByteArray) (modified : Int) :
    Except FileError FileTree :=
  match (tree.makeFolder (splitLast path).1).create path modified with
  | .ok (place, made) => .ok { made with root := (Node.file data modified).put place made.root }
  | .error e => .error e

end FileTree

end StyleExpansion
