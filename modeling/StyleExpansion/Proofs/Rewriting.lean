import StyleExpansion.Discovery
import StyleExpansion.FileTree
import Mathlib

namespace StyleExpansion

namespace Node

/-- The node with all files empty and without a date. -/
def shape : Node → Node
  | .file .. => .file .empty 0
  | .link target => .link target
  | .folder entries => .folder (entries.attach.map fun ⟨e, _⟩ => (e.1, e.2.shape))
termination_by n => sizeOf n
decreasing_by
  rename_i held
  have inner := List.sizeOf_lt_of_mem held
  have whole : sizeOf e = 1 + sizeOf e.1 + sizeOf e.2 := rfl
  simp only [folder.sizeOf_spec]
  omega

def shapeEntry (e : Text × Node) : Text × Node := (e.1, e.2.shape)

@[simp] theorem shape_file (data : ByteArray) (modified : Int) :
    (file data modified).shape = file .empty 0 := by
  rw [shape]

@[simp] theorem shape_link (target : Text) : (link target).shape = link target := by
  rw [shape]

@[simp] theorem shape_folder (entries : List (Text × Node)) :
    (folder entries).shape = folder (entries.map shapeEntry) := by
  rw [shape]
  simp only [List.map_subtype, List.unattach_attach]
  rfl

theorem child?_map_shapeEntry (name : Text) (entries : List (Text × Node)) :
    child? name (entries.map shapeEntry) = (child? name entries).map shape := by
  simp only [child?, List.find?_map, Option.map_map]
  rfl

theorem at?_shape (n : Node) (p : Path) : n.shape.at? p = (n.at? p).map shape := by
  induction p generalizing n with
  | nil => simp [at?]
  | cons name rest ih =>
    cases n with
    | file data modified => simp [at?]
    | link target => simp [at?]
    | folder entries =>
      simp only [shape_folder, at?, child?_map_shapeEntry]
      cases child? name entries with
      | none => rfl
      | some n => exact ih n

theorem child?_alterEntry (name other : Text) (f : Option Node → Node)
    (entries : List (Text × Node)) :
    child? other (alterEntry name f entries) =
      if other = name then some (f (child? name entries)) else child? other entries := by
  induction entries with
  | nil => by_cases same : other = name <;> simp [alterEntry, child?, same, eq_comm]
  | cons e es ih =>
    by_cases here : e.1 = name
    · by_cases same : other = name
      · simp [alterEntry, child?, here, same]
      · have : ¬ name = other := fun h => same h.symm
        simp [alterEntry, child?, here, same, this]
    · by_cases there : e.1 = other
      · have : ¬ other = name := fun h => here (there.trans h)
        simp [alterEntry, child?, there, this]
      · simp only [child?] at ih
        simp [alterEntry, child?, here, there, ih]

/-- A change that keeps the shape of what stands under the name keeps the shape of all entries. -/
theorem map_alterEntry {name : Text} {f : Option Node → Node} {n : Node}
    {entries : List (Text × Node)} (held : child? name entries = some n)
    (same : (f (some n)).shape = n.shape) :
    (alterEntry name f entries).map shapeEntry = entries.map shapeEntry := by
  induction entries with
  | nil => cases held
  | cons e es ih =>
    by_cases here : e.1 = name
    · obtain rfl : e.2 = n := by simpa [child?, here] using held
      simp [alterEntry, here, shapeEntry, same]
    · have held' : child? name es = some n := by
        simpa [child?, List.find?_cons, here] using held
      simp [alterEntry, here, ih held']

section
variable {n : Node} {p : Path} {data : ByteArray} {modified : Int}

/-- Rewriting a file keeps the shape. -/
theorem shape_put (stands : n.at? p = some (.file data modified)) (data' : ByteArray)
    (modified' : Int) : (put (.file data' modified') p n).shape = n.shape := by
  induction p generalizing n with
  | nil =>
    obtain rfl : n = .file data modified := by simpa [at?] using stands
    simp [put]
  | cons name rest ih =>
    cases n with
    | file _ _ => cases stands
    | link _ => cases stands
    | folder entries =>
      simp only [at?] at stands
      cases held : child? name entries with
      | none => simp [held] at stands
      | some n =>
        rw [held] at stands
        rw [put, shape_folder, shape_folder, map_alterEntry held]
        exact ih stands

/-- Rewriting a file changes that file and no other. -/
theorem at?_put (stands : n.at? p = some (.file data modified)) {q : Path} {data' : ByteArray}
    {modified' : Int} (other : n.at? q = some (.file data' modified')) (new : Node) :
    (put new p n).at? q = if q = p then some new else some (.file data' modified') := by
  induction p generalizing n q with
  | nil =>
    obtain rfl : n = .file data modified := by simpa [at?] using stands
    cases q with
    | nil => simp [put, at?]
    | cons _ _ => cases other
  | cons name rest ih =>
    cases n with
    | file _ _ => cases stands
    | link _ => cases stands
    | folder entries =>
      cases q with
      | nil => cases other
      | cons name' rest' =>
        simp only [at?] at stands other
        simp only [put, at?, child?_alterEntry]
        by_cases same : name' = name
        · subst same
          cases held : child? name' entries with
          | none => simp [held] at stands
          | some n =>
            rw [held] at stands other
            simpa using ih stands other
        · simp only [same, if_false, List.cons.injEq, false_and]
          exact other

end

end Node

namespace FileTree

def shape (tree : FileTree) : FileTree := { tree with root := tree.root.shape }

section
variable (tree : FileTree)

theorem at?_root_shape (place : Path) :
    tree.shape.root.at? place = (tree.root.at? place).map Node.shape :=
  Node.at?_shape tree.root place

theorem walk_shape (missing : Missing) (links : Nat) (place : Path) (pieces : List Text) :
    tree.shape.walk missing links place pieces = tree.walk missing links place pieces := by
  fun_induction walk tree missing links place pieces with
  | case1 => rw [walk]
  | case6 links place piece pieces entries _ _ _ n _ held ih =>
    rw [walk]
    cases n <;> simp_all [at?_root_shape, Node.child?_map_shapeEntry]
  | case9 links place piece pieces n _ _ =>
    rw [walk]
    cases n <;> simp_all [at?_root_shape]
  | _ =>
    rw [walk]
    simp_all [at?_root_shape, Node.child?_map_shapeEntry]

@[simp] theorem resolve_shape (path : Text) : tree.shape.resolve path = tree.resolve path := by
  unfold resolve follow
  rw [walk_shape]
  rfl

theorem lookup_shape (path : Text) :
    tree.shape.lookup path = (tree.lookup path).map Node.shape := by
  unfold lookup
  rw [resolve_shape]
  cases tree.resolve path with
  | error e => rfl
  | ok p =>
    simp only [at?_root_shape]
    cases tree.root.at? p with
    | none => rfl
    | some n => rfl

@[simp] theorem isFolder_shape (path : Text) : tree.shape.isFolder path = tree.isFolder path := by
  unfold isFolder
  rw [lookup_shape]
  rcases tree.lookup path with e | ⟨_, _⟩ | _ | _ <;> simp [Except.map]

@[simp] theorem isFile_shape (path : Text) : tree.shape.isFile path = tree.isFile path := by
  unfold isFile
  rw [lookup_shape]
  rcases tree.lookup path with e | ⟨_, _⟩ | _ | _ <;> simp [Except.map]

/-- A path that leads somewhere leads there also when names on it may be missing. -/
theorem walk_all {links : Nat} {place p : Path} {pieces : List Text}
    (h : tree.walk .none links place pieces = .ok p) : tree.walk .all links place pieces = .ok p := by
  generalize same : Missing.none = missing at h
  fun_induction walk tree missing links place pieces
  all_goals
    subst same
    rw [walk]
    simp_all

end

end FileTree

namespace Discovery

open FileTree (shape)

variable (tree : FileTree)

theorem leadsToFile_shape (place : Path) :
    leadsToFile tree.shape place = leadsToFile tree place := by
  unfold leadsToFile
  rw [FileTree.lookup_shape]
  rcases tree.lookup (FileTree.written place) with _ | ⟨_, _⟩ | _ | _ <;> simp [Except.map]

def belowEntry (skip : Bool) (place : Path) (e : Text × Node) : Except FileError (List Path) :=
  if admits skip e.1 then
    match e.2 with
    | .folder _ => (below tree skip (place ++ [e.1]) e.2).map (·.map (e.1 :: ·))
    | .file .. => .ok (if hasStyleExtension e.1 then [[e.1]] else [])
    | .link _ =>
      (leadsToFile tree (place ++ [e.1])).map fun isFile =>
        if isFile && hasStyleExtension e.1 then [[e.1]] else []
  else .ok []

theorem below_folder (skip : Bool) (place : Path) (entries : List (Text × Node)) :
    below tree skip place (.folder entries) =
      List.flatten <$> (sorted entries).mapM (belowEntry tree skip place) := by
  have unattached : (sorted entries).mapM (belowEntry tree skip place) =
      (sorted entries).attach.mapM fun e => belowEntry tree skip place e.1 := by
    simp
  rw [below, unattached, bind_pure_comp]
  congr 2
  funext e
  obtain ⟨⟨name, node⟩, held⟩ := e
  cases node <;> rfl

theorem sorted_map (entries : List (Text × Node)) :
    sorted (entries.map Node.shapeEntry) = (sorted entries).map Node.shapeEntry := by
  unfold sorted
  rw [List.map_mergeSort]
  intro a _ b _
  rfl

theorem mapM_congr {α β ε : Type} {f g : α → Except ε β} {as : List α}
    (h : ∀ a ∈ as, f a = g a) : as.mapM f = as.mapM g := by
  induction as with
  | nil => rfl
  | cons a as ih =>
    rw [List.mapM_cons, List.mapM_cons, h a List.mem_cons_self,
      ih fun b hb => h b (List.mem_cons_of_mem _ hb)]

theorem below_shape (skip : Bool) (place : Path) (n : Node) :
    below tree.shape skip place n.shape = below tree skip place n := by
  match n with
  | .file _ _ => simp [below]
  | .link _ => simp [below]
  | .folder entries =>
    rw [Node.shape_folder, below_folder, below_folder, sorted_map, List.mapM_map]
    congr 1
    refine mapM_congr ?_
    rintro ⟨name, n⟩ held
    show belowEntry tree.shape skip place (name, n.shape) = belowEntry tree skip place (name, n)
    cases n with
    | file _ _ => simp [belowEntry]
    | link _ => simp [belowEntry, leadsToFile_shape]
    | folder inner =>
      have ih := below_shape skip (place ++ [name]) (.folder inner)
      simp only [Node.shape_folder] at ih
      simp [belowEntry, ih]
termination_by sizeOf n
decreasing_by
  have held := List.sizeOf_lt_of_mem (List.mem_mergeSort.1 held)
  simp only [Prod.mk.sizeOf_spec, Node.folder.sizeOf_spec] at held ⊢
  omega

theorem sources_shape (root : Text) : sources tree.shape root = sources tree root := by
  unfold sources find
  simp only [FileTree.isFolder_shape, FileTree.isFile_shape, FileTree.resolve_shape]
  cases tree.resolve root with
  | error e => rfl
  | ok p =>
    simp only [FileTree.at?_root_shape]
    rcases tree.root.at? p with _ | ⟨_, _⟩ | _ | entries
    · rfl
    · simp
    · simp
    · have same := below_shape tree true p (.folder entries)
      simp only [Node.shape_folder] at same
      simp [same]

end Discovery

namespace FileTree

/-- A tree in which files have been rewritten, each with a time of change after `time`. -/
inductive Rewritten (time : Int) (tree : FileTree) : FileTree → Prop where
  | untouched : Rewritten time tree tree
  | write {next : FileTree} (sofar : Rewritten time tree next) (path : Text) (data : ByteArray)
      (modified : Int) (isFile : next.isFile path = true) (later : time < modified) :
      Rewritten time tree (next.put path (.file data modified))

/-- Where a file is rewritten. -/
theorem put_of_isFile {tree : FileTree} {path : Text} (h : tree.isFile path = true) :
    ∃ p data modified, tree.root.at? p = some (.file data modified) ∧
      ∀ n, tree.put path n = { tree with root := n.put p tree.root } := by
  unfold isFile lookup at h
  cases resolved : tree.resolve path with
  | error e => simp [resolved] at h
  | ok p =>
    simp only [resolved] at h
    rcases found : tree.root.at? p with _ | ⟨data, modified⟩ | _ | _
    · simp [found] at h
    · refine ⟨p, data, modified, found, ?_⟩
      intro n
      have followed : tree.follow .all path = .ok p := by
        unfold resolve at resolved
        split at resolved
        · cases resolved
        · exact walk_all tree resolved
      rw [put, followed]
    · simp [found] at h
    · simp [found] at h

section
variable {tree : FileTree} {path : Text} (isFile : tree.isFile path = true) (data : ByteArray)
  (modified : Int)

include isFile

theorem shape_put : (tree.put path (.file data modified)).shape = tree.shape := by
  obtain ⟨p, data', modified', stands, put_eq⟩ := put_of_isFile isFile
  rw [put_eq, shape, shape, Node.shape_put stands]

/-- A file is still what it was, unless it is the one that is rewritten. -/
theorem file_put {path' : Text} {f : File} (before : tree.file path' = .ok f) :
    (tree.put path (.file data modified)).file path' = .ok f ∨
      (tree.put path (.file data modified)).file path' = .ok ⟨data, modified⟩ := by
  obtain ⟨p, data', modified', stands, put_eq⟩ := put_of_isFile isFile
  obtain ⟨q, leads, there⟩ := file_eq_ok_iff.1 before
  have leads' : (tree.put path (.file data modified)).resolve path' = .ok q := by
    rw [← resolve_shape, shape_put isFile, resolve_shape]
    exact leads
  have now := Node.at?_put stands there (.file data modified)
  simp only [file_eq_ok_iff, leads']
  rw [put_eq]
  by_cases same : q = p
  · exact Or.inr ⟨q, rfl, by rw [now, if_pos same]⟩
  · exact Or.inl ⟨q, rfl, by rw [now, if_neg same]⟩

end

namespace Rewritten

variable {time : Int} {tree next : FileTree} (h : Rewritten time tree next)

include h

theorem shape_eq : next.shape = tree.shape := by
  induction h with
  | untouched => rfl
  | write sofar path data modified isFile later ih => rw [shape_put isFile, ih]

theorem workdir_eq : next.workdir = tree.workdir := by
  have same := congrArg workdir h.shape_eq
  exact same

theorem sources_eq (root : Text) : Discovery.sources next root = Discovery.sources tree root := by
  rw [← Discovery.sources_shape next, ← Discovery.sources_shape tree, h.shape_eq]

/-- A file stays what it was or has a later time of change. -/
theorem file_cases {path : Text} {f : File} (found : tree.file path = .ok f) :
    next.file path = .ok f ∨ ∃ changed, next.file path = .ok changed ∧ time < changed.modified := by
  induction h with
  | untouched => exact Or.inl found
  | write sofar path' data modified isFile later ih =>
    rcases ih with same | ⟨changed, before, after⟩
    · rcases file_put isFile data modified same with same | rewritten
      · exact Or.inl same
      · exact Or.inr ⟨_, rewritten, later⟩
    · rcases file_put isFile data modified before with same | rewritten
      · exact Or.inr ⟨changed, same, after⟩
      · exact Or.inr ⟨_, rewritten, later⟩

end Rewritten

end FileTree

end StyleExpansion
