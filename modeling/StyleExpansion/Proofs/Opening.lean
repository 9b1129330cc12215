import StyleExpansion.Proofs.Rewriting
import Mathlib

namespace StyleExpansion

namespace Node

/-- The node without what it holds, if it is a folder. -/
def bare : Node → Node
  | .folder _ => .folder []
  | n => n

theorem exists_folder_of_bare {n : Node} {entries : List (Text × Node)}
    (h : n.bare = .folder entries) : ∃ entries', n = .folder entries' := by
  cases n with
  | folder entries' => exact ⟨entries', rfl⟩
  | file _ _ => cases h
  | link _ => cases h

theorem eq_link_of_bare {n : Node} {target : Text} (h : n.bare = .link target) :
    n = .link target := by
  cases n with
  | folder _ => cases h
  | file _ _ => cases h
  | link _ => exact h

/-- All places above this one are folders. -/
def Fits (root : Node) (place : Path) : Prop :=
  ∀ q, q <+: place → q ≠ place → ∃ entries, root.at? q = some (.folder entries)

theorem at?_append (n : Node) (p q : Path) : n.at? (p ++ q) = (n.at? p).bind (·.at? q) := by
  induction p generalizing n with
  | nil => simp [at?]
  | cons name rest ih =>
    cases n with
    | file _ _ => rfl
    | link _ => rfl
    | folder entries =>
      simp only [List.cons_append, at?]
      cases child? name entries with
      | none => rfl
      | some n => exact ih n

theorem at?_concat_of_folder {root : Node} {p : Path} {entries : List (Text × Node)}
    (h : root.at? p = some (.folder entries)) (name : Text) :
    root.at? (p ++ [name]) = child? name entries := by
  rw [at?_append, h]
  cases child : child? name entries with
  | none => simp [at?, child]
  | some n => simp [at?, child]

theorem fits_of_at? {root n : Node} {place : Path} (h : root.at? place = some n) :
    root.Fits place := by
  rintro q ⟨rest, rfl⟩ other
  rw [at?_append, Option.bind_eq_some_iff] at h
  obtain ⟨m, there, below⟩ := h
  cases rest with
  | nil => simp at other
  | cons name rest =>
    cases m with
    | folder entries => exact ⟨entries, there⟩
    | file _ _ => cases below
    | link _ => cases below

theorem Fits.above {root : Node} {place q : Path} (h : root.Fits place) (above : q <+: place) :
    root.Fits q := by
  intro r hr other
  refine h r (hr.trans above) fun same => other ?_
  exact hr.eq_of_length_le (same ▸ above.length_le)

theorem Fits.concat {root : Node} {place : Path} {entries : List (Text × Node)}
    (h : root.Fits place) (there : root.at? place = some (.folder entries)) (name : Text) :
    root.Fits (place ++ [name]) := by
  intro q hq other
  rcases List.prefix_concat_iff.1 hq with same | above
  · exact absurd same other
  · by_cases here : q = place
    · exact ⟨entries, here ▸ there⟩
    · exact h q above here

theorem at?_put_self (new n : Node) (place : Path) : (put new place n).at? place = some new := by
  induction place generalizing n with
  | nil => simp [put, at?]
  | cons name rest ih =>
    cases n with
    | folder entries => simp [put, at?, child?_alterEntry, ih]
    | file _ _ => simp [put, at?, child?, ih]
    | link _ => simp [put, at?, child?, ih]

/-- A node that is put in a folder changes what is there only at and below its place. -/
theorem bare_at?_put (new : Node) {n : Node} {place q : Path} (fits : n.Fits place)
    (outside : ¬ place <+: q) : ((put new place n).at? q).map bare = (n.at? q).map bare := by
  induction place generalizing n q with
  | nil => exact absurd (List.nil_prefix) outside
  | cons name rest ih =>
    obtain ⟨entries, here⟩ := fits [] List.nil_prefix (by simp)
    obtain rfl : n = .folder entries := by simpa [at?] using here
    cases q with
    | nil => simp [put, at?, bare]
    | cons name' q =>
      simp only [put, at?, child?_alterEntry]
      by_cases same : name' = name
      · subst same
        have outside_rest : ¬ rest <+: q := fun above => outside (by simpa using above)
        have rest_ne : [name'] ≠ name' :: rest := by
          intro same
          obtain rfl : rest = [] := (List.cons.inj same).2.symm
          exact outside_rest List.nil_prefix
        obtain ⟨inner, held⟩ := fits [name'] (by simp) rest_ne
        simp only [at?] at held
        cases child : child? name' entries with
        | none => simp [child] at held
        | some m =>
          have fits_child : m.Fits rest := by
            intro r hr other
            have := fits (name' :: r) (by simpa using hr) (by simpa using other)
            simpa [at?, child] using this
          simpa [child] using ih fits_child outside_rest
      · simp [same]

/-- Nothing stands below a file. -/
theorem at?_put_file_below (n : Node) (data : ByteArray) (modified : Int) (place : Path) (name : Text)
    (rest : Path) : (put (.file data modified) place n).at? (place ++ name :: rest) = none := by
  rw [at?_append, at?_put_self]
  rfl

end Node

theorem Path.pieces_ne_nil (s : Text) : Path.pieces s ≠ [] := by
  cases s with
  | nil => simp [Path.pieces]
  | cons c s =>
    rw [Path.pieces]
    split
    · simp
    · split <;> simp

namespace FileTree

def withFile (tree : FileTree) (place : Path) (data : ByteArray) (modified : Int) : FileTree :=
  { tree with root := (Node.file data modified).put place tree.root }

/-- A path is followed to a place whose folders are there. -/
theorem fits_of_walk {tree : FileTree} {links : Nat} {place made : Path} {pieces : List Text}
    (h : tree.walk .last links place pieces = .ok made)
    (fits : pieces = [] → tree.root.Fits place) : tree.root.Fits made := by
  generalize last : Missing.last = missing at h
  fun_induction walk tree missing links place pieces with
  | case1 links place => exact Except.ok.inj h ▸ fits rfl
  | case2 links place piece pieces entries there _ ih =>
    exact ih (fun _ => Node.fits_of_at? there) h
  | case3 links place pieces entries there _ ih =>
    exact ih (fun _ => (Node.fits_of_at? there).above (List.dropLast_prefix place)) h
  | case4 => cases h
  | case5 place piece pieces entries there _ _ target _ links ih =>
    refine ih (fun _ => ?_) h
    split
    · exact fun q hq other => absurd (List.prefix_nil.1 hq) other
    · exact Node.fits_of_at? there
  | case6 links place piece pieces entries there _ _ n _ held ih =>
    exact ih (fun _ => (Node.fits_of_at? there).concat there piece) h
  | case7 links place piece pieces entries there _ _ _ _ ih =>
    exact ih (fun _ => (Node.fits_of_at? there).concat there piece) h
  | case8 => cases h
  | case9 => cases h
  | case10 links place piece pieces _ all ih => simp [← last] at all
  | case11 => cases h

theorem walk_from_file {tree : FileTree} {place q : Path} {data : ByteArray} {modified : Int}
    (stands : tree.root.at? place = some (.file data modified)) {links : Nat} {pieces : List Text}
    (h : tree.walk .none links place pieces = .ok q) : q = place := by
  cases pieces with
  | nil =>
    rw [walk] at h
    exact (Except.ok.inj h).symm
  | cons piece pieces =>
    rw [walk, stands] at h
    cases h

section
variable {tree : FileTree} {place : Path} {data : ByteArray} {modified : Int}
  (fits : tree.root.Fits place)

include fits

/-- A walk that comes by a folder beside the file that was put comes by the same folder without
it, and finds the same names in it, other than that of the file. -/
theorem folder_of_withFile {cur : Path} {entries : List (Text × Node)}
    (there : (tree.withFile place data modified).root.at? cur = some (.folder entries)) :
    ∃ entries', tree.root.at? cur = some (.folder entries') ∧
      ∀ name, cur ++ [name] ≠ place →
        (Node.child? name entries').map Node.bare = (Node.child? name entries).map Node.bare := by
  have apart : ¬ place <+: cur := by
    rintro ⟨rest, rfl⟩
    cases rest with
    | nil =>
      rw [List.append_nil, withFile, Node.at?_put_self] at there
      cases there
    | cons name rest =>
      rw [withFile, Node.at?_put_file_below] at there
      cases there
  have same := Node.bare_at?_put (.file data modified) fits apart
  rw [withFile] at there
  rw [there, eq_comm, Option.map_some, Option.map_eq_some_iff] at same
  obtain ⟨n, there', same⟩ := same
  obtain ⟨entries', rfl⟩ := Node.exists_folder_of_bare same
  refine ⟨entries', there', ?_⟩
  intro name other
  rw [← Node.at?_concat_of_folder there, ← Node.at?_concat_of_folder there']
  refine (Node.bare_at?_put _ fits fun above => ?_).symm
  rcases List.prefix_concat_iff.1 above with same | above
  · exact other same.symm
  · exact apart above

theorem walk_of_withFile {links : Nat} {cur q : Path} {pieces : List Text}
    (h : (tree.withFile place data modified).walk .none links cur pieces = .ok q)
    (other : q ≠ place) : tree.walk .none links cur pieces = .ok q := by
  have stands : (tree.withFile place data modified).root.at? place = some (.file data modified) :=
    Node.at?_put_self _ _ _
  have folder := @folder_of_withFile tree place data modified fits
  generalize tree.withFile place data modified = opened at h stands folder
  generalize whole : Missing.none = missing at h
  fun_induction walk opened missing links cur pieces with
  | case1 links cur =>
    rw [walk]
    exact h
  | case2 links cur piece pieces entries there skipped ih =>
    obtain ⟨entries', there', -⟩ := folder there
    rw [walk]
    simp only [there', skipped, if_true]
    exact ih h
  | case3 links cur pieces entries there skipped ih =>
    obtain ⟨entries', there', -⟩ := folder there
    rw [walk]
    simp only [there', skipped, if_true, if_false]
    exact ih h
  | case4 => cases h
  | case5 cur piece pieces entries there skipped up target held links ih =>
    obtain ⟨entries', there', names⟩ := folder there
    have apart : cur ++ [piece] ≠ place := by
      intro same
      rw [← same, Node.at?_concat_of_folder there, held] at stands
      cases stands
    have held' : Node.child? piece entries' = some (.link target) := by
      have same := names piece apart
      rw [held, Option.map_some, Option.map_eq_some_iff] at same
      obtain ⟨n, held', same⟩ := same
      rw [held', Node.eq_link_of_bare same]
    rw [walk]
    simp only [there', skipped, up, held', if_false]
    exact ih h
  | case6 links cur piece pieces entries there skipped up n no_link held ih =>
    obtain ⟨entries', there', names⟩ := folder there
    by_cases here : cur ++ [piece] = place
    · -- The walk has come to the file itself, and cannot go on from there.
      subst here whole
      exact absurd (walk_from_file stands h) other
    · have same := names piece here
      rw [held, Option.map_some, Option.map_eq_some_iff] at same
      obtain ⟨n', held', same⟩ := same
      rw [walk]
      simp only [there', skipped, up, held', if_false]
      cases n' with
      | link target => exact absurd (Node.eq_link_of_bare same.symm) (no_link target)
      | file _ _ => exact ih h
      | folder _ => exact ih h
  | case7 links cur piece pieces entries there skipped up held missing ih =>
    simp [← whole] at missing
  | case8 => cases h
  | case9 => cases h
  | case10 links cur piece pieces _ all ih => simp [← whole] at all
  | case11 => cases h

/-- A file that is found beside the one that was put was there before. -/
theorem file_of_withFile {path : Text} {f : File}
    (found : (tree.withFile place data modified).file path = .ok f)
    (other : (tree.withFile place data modified).resolve path ≠ .ok place) :
    tree.file path = .ok f := by
  obtain ⟨q, leads, there⟩ := file_eq_ok_iff.1 found
  have apart : q ≠ place := fun same => other (same ▸ leads)
  refine file_eq_ok_iff.2 ⟨q, ?_, ?_⟩
  · unfold resolve at leads ⊢
    split at leads
    · cases leads
    · rename_i some_path
      rw [if_neg some_path]
      exact walk_of_withFile fits leads apart
  · have outside : ¬ place <+: q := by
      rintro ⟨rest, rfl⟩
      cases rest with
      | nil => exact apart (List.append_nil place)
      | cons name rest =>
        rw [withFile, Node.at?_put_file_below] at there
        cases there
    have same := Node.bare_at?_put (.file data modified) fits outside
    rw [withFile] at there
    rw [there, eq_comm, Option.map_some, Option.map_eq_some_iff] at same
    obtain ⟨n, there', same⟩ := same
    cases n with
    | file _ _ =>
      rw [there']
      exact congrArg some same
    | folder _ => cases same
    | link _ => cases same

end

/-- What opening a file for writing does to the tree. -/
theorem create_eq {tree opened : FileTree} {path : Text} {modified : Int} {place : Path}
    (h : tree.create path modified = .ok (place, opened)) :
    tree.root.Fits place ∧ opened = tree.withFile place .empty modified := by
  unfold create at h
  split at h
  · cases h
  · split at h
    · split at h
      · cases h
      · split at h
        · rename_i made followed
          obtain ⟨rfl, rfl⟩ := Prod.mk.inj (Except.ok.inj h)
          refine ⟨fits_of_walk followed fun no_pieces => ?_, rfl⟩
          exact absurd no_pieces (Path.pieces_ne_nil path)
        · cases h
    · cases h

end FileTree

end StyleExpansion
