import StyleExpansion.Proofs.Extraction
import StyleExpansion.Proofs.Opening

/-!
What a search for style sources finds. `Admissible` says of the names below a folder, with no regard
to how a search goes, that a style source stands there. A search goes from folder to folder, and
each folder comes to the lists of its entries, one behind the other (`Lists.flatten`):

* `below_lists`: a search finds the admissible names, in the order of their components;
* `below_ok_iff`: it comes to its end when each link that it looks at leads to a file, to a folder
  or nowhere;
* `find_exact`: both, for a written root.
-/

namespace StyleExpansion

theorem Text.le_iff {s t : Text} : le s t = true ↔ s < t ∨ s = t := by
  induction s generalizing t with
  | nil => cases t <;> simp [le]
  | cons c s ih =>
    cases t with
    | nil => simp [le]
    | cons d t =>
      rw [le, List.cons_lt_cons_iff]
      by_cases same : c = d
      · simp [same, ih]
      · simp [same, Char.lt_def, UInt32.lt_iff_toNat_lt]

theorem Text.le_transitive {s t u : Text} (h : le s t = true) (h' : le t u = true) :
    le s u = true := by
  rw [le_iff, ← le_iff_lt_or_eq] at *
  exact le_trans h h'

theorem Text.le_total (s t : Text) : (le s t || le t s) = true := by
  rw [Bool.or_eq_true, le_iff, le_iff]
  rcases lt_trichotomy s t with before | rfl | behind
  · exact .inl (.inl before)
  · exact .inl (.inr rfl)
  · exact .inr (.inl behind)

theorem Text.ne_of_mem_reverse {mark : Char} {s : Text} (h : mark ∉ s) :
    ∀ c ∈ s.reverse, decide (c ≠ mark) = true := by
  intro c hc
  refine decide_eq_true fun same => h ?_
  rw [← same]
  exact List.mem_reverse.1 hc

theorem Text.afterLast_of_notMem {mark : Char} {s : Text} (h : mark ∉ s) : afterLast mark s = s := by
  rw [afterLast, List.takeWhile_eq_self_iff.2 (ne_of_mem_reverse h), List.reverse_reverse]

theorem Text.afterLast_append {mark : Char} {y : Text} (h : mark ∉ y) (x : Text) :
    afterLast mark (x ++ mark :: y) = y := by
  have cut : (x ++ mark :: y).reverse = y.reverse ++ mark :: x.reverse := by simp
  rw [afterLast, cut, List.takeWhile_append_of_pos (ne_of_mem_reverse h),
    List.takeWhile_cons_of_neg (by simp), List.append_nil, List.reverse_reverse]

/-- A mark that occurs in a text occurs there for the last time. -/
theorem Text.exists_last {mark : Char} {s : Text} (h : mark ∈ s) :
    ∃ x y, s = x ++ mark :: y ∧ mark ∉ y := by
  obtain ⟨y, x, cut, absent⟩ := List.eq_append_cons_of_mem (List.mem_reverse.2 h)
  refine ⟨x.reverse, y.reverse, ?_, fun mem => absent (List.mem_reverse.1 mem)⟩
  rw [← List.reverse_reverse s, cut]
  simp

/-- A file name with the extension of a style source. Before it stand not only dots. -/
def IsStyleName (name : Text) : Prop :=
  ∃ stem ext, name = stem ++ '.' :: ext ∧ ext ∈ styleExtensions ∧ ∃ c ∈ stem, c ≠ '.'

theorem dot_notMem_of_mem_styleExtensions {ext : Text} (h : ext ∈ styleExtensions) : '.' ∉ ext := by
  revert ext
  decide

theorem hasStyleExtension_iff {name : Text} (plain : '/' ∉ name) :
    hasStyleExtension name = true ↔ IsStyleName name := by
  have dots := List.takeWhile_append_dropWhile (p := (· = '.')) (l := name)
  rw [hasStyleExtension, extension, Text.afterLast_of_notMem plain, List.contains_iff_mem]
  constructor
  · intro known
    split at known
    · rename_i dotted
      obtain ⟨x, ext, cut, absent⟩ := Text.exists_last (List.contains_iff_mem.1 dotted)
      rw [cut, Text.afterLast_append absent] at known
      refine ⟨name.takeWhile (· = '.') ++ x, ext, ?_, known, ?_⟩
      · rw [List.append_assoc, ← cut, dots]
      · -- What is left of the name without its dots in front starts with something else.
        have first := List.head?_dropWhile_not (· = '.') name
        rw [cut] at first
        cases x with
        | nil => simp at first
        | cons c x => exact ⟨c, by simp, by simpa using first⟩
    · exact absurd known (by decide)
  · rintro ⟨stem, ext, rfl, known, c, mem, other⟩
    have absent := dot_notMem_of_mem_styleExtensions known
    have kept : (stem.dropWhile (· = '.')).isEmpty = false := by
      rw [List.isEmpty_eq_false_iff, ne_eq, List.dropWhile_eq_nil_iff]
      intro all
      exact other (by simpa using all c mem)
    simp only [List.dropWhile_append, kept, Bool.false_eq_true, if_false]
    rw [if_pos (by simp), Text.afterLast_append absent]
    exact known

namespace Path

theorem pieces_append_slash {p : Text} (plain : '/' ∉ p) (s : Text) :
    pieces (p ++ '/' :: s) = p :: pieces s := by
  induction p with
  | nil => rw [List.nil_append, pieces, if_pos rfl]
  | cons c p ih =>
    obtain ⟨other, rest⟩ : '/' ≠ c ∧ '/' ∉ p := by simpa using plain
    rw [List.cons_append, pieces, if_neg (Ne.symm other), ih rest]

theorem pieces_of_notMem {p : Text} (plain : '/' ∉ p) : pieces p = [p] := by
  induction p with
  | nil => rfl
  | cons c p ih =>
    obtain ⟨other, rest⟩ : '/' ≠ c ∧ '/' ∉ p := by simpa using plain
    rw [pieces, if_neg (Ne.symm other), ih rest]

/-- Names joined by slashes come apart again. -/
theorem pieces_intercalate {names : Path} (some_name : names ≠ [])
    (plain : ∀ name ∈ names, '/' ∉ name) : pieces (['/'].intercalate names) = names := by
  induction names with
  | nil => exact absurd rfl some_name
  | cons name rest ih =>
    obtain ⟨first, others⟩ := List.forall_mem_cons.1 plain
    cases rest with
    | nil => simpa using pieces_of_notMem first
    | cons next rest =>
      rw [List.intercalate_cons_cons, List.append_assoc, List.singleton_append,
        pieces_append_slash first, ih (by simp) others]

def spell (root : Text) (names : Path) : Text := join root (['/'].intercalate names)

/-- Whether the names can stand in folders: none is empty or has a slash. -/
def Plain (names : Path) : Prop := ∀ name ∈ names, name ≠ [] ∧ '/' ∉ name

instance (names : Path) : Decidable names.Plain :=
  inferInstanceAs (Decidable (∀ name ∈ names, name ≠ [] ∧ '/' ∉ name))

theorem Plain.not_isAbsolute {names : Path} (plain : names.Plain) :
    isAbsolute (['/'].intercalate names) = false := by
  cases names with
  | nil => rfl
  | cons name rest =>
    obtain ⟨some_char, apart⟩ := plain name List.mem_cons_self
    obtain ⟨c, s, rfl⟩ := List.exists_cons_of_ne_nil some_char
    have other : c ≠ '/' := fun same => apart (by simp [same])
    cases rest <;> simp [isAbsolute, List.intercalate, other]

theorem join_inj {a b c : Text} (relative : isAbsolute b = false) (relative' : isAbsolute c = false)
    (same : join a b = join a c) : b = c := by
  simp only [join, relative, relative', Bool.false_eq_true, if_false] at same
  split at same
  · exact List.append_cancel_left same
  · exact (List.cons.inj (List.append_cancel_left same)).2

theorem spell_inj {root : Text} {names others : Path} (plain : names.Plain) (plain' : others.Plain)
    (some_name : names ≠ []) (some_name' : others ≠ []) (same : spell root names = spell root others) :
    names = others := by
  have joined := join_inj plain.not_isAbsolute plain'.not_isAbsolute same
  rw [← pieces_intercalate some_name fun n hn => (plain n hn).2, joined,
    pieces_intercalate some_name' fun n hn => (plain' n hn).2]

end Path

/-! ## What stands below a folder -/

namespace Node

/-- The names in a folder are distinct and can stand in a path, and so it is in the folders below.
-/
inductive Proper : Node → Prop where
  | file (data : ByteArray) (modified : Int) : Proper (.file data modified)
  | link (target : Text) : Proper (.link target)
  | folder {entries : List (Text × Node)} (distinct : (entries.map Prod.fst).Nodup)
      (plain : Path.Plain (entries.map Prod.fst)) (inner : ∀ e ∈ entries, Proper e.2) :
      Proper (.folder entries)

theorem mem_of_child? {name : Text} {entries : List (Text × Node)} {n : Node}
    (h : child? name entries = some n) : (name, n) ∈ entries := by
  obtain ⟨e, found, rfl⟩ := Option.map_eq_some_iff.1 h
  obtain rfl : e.1 = name := by simpa using List.find?_some found
  exact List.mem_of_find?_eq_some found

theorem child?_of_mem {entries : List (Text × Node)} (distinct : (entries.map Prod.fst).Nodup)
    {e : Text × Node} (h : e ∈ entries) : child? e.1 entries = some e.2 := by
  cases found : child? e.1 entries with
  | none =>
    rw [child?, Option.map_eq_none_iff, List.find?_eq_none] at found
    exact absurd (decide_eq_true rfl) (found e h)
  | some n =>
    have same := List.inj_on_of_nodup_map distinct (mem_of_child? found) h rfl
    rw [← same]

theorem at?_concat_of_mem {root : Node} {place : Path} {entries : List (Text × Node)}
    (distinct : (entries.map Prod.fst).Nodup) (there : root.at? place = some (.folder entries))
    {e : Text × Node} (h : e ∈ entries) : root.at? (place ++ [e.1]) = some e.2 := by
  rw [at?_concat_of_folder there, child?_of_mem distinct h]

/-- What stands below a folder stands below one of its entries. -/
theorem exists_child? {root m : Node} {place rest : Path} {entries : List (Text × Node)} {name : Text}
    (there : root.at? place = some (.folder entries)) (h : root.at? (place ++ name :: rest) = some m) :
    ∃ n, child? name entries = some n ∧ n.at? rest = some m := by
  rw [at?_append, there, Option.bind_some, at?] at h
  split at h
  · rename_i n held
    exact ⟨n, held, h⟩
  · cases h

theorem Proper.plain_of_at? {n m : Node} {names : Path} (h : n.Proper)
    (there : n.at? names = some m) : names.Plain := by
  induction names generalizing n with
  | nil => nofun
  | cons name rest ih =>
    cases h with
    | file => cases there
    | link => cases there
    | folder distinct plain inner =>
      rw [at?] at there
      split at there
      · rename_i next held
        have mem := mem_of_child? held
        refine List.forall_mem_cons.2 ⟨?_, ih (inner _ mem) there⟩
        exact plain name (List.mem_map_of_mem (f := Prod.fst) mem)
      · cases there

end Node

namespace Discovery

/-- The names lead on from a folder through folders, links left aside, and a search passes over none
of them. -/
structure Reaches (tree : FileTree) (skip : Bool) (place names : Path) : Prop where
  some_name : names ≠ []
  admitted : ∀ name ∈ names, name ∉ ignoredNames ∧ (skip → name ≠ dependencyFolder)
  folders : ∀ front, front <+: names → front ≠ names →
    ∃ entries, tree.root.at? (place ++ front) = some (.folder entries)

/-- At the place stands a file or a link that leads to one. -/
def IsLeaf (tree : FileTree) (place : Path) : Prop :=
  (∃ data modified, tree.root.at? place = some (.file data modified)) ∨
    (∃ target, tree.root.at? place = some (.link target)) ∧ tree.isFile (FileTree.written place)

structure Admissible (tree : FileTree) (skip : Bool) (place names : Path) : Prop where
  reaches : Reaches tree skip place names
  leaf : IsLeaf tree (place ++ names)
  styled : ∀ name ∈ names.getLast?, IsStyleName name

/-- With links followed, the place is a file or a folder, or it is nothing: the link dangles. A link
that leads through a file, or round in a circle, does not settle. -/
def Settles (tree : FileTree) (place : Path) : Prop :=
  (∃ n, tree.lookup (FileTree.written place) = .ok n) ∨
    tree.lookup (FileTree.written place) = .error .notFound

/-- Each link that a search comes to leads to a file or to a folder, or it dangles. -/
def LinksSettle (tree : FileTree) (skip : Bool) (place : Path) : Prop :=
  ∀ names target, Reaches tree skip place names →
    tree.root.at? (place ++ names) = some (.link target) → Settles tree (place ++ names)

section
variable {tree : FileTree} {skip : Bool} {place : Path} {entries : List (Text × Node)}

theorem IsLeaf.exists_node (h : IsLeaf tree place) : ∃ n, tree.root.at? place = some n := by
  rcases h with ⟨data, modified, file⟩ | ⟨⟨target, link⟩, -⟩
  · exact ⟨_, file⟩
  · exact ⟨_, link⟩

theorem admits_iff {name : Text} :
    admits skip name = true ↔ name ∉ ignoredNames ∧ (skip → name ≠ dependencyFolder) := by
  cases skip <;> simp [admits]

theorem Reaches.folder {names : Path} (h : Reaches tree skip place names) :
    ∃ entries, tree.root.at? place = some (.folder entries) := by
  simpa using h.folders [] List.nil_prefix h.some_name.symm

theorem not_reaches {n : Node} (there : tree.root.at? place = some n)
    (other : ∀ entries, n ≠ .folder entries) {names : Path} : ¬ Reaches tree skip place names := by
  intro reaches
  obtain ⟨entries, folder⟩ := reaches.folder
  exact other entries (Option.some.inj (there.symm.trans folder))

theorem reaches_cons_iff (there : tree.root.at? place = some (.folder entries)) {name : Text}
    {rest : Path} : Reaches tree skip place (name :: rest) ↔
      admits skip name = true ∧ (rest = [] ∨ Reaches tree skip (place ++ [name]) rest) := by
  constructor
  · intro h
    refine ⟨admits_iff.2 (h.admitted name List.mem_cons_self), ?_⟩
    by_cases last : rest = []
    · exact .inl last
    · refine .inr ⟨last, fun n hn => h.admitted n (List.mem_cons_of_mem _ hn), ?_⟩
      intro front above other
      rw [List.append_assoc, List.singleton_append]
      exact h.folders (name :: front) (List.cons_prefix_cons.2 ⟨rfl, above⟩) (by simpa using other)
  · rintro ⟨admitted, last | further⟩
    · subst last
      refine ⟨by simp, by simpa using admits_iff.1 admitted, fun front above other => ?_⟩
      obtain rfl : front = [] := by
        rcases List.prefix_cons_iff.1 above with rfl | ⟨front, rfl, none_left⟩
        · rfl
        · rw [List.prefix_nil.1 none_left] at other
          exact absurd rfl other
      exact ⟨entries, by simpa using there⟩
    · refine ⟨by simp, List.forall_mem_cons.2 ⟨admits_iff.1 admitted, further.admitted⟩, ?_⟩
      intro front above other
      rcases List.prefix_cons_iff.1 above with rfl | ⟨front, rfl, inside⟩
      · exact ⟨entries, by simpa using there⟩
      · have inner := further.folders front inside (fun same => other (by rw [same]))
        rwa [List.append_assoc, List.singleton_append] at inner

theorem admissible_cons_iff (there : tree.root.at? place = some (.folder entries)) {name : Text}
    {rest : Path} : Admissible tree skip place (name :: rest) ↔ admits skip name = true ∧
      (rest = [] ∧ IsLeaf tree (place ++ [name]) ∧ IsStyleName name ∨
        Admissible tree skip (place ++ [name]) rest) := by
  have place_eq : place ++ name :: rest = place ++ [name] ++ rest := List.append_cons place name rest
  constructor
  · rintro ⟨reaches, leaf, styled⟩
    obtain ⟨admitted, last | further⟩ := (reaches_cons_iff there).1 reaches
    · subst last
      exact ⟨admitted, .inl ⟨rfl, leaf, styled name rfl⟩⟩
    · obtain ⟨next, rest, rfl⟩ := List.exists_cons_of_ne_nil further.some_name
      exact ⟨admitted, .inr ⟨further, place_eq ▸ leaf, by simpa using styled⟩⟩
  · rintro ⟨admitted, ⟨rfl, leaf, styled⟩ | ⟨further, leaf, styled⟩⟩
    · exact ⟨(reaches_cons_iff there).2 ⟨admitted, .inl rfl⟩, leaf, by simpa using styled⟩
    · refine ⟨(reaches_cons_iff there).2 ⟨admitted, .inr further⟩, place_eq ▸ leaf, ?_⟩
      obtain ⟨next, rest, rfl⟩ := List.exists_cons_of_ne_nil further.some_name
      simpa using styled

theorem leadsToFile_ok_iff : (∃ b, leadsToFile tree place = .ok b) ↔ Settles tree place := by
  unfold leadsToFile Settles
  rcases tree.lookup (FileTree.written place) with (_ | _ | _ | _ | _) | (_ | _ | _) <;> simp

theorem isFile_of_leadsToFile {b : Bool} (h : leadsToFile tree place = .ok b) :
    b = tree.isFile (FileTree.written place) := by
  unfold leadsToFile at h
  unfold FileTree.isFile
  generalize tree.lookup (FileTree.written place) = led at *
  rcases led with (_ | _ | _ | _ | _) | (_ | _ | _) <;> simp_all

end

structure Lists (P : Path → Prop) (found : List Path) : Prop where
  mem_iff : ∀ names, names ∈ found ↔ P names
  increasing : found.Pairwise (· < ·)

section
variable {P Q : Path → Prop} {found : List Path}

theorem Lists.congr (h : Lists P found) (same : ∀ names, P names ↔ Q names) : Lists Q found :=
  ⟨fun names => (h.mem_iff names).trans (same names), h.increasing⟩

theorem Lists.nil (none_has : ∀ names, ¬ P names) : Lists P [] :=
  ⟨fun names => by simp [none_has names], List.Pairwise.nil⟩

theorem Lists.under (name : Text) (h : Lists P found) :
    Lists (fun names => ∃ rest, names = name :: rest ∧ P rest) (found.map (name :: ·)) := by
  refine ⟨fun names => ?_, List.pairwise_map.2 (h.increasing.imp fun before => ?_)⟩
  · rw [List.mem_map]
    constructor
    · rintro ⟨rest, mem, rfl⟩
      exact ⟨rest, rfl, (h.mem_iff rest).1 mem⟩
    · rintro ⟨rest, rfl, has⟩
      exact ⟨rest, (h.mem_iff rest).2 has, rfl⟩
  · exact List.cons_lt_cons_iff.2 (.inr ⟨rfl, before⟩)

/-- The lists for the entries of a folder make up the list for the folder, one behind the other. -/
theorem Lists.flatten {es : List (Text × Node)} {lists : List (List Path)}
    (each : List.Forall₂ (fun e r => Lists (fun names => names.head? = some e.1 ∧ P names) r) es lists)
    (sorted : es.Pairwise (·.1 < ·.1)) :
    Lists (fun names => ∃ e ∈ es, names.head? = some e.1 ∧ P names) lists.flatten := by
  induction each with
  | nil => exact Lists.nil (by simp)
  | @cons e first es lists head _ ih =>
    obtain ⟨before, sorted⟩ := List.pairwise_cons.1 sorted
    have tail := ih sorted
    refine ⟨fun names => ?_, ?_⟩
    · rw [List.flatten_cons, List.mem_append, head.mem_iff, tail.mem_iff]
      simp
    · rw [List.flatten_cons]
      refine List.pairwise_append.2 ⟨head.increasing, tail.increasing, fun names mem others mem' => ?_⟩
      obtain ⟨starts, -⟩ := (head.mem_iff names).1 mem
      obtain ⟨e', later, starts', -⟩ := (tail.mem_iff others).1 mem'
      obtain ⟨rest, rfl⟩ := List.head?_eq_some_iff.1 starts
      obtain ⟨rest', rfl⟩ := List.head?_eq_some_iff.1 starts'
      exact List.cons_lt_cons_iff.2 (.inl (before e' later))

end

/-! ## The search -/

theorem sorted_increasing {entries : List (Text × Node)}
    (distinct : (entries.map Prod.fst).Nodup) : (sorted entries).Pairwise (·.1 < ·.1) := by
  have ordered : (sorted entries).Pairwise fun a b => Text.le a.1 b.1 = true := by
    refine List.pairwise_mergeSort ?_ ?_ entries
    · exact fun a b c => Text.le_transitive
    · exact fun a b => Text.le_total a.1 b.1
  have apart : (sorted entries).Pairwise fun a b => a.1 ≠ b.1 := by
    refine List.pairwise_map.1 (((List.mergeSort_perm _ _).map Prod.fst).nodup_iff.2 distinct)
  refine (ordered.and apart).imp fun both => ?_
  obtain ⟨le, other⟩ := both
  exact (Text.le_iff.1 le).resolve_right other

theorem mapM_eq_ok_iff {α β ε : Type} {f : α → Except ε β} {as : List α} {bs : List β} :
    as.mapM f = .ok bs ↔ List.Forall₂ (fun a b => f a = .ok b) as bs := by
  induction as generalizing bs with
  | nil =>
    rw [List.mapM_nil, List.forall₂_nil_left_iff]
    exact ⟨fun h => (Except.ok.inj h).symm, fun h => by rw [h]; rfl⟩
  | cons a as ih =>
    rw [List.mapM_cons, List.forall₂_cons_left_iff]
    cases first : f a with
    | error e => simp [bind, Except.bind]
    | ok b =>
      simp only [Except.ok.injEq, exists_and_left, exists_eq_left', ← ih]
      cases others : as.mapM f with
      | error e => simp [bind, Except.bind]
      | ok bs' => simp [bind, Except.bind, pure, Except.pure, eq_comm]

theorem mapM_ok_iff {α β ε : Type} {f : α → Except ε β} {as : List α} :
    (∃ bs, as.mapM f = .ok bs) ↔ ∀ a ∈ as, ∃ b, f a = .ok b := by
  induction as with
  | nil => simp [pure, Except.pure]
  | cons a as ih =>
    rw [List.mapM_cons, List.forall_mem_cons, ← ih]
    cases first : f a with
    | error e => simp [bind, Except.bind]
    | ok b => cases others : as.mapM f <;> simp [bind, Except.bind, pure, Except.pure]

theorem ok_map_iff {α β ε : Type} {x : Except ε α} {f : α → β} :
    (∃ b, f <$> x = .ok b) ↔ ∃ a, x = .ok a := by
  cases x <;> simp [Functor.map, Except.map]

section
variable {tree : FileTree} {skip : Bool} {place : Path} {entries : List (Text × Node)}
  {e : Text × Node}

/-- An entry that is no folder comes to itself, if it is a style source. -/
theorem lists_leaf {name : Text} {b : Bool} (there : tree.root.at? place = some (.folder entries))
    (admitted : admits skip name = true)
    (other : ∀ inner, tree.root.at? (place ++ [name]) ≠ some (.folder inner))
    (leaf : IsLeaf tree (place ++ [name]) ↔ b = true) (plain : '/' ∉ name) :
    Lists (fun names => names.head? = some name ∧ Admissible tree skip place names)
      (if b && hasStyleExtension name then [[name]] else []) := by
  have alone (names : Path) : names.head? = some name ∧ Admissible tree skip place names ↔
      names = [name] ∧ IsLeaf tree (place ++ [name]) ∧ IsStyleName name := by
    constructor
    · rintro ⟨starts, admissible⟩
      obtain ⟨rest, rfl⟩ := List.head?_eq_some_iff.1 starts
      obtain ⟨-, ⟨rfl, source⟩ | further⟩ := (admissible_cons_iff there).1 admissible
      · exact ⟨rfl, source⟩
      · obtain ⟨inner, folder⟩ := further.reaches.folder
        exact absurd folder (other inner)
    · rintro ⟨rfl, source⟩
      exact ⟨rfl, (admissible_cons_iff there).2 ⟨admitted, .inl ⟨rfl, source⟩⟩⟩
  split
  · rename_i source
    rw [Bool.and_eq_true, hasStyleExtension_iff plain, ← leaf] at source
    exact ⟨fun names => by simp [alone, source], List.pairwise_singleton _ _⟩
  · rename_i no_source
    rw [Bool.and_eq_true, hasStyleExtension_iff plain, ← leaf] at no_source
    exact Lists.nil fun names has => no_source ((alone names).1 has).2

/-- **One entry** comes to the admissible names that start with its own. -/
theorem belowEntry_lists {r : List Path} (there : tree.root.at? place = some (.folder entries))
    (here : tree.root.at? (place ++ [e.1]) = some e.2) (plain : '/' ∉ e.1)
    (inner : ∀ found, below tree skip (place ++ [e.1]) e.2 = .ok found →
      Lists (Admissible tree skip (place ++ [e.1])) found)
    (h : belowEntry tree skip place e = .ok r) :
    Lists (fun names => names.head? = some e.1 ∧ Admissible tree skip place names) r := by
  obtain ⟨name, node⟩ := e
  unfold belowEntry at h
  split at h
  · rename_i admitted
    cases node with
    | file data modified =>
      obtain rfl := Except.ok.inj h
      have leaf : IsLeaf tree (place ++ [name]) := .inl ⟨data, modified, here⟩
      have listed := lists_leaf (b := true) there admitted (by simp [here]) (by simpa using leaf) plain
      simpa using listed
    | link target =>
      cases led : leadsToFile tree (place ++ [name]) with
      | error e =>
        rw [led] at h
        cases h
      | ok b =>
        rw [led] at h
        obtain rfl := Except.ok.inj h
        refine lists_leaf there admitted (by simp [here]) ?_ plain
        rw [isFile_of_leadsToFile led]
        simp [IsLeaf, here]
    | folder deeper =>
      cases searched : below tree skip (place ++ [name]) (.folder deeper) with
      | error e =>
        simp only [searched] at h
        cases h
      | ok found =>
        simp only [searched] at h
        obtain rfl := Except.ok.inj h
        refine ((inner found searched).under name).congr fun names => ?_
        constructor
        · rintro ⟨rest, rfl, further⟩
          exact ⟨rfl, (admissible_cons_iff there).2 ⟨admitted, .inr further⟩⟩
        · rintro ⟨starts, admissible⟩
          obtain ⟨rest, rfl⟩ := List.head?_eq_some_iff.1 starts
          obtain ⟨-, ⟨-, leaf, -⟩ | further⟩ := (admissible_cons_iff there).1 admissible
          · simp [IsLeaf, here] at leaf
          · exact ⟨rest, rfl, further⟩
  · rename_i passed
    obtain rfl := Except.ok.inj h
    refine Lists.nil ?_
    rintro names ⟨starts, admissible⟩
    obtain ⟨rest, rfl⟩ := List.head?_eq_some_iff.1 starts
    exact passed ((admissible_cons_iff there).1 admissible).1

/-- An entry ends the search early when it is a link that does not settle, or when one below it does
not. -/
theorem belowEntry_ok_iff
    (inner : (∃ found, below tree skip (place ++ [e.1]) e.2 = .ok found) ↔
      LinksSettle tree skip (place ++ [e.1])) :
    (∃ r, belowEntry tree skip place e = .ok r) ↔ (admits skip e.1 = true →
      (∀ target, e.2 = .link target → Settles tree (place ++ [e.1])) ∧
        LinksSettle tree skip (place ++ [e.1])) := by
  obtain ⟨name, node⟩ := e
  rw [← inner]
  unfold belowEntry
  by_cases admitted : admits skip name = true
  · cases node with
    | file data modified => simp [admitted, below]
    | link target =>
      simp only [admitted, below, ← leadsToFile_ok_iff]
      cases leadsToFile tree (place ++ [name]) <;> simp [Except.map]
    | folder deeper =>
      simp only [admitted]
      cases below tree skip (place ++ [name]) (.folder deeper) <;> simp [Except.map]
  · simp [admitted]

theorem linksSettle_iff (distinct : (entries.map Prod.fst).Nodup)
    (there : tree.root.at? place = some (.folder entries)) :
    LinksSettle tree skip place ↔ ∀ e ∈ entries, admits skip e.1 = true →
      (∀ target, e.2 = .link target → Settles tree (place ++ [e.1])) ∧
        LinksSettle tree skip (place ++ [e.1]) := by
  constructor
  · intro settle e mem admitted
    refine ⟨fun target link => ?_, fun rest target reaches link => ?_⟩
    · refine settle [e.1] target ((reaches_cons_iff there).2 ⟨admitted, .inl rfl⟩) ?_
      rw [Node.at?_concat_of_mem distinct there mem, link]
    · rw [← List.append_cons] at link ⊢
      exact settle (e.1 :: rest) target ((reaches_cons_iff there).2 ⟨admitted, .inr reaches⟩) link
  · intro settle names target reaches link
    obtain ⟨name, rest, rfl⟩ := List.exists_cons_of_ne_nil reaches.some_name
    obtain ⟨n, held, below⟩ := Node.exists_child? there link
    obtain ⟨admitted, last | further⟩ := (reaches_cons_iff there).1 reaches
    · subst last
      exact (settle (name, n) (Node.mem_of_child? held) admitted).1 target (Option.some.inj below)
    · rw [List.append_cons] at link ⊢
      exact (settle (name, n) (Node.mem_of_child? held) admitted).2 rest target further link

theorem Admissible.exists_entry (there : tree.root.at? place = some (.folder entries)) {names : Path}
    (h : Admissible tree skip place names) : ∃ e ∈ entries, names.head? = some e.1 := by
  obtain ⟨name, rest, rfl⟩ := List.exists_cons_of_ne_nil h.reaches.some_name
  obtain ⟨m, stands⟩ := h.leaf.exists_node
  obtain ⟨n, held, -⟩ := Node.exists_child? there stands
  exact ⟨(name, n), Node.mem_of_child? held, rfl⟩

/-- **What a search finds**, folder by folder. -/
theorem below_lists {n : Node} (proper : n.Proper) (there : tree.root.at? place = some n)
    {found : List Path} (h : below tree skip place n = .ok found) :
    Lists (Admissible tree skip place) found := by
  induction proper generalizing place found with
  | file data modified =>
    rw [below] at h
    obtain rfl := Except.ok.inj h
    exact Lists.nil fun names admissible => not_reaches there (by simp) admissible.reaches
  | link target =>
    rw [below] at h
    obtain rfl := Except.ok.inj h
    exact Lists.nil fun names admissible => not_reaches there (by simp) admissible.reaches
  | @folder entries distinct plain inner ih =>
    rw [below_folder] at h
    obtain ⟨lists, searched, rfl⟩ := exists_of_map_eq_ok h
    have held := (List.forall₂_and_left _ _).2
      ⟨fun e (mem : e ∈ sorted entries) => List.mem_mergeSort.1 mem, mapM_eq_ok_iff.1 searched⟩
    have each : List.Forall₂ (fun e r => Lists (fun names =>
        names.head? = some e.1 ∧ Admissible tree skip place names) r) (sorted entries) lists := by
      refine held.imp fun e r both => ?_
      obtain ⟨mem, came⟩ := both
      have here := Node.at?_concat_of_mem distinct there mem
      have named := plain e.1 (List.mem_map_of_mem mem)
      exact belowEntry_lists there here named.2 (fun found searched => ih e mem here searched) came
    refine (Lists.flatten each (sorted_increasing distinct)).congr fun names => ?_
    constructor
    · rintro ⟨e, -, -, admissible⟩
      exact admissible
    · intro admissible
      obtain ⟨e, mem, starts⟩ := admissible.exists_entry there
      exact ⟨e, List.mem_mergeSort.2 mem, starts, admissible⟩

/-- **When a search comes to its end.** -/
theorem below_ok_iff {n : Node} (proper : n.Proper) (there : tree.root.at? place = some n) :
    (∃ found, below tree skip place n = .ok found) ↔ LinksSettle tree skip place := by
  induction proper generalizing place with
  | file data modified =>
    refine iff_of_true ⟨[], by rw [below]⟩ fun names target reaches => ?_
    exact absurd reaches (not_reaches there (by simp))
  | link target =>
    refine iff_of_true ⟨[], by rw [below]⟩ fun names target reaches => ?_
    exact absurd reaches (not_reaches there (by simp))
  | @folder entries distinct plain inner ih =>
    have each (e : Text × Node) (mem : e ∈ entries) :
        (∃ r, belowEntry tree skip place e = .ok r) ↔ (admits skip e.1 = true →
          (∀ target, e.2 = .link target → Settles tree (place ++ [e.1])) ∧
            LinksSettle tree skip (place ++ [e.1])) := by
      have here := Node.at?_concat_of_mem distinct there mem
      exact belowEntry_ok_iff (ih e mem here)
    rw [linksSettle_iff distinct there, below_folder, ok_map_iff, mapM_ok_iff]
    exact ⟨fun all e mem => (each e mem).1 (all e (List.mem_mergeSort.2 mem)),
      fun all e mem => (each e (List.mem_mergeSort.1 mem)).2 (all e (List.mem_mergeSort.1 mem))⟩

end

/-- **Discovery.** A search below a root comes to its end when each link that it comes to leads to a
file or to a folder or dangles, and only then. It finds the admissible names and no others, each
once, in the lexicographic order of the names by code point, and gives them as paths that start with
the root. -/
theorem find_exact {tree : FileTree} {skip : Bool} {root : Text} {place : Path}
    {entries : List (Text × Node)} (resolved : tree.resolve root = .ok place)
    (there : tree.root.at? place = some (.folder entries)) (proper : (Node.folder entries).Proper) :
    ((∃ paths, find tree skip root = .ok paths) ↔ LinksSettle tree skip place) ∧
    ∀ paths, find tree skip root = .ok paths → paths.Nodup ∧
      ∃ found : List Path, paths = found.map (Path.spell root) ∧
        (∀ names, names ∈ found ↔ Admissible tree skip place names) ∧ found.Pairwise (· < ·) := by
  have search : find tree skip root =
      (below tree skip place (.folder entries)).map (·.map (Path.spell root)) := by
    simp only [find, resolved, there]
    rfl
  rw [search]
  refine ⟨?_, fun paths came => ?_⟩
  · rw [← below_ok_iff proper there]
    exact ok_map_iff
  · obtain ⟨found, searched, rfl⟩ := exists_of_map_eq_ok came
    have listed := below_lists proper there searched
    refine ⟨?_, found, rfl, listed.mem_iff, listed.increasing⟩
    have plain (names : Path) (mem : names ∈ found) : names.Plain ∧ names ≠ [] := by
      have admissible := (listed.mem_iff names).1 mem
      refine ⟨?_, admissible.reaches.some_name⟩
      obtain ⟨n, stands⟩ := admissible.leaf.exists_node
      rw [Node.at?_append, there] at stands
      exact proper.plain_of_at? stands
    refine List.Nodup.map_on (fun names mem others mem' same => ?_) ?_
    · exact Path.spell_inj (plain names mem).1 (plain others mem').1 (plain names mem).2
        (plain others mem').2 same
    · exact listed.increasing.imp fun before => ne_of_lt before

/-- A folder with folders in it, one of which is passed over, with a link to a file, one that
dangles and one that leads back to the folder. -/
def linkedEntries : List (Text × Node) :=
  [("b.css".toList, .file .empty 1), ("a-b".toList, .folder [("y.css".toList, .file .empty 1)]),
    ("a".toList, .folder [("z.css".toList, .file .empty 1)]), ("a.css".toList, .link "b.css".toList),
    ("c.css".toList, .link "nowhere".toList), ("loop".toList, .link ".".toList),
    ("dist".toList, .folder [("x.css".toList, .file .empty 1)])]

def linkedTree : FileTree := ⟨.folder [("src".toList, .folder linkedEntries)], []⟩

theorem proper_linkedEntries : (Node.folder linkedEntries).Proper := by
  have lone (name : Text) (plain : Path.Plain [name]) :
      (Node.folder [(name, .file .empty 1)]).Proper :=
    .folder (by simp) (by simpa using plain) (by simpa using .file .empty 1)
  refine .folder (by decide +kernel) (by decide +kernel) ?_
  simp only [linkedEntries, List.forall_mem_cons]
  exact ⟨.file .empty 1, lone _ (by decide), lone _ (by decide), .link _, .link _, .link _,
    lone _ (by decide), nofun⟩

/-- The folder `a` comes before `a-b`, though its path with a slash behind it does not. -/
theorem find_exact_linkedTree :
    linkedTree.resolve "src".toList = .ok ["src".toList] ∧
    linkedTree.root.at? ["src".toList] = some (.folder linkedEntries) ∧
    (Node.folder linkedEntries).Proper ∧
    find linkedTree true "src".toList = .ok ["src/a/z.css".toList, "src/a-b/y.css".toList,
      "src/a.css".toList, "src/b.css".toList] ∧
    LinksSettle linkedTree true ["src".toList] ∧
    ∃ found : List Path, found.map (Path.spell "src".toList) = ["src/a/z.css".toList,
        "src/a-b/y.css".toList, "src/a.css".toList, "src/b.css".toList] ∧
      (∀ names, names ∈ found ↔ Admissible linkedTree true ["src".toList] names) ∧
      found.Pairwise (· < ·) := by
  have resolved : linkedTree.resolve "src".toList = .ok ["src".toList] := by cbv
  have there : linkedTree.root.at? ["src".toList] = some (.folder linkedEntries) := by rfl
  have searched : find linkedTree true "src".toList = .ok ["src/a/z.css".toList,
      "src/a-b/y.css".toList, "src/a.css".toList, "src/b.css".toList] := by
    cbv
  obtain ⟨ends, lists⟩ := find_exact resolved there proper_linkedEntries
  obtain ⟨-, found, spelled, admissible, increasing⟩ := lists _ searched
  exact ⟨resolved, there, proper_linkedEntries, searched, ends.1 ⟨_, searched⟩, found, spelled.symm,
    admissible, increasing⟩

end Discovery

end StyleExpansion
