import StyleExpansion.Proofs.Access
import StyleExpansion.Proofs.Extraction
import StyleExpansion.Proofs.Rewriting

/-!
Scanning again. A second scan reads only the files that changed since the first one, and what it
registers comes after all that the first one registered. A build that starts anew reads all files in
order. Of several declarations of one name the last that is read stands, so the two need not agree.

* `scanned_of_gives`: a scan that succeeds has registered the declarations of the places it read
  (`Disk.readings`), in that order;
* `filter_readings`: of the places that changed, a second scan reads what a new build reads, and of
  the others the first scan has read what a new build reads;
* `rescan_agrees`: for which names the two builds agree; `rescan_restores_overridden`: that they
  need not.
-/

namespace StyleExpansion

namespace Declaration

/-- The definition that the declarations of a text leave under a name: that of the last one. -/
def last? (kind : Kind) (name text : Text) : Option Definition :=
  ((scan kind text).items.map definition).reverse.find? (·.name = name)

end Declaration

namespace Context

theorem get?_extract {text : Text} {found : List Span} (h : Declaration.spans text = .ok found)
    (c : Context) (kind : Kind) (name : Text) :
    ((extract text c).1.registry kind).get? name =
      (Declaration.last? kind name text).or ((c.registry kind).get? name) := by
  rw [extract_of_scans c (Declaration.complete_of_spans h .function)
    (Declaration.complete_of_spans h .mixin)]
  cases kind with
  | function => exact Registry.get?_registerAll ..
  | mixin => exact Registry.get?_registerAll ..

end Context

namespace Act

variable {σ ε α β : Type} {s t u : σ}

/-- The step succeeds with the value and leaves the state. -/
def Gives (x : Act σ ε α) (s t : σ) (a : α) : Prop := ∃ log, x s = (t, ⟨log, .ok a⟩)

theorem gives_of_result {x : Act σ ε α} {a : α} (h : (x s).2.result = .ok a) :
    Gives x s (x s).1 a :=
  ⟨(x s).2.log, by rw [← h]⟩

theorem Gives.eq {x : Act σ ε α} {a : α} (h : Gives x s t a) :
    (x s).1 = t ∧ (x s).2.result = .ok a := by
  obtain ⟨log, ran⟩ := h
  rw [ran]
  exact ⟨rfl, rfl⟩

theorem gives_pure {a b : α} : Gives (pure a : Act σ ε α) s t b ↔ t = s ∧ b = a := by
  constructor
  · rintro ⟨log, ran⟩
    cases ran
    exact ⟨rfl, rfl⟩
  · rintro ⟨rfl, rfl⟩
    exact ⟨[], rfl⟩

theorem gives_note {n : Notice} {a : Unit} : Gives (note n : Act σ ε Unit) s t a ↔ t = s := by
  constructor
  · rintro ⟨log, ran⟩
    cases ran
    rfl
  · rintro rfl
    exact ⟨[n], rfl⟩

theorem gives_ofFile {x : Except FileError α} {a : α} :
    Gives (ofFile x) s t a ↔ x = .ok a ∧ t = s := by
  constructor
  · rintro ⟨log, ran⟩
    cases x with
    | error e => cases ran
    | ok b =>
      cases ran
      exact ⟨rfl, rfl⟩
  · rintro ⟨rfl, rfl⟩
    exact ⟨[], rfl⟩

theorem gives_bind {x : Act σ ε α} {f : α → Act σ ε β} {b : β} :
    Gives (x >>= f) s u b ↔ ∃ t a, Gives x s t a ∧ Gives (f a) t u b := by
  constructor
  · rintro ⟨log, ran⟩
    rcases first : x s with ⟨t, log', e | a⟩
    · rw [bind_of_error first] at ran
      cases ran
    · rw [bind_of_ok first] at ran
      obtain ⟨rfl, same⟩ := Prod.mk.inj ran
      have result : (f a t).2.result = .ok b := (Traced.mk.inj same).2
      exact ⟨t, a, ⟨log', first⟩, gives_of_result result⟩
  · rintro ⟨t, a, ⟨log, first⟩, log', second⟩
    exact ⟨log ++ log', by rw [bind_of_ok first, second]⟩

theorem gives_each_nil {f : α → Act σ ε β} {bs : List β} :
    Gives (each f []) s t bs ↔ t = s ∧ bs = [] :=
  gives_pure

theorem gives_each_cons {f : α → Act σ ε β} {a : α} {as : List α} {bs : List β} :
    Gives (each f (a :: as)) s u bs ↔
      ∃ t b rest, Gives (f a) s t b ∧ Gives (each f as) t u rest ∧ bs = b :: rest := by
  simp only [each, gives_bind, gives_pure]
  constructor
  · rintro ⟨t, b, first, _, rest, others, rfl, rfl⟩
    exact ⟨t, b, rest, first, others, rfl⟩
  · rintro ⟨t, b, rest, first, others, rfl⟩
    exact ⟨t, b, first, u, rest, others, rfl, rfl⟩

theorem gives_each_append {f : α → Act σ ε β} {as as' : List α} {bs : List β} :
    Gives (each f (as ++ as')) s u bs ↔
      ∃ t front back, Gives (each f as) s t front ∧ Gives (each f as') t u back ∧
        bs = front ++ back := by
  induction as generalizing s bs with
  | nil => simp [gives_each_nil]
  | cons a as ih =>
    simp only [List.cons_append, gives_each_cons, ih]
    constructor
    · rintro ⟨t, b, _, first, ⟨t', front, back, hfront, hback, rfl⟩, rfl⟩
      exact ⟨t', b :: front, back, ⟨t, b, front, first, hfront, rfl⟩, hback, rfl⟩
    · rintro ⟨t', _, back, ⟨t, b, front, first, hfront, rfl⟩, hback, rfl⟩
      exact ⟨t, b, front ++ back, first, ⟨t', front, back, hfront, hback, rfl⟩, rfl⟩

end Act

/-! ## What a scan reads -/

namespace Disk

/-- The time of change of the file at a place, and zero where there is none. -/
def modified (disk : Disk) (p : Path) : Int :=
  match disk.tree.file (FileTree.written p) with
  | .ok file => file.modified
  | .error _ => 0

def textAt (disk : Disk) (p : Path) : Except FileError Text := do
  let file ← disk.tree.file (FileTree.written p)
  file.text

/-- The file at the place has a text, and all declarations in it can be read. -/
def Readable (disk : Disk) (p : Path) : Prop :=
  ∃ t found, disk.textAt p = .ok t ∧ Declaration.spans t = .ok found

def declared? (disk : Disk) (kind : Kind) (name : Text) (p : Path) : Option Definition :=
  match disk.textAt p with
  | .ok t => Declaration.last? kind name t
  | .error _ => none

def register (disk : Disk) (c : Context) (p : Path) : Context :=
  match disk.textAt p with
  | .ok t => (Context.extract t c).1
  | .error _ => c

/-- The places that a scan reads, when it last read each place at the time that `stamp` gives. -/
def readings (disk : Disk) (stamp : Path → Int) : List Path → List Path
  | [] => []
  | p :: ps =>
    if stamp p < disk.modified p then p :: readings disk (Function.update stamp p disk.now) ps
    else readings disk stamp ps

def stamps (disk : Disk) (stamp : Path → Int) : List Path → Path → Int
  | [] => stamp
  | p :: ps =>
    if stamp p < disk.modified p then stamps disk (Function.update stamp p disk.now) ps
    else stamps disk stamp ps

variable (disk : Disk)

theorem readings_append (stamp : Path → Int) (ps qs : List Path) :
    disk.readings stamp (ps ++ qs) =
      disk.readings stamp ps ++ disk.readings (disk.stamps stamp ps) qs := by
  induction ps generalizing stamp with
  | nil => rfl
  | cons p ps ih =>
    simp only [List.cons_append, readings, stamps]
    split
    · rw [ih, List.cons_append]
    · exact ih stamp

theorem stamps_append (stamp : Path → Int) (ps qs : List Path) :
    disk.stamps stamp (ps ++ qs) = disk.stamps (disk.stamps stamp ps) qs := by
  induction ps generalizing stamp with
  | nil => rfl
  | cons p ps ih =>
    simp only [List.cons_append, stamps]
    split
    · exact ih _
    · exact ih _

theorem mem_readings_iff {stamp : Path → Int} {ps : List Path} {p : Path} :
    p ∈ disk.readings stamp ps ↔ p ∈ ps ∧ stamp p < disk.modified p := by
  induction ps generalizing stamp with
  | nil => simp [readings]
  | cons q ps ih =>
    simp only [readings, List.mem_cons]
    split
    · rename_i due
      by_cases same : p = q
      · simp [same, due]
      · simp [same, ih]
    · rename_i current
      rw [ih]
      by_cases same : p = q
      · simp [same, current]
      · simp [same]

theorem stamps_eq (stamp : Path → Int) (ps : List Path) (p : Path) :
    disk.stamps stamp ps p =
      if p ∈ ps ∧ stamp p < disk.modified p then disk.now else stamp p := by
  induction ps generalizing stamp with
  | nil => simp [stamps]
  | cons q ps ih =>
    simp only [stamps, List.mem_cons]
    split
    · rename_i due
      rw [ih]
      by_cases same : p = q
      · simp [same, due]
      · simp [same]
    · rename_i current
      rw [ih]
      by_cases same : p = q
      · simp [same, current]
      · simp [same]

/-- A place outside of `P` is left out, and being read changes nothing for those in `P`. -/
theorem filter_readings_cons {P : Path → Bool} {p : Path} {ps : List Path} (outside : ¬ P p)
    (stamp : Path → Int) : ∃ stamp' : Path → Int,
      (disk.readings stamp (p :: ps)).filter P = (disk.readings stamp' ps).filter P ∧
        ∀ q, P q → stamp' q = stamp q := by
  simp only [readings]
  split
  · refine ⟨_, List.filter_cons_of_neg outside, ?_⟩
    intro q hq
    have other : q ≠ p := fun same => outside (same ▸ hq)
    simp [other]
  · exact ⟨stamp, rfl, fun _ _ => rfl⟩

/-- Two scans read the same of the places in `P` if they agree on which of these are due. -/
theorem filter_readings {disk other : Disk} {P : Path → Bool} {stamp stamp' : Path → Int}
    {ps : List Path}
    (due : ∀ p ∈ ps, P p → (stamp p < disk.modified p ↔ stamp' p < other.modified p))
    (again : ∀ p ∈ ps, P p → stamp p < disk.modified p →
      (disk.now < disk.modified p ↔ other.now < other.modified p)) :
    (disk.readings stamp ps).filter P = (other.readings stamp' ps).filter P := by
  induction ps generalizing stamp stamp' with
  | nil => rfl
  | cons p ps ih =>
    have due_rest := fun q (hq : q ∈ ps) => due q (List.mem_cons_of_mem p hq)
    have again_rest := fun q (hq : q ∈ ps) => again q (List.mem_cons_of_mem p hq)
    by_cases mem : P p
    · have here := due p List.mem_cons_self mem
      by_cases read : stamp p < disk.modified p
      · have read' := here.1 read
        have anew := again p List.mem_cons_self mem read
        simp only [readings, read, read', if_true, List.filter_cons_of_pos mem]
        congr 1
        refine ih ?_ ?_
        · intro q hq hP
          by_cases same : q = p
          · simpa [same] using anew
          · simpa [same] using due_rest q hq hP
        · intro q hq hP
          by_cases same : q = p
          · intro _
            rw [same]
            exact anew
          · simpa [same] using again_rest q hq hP
      · have read' : ¬ stamp' p < other.modified p := fun h => read (here.2 h)
        simp only [readings, read, read', if_false]
        exact ih due_rest again_rest
    · obtain ⟨s, eq, same⟩ := disk.filter_readings_cons mem stamp
      obtain ⟨s', eq', same'⟩ := other.filter_readings_cons mem stamp'
      rw [eq, eq']
      refine ih ?_ ?_
      · intro q hq hP
        rw [same q hP, same' q hP]
        exact due_rest q hq hP
      · intro q hq hP
        rw [same q hP]
        exact again_rest q hq hP

end Disk

namespace Build

def stamp (b : Build) (p : Path) : Int := (b.source p).spans.updated

/-- All texts are as new as the spans found in them. -/
def Even (b : Build) : Prop := ∀ p, (b.source p).text.updated = (b.source p).spans.updated

variable {disk : Disk} {b b' b'' : Build}

/-- An access to the spans that succeeds, of a build whose texts are as new as its spans. -/
theorem gives_spans_iff {p : Path} {v : Option (List Span)} (even : b.Even) :
    Act.Gives (spans disk p) b b' v ↔
      ∃ file, disk.tree.file (FileTree.written p) = .ok file ∧
        ((¬ b.stamp p < file.modified ∧ b' = b.remember p (b.source p) b.context ∧
            v = (b.source p).spans.value?) ∨
          b.stamp p < file.modified ∧ ∃ t found, file.text = .ok t ∧
            Declaration.spans t = .ok found ∧
            b' = b.remember p ⟨⟨disk.now, some t⟩, ⟨disk.now, some found⟩⟩
              (Context.extract t b.context).1 ∧ v = some found) := by
  unfold Act.Gives
  rw [spans_eq]
  cases found : disk.tree.file (FileTree.written p) with
  | error e => simp
  | ok file =>
    by_cases due : b.stamp p < file.modified
    · have expired : (b.source p).spans.expired file.modified = true := by
        simpa [Memo.expired, stamp] using due
      have text_expired : (b.source p).text.expired file.modified = true := by
        simpa [Memo.expired, even p, stamp] using due
      simp only [expired, Source.readText, text_expired, if_true]
      cases read : file.text with
      | error e => simp [Except.map, due, read]
      | ok t =>
        have same := Context.result_extract t b.context
        rcases extracted : Context.extract t b.context with ⟨c, log, e | spans⟩
        · rw [extracted] at same
          simp [Except.map, due, read, extracted, ← same]
        · rw [extracted] at same
          have spans_eq : Declaration.spans t = .ok spans := same.symm
          simp only [Except.map, extracted, Except.ok.injEq, exists_eq_left', due, read,
            not_true_eq_false, false_and, false_or, true_and]
          constructor
          · rintro ⟨_, h⟩
            cases h
            exact ⟨t, spans, rfl, spans_eq, by rw [extracted], rfl⟩
          · rintro ⟨_, found, rfl, found_eq, rfl, rfl⟩
            obtain rfl := Except.ok.inj (spans_eq.symm.trans found_eq)
            exact ⟨log, by rw [extracted]⟩
    · have current : (b.source p).spans.expired file.modified = false := by
        simpa [Memo.expired, stamp] using due
      simp [current, due, Int.not_lt.1 due, eq_comm]

structure Scanned (disk : Disk) (places : List Path) (b b' : Build) : Prop where
  files : ∀ p ∈ places, ∃ file, disk.tree.file (FileTree.written p) = .ok file
  readable : ∀ p ∈ disk.readings b.stamp places, disk.Readable p
  context : b'.context = (disk.readings b.stamp places).foldl disk.register b.context
  stamps : b'.stamp = disk.stamps b.stamp places
  even : b'.Even

theorem Scanned.nil (even : b.Even) : Scanned disk [] b b where
  files := nofun
  readable := nofun
  context := rfl
  stamps := rfl
  even := even

theorem Scanned.append {ps qs : List Path} (first : Scanned disk ps b b')
    (second : Scanned disk qs b' b'') : Scanned disk (ps ++ qs) b b'' where
  files p hp := (List.mem_append.1 hp).elim (first.files p) (second.files p)
  readable p hp := by
    rw [Disk.readings_append, ← first.stamps] at hp
    exact (List.mem_append.1 hp).elim (first.readable p) (second.readable p)
  context := by
    rw [Disk.readings_append, List.foldl_append, ← first.stamps, ← first.context, second.context]
  stamps := by
    rw [Disk.stamps_append, ← first.stamps, second.stamps]
  even := second.even

theorem stamp_remember (b : Build) (p : Path) (s : Source) (c : Context) :
    (b.remember p s c).stamp = Function.update b.stamp p s.spans.updated := by
  funext q
  by_cases same : q = p
  · simp [stamp, same]
  · simp [stamp, source_remember, same]

theorem stamp_visited (b : Build) (p : Path) :
    (b.remember p (b.source p) b.context).stamp = b.stamp := by
  rw [stamp_remember]
  exact Function.update_eq_self p b.stamp

theorem Even.remember (even : b.Even) (p : Path) {s : Source} (c : Context)
    (h : s.text.updated = s.spans.updated) : (b.remember p s c).Even := by
  intro q
  rw [source_remember]
  split
  · exact h
  · exact even q

theorem scanned_of_spans {p : Path} {v : Option (List Span)} (even : b.Even)
    (h : Act.Gives (spans disk p) b b' v) : Scanned disk [p] b b' := by
  obtain ⟨file, exists_file, access⟩ := (gives_spans_iff even).1 h
  have modified : disk.modified p = file.modified := by simp [Disk.modified, exists_file]
  have files : ∀ q ∈ [p], ∃ file, disk.tree.file (FileTree.written q) = .ok file := by
    intro q hq
    obtain rfl := List.mem_singleton.1 hq
    exact ⟨file, exists_file⟩
  rcases access with ⟨current, rfl, -⟩ | ⟨due, t, found, read, spansOf, rfl, -⟩
  · rw [← modified] at current
    refine ⟨files, ?_, ?_, ?_, even.remember p _ (even p)⟩
    · simp [Disk.readings, current]
    · simp [Disk.readings, current]
    · rw [stamp_visited]
      simp [Disk.stamps, current]
  · rw [← modified] at due
    have text : disk.textAt p = .ok t := by simp [Disk.textAt, exists_file, bind, Except.bind, read]
    refine ⟨files, ?_, ?_, ?_, even.remember p _ rfl⟩
    · intro q hq
      obtain rfl : q = p := by simpa [Disk.readings, due] using hq
      exact ⟨t, found, text, spansOf⟩
    · simp [Disk.readings, due, Disk.register, text]
    · rw [stamp_remember]
      simp [Disk.stamps, due]

theorem gives_spans_of_readable {p : Path} {file : FileTree.File} (even : b.Even)
    (exists_file : disk.tree.file (FileTree.written p) = .ok file)
    (readable : b.stamp p < disk.modified p → disk.Readable p) :
    ∃ b' v, Act.Gives (spans disk p) b b' v := by
  have modified : disk.modified p = file.modified := by simp [Disk.modified, exists_file]
  by_cases due : b.stamp p < file.modified
  · obtain ⟨t, found, text, spansOf⟩ := readable (modified ▸ due)
    have read : file.text = .ok t := by simpa [Disk.textAt, exists_file, bind, Except.bind] using text
    exact ⟨_, _, (gives_spans_iff even).2
      ⟨file, exists_file, Or.inr ⟨due, t, found, read, spansOf, rfl, rfl⟩⟩⟩
  · exact ⟨_, _, (gives_spans_iff even).2 ⟨file, exists_file, Or.inl ⟨due, rfl, rfl⟩⟩⟩

theorem gives_scanFile_iff {path : Text} {q : Path} :
    Act.Gives (scanFile disk path) b b' q ↔
      q = Path.normalize disk.tree.workdir path ∧
        ∃ v, Act.Gives (spans disk q) (b.remember q (b.source q) b.context) b' v := by
  have visited : ∀ p b' u, Act.Gives (visit p) b b' u ↔ b' = b.remember p (b.source p) b.context := by
    intro p b' u
    simp [Act.Gives, visit_eq, eq_comm]
  simp only [scanFile, Act.gives_bind, Act.gives_pure, visited]
  constructor
  · rintro ⟨_, _, rfl, _, v, access, rfl, rfl⟩
    exact ⟨rfl, v, access⟩
  · rintro ⟨rfl, v, access⟩
    exact ⟨_, (), rfl, _, v, access, rfl, rfl⟩

theorem scanned_of_scanFile {path : Text} {q : Path} (even : b.Even)
    (h : Act.Gives (scanFile disk path) b b' q) :
    q = Path.normalize disk.tree.workdir path ∧ Scanned disk [q] b b' := by
  obtain ⟨place, v, access⟩ := gives_scanFile_iff.1 h
  obtain ⟨files, readable, context, stamps, even'⟩ :=
    scanned_of_spans (even.remember q b.context (even q)) access
  rw [stamp_visited] at readable context stamps
  exact ⟨place, files, readable, context, stamps, even'⟩

/-- The scan of a list of files registers the declarations of those that are due. -/
theorem scanned_of_gives {paths : List Text} {places : List Path} (even : b.Even)
    (h : Act.Gives (Act.each (scanFile disk) paths) b b' places) :
    places = paths.map (Path.normalize disk.tree.workdir) ∧ Scanned disk places b b' := by
  induction paths generalizing b places with
  | nil =>
    obtain ⟨rfl, rfl⟩ := Act.gives_each_nil.1 h
    exact ⟨rfl, .nil even⟩
  | cons path paths ih =>
    obtain ⟨next, p, rest, first, others, rfl⟩ := Act.gives_each_cons.1 h
    obtain ⟨rfl, here⟩ := scanned_of_scanFile even first
    obtain ⟨rfl, there⟩ := ih here.even others
    exact ⟨rfl, here.append there⟩

/-- The scan of a list of files succeeds if all of them exist and those that are due can be
read. -/
theorem gives_of_readable {paths : List Text} {places : List Path} (even : b.Even)
    (listed : places = paths.map (Path.normalize disk.tree.workdir))
    (files : ∀ p ∈ places, ∃ file, disk.tree.file (FileTree.written p) = .ok file)
    (readable : ∀ p ∈ disk.readings b.stamp places, disk.Readable p) :
    ∃ b', Act.Gives (Act.each (scanFile disk) paths) b b' places := by
  induction paths generalizing b places with
  | nil => exact ⟨b, Act.gives_each_nil.2 ⟨rfl, listed⟩⟩
  | cons path paths ih =>
    rw [List.map_cons] at listed
    subst listed
    set p := Path.normalize disk.tree.workdir path
    obtain ⟨file, exists_file⟩ := files p List.mem_cons_self
    have readable_here : (b.remember p (b.source p) b.context).stamp p < disk.modified p →
        disk.Readable p := by
      rw [stamp_visited]
      intro due
      exact readable p (disk.mem_readings_iff.2 ⟨List.mem_cons_self, due⟩)
    obtain ⟨next, v, access⟩ := gives_spans_of_readable
      (even.remember p b.context (even p)) exists_file readable_here
    have first : Act.Gives (scanFile disk path) b next p := gives_scanFile_iff.2 ⟨rfl, v, access⟩
    have here := (scanned_of_scanFile even first).2
    have readable_there : ∀ q ∈ disk.readings next.stamp
        (paths.map (Path.normalize disk.tree.workdir)), disk.Readable q := by
      intro q hq
      refine readable q ?_
      rw [← List.singleton_append, Disk.readings_append, ← here.stamps]
      exact List.mem_append_right _ hq
    obtain ⟨b', others⟩ := ih here.even rfl
      (fun q hq => files q (List.mem_cons_of_mem p hq)) readable_there
    exact ⟨b', Act.gives_each_cons.2 ⟨next, p, _, first, others, rfl⟩⟩

def listing (tree : FileTree) : List Text → Except FileError (List Text)
  | [] => .ok []
  | root :: roots => do
    let found ← Discovery.sources tree root
    let rest ← listing tree roots
    return found.getD [] ++ rest

theorem listing_cons_iff {tree : FileTree} {root : Text} {roots paths : List Text} :
    listing tree (root :: roots) = .ok paths ↔
      ∃ found rest, Discovery.sources tree root = .ok found ∧ listing tree roots = .ok rest ∧
        paths = found.getD [] ++ rest := by
  cases sources : Discovery.sources tree root with
  | error e => simp [listing, sources, bind, Except.bind]
  | ok found =>
    cases others : listing tree roots with
    | error e => simp [listing, sources, others, bind, Except.bind]
    | ok rest => simp [listing, sources, others, bind, Except.bind, pure, Except.pure, eq_comm]

theorem listing_append_iff {tree : FileTree} {roots more paths : List Text} :
    listing tree (roots ++ more) = .ok paths ↔
      ∃ front back, listing tree roots = .ok front ∧ listing tree more = .ok back ∧
        paths = front ++ back := by
  induction roots generalizing paths with
  | nil => simp [listing]
  | cons root roots ih =>
    simp only [List.cons_append, listing_cons_iff, ih]
    constructor
    · rintro ⟨found, _, here, ⟨front, back, hfront, hback, rfl⟩, rfl⟩
      exact ⟨_, back, ⟨found, front, here, hfront, rfl⟩, hback, (List.append_assoc ..).symm⟩
    · rintro ⟨_, back, ⟨found, front, here, hfront, rfl⟩, hback, rfl⟩
      exact ⟨found, _, here, ⟨front, back, hfront, hback, rfl⟩, List.append_assoc ..⟩

theorem gives_scanRoot_iff {root : Text} {places : List Path} :
    Act.Gives (scanRoot disk root) b b' places ↔
      ∃ found, Discovery.sources disk.tree root = .ok found ∧
        Act.Gives (Act.each (scanFile disk) (found.getD [])) b b' places := by
  simp only [scanRoot, Act.gives_bind, Act.gives_ofFile]
  constructor
  · rintro ⟨_, found, ⟨sources, rfl⟩, ran⟩
    refine ⟨found, sources, ?_⟩
    cases found with
    | some paths => exact ran
    | none =>
      obtain ⟨_, _, noted, ended⟩ := Act.gives_bind.1 ran
      rw [Act.gives_note.1 noted] at ended
      exact ended
  · rintro ⟨found, sources, ran⟩
    refine ⟨b, found, ⟨sources, rfl⟩, ?_⟩
    cases found with
    | some paths => exact ran
    | none => exact Act.gives_bind.2 ⟨b, (), Act.gives_note.2 rfl, ran⟩

theorem gives_scan_iff {roots : List Text} {places : List Path} :
    Act.Gives (scan disk roots) b b' places ↔
      ∃ paths, listing disk.tree roots = .ok paths ∧
        Act.Gives (Act.each (scanFile disk) paths) b b' places := by
  have flattened : Act.Gives (scan disk roots) b b' places ↔
      ∃ found, Act.Gives (Act.each (scanRoot disk) roots) b b' found ∧ places = found.flatten := by
    simp only [scan, Act.gives_bind, Act.gives_pure]
    constructor
    · rintro ⟨_, found, ran, rfl, rfl⟩
      exact ⟨found, ran, rfl⟩
    · rintro ⟨found, ran, rfl⟩
      exact ⟨b', found, ran, rfl, rfl⟩
  rw [flattened]
  clear flattened
  induction roots generalizing b places with
  | nil => simp [listing, Act.gives_each_nil]
  | cons root roots ih =>
    constructor
    · rintro ⟨_, ran, rfl⟩
      obtain ⟨t, here, rest, first, others, rfl⟩ := Act.gives_each_cons.1 ran
      obtain ⟨found, sources, first⟩ := gives_scanRoot_iff.1 first
      obtain ⟨paths, listed, others⟩ := ih.1 ⟨rest, others, rfl⟩
      exact ⟨_, listing_cons_iff.2 ⟨found, paths, sources, listed, rfl⟩,
        Act.gives_each_append.2 ⟨t, here, rest.flatten, first, others, rfl⟩⟩
    · rintro ⟨_, listed, ran⟩
      obtain ⟨found, paths, sources, listed', rfl⟩ := listing_cons_iff.1 listed
      obtain ⟨t, here, there, first, others, rfl⟩ := Act.gives_each_append.1 ran
      obtain ⟨rest, others', rfl⟩ := ih.2 ⟨paths, listed', others⟩
      exact ⟨here :: rest, Act.gives_each_cons.2
        ⟨t, here, rest, gives_scanRoot_iff.2 ⟨found, sources, first⟩, others', rfl⟩, rfl⟩

theorem listing_eq {tree next : FileTree} {time : Int} (h : FileTree.Rewritten time tree next)
    (roots : List Text) : listing next roots = listing tree roots := by
  induction roots with
  | nil => rfl
  | cons root roots ih => rw [listing, listing, h.sources_eq, ih]

end Build

/-! ## Scanning again -/

namespace Disk

/-- The place whose declaration of a name stands after a new build has scanned the places: the last
one that it reads and that declares the name. -/
def provider? (disk : Disk) (places : List Path) (kind : Kind) (name : Text) : Option Path :=
  (disk.readings (fun _ => 0) places).reverse.find? fun p => (disk.declared? kind name p).isSome

/-- Whether the file at a place counts as changed after a scan at the given time. -/
def changedSince (disk : Disk) (time : Int) (p : Path) : Bool := max 0 time < disk.modified p

theorem changedSince_iff {disk : Disk} {time : Int} {p : Path} :
    disk.changedSince time p = true ↔ max 0 time < disk.modified p :=
  decide_eq_true_iff

theorem changedSince_eq_false_iff {disk : Disk} {time : Int} {p : Path} :
    disk.changedSince time p = false ↔ ¬ max 0 time < disk.modified p :=
  decide_eq_false_iff_not

theorem get?_register {disk : Disk} {ps : List Path} (readable : ∀ p ∈ ps, disk.Readable p)
    (c : Context) (kind : Kind) (name : Text) :
    ((ps.foldl disk.register c).registry kind).get? name =
      (ps.reverse.findSome? (disk.declared? kind name)).or ((c.registry kind).get? name) := by
  induction ps generalizing c with
  | nil => rfl
  | cons p ps ih =>
    obtain ⟨t, found, text, spansOf⟩ := readable p List.mem_cons_self
    rw [List.foldl_cons, ih fun q hq => readable q (List.mem_cons_of_mem p hq), List.reverse_cons,
      List.findSome?_append, Option.or_assoc]
    congr 1
    simp only [register, text, Context.get?_extract spansOf, List.findSome?_cons, declared?]
    cases Declaration.last? kind name t <;> rfl

end Disk

section
variable {α β : Type} {f : α → Option β} {P : α → Bool} {as : List α}

theorem findSome?_filter_of_find? {a : α} (first : as.find? (fun a => (f a).isSome) = some a)
    (kept : P a = true) : (as.filter P).findSome? f = as.findSome? f := by
  obtain ⟨some_a, front, back, rfl, none_front⟩ := List.find?_eq_some_iff_append.1 first
  obtain ⟨b, value⟩ := Option.isSome_iff_exists.1 some_a
  have skipped : ∀ xs : List α, (∀ x ∈ xs, x ∈ front) → xs.findSome? f = none := by
    intro xs sub
    refine List.findSome?_eq_none_iff.2 fun x hx => ?_
    simpa using none_front x (sub x hx)
  rw [List.filter_append, List.findSome?_append, List.findSome?_append,
    skipped _ (fun x hx => List.mem_of_mem_filter hx), skipped front (fun _ hx => hx),
    List.filter_cons_of_pos kept]
  simp [value]

theorem findSome?_filter_of_none (others : ∀ a ∈ as, P a = false → f a = none) :
    (as.filter P).findSome? f = as.findSome? f := by
  induction as with
  | nil => rfl
  | cons a as ih =>
    have rest := ih fun b hb => others b (List.mem_cons_of_mem a hb)
    by_cases kept : P a = true
    · rw [List.filter_cons_of_pos kept, List.findSome?_cons, List.findSome?_cons, rest]
    · rw [List.filter_cons_of_neg kept, List.findSome?_cons,
        others a List.mem_cons_self (by simpa using kept), rest]

theorem findSome?_congr {g : α → Option β} (h : ∀ a ∈ as, f a = g a) :
    as.findSome? f = as.findSome? g := by
  induction as with
  | nil => rfl
  | cons a as ih =>
    rw [List.findSome?_cons, List.findSome?_cons, h a List.mem_cons_self,
      ih fun b hb => h b (List.mem_cons_of_mem a hb)]

/-- What is found first of all, when what changed was searched again and is put in front of what was
found before. -/
theorem findSome?_again {before fresh : List α} {g : α → Option β} {changed : α → Bool}
    (kept : before.filter (fun a => !changed a) = fresh.filter (fun a => !changed a))
    (agree : ∀ a ∈ fresh, changed a = false → f a = g a)
    (unmixed : (∃ a, fresh.find? (fun a => (g a).isSome) = some a ∧ changed a = true) ∨
      (∀ a ∈ fresh, changed a = true → g a = none) ∧
        ∀ a, before.find? (fun a => (f a).isSome) = some a → changed a = false) :
    ((fresh.filter changed).findSome? g).or (before.findSome? f) = fresh.findSome? g := by
  rcases unmixed with ⟨a, first, renewed⟩ | ⟨none_renewed, first_kept⟩
  · rw [findSome?_filter_of_find? first renewed]
    have found : (fresh.findSome? g).isSome = true := by
      rw [List.isSome_findSome?]
      have value := List.find?_some first
      exact List.any_eq_true.2 ⟨a, List.mem_of_find?_eq_some first, value⟩
    obtain ⟨b, value⟩ := Option.isSome_iff_exists.1 found
    rw [value]
    rfl
  · have nothing : (fresh.filter changed).findSome? g = none := by
      refine List.findSome?_eq_none_iff.2 fun a ha => ?_
      obtain ⟨mem, renewed⟩ := List.mem_filter.1 ha
      exact none_renewed a mem renewed
    have old : before.findSome? f = (before.filter fun a => !changed a).findSome? f := by
      cases first : before.find? (fun a => (f a).isSome) with
      | none =>
        have none_before : ∀ a ∈ before, f a = none := by simpa using first
        rw [List.findSome?_eq_none_iff.2 none_before, List.findSome?_eq_none_iff.2]
        exact fun a ha => none_before a (List.mem_of_mem_filter ha)
      | some a => exact (findSome?_filter_of_find? first (by simp [first_kept a first])).symm
    have same : (fresh.filter fun a => !changed a).findSome? f =
        (fresh.filter fun a => !changed a).findSome? g := by
      refine findSome?_congr fun a ha => ?_
      obtain ⟨mem, unchanged⟩ := List.mem_filter.1 ha
      exact agree a mem (by simpa using unchanged)
    calc ((fresh.filter changed).findSome? g).or (before.findSome? f)
        = before.findSome? f := by rw [nothing]; rfl
      _ = (fresh.filter fun a => !changed a).findSome? f := by rw [old, kept]
      _ = (fresh.filter fun a => !changed a).findSome? g := same
      _ = fresh.findSome? g := findSome?_filter_of_none fun a ha renewed =>
          none_renewed a ha (by simpa using renewed)

end

namespace Build

section
variable {first second : Disk} {places : List Path}

/-- A file that does not count as changed is the one that the first scan found. -/
theorem file_eq_of_unchanged
    (rewritten : FileTree.Rewritten (max 0 first.now) first.tree second.tree) {p : Path}
    (exists_file : ∃ file, first.tree.file (FileTree.written p) = .ok file)
    (unchanged : second.changedSince first.now p = false) :
    second.tree.file (FileTree.written p) = first.tree.file (FileTree.written p) := by
  obtain ⟨file, found⟩ := exists_file
  rcases rewritten.file_cases found with same | ⟨changed, found', later⟩
  · rw [same, found]
  · have bound := Disk.changedSince_eq_false_iff.1 unchanged
    simp only [Disk.modified, found'] at bound
    omega

variable (same : ∀ p ∈ places, second.changedSince first.now p = false →
  second.tree.file (FileTree.written p) = first.tree.file (FileTree.written p))

include same

theorem modified_eq {p : Path} (hp : p ∈ places)
    (unchanged : second.changedSince first.now p = false) :
    second.modified p = first.modified p := by
  simp only [Disk.modified, same p hp unchanged]

theorem textAt_eq {p : Path} (hp : p ∈ places)
    (unchanged : second.changedSince first.now p = false) : second.textAt p = first.textAt p := by
  simp only [Disk.textAt, same p hp unchanged]

/-- A second scan reads what a new build reads of the places that changed, and nothing else. -/
theorem readings_again :
    second.readings (first.stamps (fun _ => 0) places) places =
      (second.readings (fun _ => 0) places).filter (second.changedSince first.now) := by
  have only_changed : ∀ p ∈ second.readings (first.stamps (fun _ => 0) places) places,
      second.changedSince first.now p = true := by
    intro p hp
    obtain ⟨mem, due⟩ := second.mem_readings_iff.1 hp
    cases changed : second.changedSince first.now p with
    | true => rfl
    | false =>
      have bound : ¬ max 0 first.now < second.modified p := Disk.changedSince_eq_false_iff.1 changed
      simp only [Disk.stamps_eq, ← modified_eq same mem changed, mem, true_and] at due
      split at due <;> omega
  rw [← List.filter_eq_self.2 only_changed]
  refine Disk.filter_readings ?_ fun _ _ _ _ => Iff.rfl
  intro p hp changed
  have later : max 0 first.now < second.modified p := Disk.changedSince_iff.1 changed
  rw [Disk.stamps_eq]
  split
  · omega
  · omega

/-- Of the places that did not change, the first scan has read what a new build reads. -/
theorem readings_kept (clock : first.now ≤ second.now) :
    (first.readings (fun _ => 0) places).filter (fun p => !second.changedSince first.now p) =
      (second.readings (fun _ => 0) places).filter (fun p => !second.changedSince first.now p) := by
  refine Disk.filter_readings ?_ ?_
  · intro p hp unchanged
    rw [modified_eq same hp (by simpa using unchanged)]
  · intro p hp unchanged due
    have unchanged' : second.changedSince first.now p = false := by simpa using unchanged
    have bound := Disk.changedSince_eq_false_iff.1 unchanged'
    rw [modified_eq same hp unchanged'] at bound ⊢
    omega

/-- What a new build reads was read by the second scan, or by the first and has not changed. -/
theorem readable_anew (clock : first.now ≤ second.now)
    (before : ∀ p ∈ first.readings (fun _ => 0) places, first.Readable p)
    (again : ∀ p ∈ second.readings (first.stamps (fun _ => 0) places) places, second.Readable p) :
    ∀ p ∈ second.readings (fun _ => 0) places, second.Readable p := by
  intro p hp
  cases changed : second.changedSince first.now p with
  | true =>
    apply again
    rw [readings_again same]
    exact List.mem_filter.2 ⟨hp, changed⟩
  | false =>
    have mem : p ∈ (first.readings (fun _ => 0) places).filter
        (fun p => !second.changedSince first.now p) := by
      rw [readings_kept same clock]
      exact List.mem_filter.2 ⟨hp, by rw [changed]; rfl⟩
    have read := before p (List.mem_filter.1 mem).1
    rw [Disk.Readable, textAt_eq same (second.mem_readings_iff.1 hp).1 changed]
    exact read

/-- What stands under a name after a second scan, and after the scan of a new build. -/
theorem get?_again {c : Context} {b b' b'' : Build} {kind : Kind} {name : Text}
    (clock : first.now ≤ second.now) (one : Scanned first places { context := c } b)
    (two : Scanned second places b b') (three : Scanned second places { context := c } b'')
    (unmixed : (∃ p, second.provider? places kind name = some p ∧ second.changedSince first.now p) ∨
      (∀ p ∈ places, second.changedSince first.now p → second.declared? kind name p = none) ∧
        ∀ p, first.provider? places kind name = some p → second.changedSince first.now p = false) :
    (b'.context.registry kind).get? name = (b''.context.registry kind).get? name := by
  have again : second.readings b.stamp places =
      (second.readings (fun _ => 0) places).filter (second.changedSince first.now) := by
    rw [one.stamps]
    exact readings_again same
  rw [two.context, Disk.get?_register two.readable, one.context,
    Disk.get?_register one.readable, three.context, Disk.get?_register three.readable, again,
    ← Option.or_assoc, ← List.filter_reverse]
  congr 1
  apply findSome?_again
  · rw [List.filter_reverse, List.filter_reverse]
    exact congrArg List.reverse (readings_kept same clock)
  · intro p hp unchanged
    have mem := second.mem_readings_iff.1 (List.mem_reverse.1 hp)
    rw [Disk.declared?, Disk.declared?, textAt_eq same mem.1 unchanged]
  · refine unmixed.imp id (And.imp_left ?_)
    intro none_changed p hp
    exact none_changed p (second.mem_readings_iff.1 (List.mem_reverse.1 hp)).1

end

/-- **Scanning again.** Files are rewritten after a scan, with times of change after its time, and
the roots are scanned again with the same build. Then a new build can scan them too, and both hold
the same definition of a name in two cases: the place that provides the name now has changed; or no
place that has changed declares the name now, and the place that provided it has not changed. -/
theorem rescan_agrees (c : Context) (first second : Disk) (roots : List Text)
    (places places' : List Path)
    (rewritten : FileTree.Rewritten (max 0 first.now) first.tree second.tree)
    (clock : first.now ≤ second.now)
    (scanned : (scan first roots { context := c }).2.result = .ok places)
    (rescanned : (scan second roots (scan first roots { context := c }).1).2.result = .ok places')
    (kind : Kind) (name : Text)
    (unmixed : (∃ p, second.provider? places kind name = some p ∧ second.changedSince first.now p) ∨
      (∀ p ∈ places, second.changedSince first.now p → second.declared? kind name p = none) ∧
        ∀ p, first.provider? places kind name = some p → second.changedSince first.now p = false) :
    (scan second roots { context := c }).2.result = .ok places' ∧
      ((scan second roots (scan first roots { context := c }).1).1.context.registry kind).get? name =
        ((scan second roots { context := c }).1.context.registry kind).get? name := by
  have even : ({ context := c } : Build).Even := fun _ => rfl
  -- The three scans visit the same places.
  obtain ⟨paths, listed, ran⟩ := gives_scan_iff.1 (Act.gives_of_result scanned)
  obtain ⟨_, listed', ran'⟩ := gives_scan_iff.1 (Act.gives_of_result rescanned)
  rw [listing_eq rewritten, listed] at listed'
  obtain rfl := Except.ok.inj listed'
  obtain ⟨placed, one⟩ := scanned_of_gives even ran
  obtain ⟨placed', two⟩ := scanned_of_gives one.even ran'
  rw [rewritten.workdir_eq, ← placed] at placed'
  subst placed'
  have same : ∀ p ∈ places', second.changedSince first.now p = false →
      second.tree.file (FileTree.written p) = first.tree.file (FileTree.written p) :=
    fun p hp => file_eq_of_unchanged rewritten (one.files p hp)
  have again := two.readable
  rw [one.stamps] at again
  have readable := readable_anew same clock one.readable again
  have placed_fresh : places' = paths.map (Path.normalize second.tree.workdir) := by
    rw [rewritten.workdir_eq]
    exact placed
  obtain ⟨b, ran_fresh⟩ := gives_of_readable even placed_fresh two.files readable
  have three := (scanned_of_gives even ran_fresh).2
  obtain ⟨state, result⟩ := (gives_scan_iff.2
    ⟨paths, (listing_eq rewritten roots).trans listed, ran_fresh⟩).eq
  refine ⟨result, ?_⟩
  rw [state]
  exact get?_again same clock one two three unmixed

def doubled : Disk where
  tree := {
    root := .folder [
      ("a.css".toList, .file "@mixin --m\x7b1\x7d".toUTF8 100),
      ("b.css".toList, .file "@mixin --m\x7b2\x7d".toUTF8 100)] }
  now := 1000

def revised (path : Text) : Disk where
  tree := doubled.tree.put path (.file "@mixin --m\x7b3\x7d".toUTF8 2000)
  now := 3000

theorem rewritten_revised {path : Text} (isFile : doubled.tree.isFile path = true) :
    FileTree.Rewritten (max 0 doubled.now) doubled.tree (revised path).tree :=
  .write .untouched path _ 2000 isFile (by decide)

set_option maxRecDepth 10000 in
/-- The source that is rewritten is not the one whose declaration stood, but takes its place. -/
theorem rescan_restores_overridden :
    let disk := revised "a.css".toList
    let b := (scan doubled [".".toList] {}).1
    FileTree.Rewritten (max 0 doubled.now) doubled.tree disk.tree ∧
      (scan doubled [".".toList] {}).2.result = .ok [["a.css".toList], ["b.css".toList]] ∧
      (scan disk [".".toList] b).2.result = .ok [["a.css".toList], ["b.css".toList]] ∧
      (((scan disk [".".toList] b).1.context.registry .mixin).get? "--m".toList).map
          Definition.body = some "3".toList ∧
      (((scan disk [".".toList] {}).1.context.registry .mixin).get? "--m".toList).map
          Definition.body = some "2".toList := by
  refine ⟨rewritten_revised (by cbv), by cbv, by cbv, by cbv, by cbv⟩

set_option maxRecDepth 10000 in
/-- The source that is rewritten is the one whose declaration stood. -/
theorem rescan_keeps_overriding :
    let disk := revised "b.css".toList
    let b := (scan doubled [".".toList] {}).1
    (scan disk [".".toList] {}).2.result = .ok [["a.css".toList], ["b.css".toList]] ∧
      ((scan disk [".".toList] b).1.context.registry .mixin).get? "--m".toList =
        ((scan disk [".".toList] {}).1.context.registry .mixin).get? "--m".toList := by
  refine rescan_agrees {} doubled (revised "b.css".toList) [".".toList]
    [["a.css".toList], ["b.css".toList]] [["a.css".toList], ["b.css".toList]]
    (rewritten_revised (by cbv)) (by decide) (by cbv) (by cbv) .mixin "--m".toList
    (Or.inl ⟨["b.css".toList], by cbv, by cbv⟩)

end Build

end StyleExpansion
