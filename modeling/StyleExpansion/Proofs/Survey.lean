import StyleExpansion.Proofs.Pipelines
import StyleExpansion.Proofs.Rescan
import Mathlib

namespace StyleExpansion

namespace Act

variable {σ ε α β : Type} {I : σ → Prop}

/-- The step keeps a property of the state, and its result is the same in all states that have
it. -/
def Steady (I : σ → Prop) (x : Act σ ε α) : Prop :=
  ∃ result, ∀ s, I s → I (x s).1 ∧ (x s).2.result = result

theorem steady_of_same {x : Act σ ε α} {result : Except ε α}
    (h : ∀ s, (x s).1 = s ∧ (x s).2.result = result) : Steady I x := by
  refine ⟨result, fun s hs => ?_⟩
  rw [(h s).1]
  exact ⟨hs, (h s).2⟩

theorem Steady.bind {x : Act σ ε α} {f : α → Act σ ε β} (hx : Steady I x)
    (hf : ∀ a, Steady I (f a)) : Steady I (x >>= f) := by
  obtain ⟨result, first⟩ := hx
  cases result with
  | error e =>
    refine ⟨.error e, fun s hs => ?_⟩
    obtain ⟨kept, failed⟩ := first s hs
    rcases ran : x s with ⟨t, log, r⟩
    rw [ran] at kept failed
    obtain rfl : r = .error e := failed
    rw [bind_of_error ran]
    exact ⟨kept, rfl⟩
  | ok a =>
    obtain ⟨result, second⟩ := hf a
    refine ⟨result, fun s hs => ?_⟩
    obtain ⟨kept, gave⟩ := first s hs
    rcases ran : x s with ⟨t, log, r⟩
    rw [ran] at kept gave
    obtain rfl : r = .ok a := gave
    rw [bind_of_ok ran]
    exact second t kept

theorem Steady.each {f : α → Act σ ε β} (hf : ∀ a, Steady I (f a)) (as : List α) :
    Steady I (each f as) := by
  induction as with
  | nil => exact steady_of_same fun _ => ⟨rfl, rfl⟩
  | cons a as ih =>
    exact (hf a).bind fun _ => ih.bind fun _ => steady_of_same fun _ => ⟨rfl, rfl⟩

theorem Steady.result_eq {x : Act σ ε α} (h : Steady I x) {s t : σ} (hs : I s) (ht : I t) :
    (x s).2.result = (x t).2.result := by
  obtain ⟨result, same⟩ := h
  rw [(same s hs).2, (same t ht).2]

theorem Steady.keeps {x : Act σ ε α} (h : Steady I x) : Keeps I x := by
  obtain ⟨result, same⟩ := h
  exact fun s hs => (same s hs).1

end Act

namespace Build

variable {disk : Disk} {b : Build} {p : Path}

/-- The build saw no other disk: of each source it remembers nothing, or what it read there. -/
def Saw (disk : Disk) (b : Build) : Prop :=
  ∀ p, b.source p = {} ∨
    ∃ t, disk.textAt p = .ok t ∧ 0 < disk.modified p ∧ b.source p = justRead disk t {}

theorem saw_new (c : Context) : Saw disk { context := c } :=
  fun _ => Or.inl rfl

theorem Saw.remember (saw : Saw disk b) {s : Source} (c : Context)
    (own : s = {} ∨ ∃ t, disk.textAt p = .ok t ∧ 0 < disk.modified p ∧ s = justRead disk t {}) :
    Saw disk (b.remember p s c) := by
  intro q
  rw [source_remember]
  split
  · rename_i same
    rw [same]
    exact own
  · exact saw q

theorem justRead_justRead (disk : Disk) (t : Text) (s : Source) :
    justRead disk t (justRead disk t s) = justRead disk t s := by
  simp only [justRead]
  cases Declaration.spans t with
  | error e => rfl
  | ok found => rfl

theorem text_justRead (disk : Disk) (t : Text) (s : Source) :
    (justRead disk t s).text = ⟨disk.now, some t⟩ := by
  simp only [justRead]
  cases Declaration.spans t with
  | error e => rfl
  | ok found => rfl

section
variable {file : FileTree.File} (exists_file : disk.tree.file (FileTree.written p) = .ok file)

include exists_file

theorem modified_of_file : disk.modified p = file.modified := by
  simp [Disk.modified, exists_file]

theorem textAt_of_file : disk.textAt p = file.text := by
  simp [Disk.textAt, exists_file, bind, Except.bind]

variable {t : Text} (saw : Saw disk b) (read : file.text = .ok t) (dated : 0 < file.modified)

include saw read dated

/-- An access to the spans that has to find them. -/
theorem spans_of_saw_due (due : (b.source p).spans.updated < file.modified) :
    Saw disk (spans disk p b).1 ∧
      (spans disk p b).2.result = ((Declaration.spans t).map some).mapError .expansion := by
  have modified := modified_of_file exists_file
  have text := (textAt_of_file exists_file).trans read
  rcases saw p with nothing | ⟨t', text', -, held⟩
  · have reads : (b.source p).readText file disk.now = .ok ⟨disk.now, some t⟩ := by
      rw [nothing, Source.readText, read]
      simp [Memo.expired, dated, Except.map]
    rw [spans_of_due exists_file due reads, nothing]
    exact ⟨saw.remember _ (Or.inr ⟨t, text, modified ▸ dated, rfl⟩), rfl⟩
  · obtain rfl := Except.ok.inj (text'.symm.trans text)
    have at_hand := text_justRead disk t' {}
    rw [← held] at at_hand
    have reads : (b.source p).readText file disk.now = .ok ⟨disk.now, some t'⟩ := by
      rw [← at_hand]
      exact Source.readText_of_fresh read at_hand
    rw [spans_of_due exists_file due reads, held, justRead_justRead]
    exact ⟨saw.remember _ (Or.inr ⟨t', text, modified ▸ dated, rfl⟩), rfl⟩

/-- An access to the spans that finds them remembered. -/
theorem spans_of_saw_current (current : file.modified ≤ (b.source p).spans.updated) :
    Saw disk (spans disk p b).1 ∧
      (spans disk p b).2.result = ((Declaration.spans t).map some).mapError .expansion := by
  have not_expired : (b.source p).spans.expired file.modified = false := by
    simpa [Memo.expired] using current
  rw [spans_eq, exists_file]
  simp only [not_expired]
  refine ⟨saw.remember _ (saw p), ?_⟩
  rcases saw p with nothing | ⟨t', text, -, held⟩
  · rw [nothing] at current
    exact absurd dated (Int.not_lt.2 current)
  · obtain rfl : t' = t :=
      Except.ok.inj (text.symm.trans ((textAt_of_file exists_file).trans read))
    rw [held, justRead] at current ⊢
    cases spansOf : Declaration.spans t' with
    | error e =>
      rw [spansOf] at current
      exact absurd dated (Int.not_lt.2 current)
    | ok found => rfl

end

section
variable {file : FileTree.File} (exists_file : disk.tree.file (FileTree.written p) = .ok file)

include exists_file

/-- A file whose text cannot be read was never read, and fails again each time. -/
theorem spans_of_saw_unreadable {e : FileError} (saw : Saw disk b) (read : file.text = .error e)
    (dated : 0 < file.modified) : spans disk p b = (b, ⟨[], .error (.file e)⟩) := by
  rcases saw p with nothing | ⟨t, text, -, -⟩
  · rw [spans_eq, exists_file]
    simp only [nothing, Memo.expired, Source.readText, dated, decide_true, if_true, read]
    rfl
  · rw [textAt_of_file exists_file, read] at text
    cases text

/-- A file that was not changed since time zero is never read. -/
theorem spans_of_saw_undated (saw : Saw disk b) (undated : ¬ 0 < file.modified) :
    spans disk p b = (b.remember p {} b.context, ⟨[], .ok none⟩) := by
  have nothing : b.source p = {} := by
    rcases saw p with nothing | ⟨_, _, dated, _⟩
    · exact nothing
    · exact absurd (modified_of_file exists_file ▸ dated) undated
  rw [spans_eq, exists_file]
  simp only [nothing, Memo.expired, undated, decide_false]
  rfl

end

/-- Whether the spans of a source can be had depends on its file alone. -/
theorem steady_spans (disk : Disk) (p : Path) : Act.Steady (Saw disk) (spans disk p) := by
  cases exists_file : disk.tree.file (FileTree.written p) with
  | error e =>
    refine ⟨.error (.file e), fun b saw => ?_⟩
    rw [spans_eq, exists_file]
    exact ⟨saw, rfl⟩
  | ok file =>
    by_cases dated : 0 < file.modified
    · cases read : file.text with
      | error e =>
        refine ⟨.error (.file e), fun b saw => ?_⟩
        rw [spans_of_saw_unreadable exists_file saw read dated]
        exact ⟨saw, rfl⟩
      | ok t =>
        refine ⟨((Declaration.spans t).map some).mapError .expansion, fun b saw => ?_⟩
        by_cases due : (b.source p).spans.updated < file.modified
        · exact spans_of_saw_due exists_file saw read dated due
        · exact spans_of_saw_current exists_file saw read dated (Int.not_lt.1 due)
    · refine ⟨.ok none, fun b saw => ?_⟩
      rw [spans_of_saw_undated exists_file saw dated]
      exact ⟨saw.remember _ (Or.inl rfl), rfl⟩

theorem steady_visit (disk : Disk) (p : Path) : Act.Steady (Saw disk) (visit p) :=
  ⟨.ok (), fun _ saw => ⟨saw.remember _ (saw p), rfl⟩⟩

theorem steady_scan (disk : Disk) (roots : List Text) : Act.Steady (Saw disk) (scan disk roots) := by
  have file : ∀ path, Act.Steady (Saw disk) (scanFile disk path) := fun path =>
    (steady_visit disk _).bind fun _ => (steady_spans disk _).bind fun _ =>
      Act.steady_of_same fun _ => ⟨rfl, rfl⟩
  refine (Act.Steady.each (fun root => ?_) roots).bind fun _ =>
    Act.steady_of_same fun _ => ⟨rfl, rfl⟩
  refine Act.Steady.bind (Act.steady_of_same fun _ => ⟨rfl, rfl⟩) fun found => ?_
  cases found with
  | some paths => exact Act.Steady.each file paths
  | none =>
    exact Act.Steady.bind (Act.steady_of_same fun _ => ⟨rfl, rfl⟩) fun _ =>
      Act.steady_of_same fun _ => ⟨rfl, rfl⟩

end Build

/-- Whether the declarations of a source are refused: a new build that scans it fails on them. -/
def Disk.rejects (disk : Disk) (path : Text) : Bool :=
  match (Build.scan disk [path] {}).2.result with
  | .error (.expansion _) => true
  | _ => false

namespace Build

variable {disk : Disk} {b : Build}

theorem scan_rejects (saw : Saw disk b) (path : Text) :
    disk.rejects path = true ↔ ∃ e, (scan disk [path] b).2.result = .error (.expansion e) := by
  rw [Disk.rejects, (steady_scan disk [path]).result_eq (saw_new {}) saw]
  rcases (scan disk [path] b).2.result with (_ | _ | _ | _) | _ <;> simp

def surveyed (disk : Disk) (paths : List Text) (b : Build) : Build :=
  paths.foldl (fun b path => (scan disk [path] b).1) b

theorem surveyed_append (paths more : List Text) (b : Build) :
    surveyed disk (paths ++ more) b = surveyed disk more (surveyed disk paths b) :=
  List.foldl_append

theorem Saw.surveyed (saw : Saw disk b) (paths : List Text) : Saw disk (surveyed disk paths b) := by
  induction paths generalizing b with
  | nil => exact saw
  | cons path paths ih => exact ih ((steady_scan disk [path]).keeps b saw)

/-- The expansions of the sources at the paths, made one after another by the same build. A source
that fails adds nothing. -/
def expansions (disk : Disk) (blank : Bool) : List Text → Build → Text
  | [], _ => []
  | path :: paths, b =>
    let (next, expanded) := compile disk path blank b
    expanded.result.toOption.getD [] ++ expansions disk blank paths next

def Current (disk : Disk) (path : Text) (b : Build) : Prop :=
  disk.modified (Path.normalize disk.tree.workdir path) ≤
    b.stamp (Path.normalize disk.tree.workdir path)

/-- The expansion of a source as it is remembered. -/
def recalled (blank : Bool) (s : Source) (c : Context) : Traced Fault Text :=
  match s.text.value?, s.spans.value? with
  | some t, some found => (c.render blank t found).mapError Fault.expansion
  | _, _ => .fail .neverRead

theorem Saw.text_current (saw : Saw disk b) {p : Path} (current : disk.modified p ≤ b.stamp p) :
    disk.modified p ≤ (b.source p).text.updated := by
  rcases saw p with nothing | ⟨t, -, dated, held⟩
  · rw [stamp, nothing] at current
    rw [nothing]
    exact current
  · rw [stamp, held, justRead] at current
    rw [held, text_justRead]
    cases spansOf : Declaration.spans t with
    | error e =>
      rw [spansOf] at current
      exact absurd dated (Int.not_lt.2 current)
    | ok found =>
      rw [spansOf] at current
      exact current

/-- A source that is current is expanded as it is remembered, and changes nothing. -/
theorem compile_of_current {path : Text} (saw : Saw disk b) (current : Current disk path b)
    (blank : Bool) :
    let p := Path.normalize disk.tree.workdir path
    compile disk path blank b =
      (b.remember p (b.source p) b.context,
        match disk.tree.file (FileTree.written p) with
        | .error e => .fail (.file e)
        | .ok _ => recalled blank (b.source p) b.context) := by
  intro p
  have visited : (b.remember p (b.source p) b.context).source p = b.source p :=
    source_remember_self ..
  have accessed := spans_eq disk p (b.remember p (b.source p) b.context)
  rw [compile, load, bind_assoc, Act.bind_of_quiet (visit_eq p b), bind_assoc]
  cases exists_file : disk.tree.file (FileTree.written p) with
  | error e =>
    rw [exists_file] at accessed
    exact Act.bind_of_error accessed _
  | ok file =>
    have modified := modified_of_file exists_file
    have spans_current : (b.source p).spans.expired file.modified = false := by
      have := current
      simp only [Current, stamp] at this
      simp [Memo.expired, ← modified]
      exact this
    have had := text_eq disk p (b.remember p (b.source p) b.context)
    have text_current : file.modified ≤ (b.source p).text.updated :=
      modified ▸ saw.text_current current
    have reads : (b.source p).readText file disk.now = .ok (b.source p).text :=
      Source.readText_of_current text_current
    simp only [exists_file, visited, spans_current, context_remember, remember_remember] at accessed
    simp only [exists_file, visited, reads, context_remember, remember_remember] at had
    rw [Act.bind_of_quiet accessed, bind_assoc, Act.bind_of_quiet had, recalled]
    cases (b.source p).text.value? with
    | none => rfl
    | some t =>
      cases (b.source p).spans.value? with
      | none => rfl
      | some found => rfl

theorem Current.visited {path : Text} (current : Current disk path b) (p : Path) :
    Current disk path (b.remember p (b.source p) b.context) := by
  unfold Current
  rw [stamp_visited]
  exact current

/-- A visit to some source leaves the expansion of another as it is. -/
theorem compile_visited {path : Text} (saw : Saw disk b) (current : Current disk path b) (p : Path)
    (blank : Bool) :
    (compile disk path blank (b.remember p (b.source p) b.context)).2 =
      (compile disk path blank b).2 := by
  have kept : ∀ q, (b.remember p (b.source p) b.context).source q = b.source q := by
    intro q
    rw [source_remember]
    split
    · rename_i same
      rw [same]
    · rfl
  rw [compile_of_current saw current, compile_of_current (saw.remember _ (saw p))
    (current.visited p), kept, context_remember]

/-- Sources that are current are expanded one by one as each would be alone. -/
theorem expansions_of_current {paths : List Text} (saw : Saw disk b)
    (current : ∀ path ∈ paths, Current disk path b) (blank : Bool) :
    expansions disk blank paths b =
      paths.flatMap fun path => (compile disk path blank b).2.result.toOption.getD [] := by
  induction paths generalizing b with
  | nil => rfl
  | cons path paths ih =>
    have first := compile_of_current saw (current path List.mem_cons_self) blank
    have others := fun q hq => current q (List.mem_cons_of_mem path hq)
    set p := Path.normalize disk.tree.workdir path
    -- The first source is left as it was, so the others are expanded as from here.
    have rest := ih (saw.remember _ (saw p)) fun q hq => (others q hq).visited p
    have alone : paths.flatMap (fun q => (compile disk q blank
        (b.remember p (b.source p) b.context)).2.result.toOption.getD []) =
          paths.flatMap fun q => (compile disk q blank b).2.result.toOption.getD [] :=
      List.flatMap_congr fun q hq => by rw [compile_visited saw (others q hq)]
    rw [List.flatMap_cons, expansions, ← alone, ← rest, first]

end Build

end StyleExpansion
