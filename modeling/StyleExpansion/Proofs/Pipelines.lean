import StyleExpansion.Proofs.Coherence
import Mathlib

namespace StyleExpansion

namespace FileTree

theorem unifyNewlines_of_notMem {s : Text} (h : '\r' ∉ s) : unifyNewlines s = s := by
  induction s with
  | nil => simp [unifyNewlines]
  | cons c s ih =>
    obtain ⟨other, rest⟩ := not_or.1 (mt List.mem_cons.2 h)
    simp [unifyNewlines, Ne.symm other, ih rest]

/-- A text in UTF-8 is read back as it is, unless it has carriage returns. -/
theorem File.text_toUTF8 {s : Text} (h : '\r' ∉ s) (modified : Int) :
    File.text ⟨(String.ofList s).toUTF8, modified⟩ = .ok s := by
  have decoded : String.fromUTF8? (String.ofList s).toUTF8 = some (String.ofList s) := by
    rw [String.fromUTF8?, String.toUTF8_eq_toByteArray, dif_pos (String.ofList s).isValidUTF8]
    rfl
  rw [File.text, File.exactText, decoded]
  simp [Except.map, unifyNewlines_of_notMem h]

end FileTree

namespace Context

/-- Registers the declarations of a text, and then expands it with a scan of its own for them. -/
def extractThenExpand (text : Text) : Act Context Error Text := do
  let _ ← extract text
  fun c => (c, c.expandOutside text none)

/-- The spans of an extraction are those that a scan of its own finds. -/
theorem extractThenExpand_eq (text : Text) (c : Context) :
    extractThenExpand text c = compile text false c := by
  have ran := extract_eq text c
  rw [compile_eq]
  cases found : Declaration.spans text with
  | error e =>
    rw [found] at ran
    exact Act.bind_of_error ran _
  | ok spans =>
    rw [found] at ran
    refine (Act.bind_of_ok ran _).trans ?_
    simp only [expandOutside_of_spans _ found]
    rfl

end Context

namespace Build

variable {disk : Disk} {path : Text} {p : Path} {b : Build} {file : FileTree.File} {t : Text}

theorem source_of_get?_eq_none (new : b.sources.get? p = none) : b.source p = {} := by
  rw [source, new]
  rfl

/-- What is remembered of a source when its spans were to be found. -/
def justRead (disk : Disk) (t : Text) (s : Source) : Source :=
  match Declaration.spans t with
  | .error _ => { s with text := ⟨disk.now, some t⟩ }
  | .ok found => ⟨⟨disk.now, some t⟩, ⟨disk.now, some found⟩⟩

section
variable (exists_file : disk.tree.file (FileTree.written p) = .ok file)
  (due : (b.source p).spans.updated < file.modified)
  (read : (b.source p).readText file disk.now = .ok ⟨disk.now, some t⟩)

include exists_file due read

theorem spans_of_due :
    spans disk p b = (b.remember p (justRead disk t (b.source p)) (Context.extracted t b.context),
      ⟨Declaration.report t, ((Declaration.spans t).map some).mapError .expansion⟩) := by
  have expired : (b.source p).spans.expired file.modified = true := by
    simpa [Memo.expired] using due
  rw [spans_eq, exists_file]
  simp only [expired, if_true, read, Context.extract_eq, justRead]
  cases Declaration.spans t with
  | error e => rfl
  | ok found => rfl

/-- A source whose spans have to be found, and whose text is that of its file. -/
theorem load_of_due (place : Path.normalize disk.tree.workdir path = p)
    (again : file.text = .ok t) :
    load disk path b =
      (b.remember p (justRead disk t (b.source p)) (Context.extracted t b.context),
        ⟨Declaration.report t, ((Declaration.spans t).map (t, ·)).mapError .expansion⟩) := by
  have visited : (b.remember p (b.source p) b.context).source p = b.source p :=
    source_remember_self ..
  have accessed := spans_of_due (b := b.remember p (b.source p) b.context) exists_file
    (by rwa [visited]) (by rwa [visited])
  rw [visited, context_remember, remember_remember] at accessed
  rw [load, place, Act.bind_of_quiet (visit_eq p b)]
  cases spansOf : Declaration.spans t with
  | error e =>
    rw [spansOf] at accessed
    exact Act.bind_of_error accessed _
  | ok found =>
    -- The text that the spans were found in is still at hand, or is read once more.
    have fresh : ∀ s : Source, s.text = ⟨disk.now, some t⟩ →
        s.readText file disk.now = .ok ⟨disk.now, some t⟩ := by
      intro s held
      rw [Source.readText, again, held]
      split <;> rfl
    have kept : justRead disk t (b.source p) = ⟨⟨disk.now, some t⟩, ⟨disk.now, some found⟩⟩ := by
      rw [justRead, spansOf]
    have had := text_eq disk p
      (b.remember p (justRead disk t (b.source p)) (Context.extracted t b.context))
    simp only [exists_file, source_remember_self, context_remember, remember_remember, kept,
      fresh] at had
    rw [spansOf, kept] at accessed
    rw [Act.bind_of_ok accessed, Act.bind_of_quiet had, kept]
    simp [pure, Except.map, Except.mapError]

/-- A source that has to be read is expanded like its text. -/
theorem compile_of_due (place : Path.normalize disk.tree.workdir path = p)
    (again : file.text = .ok t) (blank : Bool) :
    compile disk path blank b =
      (b.remember p (justRead disk t (b.source p)) (Context.compile t blank b.context).1,
        (Context.compile t blank b.context).2.mapError .expansion) := by
  have loaded := load_of_due exists_file due read place again
  rw [Context.compile_eq]
  cases spansOf : Declaration.spans t with
  | error e =>
    rw [spansOf] at loaded
    rw [compile, Act.bind_of_error loaded]
    rfl
  | ok found =>
    rw [spansOf] at loaded
    rw [compile]
    exact Act.bind_of_ok loaded _

end

/-- **Three pipelines, one outcome.** A text is expanded at once; or its declarations are registered
and it is expanded after that; or it is expanded as the file of a source that is new to a build. All
three leave the same registries and the same log, and give the same text or the same failure. -/
theorem pipelines_agree (b : Build) (text : Text) (unified : '\r' ∉ text) (disk : Disk) (path : Text)
    (modified : Int) (dated : 0 < modified)
    (stands : disk.tree.file (FileTree.written (Path.normalize disk.tree.workdir path)) =
      .ok ⟨(String.ofList text).toUTF8, modified⟩)
    (new : b.sources.get? (Path.normalize disk.tree.workdir path) = none) :
    Context.extractThenExpand text b.context = Context.compile text false b.context ∧
      (compile disk path false b).1.context = (Context.compile text false b.context).1 ∧
      (compile disk path false b).2 =
        (Context.compile text false b.context).2.mapError Fault.expansion := by
  have source := source_of_get?_eq_none new
  have again := FileTree.File.text_toUTF8 unified modified
  have due : (b.source (Path.normalize disk.tree.workdir path)).spans.updated < modified := by
    rw [source]
    exact dated
  have read : (b.source (Path.normalize disk.tree.workdir path)).readText
      ⟨(String.ofList text).toUTF8, modified⟩ disk.now = .ok ⟨disk.now, some text⟩ := by
    rw [source, Source.readText, again]
    simp [Memo.expired, dated, Except.map]
  have compiled := compile_of_due stands due read rfl again false
  refine ⟨Context.extractThenExpand_eq text b.context, ?_, ?_⟩
  · rw [compiled]
    rfl
  · rw [compiled]

theorem file_loneSource (text : String) (modified now : Int) :
    (loneSource text modified now).tree.file (FileTree.written ["a.css".toList]) =
      .ok ⟨text.toUTF8, modified⟩ := by
  cbv

set_option maxRecDepth 10000 in
/-- A function without a result is registered, and then called. -/
theorem pipelines_agree_resultless :
    let text := "@function --f() \x7b\x7d\n--f()".toList
    let disk := loneSource "@function --f() \x7b\x7d\n--f()" 100 1000
    let b : Build := {}
    (Context.extractThenExpand text b.context = Context.compile text false b.context ∧
      (compile disk "a.css".toList false b).1.context =
        (Context.compile text false b.context).1 ∧
      (compile disk "a.css".toList false b).2 =
        (Context.compile text false b.context).2.mapError Fault.expansion) ∧
      (compile disk "a.css".toList false b).1.context.functions.keys = ["--f".toList] ∧
      (compile disk "a.css".toList false b).2.result =
        .error (.expansion (.missingResult "--f".toList)) := by
  intro text disk b
  have unified : '\r' ∉ text := by decide
  have stands : disk.tree.file
      (FileTree.written (Path.normalize disk.tree.workdir "a.css".toList)) =
        .ok ⟨(String.ofList text).toUTF8, 100⟩ := by
    rw [String.ofList_toList]
    exact file_loneSource _ 100 1000
  exact ⟨pipelines_agree b text unified disk "a.css".toList 100 (by decide) stands rfl,
    by cbv, by cbv⟩

end Build

end StyleExpansion
