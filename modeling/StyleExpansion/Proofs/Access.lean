import StyleExpansion.Build
import StyleExpansion.Proofs.Registration
import Mathlib

namespace StyleExpansion

theorem Table.insertEntry_insertEntry {κ α : Type} [DecidableEq κ] (k : κ) (a a' : α)
    (es : List (κ × α)) : insertEntry k a' (insertEntry k a es) = insertEntry k a' es := by
  induction es with
  | nil => simp [insertEntry]
  | cons e es ih =>
    by_cases same : e.1 = k
    · simp [insertEntry, same]
    · simp [insertEntry, same, ih]

theorem Table.insert_insert {κ α : Type} [DecidableEq κ] (t : Table κ α) (k : κ) (a a' : α) :
    (t.insert k a).insert k a' = t.insert k a' :=
  Table.ext (insertEntry_insertEntry k a a' t.entries)

/-- The text that a source has after an access to it, when the file is `file` at the time `now`. -/
def Source.readText (s : Source) (file : FileTree.File) (now : Int) :
    Except FileError (Memo Text) :=
  if s.text.expired file.modified then file.text.map fun t => ⟨now, some t⟩ else .ok s.text

namespace Build

def remember (b : Build) (p : Path) (s : Source) (c : Context) : Build where
  context := c
  sources := b.sources.insert p s

@[simp] theorem context_remember (b : Build) (p : Path) (s : Source) (c : Context) :
    (b.remember p s c).context = c := rfl

theorem source_remember (b : Build) (p q : Path) (s : Source) (c : Context) :
    (b.remember p s c).source q = if q = p then s else b.source q := by
  simp only [source, remember, Table.get?_insert]
  split
  · rfl
  · rfl

@[simp] theorem source_remember_self (b : Build) (p : Path) (s : Source) (c : Context) :
    (b.remember p s c).source p = s := by
  simp [source_remember]

@[simp] theorem remember_remember (b : Build) (p : Path) (s s' : Source) (c c' : Context) :
    (b.remember p s c).remember p s' c' = b.remember p s' c' := by
  simp [remember, Table.insert_insert]

theorem alterSource_eq (p : Path) (f : Source → Source) (b : Build) :
    alterSource p f b = b.remember p (f (b.source p)) b.context := rfl

theorem visit_eq (p : Path) (b : Build) :
    visit p b = (b.remember p (b.source p) b.context, ⟨[], .ok ()⟩) := rfl

theorem onContext_of_eq {α : Type} {x : Act Context Error α} {b : Build} {p : Path} {s : Source}
    {c : Context} {log : List Notice} {result : Except Error α}
    (h : x b.context = (c, ⟨log, result⟩)) :
    onContext x (b.remember p s b.context) =
      (b.remember p s c, ⟨log, result.mapError Fault.expansion⟩) := by
  simp only [onContext, Act.zoom, Act.mapError, context_remember, h]
  rfl

theorem text_eq (disk : Disk) (p : Path) (b : Build) :
    text disk p b =
      match disk.tree.file (FileTree.written p) with
      | .error e => (b, ⟨[], .error (.file e)⟩)
      | .ok file =>
        match (b.source p).readText file disk.now with
        | .error e => (b, ⟨[], .error (.file e)⟩)
        | .ok memo =>
          (b.remember p { b.source p with text := memo } b.context, ⟨[], .ok memo.value?⟩) := by
  rw [text]
  cases found : disk.tree.file (FileTree.written p) with
  | error e => rfl
  | ok file =>
    rw [Act.bind_of_quiet (t := b) (a := file) rfl, Act.bind_of_quiet (t := b) (a := b) rfl]
    by_cases expired : (b.source p).text.expired file.modified = true
    · simp only [Memo.refresh, Source.readText, expired, if_true]
      cases file.text with
      | error e => rfl
      | ok t => rfl
    · simp only [Memo.refresh, Source.readText, expired]
      rfl

/-- An access to the spans: they stand if the file did not change since they were found. Otherwise
the text is had, and its declarations are registered up to the first that cannot be read. -/
theorem spans_eq (disk : Disk) (p : Path) (b : Build) :
    spans disk p b =
      match disk.tree.file (FileTree.written p) with
      | .error e => (b, ⟨[], .error (.file e)⟩)
      | .ok file =>
        if (b.source p).spans.expired file.modified then
          match (b.source p).readText file disk.now with
          | .error e => (b, ⟨[], .error (.file e)⟩)
          | .ok memo =>
            match memo.value? with
            | none =>
              (b.remember p { b.source p with text := memo } b.context, ⟨[], .error .neverRead⟩)
            | some t =>
              match Context.extract t b.context with
              | (c, ⟨log, .error e⟩) =>
                (b.remember p { b.source p with text := memo } c, ⟨log, .error (.expansion e)⟩)
              | (c, ⟨log, .ok found⟩) =>
                (b.remember p ⟨memo, ⟨disk.now, some found⟩⟩ c, ⟨log, .ok (some found)⟩)
        else (b.remember p (b.source p) b.context, ⟨[], .ok (b.source p).spans.value?⟩) := by
  rw [spans]
  cases found : disk.tree.file (FileTree.written p) with
  | error e => rfl
  | ok file =>
    rw [Act.bind_of_quiet (t := b) (a := file) rfl, Act.bind_of_quiet (t := b) (a := b) rfl]
    by_cases expired : (b.source p).spans.expired file.modified = true
    · simp only [Memo.refresh, expired, if_true]
      have had := text_eq disk p b
      rw [found] at had
      simp only at had
      cases read : (b.source p).readText file disk.now with
      | error e =>
        rw [read] at had
        exact Act.bind_of_error (Act.bind_of_error (Act.bind_of_error had _) _) _
      | ok memo =>
        rw [read] at had
        obtain ⟨updated, value?⟩ := memo
        cases value? with
        | none =>
          rw [bind_assoc, bind_assoc, Act.bind_of_quiet had]
          rfl
        | some t =>
          rw [bind_assoc, bind_assoc, Act.bind_of_quiet had]
          dsimp only
          rcases extracted : Context.extract t b.context with ⟨c, log, e | spans⟩
          · exact Act.bind_of_error (onContext_of_eq extracted) _
          · rw [Act.bind_of_ok (onContext_of_eq extracted)]
            simp only [bind, Act.bind, pure, Act.modify, alterSource_eq, context_remember,
              source_remember_self, remember_remember, List.append_nil]
    · simp only [Memo.refresh, expired]
      rfl

end Build

end StyleExpansion
