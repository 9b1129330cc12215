import StyleExpansion.Proofs.Coherence
import StyleExpansion.Proofs.Rescan
import Mathlib

/-!
What is remembered is never stale. A source is read again when its file was changed after the last
reading, and this is told by times alone. Where every change of contents is stamped later than the
clock of all readings before it, that is enough, whatever fails on the way.

* `spans_faithful`: what an access to the spans of a source leaves behind;
* `perform_keeps`: a property that all accesses keep is kept by every request;
* `after_faithful`: what is remembered stays true through a run of requests;
* `compile_never_stale`: a source is expanded as its file is now.
-/

namespace StyleExpansion

/-- If the file at a place has other contents on the second disk than on the first, its time of
change is after the clock of the first. -/
def Disk.StampsChanges (p : Path) (disk next : Disk) : Prop :=
  ∀ file changed, disk.tree.file (FileTree.written p) = .ok file →
    next.tree.file (FileTree.written p) = .ok changed → changed.data ≠ file.data →
      disk.now < changed.modified

def Disk.Shows (disks : List Disk) (p : Path) (file : FileTree.File) : Prop :=
  ∃ disk ∈ disks, disk.tree.file (FileTree.written p) = .ok file

theorem FileTree.File.text_congr {file file' : FileTree.File} (h : file.data = file'.data) :
    file.text = file'.text := by
  simp only [FileTree.File.text, FileTree.File.exactText, h]

namespace Context

def Registers (c : Context) (text : Text) : Prop :=
  ∀ kind, ∀ d ∈ (Declaration.scan kind text).items, d.name ∈ (c.registry kind).keys

def Within (c c' : Context) : Prop :=
  ∀ kind, ∀ name ∈ (c.registry kind).keys, name ∈ (c'.registry kind).keys

theorem Within.refl (c : Context) : c.Within c := by
  intro kind name mem
  exact mem

theorem Within.trans {c c' c'' : Context} (h : c.Within c') (h' : c'.Within c'') :
    c.Within c'' := by
  intro kind name mem
  exact h' kind name (h kind name mem)

theorem Registers.mono {c c' : Context} {text : Text} (h : c.Registers text) (grown : c.Within c') :
    c'.Registers text := by
  intro kind d mem
  exact grown kind d.name (h kind d mem)

theorem within_extracted (text : Text) (c : Context) : c.Within (extracted text c) := by
  intro kind name mem
  rw [registry_extracted, Registry.keys_registerAll]
  exact List.mem_append_left _ mem

/-- An extraction that comes to the end of a text registers all that it declares. -/
theorem registers_extracted {text : Text} {found : List Span}
    (h : Declaration.spans text = .ok found) (c : Context) : (extracted text c).Registers text := by
  intro kind d mem
  have complete := fun kind => congrArg Scan.failure? (Declaration.complete_of_spans h kind)
  have reached : d ∈ Declaration.reached kind text := by
    cases kind with
    | function => exact mem
    | mixin => simpa [Declaration.reached, complete .function] using mem
  have declared : d.name ∈ ((Declaration.reached kind text).map Declaration.definition).map
      Definition.name := by
    rw [List.map_map]
    exact List.mem_map_of_mem (f := Definition.name ∘ Declaration.definition) reached
  rw [registry_extracted, Registry.keys_registerAll, List.mem_append, List.mem_eraseDups,
    List.mem_filter]
  by_cases old : d.name ∈ (c.registry kind).keys
  · exact Or.inl old
  · exact Or.inr ⟨declared, by simpa using old⟩

end Context

/-! ## Faithful sources -/

namespace Source

/-- What is remembered of a source and need not be renewed for a file that is to be seen is what
that file holds, and the names it declares are registered. If nothing is remembered, the file counts
as unchanged since time zero. -/
structure Faithful (seen : FileTree.File → Prop) (c : Context) (s : Source) : Prop where
  text : ∀ file, seen file → file.modified ≤ s.text.updated →
    (s.text.value? = none ∧ file.modified ≤ 0) ∨
      ∃ t, s.text.value? = some t ∧ file.text = .ok t
  spans : ∀ file, seen file → file.modified ≤ s.spans.updated →
    (s.spans.value? = none ∧ file.modified ≤ 0) ∨
      ∃ t found, s.spans.value? = some found ∧ file.text = .ok t ∧
        Declaration.spans t = .ok found ∧ c.Registers t

theorem faithful_empty (seen : FileTree.File → Prop) (c : Context) : Faithful seen c {} where
  text _ _ undated := Or.inl ⟨rfl, undated⟩
  spans _ _ undated := Or.inl ⟨rfl, undated⟩

section
variable {seen seen' : FileTree.File → Prop} {c c' : Context} {s : Source}

theorem Faithful.mono (h : s.Faithful seen c) (fewer : ∀ file, seen' file → seen file)
    (grown : c.Within c') : s.Faithful seen' c' where
  text file later := h.text file (fewer file later)
  spans file later current := by
    apply (h.spans file (fewer file later) current).imp id
    rintro ⟨t, found, value, read, spansOf, registered⟩
    exact ⟨t, found, value, read, spansOf, registered.mono grown⟩

variable {file : FileTree.File} {now : Int} {memo : Memo Text}

/-- The text that an access gives is that of the file. -/
theorem Faithful.readText_eq (h : s.Faithful seen c) (here : seen file)
    (read : s.readText file now = .ok memo) :
    (memo.value? = none ∧ file.modified ≤ 0) ∨
      ∃ t, memo.value? = some t ∧ file.text = .ok t := by
  rcases readText_cases read with ⟨_, t, own, rfl⟩ | ⟨current, rfl⟩
  · exact Or.inr ⟨t, rfl, own⟩
  · exact h.text file here current

variable (stamped : ∀ next, seen next → next.data ≠ file.data → now < next.modified)

include stamped

/-- A file that counts as unchanged since now has the contents that it has now. -/
theorem text_of_stamped {next : FileTree.File} (later : seen next) (current : next.modified ≤ now) :
    next.text = file.text := by
  apply FileTree.File.text_congr
  by_contra changed
  have := stamped next later changed
  omega

/-- A text stays faithful when it is had again. -/
theorem Faithful.reread (h : s.Faithful seen c) (read : s.readText file now = .ok memo) :
    Faithful seen c { s with text := memo } := by
  rcases readText_cases read with ⟨_, t, own, rfl⟩ | ⟨_, rfl⟩
  · refine ⟨?_, h.spans⟩
    intro next later current
    exact Or.inr ⟨t, rfl, (text_of_stamped stamped later current).trans own⟩
  · exact h

/-- Spans are faithful when they were just found in the text of the file. -/
theorem Faithful.found (h : s.Faithful seen c) {t : Text} {found : List Span}
    (own : file.text = .ok t) (spansOf : Declaration.spans t = .ok found)
    (registered : c.Registers t) : Faithful seen c ⟨s.text, ⟨now, some found⟩⟩ := by
  refine ⟨h.text, ?_⟩
  intro next later current
  have same := text_of_stamped stamped later current
  exact Or.inr ⟨t, found, rfl, same.trans own, spansOf, registered⟩

end

end Source

namespace Build

theorem text_faithful {disk : Disk} {p : Path} {file : FileTree.File}
    {seen : FileTree.File → Prop} (exists_file : disk.tree.file (FileTree.written p) = .ok file)
    (stamped : ∀ next, seen next → next.data ≠ file.data → disk.now < next.modified) {b : Build}
    (h : (b.source p).Faithful seen b.context) :
    ((text disk p b).1.source p).Faithful seen (text disk p b).1.context := by
  rw [text_eq, exists_file]
  dsimp only
  cases read : (b.source p).readText file disk.now with
  | error e => exact h
  | ok memo =>
    simp only [source_remember_self, context_remember]
    exact h.reread stamped read

/-- An access to the spans keeps a source faithful, and what it gives are the spans of the file,
whose names are then registered. -/
theorem spans_faithful {disk : Disk} {p : Path} {file : FileTree.File}
    {seen : FileTree.File → Prop} (exists_file : disk.tree.file (FileTree.written p) = .ok file)
    (here : seen file)
    (stamped : ∀ next, seen next → next.data ≠ file.data → disk.now < next.modified) {b : Build}
    (h : (b.source p).Faithful seen b.context) :
    ((spans disk p b).1.source p).Faithful seen (spans disk p b).1.context ∧
      ∀ found, (spans disk p b).2.result = .ok (some found) →
        ∃ t, file.text = .ok t ∧ Declaration.spans t = .ok found ∧
          (spans disk p b).1.context.Registers t := by
  rw [spans_eq, exists_file]
  by_cases expired : (b.source p).spans.expired file.modified = true
  · simp only [expired, if_true]
    cases read : (b.source p).readText file disk.now with
    | error e => exact ⟨h, nofun⟩
    | ok memo =>
      have reread := h.reread stamped read
      rcases h.readText_eq here read with ⟨none_read, _⟩ | ⟨t, value, own⟩
      · simp only [none_read, source_remember_self, context_remember]
        exact ⟨reread, nofun⟩
      · have grown := Context.within_extracted t b.context
        simp only [value, Context.extract_eq]
        cases spansOf : Declaration.spans t with
        | error e =>
          simp only [source_remember_self, context_remember]
          exact ⟨reread.mono (fun _ => id) grown, nofun⟩
        | ok found =>
          have registered := Context.registers_extracted spansOf b.context
          simp only [source_remember_self, context_remember]
          constructor
          · exact (reread.mono (fun _ => id) grown).found stamped own spansOf registered
          · intro found' same
            obtain rfl := Option.some.inj (Except.ok.inj same)
            exact ⟨t, own, spansOf, registered⟩
  · have current : file.modified ≤ (b.source p).spans.updated := by
      simpa [Memo.expired] using expired
    simp only [expired, Bool.false_eq_true, if_false, source_remember_self, context_remember]
    refine ⟨h, ?_⟩
    intro found same
    have value := Except.ok.inj same
    rcases h.spans file here current with ⟨none_found, _⟩ | ⟨t, found', value', own, spansOf, reg⟩
    · rw [none_found] at value
      cases value
    · obtain rfl := Option.some.inj (value.symm.trans value')
      exact ⟨t, own, spansOf, reg⟩

/-- What all accesses keep is kept by every request. -/
theorem perform_keeps {I : Build → Prop} {disk : Disk} (visits : ∀ q, Act.Keeps I (visit q))
    (texts : ∀ q, Act.Keeps I (text disk q)) (found : ∀ q, Act.Keeps I (spans disk q))
    (request : Request) {b : Build} (h : I b) : I (perform disk b request) := by
  have file : ∀ path, Act.Keeps I (scanFile disk path) := by
    intro path
    exact (visits _).bind fun _ => (found _).bind fun _ => Act.keeps_of_same fun _ => rfl
  have roots : ∀ roots, Act.Keeps I (scan disk roots) := by
    intro roots
    refine (Act.Keeps.each (fun root => ?_) roots).bind fun _ => Act.keeps_of_same fun _ => rfl
    refine (Act.keeps_of_same fun _ => rfl).bind fun sources => ?_
    cases sources with
    | some paths => exact Act.Keeps.each file paths
    | none => exact Act.keeps_of_same fun _ => rfl
  have loads : ∀ path, Act.Keeps I (load disk path) := by
    intro path
    refine (visits _).bind fun _ => (found _).bind fun _ => (texts _).bind fun _ => ?_
    split
    · exact Act.keeps_of_same fun _ => rfl
    · exact Act.keeps_of_same fun _ => rfl
  cases request with
  | scan => exact roots _ b h
  | scanWithDependencies => exact roots _ b h
  | compile path blank =>
    have renders : ∀ loaded : Text × List Span, Act.Keeps I (render blank loaded.1 loaded.2) := by
      intro loaded b h
      exact h
    exact (loads path).bind renders b h
  | inspect path =>
    exact ((visits _).bind fun _ => (texts _).bind fun _ => (found _).bind fun _ =>
      Act.keeps_of_same fun _ => rfl) b h

theorem within_spans (disk : Disk) (p : Path) (b : Build) :
    b.context.Within (spans disk p b).1.context := by
  rw [spans_eq]
  split
  · exact .refl _
  · split
    · split
      · exact .refl _
      · split
        · exact .refl _
        · rename_i t _
          have grown := Context.within_extracted t b.context
          rw [Context.extract_eq]
          cases Declaration.spans t with
          | error e => exact grown
          | ok found => exact grown
    · exact .refl _

/-- No request takes a name out of a registry. -/
theorem within_perform (disk : Disk) (b : Build) (request : Request) :
    b.context.Within (perform disk b request).context := by
  apply perform_keeps (I := fun next => b.context.Within next.context)
  · intro q next grown
    exact grown
  · intro q next grown
    have same : (text disk q next).1.context = next.context := by
      rw [text_eq]
      split
      · rfl
      · split
        · rfl
        · rfl
    rw [same]
    exact grown
  · intro q next grown
    exact grown.trans (within_spans disk q next)
  · exact .refl _

def FaithfulAt (disks : List Disk) (p : Path) (b : Build) : Prop :=
  (b.source p).Faithful (Disk.Shows disks p) b.context

theorem stamped_of_shows {disk : Disk} {disks : List Disk} {p : Path} {file : FileTree.File}
    (stamps : ∀ next ∈ disks, disk.StampsChanges p next)
    (exists_file : disk.tree.file (FileTree.written p) = .ok file) :
    ∀ next, Disk.Shows (disk :: disks) p next → next.data ≠ file.data →
      disk.now < next.modified := by
  rintro next ⟨shown, mem, found⟩ changed
  rcases List.mem_cons.1 mem with rfl | later
  · obtain rfl := Except.ok.inj (exists_file.symm.trans found)
    exact absurd rfl changed
  · exact stamps shown later file next exists_file found changed

/-- Every request keeps a source faithful, also one that fails. -/
theorem perform_faithful {disk : Disk} {disks : List Disk} {p : Path}
    (stamps : ∀ next ∈ disks, disk.StampsChanges p next) {b : Build}
    (h : b.FaithfulAt (disk :: disks) p) (request : Request) :
    (perform disk b request).FaithfulAt (disk :: disks) p := by
  apply perform_keeps (I := FaithfulAt (disk :: disks) p) ?_ ?_ ?_ request h
  · intro q b h
    unfold FaithfulAt
    rw [visit_eq, source_remember]
    split
    · rename_i same
      rw [← same]
      exact h
    · exact h
  · intro q b h
    by_cases same : p = q
    · subst same
      cases exists_file : disk.tree.file (FileTree.written p) with
      | error e =>
        rw [text_eq, exists_file]
        exact h
      | ok file => exact text_faithful exists_file (stamped_of_shows stamps exists_file) h
    · have context : (text disk q b).1.context = b.context := by
        rw [text_eq]
        split
        · rfl
        · split
          · rfl
          · rfl
      unfold FaithfulAt
      rw [text_others disk same, context]
      exact h
  · intro q b h
    by_cases same : p = q
    · subst same
      cases exists_file : disk.tree.file (FileTree.written p) with
      | error e =>
        rw [spans_eq, exists_file]
        exact h
      | ok file =>
        have here : Disk.Shows (disk :: disks) p file := ⟨disk, List.mem_cons_self, exists_file⟩
        exact (spans_faithful exists_file here (stamped_of_shows stamps exists_file) h).1
    · unfold FaithfulAt
      rw [spans_others disk same]
      exact h.mono (fun _ => id) (within_spans disk q b)

/-- A run of requests keeps a source faithful. -/
theorem after_faithful {p : Path} {history : List (Disk × Request)} {disks : List Disk} {b : Build}
    (stamps : (renewals p history b ++ disks).Pairwise (Disk.StampsChanges p))
    (h : b.FaithfulAt (renewals p history b ++ disks) p) :
    (after history b).FaithfulAt disks p := by
  induction history generalizing b with
  | nil => exact h
  | cons step history ih =>
    obtain ⟨disk, request⟩ := step
    rw [renewals] at stamps h
    by_cases same : (perform disk b request).source p = b.source p
    · -- Nothing was renewed, and of the registries only more can be said.
      simp only [same, if_true] at stamps h
      apply ih stamps
      unfold FaithfulAt
      rw [same]
      exact h.mono (fun _ => id) (within_perform disk b request)
    · simp only [same, if_false, List.cons_append] at stamps h
      obtain ⟨first, stamps⟩ := List.pairwise_cons.1 stamps
      apply ih stamps
      apply (perform_faithful first h request).mono ?_ (.refl _)
      rintro file ⟨next, mem, shown⟩
      exact ⟨next, List.mem_cons_of_mem _ mem, shown⟩

/-- An access to the text of a faithful source changes no registry, and what it gives is the text
of the file. -/
theorem text_faithful_eq {disk : Disk} {p : Path} {file : FileTree.File}
    {seen : FileTree.File → Prop} (exists_file : disk.tree.file (FileTree.written p) = .ok file)
    (here : seen file) {b b' : Build} {t : Text} (h : (b.source p).Faithful seen b.context)
    (ran : Act.Gives (text disk p) b b' (some t)) : file.text = .ok t ∧ b'.context = b.context := by
  obtain ⟨log, ran⟩ := ran
  rw [text_eq, exists_file] at ran
  dsimp only at ran
  cases read : (b.source p).readText file disk.now with
  | error e =>
    rw [read] at ran
    cases ran
  | ok memo =>
    rw [read] at ran
    obtain ⟨rfl, same⟩ := Prod.mk.inj ran
    have value : memo.value? = some t := Except.ok.inj (Traced.mk.inj same).2
    cases h.readText_eq here read with
    | inl never =>
      rw [never.1] at value
      cases value
    | inr had =>
      obtain ⟨t', value', own⟩ := had
      obtain rfl := Option.some.inj (value.symm.trans value')
      exact ⟨own, rfl⟩

/-- What is loaded of a faithful source is what its file holds. -/
theorem load_faithful {disk : Disk} {path : Text} {p : Path} {b : Build} {t : Text}
    {found : List Span} (place : Path.normalize disk.tree.workdir path = p)
    (h : b.FaithfulAt [disk] p) (loaded : (load disk path b).2.result = .ok (t, found)) :
    disk.textAt p = .ok t ∧ Declaration.spans t = .ok found ∧
      (load disk path b).1.context.Registers t := by
  have ran := Act.gives_of_result loaded
  rw [load, place] at ran
  obtain ⟨visited, _, visit_ran, ran⟩ := Act.gives_bind.1 ran
  obtain ⟨accessed, spans?, spans_ran, ran⟩ := Act.gives_bind.1 ran
  obtain ⟨last, text?, text_ran, ran⟩ := Act.gives_bind.1 ran
  have both : last = (load disk path b).1 ∧ text? = some t ∧ spans? = some found := by
    split at ran
    · obtain ⟨same, value⟩ := Act.gives_pure.1 ran
      obtain ⟨rfl, rfl⟩ := Prod.mk.inj value
      rw [load, place]
      exact ⟨same.symm, rfl, rfl⟩
    · obtain ⟨log, failed⟩ := ran
      cases failed
  obtain ⟨rfl, rfl, rfl⟩ := both
  have faithful : visited.FaithfulAt [disk] p := by
    obtain ⟨rfl, -⟩ := visit_ran.eq
    unfold FaithfulAt
    rw [visit_eq, source_remember_self, context_remember]
    exact h
  obtain ⟨spans_left, spans_gave⟩ := spans_ran.eq
  cases exists_file : disk.tree.file (FileTree.written p) with
  | error e =>
    rw [spans_eq, exists_file] at spans_gave
    cases spans_gave
  | ok file =>
    have here : Disk.Shows [disk] p file := ⟨disk, List.mem_cons_self, exists_file⟩
    have none_after : ∀ next ∈ ([] : List Disk), disk.StampsChanges p next := List.forall_mem_nil _
    have stamped := stamped_of_shows none_after exists_file
    obtain ⟨kept, gave⟩ := spans_faithful exists_file here stamped faithful
    obtain ⟨t', own', spansOf, registered⟩ := gave found spans_gave
    rw [spans_left] at kept registered
    obtain ⟨own, same⟩ := text_faithful_eq exists_file here kept text_ran
    obtain rfl := Except.ok.inj (own'.symm.trans own)
    rw [Disk.textAt, exists_file, same]
    exact ⟨own, spansOf, registered⟩

theorem gives_render_iff {blank : Bool} {t out : Text} {found : List Span} {b b' : Build} :
    Act.Gives (render blank t found) b b' out ↔
      b' = b ∧ (b.context.render blank t found).result = .ok out := by
  simp only [Act.Gives, render, onContext, Act.zoom, Act.mapError, Traced.mapError]
  cases (b.context.render blank t found).result with
  | error e => simp [Except.mapError]
  | ok u =>
    constructor
    · rintro ⟨log, ran⟩
      cases ran
      exact ⟨rfl, rfl⟩
    · rintro ⟨rfl, same⟩
      obtain rfl := Except.ok.inj same
      exact ⟨_, rfl⟩

/-- **What is written is never stale.** After any run of requests, each made of the disk as it is at
that time and some of them failing, an expansion that gives a text has written the text that the
file holds now, with the spans of the declarations in that very text, and every name declared there
is registered. Between two requests files may be written, touched, removed and made again, and the
clock may be set; all that is asked is that contents which changed since the source was last renewed
are stamped later than the clock showed then. That files have positive times, or that no time of
change goes back, is not needed. -/
theorem compile_never_stale (c : Context) (history : List (Disk × Request)) (disk : Disk)
    (path : Text) (blank : Bool) (out : Text)
    (stamps : (renewals (Path.normalize disk.tree.workdir path) history { context := c } ++
      [disk]).Pairwise (Disk.StampsChanges (Path.normalize disk.tree.workdir path)))
    (returned : (compile disk path blank (after history { context := c })).2.result = .ok out) :
    ∃ t found, disk.textAt (Path.normalize disk.tree.workdir path) = .ok t ∧
      Declaration.spans t = .ok found ∧
      (load disk path (after history { context := c })).2.result = .ok (t, found) ∧
      ((compile disk path blank (after history { context := c })).1.context.render blank t
        found).result = .ok out ∧
      (compile disk path blank (after history { context := c })).1.context.Registers t := by
  have faithful : (after history { context := c }).FaithfulAt [disk] _ :=
    after_faithful stamps (Source.faithful_empty _ _)
  have ran := Act.gives_of_result returned
  obtain ⟨loaded, ⟨t, found⟩, load_ran, render_ran⟩ := Act.gives_bind.1 ran
  obtain ⟨load_left, load_gave⟩ := load_ran.eq
  obtain ⟨own, spansOf, registered⟩ := load_faithful rfl faithful load_gave
  obtain ⟨left, text⟩ := gives_render_iff.1 render_ran
  rw [load_left] at registered
  rw [left]
  exact ⟨t, found, own, spansOf, load_gave, text, registered⟩

theorem stampsChanges_of_modified {p : Path} {disk next : Disk} {file : FileTree.File}
    (found : next.tree.file (FileTree.written p) = .ok file) (later : disk.now < file.modified) :
    disk.StampsChanges p next := by
  intro _ changed _ found' _
  obtain rfl := Except.ok.inj (found.symm.trans found')
  exact later

set_option maxRecDepth 10000 in
/-- The file is seen with a declaration that cannot be read, then with bytes that are no text, and
then as it should be, with a time of change that is still to come. -/
theorem compile_after_two_failures :
    let unclosed := loneSource "@mixin --m \x7b" 100 1000
    let garbled : Disk :=
      { tree := { root := .folder [("a.css".toList, .file ⟨#[0xff]⟩ 1500)] }, now := 2000 }
    let disk := loneSource "@mixin --m \x7b\x7dx" 4000 3000
    let b := after [(unclosed, .scan [".".toList]), (garbled, .inspect "a.css".toList)] {}
    ∃ t found, disk.textAt (Path.normalize disk.tree.workdir "a.css".toList) = .ok t ∧
      Declaration.spans t = .ok found ∧
      (load disk "a.css".toList b).2.result = .ok (t, found) ∧
      ((compile disk "a.css".toList true b).1.context.render true t found).result =
        .ok "x".toList ∧
      (compile disk "a.css".toList true b).1.context.Registers t := by
  intro unclosed garbled disk b
  apply compile_never_stale {} [(unclosed, .scan [".".toList]), (garbled, .inspect "a.css".toList)]
  · set p := Path.normalize disk.tree.workdir "a.css".toList with place
    have garbled_file : garbled.tree.file (FileTree.written p) = .ok ⟨⟨#[0xff]⟩, 1500⟩ := by
      rw [place]
      cbv
    have disk_file : disk.tree.file (FileTree.written p) =
        .ok ⟨"@mixin --m \x7b\x7dx".toUTF8, 4000⟩ := by
      rw [place]
      cbv
    have second : unclosed.StampsChanges p garbled :=
      stampsChanges_of_modified garbled_file (by decide)
    have third : ∀ before : Disk, before.now < 4000 → before.StampsChanges p disk :=
      fun before early => stampsChanges_of_modified disk_file early
    apply List.Pairwise.sublist ((renewals_sublist _ _ _).append_right _)
    apply List.Pairwise.cons
    · intro next mem
      cases mem with
      | head => exact second
      | tail _ mem =>
        obtain rfl := List.mem_singleton.1 mem
        exact third unclosed (by decide)
    · apply List.pairwise_pair.2
      exact third garbled (by decide)
  · cbv

end Build

end StyleExpansion
