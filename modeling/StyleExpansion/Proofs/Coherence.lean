import StyleExpansion.Proofs.Access
import Mathlib

/-!
The text and the spans of a source are remembered apart, each with its own time, and a failure may
renew the one and not the other. They still fit together whenever a source is expanded, as long as
no file is ever seen with an earlier time of change than before.

* `spans_coherent`: what an access to the spans of a source leaves behind;
* `perform_coherent`, `after_coherent`: every request, and every run of requests, keeps a source
  coherent, failures included;
* `compile_uses_own_spans`: a source is expanded with the spans of the very text that is expanded.
-/

namespace StyleExpansion

namespace Act

variable {σ ε α β : Type} {I : σ → Prop}

/-- The step keeps a property of the state, also when it fails. -/
def Keeps (I : σ → Prop) (x : Act σ ε α) : Prop := ∀ s, I s → I (x s).1

theorem keeps_of_same {x : Act σ ε α} (h : ∀ s, (x s).1 = s) : Keeps I x := by
  intro s hs
  rw [h s]
  exact hs

theorem Keeps.bind {x : Act σ ε α} {f : α → Act σ ε β} (hx : Keeps I x)
    (hf : ∀ a, Keeps I (f a)) : Keeps I (x >>= f) := by
  intro s hs
  have first := hx s hs
  rcases ran : x s with ⟨t, log, e | a⟩
  · rw [bind_of_error ran]
    rw [ran] at first
    exact first
  · rw [bind_of_ok ran]
    rw [ran] at first
    exact hf a t first

theorem Keeps.each {f : α → Act σ ε β} (hf : ∀ a, Keeps I (f a)) (as : List α) :
    Keeps I (each f as) := by
  induction as with
  | nil => exact keeps_of_same fun _ => rfl
  | cons a as ih =>
    exact (hf a).bind fun _ => ih.bind fun _ => keeps_of_same fun _ => rfl

end Act

namespace Build

def inspect (disk : Disk) (path : Text) : Act Build Fault (Option Text × Option (List Span)) := do
  let p := Path.normalize disk.tree.workdir path
  visit p
  let text? ← text disk p
  let spans? ← spans disk p
  return (text?, spans?)

inductive Request where
  | scan (roots : List Text)
  | scanWithDependencies (root : Text) (dependencies : List Text)
  | compile (path : Text) (blank : Bool)
  | inspect (path : Text)

def perform (disk : Disk) (b : Build) : Request → Build
  | .scan roots => (scan disk roots b).1
  | .scanWithDependencies root dependencies =>
    (scanWithDependencies disk root dependencies b).1
  | .compile path blank => (compile disk path blank b).1
  | .inspect path => (inspect disk path b).1

/-- The build that a run of requests leaves, each made of the disk as it is at that time. Between
two requests files may be written, touched, removed and made again, and the clock may be set. -/
def after (history : List (Disk × Request)) (b : Build) : Build :=
  history.foldl (fun b step => perform step.1 b step.2) b

/-- The disks on which a run of requests renewed what is remembered of the source at a place. -/
def renewals (p : Path) : List (Disk × Request) → Build → List Disk
  | [], _ => []
  | (disk, request) :: history, b =>
    let next := perform disk b request
    if next.source p = b.source p then renewals p history next
    else disk :: renewals p history next

theorem renewals_sublist (p : Path) (history : List (Disk × Request)) (b : Build) :
    (renewals p history b).Sublist (history.map Prod.fst) := by
  induction history generalizing b with
  | nil => exact List.Sublist.slnil
  | cons step history ih =>
    rw [renewals]
    split
    · exact (ih _).cons _
    · exact (ih _).cons_cons _

end Build

def Disk.NotEarlier (p : Path) (disk next : Disk) : Prop :=
  ∀ file changed, disk.tree.file (FileTree.written p) = .ok file →
    next.tree.file (FileTree.written p) = .ok changed → file.modified ≤ changed.modified

/-- The times of change of the file at a place that are to be seen on the disks. -/
def Disk.Seen (disks : List Disk) (p : Path) (modified : Int) : Prop :=
  ∃ disk ∈ disks, ∃ file, disk.tree.file (FileTree.written p) = .ok file ∧ file.modified = modified

/-! ## Coherent sources -/

namespace Source

/-- The text was read, and the spans found in it, at the same time. -/
structure InStep (s : Source) : Prop where
  together : s.text.updated = s.spans.updated
  belong : ∀ found, s.spans.value? = some found →
    ∃ t, s.text.value? = some t ∧ Declaration.spans t = .ok found

/-- The spans will be found again at the next access, but the text that is remembered has
declarations that cannot be read. -/
structure Behind (later : Int → Prop) (s : Source) : Prop where
  due : ∀ m, later m → s.spans.updated < m
  unfit : ∃ t, s.text.value? = some t ∧ ∀ found, Declaration.spans t ≠ .ok found

/-- What is remembered of a source fits together, or will not be used together, where `later` holds
of the times of change that are still to be seen. -/
def Coherent (later : Int → Prop) (s : Source) : Prop := s.InStep ∨ s.Behind later

/-- The text was just read from the file, and the spans will be found again at the next access. -/
structure Fresh (file : FileTree.File) (now : Int) (s : Source) : Prop where
  due : s.spans.updated < file.modified
  read : ∃ t, file.text = .ok t ∧ s.text = ⟨now, some t⟩

theorem inStep_empty : ({} : Source).InStep where
  together := rfl
  belong _ h := nomatch h

theorem Coherent.mono {later later' : Int → Prop} {s : Source} (h : s.Coherent later)
    (fewer : ∀ m, later' m → later m) : s.Coherent later' := by
  rcases h with inStep | behind
  · exact Or.inl inStep
  · exact Or.inr ⟨fun m hm => behind.due m (fewer m hm), behind.unfit⟩

theorem readText_cases {s : Source} {file : FileTree.File} {now : Int} {memo : Memo Text}
    (h : s.readText file now = .ok memo) :
    (s.text.updated < file.modified ∧ ∃ t, file.text = .ok t ∧ memo = ⟨now, some t⟩) ∨
      (file.modified ≤ s.text.updated ∧ memo = s.text) := by
  unfold readText at h
  split at h
  · rename_i expired
    refine Or.inl ⟨by simpa [Memo.expired] using expired, ?_⟩
    cases read : file.text with
    | error e =>
      rw [read] at h
      cases h
    | ok t =>
      rw [read] at h
      exact ⟨t, rfl, (Except.ok.inj h).symm⟩
  · rename_i current
    exact Or.inr ⟨by simpa [Memo.expired] using current, (Except.ok.inj h).symm⟩

theorem readText_of_current {s : Source} {file : FileTree.File} {now : Int}
    (h : file.modified ≤ s.text.updated) : s.readText file now = .ok s.text := by
  have current : s.text.expired file.modified = false := by simpa [Memo.expired] using h
  simp [readText, current]

theorem readText_of_fresh {s : Source} {file : FileTree.File} {now : Int} {t : Text}
    (read : file.text = .ok t) (fresh : s.text = ⟨now, some t⟩) :
    s.readText file now = .ok s.text := by
  unfold readText
  split
  · rw [read, fresh]
    rfl
  · rfl

theorem readText_again {s : Source} {file : FileTree.File} {now : Int} {memo : Memo Text}
    (read : s.readText file now = .ok memo) (spans : Memo (List Span)) :
    readText ⟨memo, spans⟩ file now = .ok memo := by
  rcases readText_cases read with ⟨_, t, read', rfl⟩ | ⟨current, rfl⟩
  · exact readText_of_fresh read' rfl
  · exact readText_of_current current

theorem InStep.spans_eq {s : Source} {t : Text} {found : List Span} (h : s.InStep)
    (text : s.text.value? = some t) (spans : s.spans.value? = some found) :
    Declaration.spans t = .ok found := by
  obtain ⟨u, same, belongs⟩ := h.belong found spans
  obtain rfl := Option.some.inj (text.symm.trans same)
  exact belongs

section
variable {later : Int → Prop} {s : Source} {file : FileTree.File} {now : Int}

/-- A text that is read just before its spans are found does no harm. -/
theorem Coherent.reread {memo : Memo Text} (h : s.Coherent later)
    (now_later : later file.modified) (read : s.readText file now = .ok memo) :
    Coherent later { s with text := memo } ∨ Fresh file now { s with text := memo } := by
  rcases readText_cases read with ⟨expired, t, read', rfl⟩ | ⟨_, rfl⟩
  · refine Or.inr ⟨?_, t, read', rfl⟩
    rcases h with inStep | behind
    · have := inStep.together
      simp only
      omega
    · exact behind.due _ now_later
  · exact Or.inl h

variable (h : s.Coherent later ∨ s.Fresh file now)

include h

/-- Spans that need not be found again are in step with the text. -/
theorem inStep_of_current (now_later : later file.modified)
    (current : file.modified ≤ s.spans.updated) : s.InStep := by
  rcases h with (inStep | behind) | fresh
  · exact inStep
  · have := behind.due _ now_later
    omega
  · have := fresh.due
    omega

/-- When spans have to be found again, the text is at hand: it was read now, or its declarations are
known to be unreadable. -/
theorem readText_of_due {memo : Memo Text} (due : s.spans.updated < file.modified)
    (read : s.readText file now = .ok memo) :
    ∃ t, memo.value? = some t ∧
      (memo.updated = now ∨ ∀ found, Declaration.spans t ≠ .ok found) := by
  rcases readText_cases read with ⟨_, t, _, rfl⟩ | ⟨current, rfl⟩
  · exact ⟨t, rfl, Or.inl rfl⟩
  · rcases h with (inStep | behind) | fresh
    · have := inStep.together
      omega
    · obtain ⟨t, value, unfit⟩ := behind.unfit
      exact ⟨t, value, Or.inr unfit⟩
    · obtain ⟨t, _, same⟩ := fresh.read
      rw [same]
      exact ⟨t, rfl, Or.inl rfl⟩

/-- A source keeps what is remembered of it when its text cannot be read. -/
theorem coherent_of_error {e : FileError} (read : s.readText file now = .error e) :
    s.Coherent later := by
  rcases h with coherent | fresh
  · exact coherent
  · obtain ⟨t, read', fresh'⟩ := fresh.read
    rw [readText_of_fresh read' fresh'] at read
    cases read

end

end Source

namespace Build

theorem spans_others (disk : Disk) {p q : Path} (other : q ≠ p) (b : Build) :
    (spans disk p b).1.source q = b.source q := by
  rw [spans_eq]
  split
  · rfl
  · split
    · split
      · rfl
      · split
        · simp [source_remember, other]
        · split <;> simp [source_remember, other]
    · simp [source_remember, other]

theorem text_others (disk : Disk) {p q : Path} (other : q ≠ p) (b : Build) :
    (text disk p b).1.source q = b.source q := by
  rw [text_eq]
  split
  · rfl
  · split
    · rfl
    · simp [source_remember, other]

/-- An access to the spans of a source makes it coherent, and one that succeeds gives spans that are
in step with a text that a further access will not change. -/
theorem spans_coherent {disk : Disk} {p : Path} {file : FileTree.File} {later : Int → Prop}
    (exists_file : disk.tree.file (FileTree.written p) = .ok file)
    (first : ∀ m, later m → file.modified ≤ m) (now_later : later file.modified) {b : Build}
    (h : (b.source p).Coherent later ∨ (b.source p).Fresh file disk.now) :
    ((spans disk p b).1.source p).Coherent later ∧
      ∀ v, (spans disk p b).2.result = .ok v →
        ((spans disk p b).1.source p).InStep ∧ v = ((spans disk p b).1.source p).spans.value? ∧
          ((spans disk p b).1.source p).readText file disk.now =
            .ok ((spans disk p b).1.source p).text := by
  rw [spans_eq, exists_file]
  by_cases expired : (b.source p).spans.expired file.modified = true
  · have due : (b.source p).spans.updated < file.modified := by
      simpa [Memo.expired] using expired
    simp only [expired, if_true]
    cases read : (b.source p).readText file disk.now with
    | error e => exact ⟨Source.coherent_of_error h read, nofun⟩
    | ok memo =>
      obtain ⟨t, value, origin⟩ := Source.readText_of_due h due read
      have spansOf := Context.result_extract t b.context
      simp only [value]
      rcases extracted : Context.extract t b.context with ⟨c, log, e | found⟩
      · rw [extracted] at spansOf
        simp only [source_remember_self]
        refine ⟨Or.inr ⟨?_, t, value, ?_⟩, nofun⟩
        · intro m hm
          have := first m hm
          exact Int.lt_of_lt_of_le due this
        · intro found same
          rw [same] at spansOf
          cases spansOf
      · rw [extracted] at spansOf
        simp only [source_remember_self]
        have now : memo.updated = disk.now := by
          rcases origin with now | unfit
          · exact now
          · exact absurd spansOf.symm (unfit found)
        have inStep : Source.InStep ⟨memo, ⟨disk.now, some found⟩⟩ := by
          refine ⟨now, ?_⟩
          intro found' same
          obtain rfl := Option.some.inj same
          exact ⟨t, value, spansOf.symm⟩
        refine ⟨Or.inl inStep, ?_⟩
        intro v hv
        exact ⟨inStep, (Except.ok.inj hv).symm, Source.readText_again read _⟩
  · have current : file.modified ≤ (b.source p).spans.updated := by
      simpa [Memo.expired] using expired
    simp only [expired, Bool.false_eq_true, if_false, source_remember_self]
    have inStep := Source.inStep_of_current h now_later current
    refine ⟨Or.inl inStep, ?_⟩
    intro v hv
    refine ⟨inStep, (Except.ok.inj hv).symm, Source.readText_of_current ?_⟩
    rw [inStep.together]
    exact current

/-! ## Requests -/

section
variable {disk : Disk} {disks : List Disk} {p : Path}

def CoherentAt (disks : List Disk) (p : Path) (b : Build) : Prop :=
  (b.source p).Coherent (Disk.Seen disks p)

theorem first_seen (earliest : ∀ next ∈ disks, disk.NotEarlier p next)
    {file : FileTree.File} (exists_file : disk.tree.file (FileTree.written p) = .ok file) :
    (∀ m, Disk.Seen (disk :: disks) p m → file.modified ≤ m) ∧
      Disk.Seen (disk :: disks) p file.modified := by
  constructor
  · rintro m ⟨next, mem, changed, found, rfl⟩
    rcases List.mem_cons.1 mem with rfl | mem
    · obtain rfl := Except.ok.inj (exists_file.symm.trans found)
      exact Int.le_refl _
    · exact earliest next mem file changed exists_file found
  · exact ⟨disk, List.mem_cons_self, file, exists_file, rfl⟩

theorem keeps_visit (q : Path) : Act.Keeps (CoherentAt disks p) (visit q) := by
  intro b h
  unfold CoherentAt
  rw [visit_eq, source_remember]
  split
  · rename_i same
    rw [← same]
    exact h
  · exact h

theorem keeps_text {q : Path} (other : p ≠ q) :
    Act.Keeps (CoherentAt disks p) (text disk q) := by
  intro b h
  unfold CoherentAt
  rw [text_others disk other]
  exact h

variable (earliest : ∀ next ∈ disks, disk.NotEarlier p next)

include earliest

theorem keeps_spans (q : Path) : Act.Keeps (CoherentAt (disk :: disks) p) (spans disk q) := by
  intro b h
  by_cases other : p = q
  · subst other
    cases found : disk.tree.file (FileTree.written p) with
    | error e =>
      rw [spans_eq, found]
      exact h
    | ok file =>
      obtain ⟨first, now_later⟩ := first_seen earliest found
      exact (spans_coherent found first now_later (Or.inl h)).1
  · unfold CoherentAt
    rw [spans_others disk other]
    exact h

theorem keeps_scanFile (path : Text) :
    Act.Keeps (CoherentAt (disk :: disks) p) (scanFile disk path) :=
  (keeps_visit _).bind fun _ => (keeps_spans earliest _).bind fun _ =>
    Act.keeps_of_same fun _ => rfl

theorem keeps_scan (roots : List Text) :
    Act.Keeps (CoherentAt (disk :: disks) p) (scan disk roots) := by
  refine (Act.Keeps.each (fun root => ?_) roots).bind fun _ => Act.keeps_of_same fun _ => rfl
  refine (Act.keeps_of_same fun _ => rfl).bind fun found => ?_
  cases found with
  | some paths => exact Act.Keeps.each (keeps_scanFile earliest) paths
  | none => exact Act.keeps_of_same fun _ => rfl

/-- Loading the source keeps it coherent, and gives a text with its own spans. -/
theorem load_coherent {path : Text} (place : Path.normalize disk.tree.workdir path = p) {b : Build}
    (h : b.CoherentAt (disk :: disks) p) :
    (load disk path b).1.CoherentAt (disk :: disks) p ∧
      ∀ t found, (load disk path b).2.result = .ok (t, found) → Declaration.spans t = .ok found := by
  have visited : (b.remember p (b.source p) b.context).CoherentAt (disk :: disks) p :=
    keeps_visit p b h
  have accessed := keeps_spans earliest p _ visited
  rw [load, place, Act.bind_of_quiet (visit_eq _ b)]
  cases found : disk.tree.file (FileTree.written p) with
  | error e =>
    have failed := spans_eq disk p (b.remember p (b.source p) b.context)
    rw [found] at failed
    rw [Act.bind_of_error failed]
    exact ⟨visited, nofun⟩
  | ok file =>
    obtain ⟨first, now_later⟩ := first_seen earliest found
    have access := (spans_coherent found first now_later (Or.inl visited)).2
    rcases ran : spans disk p (b.remember p (b.source p) b.context) with ⟨b', log, e | spans?⟩
    · rw [Act.bind_of_error ran]
      rw [ran] at accessed
      exact ⟨accessed, nofun⟩
    · rw [ran] at access accessed
      obtain ⟨inStep, value, again⟩ := access spans? rfl
      have text := text_eq disk p b'
      rw [found] at text
      simp only [again] at text
      rw [Act.bind_of_ok ran, Act.bind_of_quiet text]
      have kept : (b'.remember p (b'.source p) b'.context).CoherentAt (disk :: disks) p :=
        keeps_visit p b' accessed
      simp only at value
      cases texts : (b'.source p).text.value? with
      | none => exact ⟨kept, nofun⟩
      | some t =>
        cases spans? with
        | none => exact ⟨kept, nofun⟩
        | some found =>
          refine ⟨kept, ?_⟩
          intro t' found' same
          obtain ⟨rfl, rfl⟩ := Prod.mk.inj (Except.ok.inj same)
          exact inStep.spans_eq texts value.symm

theorem keeps_load (path : Text) : Act.Keeps (CoherentAt (disk :: disks) p) (load disk path) := by
  by_cases place : Path.normalize disk.tree.workdir path = p
  · exact fun b h => (load_coherent earliest place h).1
  · refine (keeps_visit _).bind fun _ => (keeps_spans earliest _).bind fun spans? => ?_
    refine (keeps_text (Ne.symm place)).bind fun text? => ?_
    split
    · exact Act.keeps_of_same fun _ => rfl
    · exact Act.keeps_of_same fun _ => rfl

theorem inspect_coherent {path : Text} (place : Path.normalize disk.tree.workdir path = p)
    {b : Build} (h : b.CoherentAt (disk :: disks) p) :
    (inspect disk path b).1.CoherentAt (disk :: disks) p := by
  have visited : (b.remember p (b.source p) b.context).CoherentAt (disk :: disks) p :=
    keeps_visit p b h
  rw [inspect, place, Act.bind_of_quiet (visit_eq _ b)]
  set b' := b.remember p (b.source p) b.context
  have text := text_eq disk p b'
  cases found : disk.tree.file (FileTree.written p) with
  | error e =>
    rw [found] at text
    rw [Act.bind_of_error text]
    exact visited
  | ok file =>
    rw [found] at text
    obtain ⟨first, now_later⟩ := first_seen earliest found
    cases read : (b'.source p).readText file disk.now with
    | error e =>
      simp only [read] at text
      rw [Act.bind_of_error text]
      exact visited
    | ok memo =>
      simp only [read] at text
      rw [Act.bind_of_quiet text]
      set b'' := b'.remember p { b'.source p with text := memo } b'.context
      have source : b''.source p = { b'.source p with text := memo } := source_remember_self _ _ _ _
      have ready : (b''.source p).Coherent (Disk.Seen (disk :: disks) p) ∨
          (b''.source p).Fresh file disk.now := by
        rw [source]
        exact visited.reread now_later read
      have accessed : (spans disk p b'').1.CoherentAt (disk :: disks) p :=
        (spans_coherent found first now_later ready).1
      rcases ran : spans disk p b'' with ⟨_, log, e | spans?⟩
      · rw [Act.bind_of_error ran]
        rw [ran] at accessed
        exact accessed
      · rw [Act.bind_of_ok ran]
        rw [ran] at accessed
        exact accessed

theorem keeps_inspect (path : Text) :
    Act.Keeps (CoherentAt (disk :: disks) p) (inspect disk path) := by
  by_cases place : Path.normalize disk.tree.workdir path = p
  · exact fun b h => inspect_coherent earliest place h
  · refine (keeps_visit _).bind fun _ => (keeps_text (Ne.symm place)).bind fun text? => ?_
    exact (keeps_spans earliest _).bind fun spans? => Act.keeps_of_same fun _ => rfl

theorem perform_coherent {b : Build} (h : b.CoherentAt (disk :: disks) p) (request : Request) :
    (perform disk b request).CoherentAt (disk :: disks) p := by
  cases request with
  | scan roots => exact keeps_scan earliest roots b h
  | scanWithDependencies root dependencies => exact keeps_scan earliest _ b h
  | compile path blank =>
    exact ((keeps_load earliest path).bind fun loaded => fun b h => h) b h
  | inspect path => exact keeps_inspect earliest path b h

end

/-- A run of requests keeps a source coherent. -/
theorem after_coherent {p : Path} {history : List (Disk × Request)} {disks : List Disk} {b : Build}
    (times : (renewals p history b ++ disks).Pairwise (Disk.NotEarlier p))
    (h : b.CoherentAt (renewals p history b ++ disks) p) :
    (after history b).CoherentAt disks p := by
  induction history generalizing b with
  | nil => exact h
  | cons step history ih =>
    obtain ⟨disk, request⟩ := step
    rw [renewals] at times h
    by_cases same : (perform disk b request).source p = b.source p
    · simp only [same, if_true] at times h
      refine ih times ?_
      unfold CoherentAt
      rw [same]
      exact h
    · simp only [same, if_false, List.cons_append] at times h
      obtain ⟨earliest, times⟩ := List.pairwise_cons.1 times
      refine ih times ?_
      exact (perform_coherent earliest h request).mono
        fun m ⟨next, mem, seen⟩ => ⟨next, List.mem_cons_of_mem _ mem, seen⟩

/-- **A source is expanded with its own spans.** After any run of requests, in which files and the
clock may change in any way between two requests as long as the source is never renewed at an
earlier time of change than before, an expansion that gives a text has written the text of the
source with exactly the spans of the declarations of that text. -/
theorem compile_uses_own_spans (c : Context) (history : List (Disk × Request)) (disk : Disk)
    (path : Text) (blank : Bool) (out : Text)
    (times : (renewals (Path.normalize disk.tree.workdir path) history { context := c } ++
      [disk]).Pairwise (Disk.NotEarlier (Path.normalize disk.tree.workdir path)))
    (returned : (compile disk path blank (after history { context := c })).2.result = .ok out) :
    ∃ t found, (load disk path (after history { context := c })).2.result = .ok (t, found) ∧
      Declaration.spans t = .ok found ∧
      ((load disk path (after history { context := c })).1.context.render blank t found).result =
        .ok out := by
  have coherent := after_coherent times (Or.inl Source.inStep_empty)
  have own := (load_coherent (List.forall_mem_nil _) rfl coherent).2
  rw [compile] at returned
  rcases ran : load disk path (after history { context := c }) with ⟨b, log, e | ⟨t, found⟩⟩
  · rw [Act.bind_of_error ran] at returned
    cases returned
  · rw [Act.bind_of_ok ran] at returned
    rw [ran] at own
    refine ⟨t, found, rfl, own t found rfl, ?_⟩
    simp only [render, onContext, Act.zoom, Act.mapError, Traced.mapError] at returned
    cases written : (b.context.render blank t found).result with
    | error e =>
      rw [written] at returned
      cases returned
    | ok u =>
      rw [written] at returned
      exact congrArg Except.ok (Except.ok.inj returned)

def loneSource (text : String) (modified now : Int) : Disk :=
  { tree := { root := .folder [("a.css".toList, .file text.toUTF8 modified)] }, now }

theorem modified_loneSource {text : String} {modified now : Int} {path : Text}
    {file : FileTree.File} (h : (loneSource text modified now).tree.file path = .ok file) :
    file.modified = modified := by
  obtain ⟨p, -, found⟩ := FileTree.file_eq_ok_iff.1 h
  match p with
  | [] => cases found
  | name :: rest =>
    simp only [loneSource, Node.at?, Node.child?, List.find?_cons, List.find?_nil] at found
    split at found
    · rename_i n held
      split at held
      · obtain rfl := Option.some.inj held
        cases rest with
        | nil => exact (Node.file.inj (Option.some.inj found)).2.symm
        | cons _ _ => cases found
      · cases held
    · cases found

set_option maxRecDepth 10000 in
/-- The bracket of a mixin is closed only after a scan has failed on it. -/
theorem compile_after_failed_scan :
    let before := loneSource "@mixin --m \x7b" 100 1000
    let disk := loneSource "@mixin --m \x7b\x7dx" 2000 3000
    let b := after [(before, .scan [".".toList])] {}
    ∃ t found, (load disk "a.css".toList b).2.result = .ok (t, found) ∧
      Declaration.spans t = .ok found ∧
      ((load disk "a.css".toList b).1.context.render true t found).result = .ok "x".toList := by
  intro before disk b
  refine compile_uses_own_spans {} [(before, .scan [".".toList])] disk "a.css".toList true
    "x".toList ?_ (by cbv)
  refine List.Pairwise.sublist ((renewals_sublist _ _ _).append_right _) ?_
  refine List.pairwise_cons.2 ⟨?_, List.pairwise_singleton _ _⟩
  intro next mem file changed found found'
  obtain rfl := List.mem_singleton.1 mem
  rw [modified_loneSource found, modified_loneSource found']
  decide

end Build

end StyleExpansion
