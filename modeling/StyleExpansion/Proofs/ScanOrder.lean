import StyleExpansion.Proofs.Coherence
import StyleExpansion.Proofs.Locality
import StyleExpansion.Proofs.Rescan
import Mathlib

/-!
The order in which sources are scanned. Where two sources declare one name the last that is scanned
stands. Where no two do, the order decides nothing but the order of the registries, and that is not
to be seen in any expansion.

* `Context.Alike.render_eq`: an expansion only looks up names;
* `Build.perform_gathered`: what any request for listed sources leaves behind;
* `scan_order_irrelevant`: two builds that scanned the same sources, each in its own order, have the
  same definitions and expand each source alike.
-/

namespace StyleExpansion

section
variable {r r' : Registry} (same : ∀ name, r.get? name = r'.get? name)

include same

theorem Registry.contains_congr : r.contains = r'.contains := by
  funext name
  rw [Table.contains_eq_isSome, Table.contains_eq_isSome, same]

theorem Calls.passFrom_congr (offset : Nat) (s : Text) :
    passFrom r offset s = passFrom r' offset s := by
  induction length : s.length using Nat.strong_induction_on generalizing offset s with
  | _ n ih =>
    rw [passFrom_eq, passFrom_eq r']
    cases found : head.find? s with
    | none => rfl
    | some o =>
      have shorter := Reader.length_rest_lt_of_find? found
      simp only [same]
      cases r'.get? o.value with
      | none => simp only [ih o.rest.length (by omega) (o.stop offset) o.rest rfl]
      | some d =>
        cases closed : enclosed? o.rest with
        | none => rfl
        | some block =>
          have := length_rest_lt closed
          simp only [ih block.rest.length (by omega) _ block.rest rfl]

theorem Applications.passFrom_congr (offset : Nat) (s : Text) :
    passFrom r offset s = passFrom r' offset s := by
  induction length : s.length using Nat.strong_induction_on generalizing offset s with
  | _ n ih =>
    rw [passFrom_eq, passFrom_eq r']
    cases found : ApplySite.next? offset s with
    | error e => rfl
    | ok o? =>
      cases o? with
      | none => rfl
      | some o =>
        have shorter := ApplySite.length_rest_lt_of_next? found
        simp only [replace, same, ih o.rest.length (by omega) (o.stop offset) o.rest rfl]

end

namespace Context

/-- Two contexts with the same definition under each name, in whatever order, and the same
settings. -/
structure Alike (c c' : Context) : Prop where
  get? : ∀ kind name, (c.registry kind).get? name = (c'.registry kind).get? name
  maxDepth : c.maxDepth = c'.maxDepth
  strict : c.strict = c'.strict

section
variable {c c' : Context} (h : c.Alike c')

include h

theorem Alike.pass_eq (kind : Kind) : c.pass kind = c'.pass kind := by
  funext s
  cases kind with
  | function => exact congrArg (Traced.mk []) (Calls.passFrom_congr (h.get? .function) 0 s)
  | mixin => exact Applications.passFrom_congr (h.get? .mixin) 0 s

theorem Alike.residual_eq (kind : Kind) (s : Text) : c.residual kind s = c'.residual kind s := by
  cases kind with
  | function =>
    have same : c.functions.contains = c'.functions.contains :=
      Registry.contains_congr (h.get? .function)
    simp only [residual, Calls.residual, same]
  | mixin =>
    have same : c.mixins.contains = c'.mixins.contains :=
      Registry.contains_congr (h.get? .mixin)
    simp only [residual, Applications.residual, same]

theorem Alike.conclude_eq (kind : Kind) (settled : Settled) :
    c.conclude kind settled = c'.conclude kind settled := by
  simp only [conclude, h.residual_eq, h.maxDepth, h.strict]

theorem Alike.expand_eq (s : Text) : c.expand s = c'.expand s := by
  simp only [expand, resolve, h.pass_eq, h.maxDepth, h.conclude_eq]

theorem Alike.ofSegments_eq (blank : Bool) (segments : List Segment) :
    Written.ofSegments (some c) blank segments = Written.ofSegments (some c') blank segments := by
  induction segments with
  | nil => rfl
  | cons segment segments ih =>
    have first : segment.render (some c) blank = segment.render (some c') blank := by
      cases segment with
      | code s => exact h.expand_eq s
      | declaration s => rfl
    simp only [Written.ofSegments, first, ih]

/-- What is written only depends on what stands under each name. -/
theorem Alike.render_eq (blank : Bool) (text : Text) (spans : List Span) :
    c.render blank text spans = c'.render blank text spans := by
  simp only [render, write, h.ofSegments_eq]

end

end Context

/-! ## Sources that share no name -/

section
variable {α β : Type} {f : α → Option β} {as bs : List α}

theorem findSome?_eq_of_mem_iff (same : ∀ a, a ∈ as ↔ a ∈ bs)
    (unique : ∀ a ∈ as, ∀ a' ∈ as, (f a).isSome → (f a').isSome → a = a') :
    as.findSome? f = bs.findSome? f := by
  cases found : as.findSome? f with
  | none =>
    symm
    apply List.findSome?_eq_none_iff.2
    intro b mem
    exact List.findSome?_eq_none_iff.1 found b ((same b).2 mem)
  | some d =>
    obtain ⟨a, mem, value⟩ := List.exists_of_findSome?_eq_some found
    cases found' : bs.findSome? f with
    | none =>
      rw [List.findSome?_eq_none_iff.1 found' a ((same a).1 mem)] at value
      cases value
    | some d' =>
      obtain ⟨b, mem', value'⟩ := List.exists_of_findSome?_eq_some found'
      obtain rfl := unique a mem b ((same b).2 mem') (by simp [value]) (by simp [value'])
      exact value.symm.trans value'

end

namespace Disk

variable {disk : Disk} {places more : List Path} {p : Path} {kind : Kind} {name : Text}

def Apart (disk : Disk) (places : List Path) : Prop :=
  ∀ kind name, ∀ p ∈ places, ∀ q ∈ places, (disk.declared? kind name p).isSome →
    (disk.declared? kind name q).isSome → p = q

theorem Apart.mono (apart : disk.Apart places) (fewer : ∀ p ∈ more, p ∈ places) :
    disk.Apart more := by
  intro kind name p hp q hq
  exact apart kind name p (fewer p hp) q (fewer q hq)

/-- The definition that the file at a place has to give under a name once it is read. A file that
was not changed since time zero is never read. -/
def offered? (disk : Disk) (kind : Kind) (name : Text) (p : Path) : Option Definition :=
  if 0 < disk.modified p then disk.declared? kind name p else none

/-- The definition that the first of the places that has one gives under a name. -/
def supplied? (disk : Disk) (places : List Path) (kind : Kind) (name : Text) : Option Definition :=
  places.findSome? (disk.offered? kind name)

theorem supplied?_cons :
    disk.supplied? (p :: places) kind name =
      (disk.offered? kind name p).or (disk.supplied? places kind name) := by
  rw [supplied?, List.findSome?_cons]
  cases disk.offered? kind name p with
  | none => rfl
  | some d => rfl

/-- Of places that share no name, the order is no matter. -/
theorem supplied?_eq (apart : disk.Apart places) (same : ∀ p, p ∈ places ↔ p ∈ more) :
    disk.supplied? places kind name = disk.supplied? more kind name := by
  have declared : ∀ p, (disk.offered? kind name p).isSome → (disk.declared? kind name p).isSome := by
    intro p
    unfold offered?
    split
    · exact id
    · exact nofun
  apply findSome?_eq_of_mem_iff same
  intro p hp q hq here there
  exact apart kind name p hp q hq (declared p here) (declared q there)

theorem exists_file_of_textAt {t : Text} (h : disk.textAt p = .ok t) :
    ∃ file, disk.tree.file (FileTree.written p) = .ok file ∧ file.text = .ok t ∧
      disk.modified p = file.modified := by
  unfold textAt at h
  cases exists_file : disk.tree.file (FileTree.written p) with
  | error e =>
    rw [exists_file] at h
    cases h
  | ok file =>
    rw [exists_file] at h
    exact ⟨file, rfl, h, by simp [Disk.modified, exists_file]⟩

end Disk

theorem Disk.declared?_eq_none {disk : Disk} {p : Path} {kind : Kind} {t : Text}
    (text : disk.textAt p = .ok t) (empty : (Declaration.scan kind t).items = []) (name : Text) :
    disk.declared? kind name p = none := by
  simp [declared?, text, Declaration.last?, empty]

/-- Whatever is remembered of the source at a place is what its file holds, and is remembered only
of a file that has to be read; its spans only if the place is one of `done`. -/
structure Source.Mirrors (disk : Disk) (done : List Path) (p : Path) (s : Source) : Prop where
  text : s.text = {} ∨ 0 < disk.modified p ∧
    ∃ time t, disk.textAt p = .ok t ∧ s.text = ⟨time, some t⟩
  spans : s.spans = {} ∨ (0 < disk.modified p ∧ p ∈ done) ∧
    ∃ time t found, disk.textAt p = .ok t ∧ Declaration.spans t = .ok found ∧
      s.spans = ⟨time, some found⟩

theorem Source.Mirrors.mono {disk : Disk} {done more : List Path} {p : Path} {s : Source}
    (h : s.Mirrors disk done p) (sub : ∀ p ∈ done, p ∈ more) : s.Mirrors disk more p where
  text := h.text
  spans := h.spans.imp id (And.imp_left (And.imp_right (sub p)))

namespace Build

/-- The build started with a context and has registered the declarations of the places `done`, which
share no name. It remembers nothing else than what the files hold. -/
structure Gathered (disk : Disk) (done : List Path) (c : Context) (b : Build) : Prop where
  apart : disk.Apart done
  get? : ∀ kind name, (b.context.registry kind).get? name =
    (disk.supplied? done kind name).or ((c.registry kind).get? name)
  maxDepth : b.context.maxDepth = c.maxDepth
  strict : b.context.strict = c.strict
  mirrors : ∀ p, (b.source p).Mirrors disk done p

section
variable {disk : Disk} {done more : List Path} {c : Context} {b : Build} {p : Path} {t : Text}
  {found : List Span}

theorem gathered_new (disk : Disk) (c : Context) : Gathered disk [] c { context := c } where
  apart := nofun
  get? _ _ := rfl
  maxDepth := rfl
  strict := rfl
  mirrors _ := ⟨Or.inl rfl, Or.inl rfl⟩

theorem Gathered.congr (h : Gathered disk done c b) (same : ∀ p, p ∈ done ↔ p ∈ more) :
    Gathered disk more c b where
  apart := h.apart.mono fun p => (same p).2
  get? kind name := by rw [h.get?, Disk.supplied?_eq h.apart same]
  maxDepth := h.maxDepth
  strict := h.strict
  mirrors q := (h.mirrors q).mono fun p => (same p).1

/-- Only the tree of a disk counts, not its time. -/
theorem Gathered.congr_tree {other : Disk} (h : Gathered disk done c b)
    (same : other.tree = disk.tree) : Gathered other done c b := by
  obtain ⟨tree, now⟩ := disk
  obtain ⟨_, now'⟩ := other
  obtain rfl : _ = tree := same
  exact ⟨h.apart, h.get?, h.maxDepth, h.strict, fun p => ⟨(h.mirrors p).text, (h.mirrors p).spans⟩⟩

theorem Gathered.alike {b' : Build} (h : Gathered disk done c b) (h' : Gathered disk done c b') :
    b.context.Alike b'.context where
  get? kind name := (h.get? kind name).trans (h'.get? kind name).symm
  maxDepth := h.maxDepth.trans h'.maxDepth.symm
  strict := h.strict.trans h'.strict.symm

theorem Gathered.remember (h : Gathered disk done c b) {s : Source}
    (own : s.Mirrors disk done p) : Gathered disk done c (b.remember p s b.context) where
  apart := h.apart
  get? := h.get?
  maxDepth := h.maxDepth
  strict := h.strict
  mirrors q := by
    rw [source_remember]
    split
    · rename_i same
      rw [same]
      exact own
    · exact h.mirrors q

theorem Gathered.visited (h : Gathered disk done c b) (p : Path) :
    Gathered disk done c (b.remember p (b.source p) b.context) :=
  h.remember (h.mirrors p)

section
variable (h : Gathered disk done c b) (text : disk.textAt p = .ok t)

include h text

theorem Gathered.readText_eq {file : FileTree.File} (own : file.text = .ok t)
    (modified : disk.modified p = file.modified) (now : Int) :
    ∃ memo, (b.source p).readText file now = .ok memo ∧
      memo.value? = (if 0 < disk.modified p then some t else none) ∧
      Source.Mirrors disk done p { b.source p with text := memo } := by
  unfold Source.readText
  by_cases dated : 0 < disk.modified p
  · by_cases expired : (b.source p).text.expired file.modified = true
    · simp only [expired, if_true, own, dated]
      exact ⟨_, rfl, rfl, Or.inr ⟨dated, now, t, text, rfl⟩, (h.mirrors p).spans⟩
    · simp only [expired, Bool.false_eq_true, if_false, dated, if_true]
      refine ⟨_, rfl, ?_, h.mirrors p⟩
      cases (h.mirrors p).text with
      | inl nothing =>
        rw [nothing] at expired
        simp [Memo.expired, ← modified, dated] at expired
      | inr held =>
        obtain ⟨-, time, t', text', held⟩ := held
        rw [held, Except.ok.inj (text.symm.trans text')]
  · have nothing : (b.source p).text = {} := by
      cases (h.mirrors p).text with
      | inl nothing => exact nothing
      | inr held => exact absurd held.1 dated
    have current : (b.source p).text.expired file.modified = false := by
      simp [nothing, Memo.expired, ← modified, Int.not_lt.1 dated]
    simp only [current, Bool.false_eq_true, if_false, dated]
    exact ⟨_, rfl, by rw [nothing], h.mirrors p⟩

theorem text_gathered :
    ∃ b', Act.Gives (Build.text disk p) b b' (if 0 < disk.modified p then some t else none) ∧
      Gathered disk done c b' := by
  obtain ⟨file, exists_file, own, modified⟩ := Disk.exists_file_of_textAt text
  obtain ⟨memo, read, value, mirrors⟩ := h.readText_eq text own modified disk.now
  rw [← value]
  refine ⟨_, ⟨[], ?_⟩, h.remember mirrors⟩
  rw [text_eq, exists_file]
  simp only [read]

/-- Declarations that were registered just now, for the first time or again. -/
theorem Gathered.registered (spansOf : Declaration.spans t = .ok found)
    (apart : disk.Apart (p :: done)) (dated : 0 < disk.modified p) {s : Source}
    (own : s.Mirrors disk (p :: done) p) :
    Gathered disk (p :: done) c (b.remember p s (Context.extracted t b.context)) where
  apart := apart
  get? kind name := by
    have declared : Declaration.last? kind name t = disk.offered? kind name p := by
      simp only [Disk.offered?, dated, if_true, Disk.declared?, text]
    have extracted : Context.extracted t b.context = (Context.extract t b.context).1 := by
      rw [Context.extract_eq]
    rw [context_remember, extracted, Context.get?_extract spansOf, h.get?, declared,
      Disk.supplied?_cons, Option.or_assoc]
  maxDepth := h.maxDepth
  strict := h.strict
  mirrors q := by
    rw [source_remember]
    split
    · rename_i same
      rw [same]
      exact own
    · exact (h.mirrors q).mono fun p => List.mem_cons_of_mem _

omit text in
/-- Declarations that are registered already, or never will be. -/
theorem Gathered.unregistered (apart : disk.Apart (p :: done))
    (known : 0 < disk.modified p → p ∈ done) : Gathered disk (p :: done) c b where
  apart := apart
  get? kind name := by
    rw [h.get?]
    congr 1
    by_cases dated : 0 < disk.modified p
    · apply Disk.supplied?_eq h.apart
      simp [known dated]
    · have nothing : disk.offered? kind name p = none := if_neg dated
      rw [Disk.supplied?_cons, nothing]
      rfl
  maxDepth := h.maxDepth
  strict := h.strict
  mirrors q := (h.mirrors q).mono fun p => List.mem_cons_of_mem _

theorem spans_gathered (spansOf : Declaration.spans t = .ok found)
    (apart : disk.Apart (p :: done)) :
    ∃ b', Act.Gives (spans disk p) b b' (if 0 < disk.modified p then some found else none) ∧
      Gathered disk (p :: done) c b' := by
  obtain ⟨file, exists_file, own, modified⟩ := Disk.exists_file_of_textAt text
  have held := (h.mirrors p).spans
  unfold Act.Gives
  rw [spans_eq, exists_file]
  dsimp only
  by_cases expired : (b.source p).spans.expired file.modified = true
  · have dated : 0 < disk.modified p := by
      cases held with
      | inl nothing =>
        rw [nothing] at expired
        simpa [Memo.expired, modified] using expired
      | inr held => exact held.1.1
    obtain ⟨memo, read, value, mirrors⟩ := h.readText_eq text own modified disk.now
    rw [if_pos dated] at value
    simp only [expired, dated, if_true, read, value, Context.extract_eq, spansOf]
    refine ⟨_, ⟨_, rfl⟩, h.registered text spansOf apart dated ⟨mirrors.text, ?_⟩⟩
    exact Or.inr ⟨⟨dated, List.mem_cons_self⟩, disk.now, t, found, text, spansOf, rfl⟩
  · simp only [expired, Bool.false_eq_true, if_false]
    cases held with
    | inl nothing =>
      have undated : ¬ 0 < disk.modified p := by
        rw [nothing] at expired
        simpa [Memo.expired, modified] using expired
      rw [if_neg undated, nothing]
      exact ⟨_, ⟨[], rfl⟩, (h.visited p).unregistered apart fun dated => absurd dated undated⟩
    | inr held =>
      obtain ⟨⟨dated, mem⟩, time, t', found', text', spansOf', held⟩ := held
      obtain rfl := Except.ok.inj (text.symm.trans text')
      obtain rfl := Except.ok.inj (spansOf.symm.trans spansOf')
      rw [if_pos dated, held]
      exact ⟨_, ⟨[], rfl⟩, (h.visited p).unregistered apart fun _ => mem⟩

end

/-! ## Requests for sources that share no name -/

section
variable (h : Gathered disk done c b) (text : disk.textAt p = .ok t)
  (spansOf : Declaration.spans t = .ok found) (apart : disk.Apart (p :: done)) {path : Text}
  (place : Path.normalize disk.tree.workdir path = p)

include h text spansOf apart place

theorem scanFile_gathered :
    ∃ b', Act.Gives (scanFile disk path) b b' p ∧ Gathered disk (p :: done) c b' := by
  obtain ⟨b', accessed, gathered⟩ := spans_gathered (h.visited p) text spansOf apart
  exact ⟨b', gives_scanFile_iff.2 ⟨place.symm, _, accessed⟩, gathered⟩

theorem load_gathered :
    (load disk path b).2.result =
        (if 0 < disk.modified p then .ok (t, found) else .error .neverRead) ∧
      Gathered disk (p :: done) c (load disk path b).1 := by
  obtain ⟨b', ⟨log, accessed⟩, gathered⟩ := spans_gathered (h.visited p) text spansOf apart
  obtain ⟨b'', ⟨log', had⟩, gathered'⟩ := text_gathered gathered text
  rw [load, place, Act.bind_of_quiet (visit_eq p b), Act.bind_of_ok accessed, Act.bind_of_ok had]
  by_cases dated : 0 < disk.modified p
  · simp only [dated, if_true]
    exact ⟨rfl, gathered'⟩
  · simp only [dated, if_false]
    exact ⟨rfl, gathered'⟩

/-- What comes of an expansion depends on the definitions that the build then has, and on the file
alone. -/
theorem compile_gathered (blank : Bool) :
    (compile disk path blank b).2.result =
        (if 0 < disk.modified p then
          ((compile disk path blank b).1.context.render blank t found).result.mapError .expansion
        else .error .neverRead) ∧
      Gathered disk (p :: done) c (compile disk path blank b).1 := by
  obtain ⟨result, gathered⟩ := load_gathered h text spansOf apart place
  rw [compile]
  rcases ran : load disk path b with ⟨b', log, r⟩
  rw [ran] at result gathered
  obtain rfl : r = _ := result
  by_cases dated : 0 < disk.modified p
  · rw [if_pos dated] at ran
    rw [Act.bind_of_ok ran, if_pos dated]
    exact ⟨rfl, gathered⟩
  · rw [if_neg dated] at ran
    rw [Act.bind_of_error ran, if_neg dated]
    exact ⟨rfl, gathered⟩

theorem inspect_gathered : Gathered disk (p :: done) c (inspect disk path b).1 := by
  obtain ⟨b', ⟨log, had⟩, gathered⟩ := text_gathered (h.visited p) text
  obtain ⟨b'', ⟨log', accessed⟩, gathered'⟩ := spans_gathered gathered text spansOf apart
  rw [inspect, place, Act.bind_of_quiet (visit_eq p b), Act.bind_of_ok had, Act.bind_of_ok accessed]
  exact gathered'

end

end

def Request.Among (paths : List Text) : Request → Prop
  | .scan roots => ∀ root ∈ roots, root ∈ paths
  | .scanWithDependencies .. => False
  | .compile path _ => path ∈ paths
  | .inspect path => path ∈ paths

def Request.places (workdir : Path) : Request → List Path
  | .scan roots => roots.map (Path.normalize workdir)
  | .scanWithDependencies .. => []
  | .compile path _ => [Path.normalize workdir path]
  | .inspect path => [Path.normalize workdir path]

end Build

/-- The paths lead to files whose declarations can all be read, and no two of the files declare the
same name. -/
structure Disk.Separate (disk : Disk) (paths : List Text) : Prop where
  isFile : ∀ path ∈ paths, disk.tree.isFile path = true
  readable : ∀ path ∈ paths, disk.Readable (Path.normalize disk.tree.workdir path)
  apart : disk.Apart (paths.map (Path.normalize disk.tree.workdir))

theorem Disk.Separate.congr_tree {disk other : Disk} {paths : List Text}
    (h : disk.Separate paths) (same : other.tree = disk.tree) : other.Separate paths := by
  obtain ⟨tree, now⟩ := disk
  obtain ⟨_, now'⟩ := other
  obtain rfl : _ = tree := same
  exact ⟨h.isFile, h.readable, h.apart⟩

namespace Build

theorem listing_of_isFile {tree : FileTree} {paths : List Text}
    (isFile : ∀ path ∈ paths, tree.isFile path = true) : listing tree paths = .ok paths := by
  induction paths with
  | nil => rfl
  | cons path paths ih =>
    have here : Discovery.sources tree path = .ok (some [path]) := by
      have leads := isFile path List.mem_cons_self
      have no_folder : tree.isFolder path = false := by
        unfold FileTree.isFile at leads
        unfold FileTree.isFolder
        split at leads
        · rename_i found
          rw [found]
        · cases leads
      simp [Discovery.sources, no_folder, leads]
    have others := ih fun other mem => isFile other (List.mem_cons_of_mem path mem)
    exact listing_cons_iff.2 ⟨_, _, here, others, rfl⟩

section
variable {disk : Disk} {paths : List Text} (separate : disk.Separate paths) {done : List Path}
  {c : Context} {b : Build}

include separate

theorem scan_gathered {roots : List Text} (among : ∀ root ∈ roots, root ∈ paths)
    (within : ∀ p ∈ done, p ∈ paths.map (Path.normalize disk.tree.workdir))
    (h : Gathered disk done c b) :
    ∃ b', Act.Gives (scan disk roots) b b' (roots.map (Path.normalize disk.tree.workdir)) ∧
      Gathered disk (roots.map (Path.normalize disk.tree.workdir) ++ done) c b' := by
  have isFile : ∀ root ∈ roots, disk.tree.isFile root = true :=
    fun root mem => separate.isFile root (among root mem)
  have each : ∃ b', Act.Gives (Act.each (scanFile disk) roots) b b'
        (roots.map (Path.normalize disk.tree.workdir)) ∧
      Gathered disk (roots.map (Path.normalize disk.tree.workdir) ++ done) c b' := by
    clear isFile
    induction roots generalizing done b with
    | nil => exact ⟨b, Act.gives_each_nil.2 ⟨rfl, rfl⟩, h⟩
    | cons root roots ih =>
      have listed := among root List.mem_cons_self
      obtain ⟨t, found, text, spansOf⟩ := separate.readable root listed
      have within' := List.forall_mem_cons.2
        ⟨List.mem_map_of_mem (f := Path.normalize disk.tree.workdir) listed, within⟩
      obtain ⟨b', first, gathered⟩ :=
        scanFile_gathered h text spansOf (separate.apart.mono within') rfl
      obtain ⟨b'', others, gathered'⟩ :=
        ih (fun other mem => among other (List.mem_cons_of_mem root mem)) within' gathered
      refine ⟨b'', Act.gives_each_cons.2 ⟨b', _, _, first, others, rfl⟩, gathered'.congr ?_⟩
      intro p
      simp only [List.map_cons, List.mem_append, List.mem_cons]
      tauto
  obtain ⟨b', ran, gathered⟩ := each
  exact ⟨b', gives_scan_iff.2 ⟨roots, listing_of_isFile isFile, ran⟩, gathered⟩

/-- What a request for some of the sources leaves behind. -/
theorem perform_gathered {request : Request} (among : request.Among paths)
    (within : ∀ p ∈ done, p ∈ paths.map (Path.normalize disk.tree.workdir))
    (h : Gathered disk done c b) :
    Gathered disk (request.places disk.tree.workdir ++ done) c (perform disk b request) := by
  have one : ∀ path ∈ paths, ∃ t found,
      disk.textAt (Path.normalize disk.tree.workdir path) = .ok t ∧
        Declaration.spans t = .ok found ∧
        disk.Apart (Path.normalize disk.tree.workdir path :: done) := by
    intro path listed
    obtain ⟨t, found, text, spansOf⟩ := separate.readable path listed
    have within' := List.forall_mem_cons.2
      ⟨List.mem_map_of_mem (f := Path.normalize disk.tree.workdir) listed, within⟩
    exact ⟨t, found, text, spansOf, separate.apart.mono within'⟩
  cases request with
  | scan roots =>
    obtain ⟨b', ran, gathered⟩ := scan_gathered separate among within h
    rw [perform, ran.eq.1]
    exact gathered
  | scanWithDependencies root dependencies => exact among.elim
  | compile path blank =>
    obtain ⟨t, found, text, spansOf, apart⟩ := one path among
    exact (compile_gathered h text spansOf apart rfl blank).2
  | inspect path =>
    obtain ⟨t, found, text, spansOf, apart⟩ := one path among
    exact inspect_gathered h text spansOf apart rfl

end

def askedFor (workdir : Path) (history : List (Disk × Request)) (done : List Path) : List Path :=
  history.foldl (fun done step => step.2.places workdir ++ done) done

theorem mem_askedFor_iff {workdir : Path} {history : List (Disk × Request)} {done : List Path}
    {p : Path} :
    p ∈ askedFor workdir history done ↔ (∃ step ∈ history, p ∈ step.2.places workdir) ∨ p ∈ done := by
  induction history generalizing done with
  | nil => simp [askedFor]
  | cons step history ih =>
    rw [askedFor, List.foldl_cons, ← askedFor, ih]
    simp only [List.mem_append, List.exists_mem_cons_iff, or_assoc]
    exact or_left_comm

theorem Request.Among.place_mem {request : Request} {paths : List Text}
    (among : request.Among paths) {workdir p : Path} (mem : p ∈ request.places workdir) :
    p ∈ paths.map (Path.normalize workdir) := by
  cases request with
  | scan roots =>
    obtain ⟨root, asked, rfl⟩ := List.mem_map.1 mem
    exact List.mem_map_of_mem (among root asked)
  | scanWithDependencies root dependencies => exact among.elim
  | compile path blank =>
    obtain rfl := List.mem_singleton.1 mem
    exact List.mem_map_of_mem among
  | inspect path =>
    obtain rfl := List.mem_singleton.1 mem
    exact List.mem_map_of_mem among

/-- What a run of requests for some of the sources leaves behind. The disk stays what it is, but for
its time. -/
theorem after_gathered {disk : Disk} {paths : List Text} (separate : disk.Separate paths)
    {history : List (Disk × Request)} (tree : ∀ step ∈ history, step.1.tree = disk.tree)
    (among : ∀ step ∈ history, step.2.Among paths) {done : List Path} {c : Context} {b : Build}
    (within : ∀ p ∈ done, p ∈ paths.map (Path.normalize disk.tree.workdir))
    (h : Gathered disk done c b) :
    Gathered disk (askedFor disk.tree.workdir history done) c (after history b) := by
  induction history generalizing done b with
  | nil => exact h
  | cons step history ih =>
    have same := tree step List.mem_cons_self
    have asked := among step List.mem_cons_self
    have here := perform_gathered (separate.congr_tree same) asked (same ▸ within)
      (h.congr_tree same)
    rw [same] at here
    apply ih (fun other mem => tree other (List.mem_cons_of_mem step mem))
      (fun other mem => among other (List.mem_cons_of_mem step mem)) ?_ (here.congr_tree same.symm)
    intro p mem
    cases List.mem_append.1 mem with
    | inl asked_now => exact asked.place_mem asked_now
    | inr before => exact within p before

end Build

/-- A run of requests, at any times, for no other sources than those at the paths. Each of them is
scanned once at least, alone or with others. -/
structure Disk.Surveys (disk : Disk) (paths : List Text) (history : List (Disk × Build.Request)) :
    Prop where
  tree : ∀ step ∈ history, step.1.tree = disk.tree
  among : ∀ step ∈ history, step.2.Among paths
  scanned : ∀ path ∈ paths, ∃ step ∈ history, ∃ roots, step.2 = .scan roots ∧ path ∈ roots

/-- One scan of all the sources, in the order in which they are listed. -/
theorem Disk.surveys_scan (disk : Disk) (paths : List Text) :
    disk.Surveys paths [(disk, .scan paths)] := by
  constructor
  · intro step mem
    rw [List.mem_singleton.1 mem]
  · intro step mem
    rw [List.mem_singleton.1 mem]
    exact fun _ => id
  · intro path listed
    exact ⟨_, List.mem_singleton_self _, paths, rfl, listed⟩

namespace Build

/-- A build that has surveyed the sources holds their definitions, in whatever order it went. -/
theorem gathered_of_surveys {disk : Disk} {order paths : List Text} (separate : disk.Separate order)
    (permuted : order.Perm paths) {history : List (Disk × Request)}
    (surveys : disk.Surveys paths history) (c : Context) :
    Gathered disk (order.map (Path.normalize disk.tree.workdir)) c
      (after history { context := c }) := by
  have listed : ∀ path, path ∈ paths ↔ path ∈ order := fun path => permuted.mem_iff.symm
  have separate' : disk.Separate paths := by
    constructor
    · intro path mem
      exact separate.isFile path ((listed path).1 mem)
    · intro path mem
      exact separate.readable path ((listed path).1 mem)
    · apply separate.apart.mono
      intro p mem
      exact (permuted.map _).mem_iff.2 mem
  have ran := after_gathered separate' surveys.tree surveys.among (List.forall_mem_nil _)
    (gathered_new disk c)
  apply ran.congr
  intro p
  rw [mem_askedFor_iff, (permuted.map _).mem_iff]
  constructor
  · rintro (⟨step, mem, asked⟩ | nothing)
    · exact (surveys.among step mem).place_mem asked
    · cases nothing
  · intro mem
    obtain ⟨path, listed, rfl⟩ := List.mem_map.1 mem
    obtain ⟨step, mem, roots, scan, root⟩ := surveys.scanned path listed
    refine Or.inl ⟨step, mem, ?_⟩
    rw [scan]
    exact List.mem_map_of_mem root

/-- **The order of scanning is no matter.** Sources that share no name are listed in two orders. Two
builds that start with the same context are asked for the sources of one list each, in any steps and
at any times, until each has scanned them all. Then both hold the same definition under each name,
and each source is expanded to the same text by both, or fails for the same reason. -/
theorem scan_order_irrelevant (c : Context) (disk : Disk) (order order' : List Text)
    (permuted : order.Perm order') (separate : disk.Separate order)
    (history history' : List (Disk × Request)) (surveys : disk.Surveys order history)
    (surveys' : disk.Surveys order' history') :
    let b := after history { context := c }
    let b' := after history' { context := c }
    (∀ kind name, (b.context.registry kind).get? name = (b'.context.registry kind).get? name) ∧
      ∀ later later' : Disk, later.tree = disk.tree → later'.tree = disk.tree →
        ∀ path ∈ order, ∀ blank,
          (compile later path blank b).2.result = (compile later' path blank b').2.result := by
  intro b b'
  have gathered : Gathered disk _ c b := gathered_of_surveys separate (.refl _) surveys c
  have gathered' : Gathered disk _ c b' := gathered_of_surveys separate permuted surveys' c
  constructor
  · exact (gathered.alike gathered').get?
  intro later later' same same' path listed blank
  obtain ⟨t, found, text, spansOf⟩ := separate.readable path listed
  have apart : disk.Apart (Path.normalize disk.tree.workdir path ::
      order.map (Path.normalize disk.tree.workdir)) := by
    apply separate.apart.mono
    intro p mem
    cases mem with
    | head => exact List.mem_map_of_mem listed
    | tail _ mem => exact mem
  -- Expanding may register the declarations of the source again, and the builds stay alike.
  have expanded : ∀ (later : Disk) (b : Build), later.tree = disk.tree →
      Gathered disk (order.map (Path.normalize disk.tree.workdir)) c b →
      (compile later path blank b).2.result =
          (if 0 < disk.modified (Path.normalize disk.tree.workdir path) then
            ((compile later path blank b).1.context.render blank t found).result.mapError .expansion
          else .error .neverRead) ∧
        Gathered disk (Path.normalize disk.tree.workdir path ::
          order.map (Path.normalize disk.tree.workdir)) c (compile later path blank b).1 := by
    intro later b same gathered
    obtain ⟨tree, now⟩ := later
    obtain rfl : tree = disk.tree := same
    have gathered_now : Gathered ⟨disk.tree, now⟩ _ c b := gathered.congr_tree rfl
    obtain ⟨result, kept⟩ := compile_gathered gathered_now text spansOf apart rfl blank
    exact ⟨result, kept.congr_tree rfl⟩
  obtain ⟨result, kept⟩ := expanded later b same gathered
  obtain ⟨result', kept'⟩ := expanded later' b' same' gathered'
  rw [result, result', (kept.alike kept').render_eq]

def namesakes (now : Int) : Disk where
  tree := {
    root := .folder [
      ("a.css".toList, .file "@mixin --x\x7b1\x7d".toUTF8 100),
      ("b.css".toList, .file "@function --x()\x7bresult:2\x7d--x() @apply --x;".toUTF8 100)] }
  now := now

set_option maxRecDepth 10000 in
theorem separate_namesakes : (namesakes 1000).Separate ["a.css".toList, "b.css".toList] := by
  have first : (namesakes 1000).textAt ["a.css".toList] = .ok "@mixin --x\x7b1\x7d".toList := by cbv
  have second : (namesakes 1000).textAt ["b.css".toList] =
      .ok "@function --x()\x7bresult:2\x7d--x() @apply --x;".toList := by cbv
  have no_function : ∀ name, (namesakes 1000).declared? .function name ["a.css".toList] = none :=
    Disk.declared?_eq_none first (by cbv)
  have no_mixin : ∀ name, (namesakes 1000).declared? .mixin name ["b.css".toList] = none :=
    Disk.declared?_eq_none second (by cbv)
  have places : ["a.css".toList, "b.css".toList].map
      (Path.normalize (namesakes 1000).tree.workdir) = [["a.css".toList], ["b.css".toList]] := by
    cbv
  constructor
  · intro path listed
    fin_cases listed
    · cbv
    · cbv
  · intro path listed
    fin_cases listed
    · exact ⟨_, [⟨0, 13⟩], first, by cbv⟩
    · exact ⟨_, [⟨0, 25⟩], second, by cbv⟩
  · have two : ∀ p ∈ [["a.css".toList], ["b.css".toList]],
        p = ["a.css".toList] ∨ p = ["b.css".toList] := by simp
    intro kind name p hp q hq here there
    rw [places] at hp hq
    cases kind with
    | function =>
      obtain rfl | rfl := two p hp
      · rw [no_function] at here
        cases here
      · obtain rfl | rfl := two q hq
        · rw [no_function] at there
          cases there
        · rfl
    | mixin =>
      obtain rfl | rfl := two p hp
      · obtain rfl | rfl := two q hq
        · rfl
        · rw [no_mixin] at there
          cases there
      · rw [no_mixin] at here
        cases here

def detour : List (Disk × Request) :=
  [(namesakes 50, .scan ["b.css".toList]), (namesakes 60, .compile "b.css".toList false),
    (namesakes 2000, .scan ["a.css".toList])]

theorem surveys_detour : (namesakes 1000).Surveys ["b.css".toList, "a.css".toList] detour := by
  constructor
  · intro step mem
    fin_cases mem
    · rfl
    · rfl
    · rfl
  · intro step mem
    fin_cases mem
    · simp [Request.Among]
    · simp [Request.Among]
    · simp [Request.Among]
  · intro path listed
    fin_cases listed
    · exact ⟨_, List.mem_cons_self, _, rfl, List.mem_cons_self⟩
    · exact ⟨_, List.mem_cons_of_mem _ (List.mem_cons_of_mem _ List.mem_cons_self), _, rfl,
        List.mem_cons_self⟩

set_option maxRecDepth 10000 in
/-- One build scans both sources at once. The other one has scanned and expanded the second source
before it scans the first. -/
theorem scan_order_irrelevant_namesakes :
    let b := after [(namesakes 1000, .scan ["a.css".toList, "b.css".toList])] {}
    let b' := after detour {}
    ((∀ kind name, (b.context.registry kind).get? name = (b'.context.registry kind).get? name) ∧
      ∀ later later' : Disk, later.tree = (namesakes 1000).tree →
        later'.tree = (namesakes 1000).tree → ∀ path ∈ ["a.css".toList, "b.css".toList], ∀ blank,
          (compile later path blank b).2.result = (compile later' path blank b').2.result) ∧
      (compile (namesakes 3000) "b.css".toList true b).2.result = .ok "2 1".toList :=
  ⟨scan_order_irrelevant {} (namesakes 1000) _ _ (List.Perm.swap _ _ _) separate_namesakes _ _
    ((namesakes 1000).surveys_scan _) surveys_detour, by cbv⟩

end Build

end StyleExpansion
