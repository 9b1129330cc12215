import StyleExpansion.Proofs.Delivery
import StyleExpansion.Proofs.Locality
import Mathlib

namespace StyleExpansion

namespace Act

variable {σ ε α β : Type} {s t u : σ} {log : List Notice}

/-- The step succeeds with the value, leaves the state, and tells the notices. -/
def Tells (x : Act σ ε α) (s t : σ) (a : α) (log : List Notice) : Prop := x s = (t, ⟨log, .ok a⟩)

theorem Tells.gives {x : Act σ ε α} {a : α} (h : Tells x s t a log) : Gives x s t a := ⟨log, h⟩

theorem tells_of_result {x : Act σ ε α} {a : α} (h : (x s).2.result = .ok a) :
    Tells x s (x s).1 a (x s).2.log := by
  rw [Tells, ← h]

theorem tells_pure {a b : α} :
    Tells (pure a : Act σ ε α) s t b log ↔ t = s ∧ b = a ∧ log = [] := by
  constructor
  · intro ran
    cases ran
    exact ⟨rfl, rfl, rfl⟩
  · rintro ⟨rfl, rfl, rfl⟩
    rfl

theorem tells_note {n : Notice} {a : Unit} :
    Tells (note n : Act σ ε Unit) s t a log ↔ t = s ∧ log = [n] := by
  constructor
  · intro ran
    cases ran
    exact ⟨rfl, rfl⟩
  · rintro ⟨rfl, rfl⟩
    rfl

theorem tells_modify {f : σ → σ} {a : Unit} :
    Tells (modify f : Act σ ε Unit) s t a log ↔ t = f s ∧ log = [] := by
  constructor
  · intro ran
    cases ran
    exact ⟨rfl, rfl⟩
  · rintro ⟨rfl, rfl⟩
    rfl

theorem tells_get {a : σ} : Tells (get : Act σ ε σ) s t a log ↔ t = s ∧ a = s ∧ log = [] := by
  constructor
  · intro ran
    cases ran
    exact ⟨rfl, rfl, rfl⟩
  · rintro ⟨rfl, rfl, rfl⟩
    rfl

theorem tells_ofFile {x : Except FileError α} {a : α} :
    Tells (ofFile x) s t a log ↔ x = .ok a ∧ t = s ∧ log = [] := by
  constructor
  · intro ran
    cases x with
    | error e => cases ran
    | ok b =>
      cases ran
      exact ⟨rfl, rfl, rfl⟩
  · rintro ⟨rfl, rfl, rfl⟩
    rfl

theorem tells_bind {x : Act σ ε α} {f : α → Act σ ε β} {b : β} :
    Tells (x >>= f) s u b log ↔
      ∃ t a front back, Tells x s t a front ∧ Tells (f a) t u b back ∧ log = front ++ back := by
  constructor
  · intro ran
    rcases first : x s with ⟨t, front, e | a⟩
    · rw [Tells, bind_of_error first] at ran
      cases ran
    · rw [Tells, bind_of_ok first] at ran
      obtain ⟨rfl, same⟩ := Prod.mk.inj ran
      obtain ⟨rfl, result⟩ := Traced.mk.inj same
      exact ⟨t, a, front, _, first, tells_of_result result, rfl⟩
  · rintro ⟨t, a, front, back, first, second, rfl⟩
    rw [Tells, bind_of_ok first, second]

theorem tells_each_nil {f : α → Act σ ε β} {bs : List β} :
    Tells (each f []) s t bs log ↔ t = s ∧ bs = [] ∧ log = [] :=
  tells_pure

theorem tells_each_cons {f : α → Act σ ε β} {a : α} {as : List α} {bs : List β}
    (h : Tells (each f (a :: as)) s u bs log) :
    ∃ t b rest front back, Tells (f a) s t b front ∧ Tells (each f as) t u rest back ∧
      log = front ++ back := by
  obtain ⟨t, b, front, _, first, more, rfl⟩ := tells_bind.1 h
  obtain ⟨_, rest, back, _, others, ended, rfl⟩ := tells_bind.1 more
  obtain ⟨rfl, -, rfl⟩ := tells_pure.1 ended
  exact ⟨t, b, rest, front, back, first, others, by rw [List.append_nil]⟩

theorem tells_attempt {x : Act σ Fault α} {v : Except Error α}
    (h : Tells (attempt x) s t v log) : t = (x s).1 ∧ log = (x s).2.log ∧
      (x s).2.result = v.mapError .expansion := by
  rcases ran : x s with ⟨u, _, f | a⟩
  · cases f with
    | expansion e =>
      simp only [Tells, attempt, ran] at h
      cases h
      exact ⟨rfl, rfl, rfl⟩
    | file e =>
      simp only [Tells, attempt, ran] at h
      cases h
    | neverRead =>
      simp only [Tells, attempt, ran] at h
      cases h
    | missingValue =>
      simp only [Tells, attempt, ran] at h
      cases h
  · simp only [Tells, attempt, ran] at h
    cases h
    exact ⟨rfl, rfl, rfl⟩

end Act

/-! ## What a build tells -/

/-- Whether the notice is given by the command itself and not by a step on its build. -/
def Notice.ofCommand : Notice → Bool
  | .missingRoot .. => true
  | .unreadableDeclarations .. => true
  | .failedExpansion .. => true
  | _ => false

/-- Only the command tells of errors. -/
theorem Notice.ofCommand_of_error {n : Notice} (h : n.level = .error) : n.ofCommand = true := by
  cases n with
  | extracted functions mixins => cases h
  | unknownMixin name => cases h
  | ceilingReached kind depth names => cases h
  | skippedRoot path => cases h
  | missingRoot path required => rfl
  | unreadableDeclarations path cause => rfl
  | failedExpansion path cause => rfl

namespace Traced

variable {ε α β : Type}

/-- Nothing is told that is for the command to tell. -/
def Quiet (x : Traced ε α) : Prop := x.log.filter Notice.ofCommand = []

theorem Quiet.bind {x : Traced ε α} {f : α → Traced ε β} (hx : x.Quiet) (hf : ∀ a, (f a).Quiet) :
    (x >>= f).Quiet := by
  obtain ⟨log, r⟩ := x
  cases r with
  | error e => exact hx
  | ok a =>
    have log_eq : ((⟨log, .ok a⟩ : Traced ε α) >>= f).log = log ++ (f a).log := rfl
    have first : log.filter Notice.ofCommand = [] := hx
    rw [Quiet, log_eq, List.filter_append, first, hf a]
    rfl

end Traced

section
variable {c : Context}

theorem Applications.quiet_passFrom (mixins : Registry) (offset : Nat) (s : Text) :
    (passFrom mixins offset s).Quiet := by
  fun_induction passFrom mixins offset s with
  | case1 offset s e found => rfl
  | case2 offset s found => rfl
  | case3 offset s o found value ih => exact ih.bind fun _ => rfl
  | case4 offset s o found site value ih =>
    have replaced : (replace mixins site).Quiet := by
      unfold replace
      split
      · rfl
      · rfl
    apply replaced.bind
    intro value
    exact ih.bind fun _ => rfl

theorem quiet_settle {pass : Text → Traced Error Text} (h : ∀ s, (pass s).Quiet) (n : Nat)
    (s : Text) : (settle pass n s).Quiet := by
  induction n generalizing s with
  | zero => rfl
  | succ n ih =>
    apply (h s).bind
    intro t
    split
    · rfl
    · exact ih t

namespace Context

theorem quiet_pass (kind : Kind) (s : Text) : (c.pass kind s).Quiet := by
  cases kind with
  | function => rfl
  | mixin => exact Applications.quiet_passFrom c.mixins 0 s

theorem quiet_conclude (kind : Kind) (settled : Settled) : (c.conclude kind settled).Quiet := by
  cases settled with
  | atRest s => rfl
  | atCeiling s =>
    simp only [conclude]
    split
    · rfl
    · split
      · rfl
      · rfl

theorem quiet_expand (s : Text) : (c.expand s).Quiet := by
  have resolves : ∀ kind s, (c.resolve kind s).Quiet := fun kind s =>
    (quiet_settle (quiet_pass kind) _ s).bind (quiet_conclude kind)
  exact (resolves .mixin s).bind (resolves .function)

theorem quiet_render (blank : Bool) (t : Text) (spans : List Span) :
    (c.render blank t spans).Quiet := by
  have written : ∀ segments : List Segment,
      (Written.ofSegments (some c) blank segments).log.filter Notice.ofCommand = [] := by
    intro segments
    induction segments with
    | nil => rfl
    | cons segment segments ih =>
      have first : (segment.render (some c) blank).Quiet := by
        cases segment with
        | code s => exact quiet_expand s
        | declaration s => rfl
      rw [Written.ofSegments]
      rcases ran : segment.render (some c) blank with ⟨log, e | t⟩
      · rw [ran] at first
        exact first
      · rw [ran] at first
        rw [List.filter_append, ih, first]
        rfl
  have log_eq : ∀ w : Written, w.toTraced.log = w.log := by
    intro w
    unfold Written.toTraced
    split
    · rfl
    · rfl
  rw [Traced.Quiet, render, log_eq]
  exact written _

end Context

end

namespace Act

variable {σ ε α β : Type}

def Quiet (x : Act σ ε α) : Prop := ∀ s, (x s).2.Quiet

theorem Quiet.bind {x : Act σ ε α} {f : α → Act σ ε β} (hx : Quiet x) (hf : ∀ a, Quiet (f a)) :
    Quiet (x >>= f) := by
  intro s
  have first := hx s
  rcases ran : x s with ⟨t, log, e | a⟩
  · rw [bind_of_error ran]
    rw [ran] at first
    exact first
  · rw [bind_of_ok ran, Traced.Quiet, List.filter_append, hf a t]
    rw [ran] at first
    exact List.append_eq_nil_iff.2 ⟨first, rfl⟩

theorem Quiet.each {f : α → Act σ ε β} (hf : ∀ a, Quiet (f a)) (as : List α) :
    Quiet (each f as) := by
  induction as with
  | nil => exact fun _ => rfl
  | cons a as ih => exact (hf a).bind fun _ => ih.bind fun _ _ => rfl

end Act

namespace Build

theorem quiet_text (disk : Disk) (p : Path) : Act.Quiet (text disk p) := by
  intro b
  rw [text_eq]
  split
  · rfl
  · split
    · rfl
    · rfl

theorem quiet_spans (disk : Disk) (p : Path) : Act.Quiet (spans disk p) := by
  have report : ∀ t, (Declaration.report t).filter Notice.ofCommand = [] := by
    intro t
    unfold Declaration.report
    split
    · rfl
    · rfl
    · rfl
  intro b
  rw [spans_eq]
  split
  · rfl
  · split
    · split
      · rfl
      · split
        · rfl
        · rename_i t _
          rw [Context.extract_eq]
          cases Declaration.spans t with
          | error e => exact report t
          | ok found => exact report t
    · rfl

theorem quiet_visit (p : Path) : Act.Quiet (visit p) := by
  intro b
  rw [visit_eq]
  rfl

theorem quiet_scan (disk : Disk) (roots : List Text) : Act.Quiet (scan disk roots) := by
  have file : ∀ path, Act.Quiet (scanFile disk path) := by
    intro path
    apply (quiet_visit _).bind
    intro _
    exact (quiet_spans disk _).bind fun _ _ => rfl
  have oneRoot : ∀ root, Act.Quiet (scanRoot disk root) := by
    intro root
    have lists : Act.Quiet (Act.ofFile (Discovery.sources disk.tree root) : Act Build Fault _) :=
      fun _ => rfl
    apply lists.bind
    intro found
    cases found with
    | some paths => exact Act.Quiet.each file paths
    | none => exact fun _ => rfl
  exact (Act.Quiet.each oneRoot roots).bind fun _ _ => rfl

theorem quiet_compile (disk : Disk) (path : Text) (blank : Bool) :
    Act.Quiet (compile disk path blank) := by
  have loads : Act.Quiet (load disk path) := by
    apply (quiet_visit _).bind
    intro _
    apply (quiet_spans disk _).bind
    intro spans?
    apply (quiet_text disk _).bind
    intro text?
    split
    · exact fun _ => rfl
    · exact fun _ => rfl
  apply loads.bind
  rintro ⟨t, found⟩ b
  exact Context.quiet_render blank t found

/-- The sources at the paths and what comes of expanding each, one after another, by the same
build. -/
def attempts (disk : Disk) (blank : Bool) : List Text → Build → List (Text × Except Fault Text)
  | [], _ => []
  | path :: paths, b =>
    let (next, expanded) := compile disk path blank b
    (path, expanded.result) :: attempts disk blank paths next

theorem expansions_eq_attempts (disk : Disk) (blank : Bool) (paths : List Text) (b : Build) :
    expansions disk blank paths b =
      (attempts disk blank paths b).flatMap fun a => a.2.toOption.getD [] := by
  induction paths generalizing b with
  | nil => rfl
  | cons path paths ih => simp only [expansions, attempts, ih, List.flatMap_cons]

end Build

/-! ## What the command tells -/

def Disk.refusal (disk : Disk) (path : Text) : List Notice :=
  match (Build.scan disk [path] {}).2.result with
  | .error (.expansion e) => [.unreadableDeclarations path e]
  | _ => []

def Disk.rootRemarks (disk : Disk) (files : List Text) (root : Text) : List Notice :=
  match Discovery.sources disk.tree root with
  | .ok (some paths) => paths.flatMap disk.refusal
  | .ok none => [.missingRoot root (files.contains root)]
  | .error _ => []

def Notice.ofAttempt : Text × Except Fault Text → List Notice
  | (path, .error (.expansion e)) => [.failedExpansion path e]
  | _ => []

namespace Command

variable {disk : Disk} {o : Options} {r r' r'' : Run} {log : List Notice}

/-- From one state of a run to the other the command told `ns`, and the run counts as failed if
there is an error among them. -/
structure Told (ns : List Notice) (r r' : Run) (log : List Notice) : Prop where
  remarks : log.filter Notice.ofCommand = ns
  failed : r'.failed = (r.failed || ns.any (·.level = .error))

theorem Told.nil : Told [] r r [] where
  remarks := rfl
  failed := (Bool.or_false _).symm

theorem Told.append {ns ms front back : List Notice} (first : Told ns r r' front)
    (second : Told ms r' r'' back) : Told (ns ++ ms) r r'' (front ++ back) where
  remarks := by rw [List.filter_append, first.remarks, second.remarks]
  failed := by rw [second.failed, first.failed, List.any_append, Bool.or_assoc]

theorem Told.not_failed_iff {ns : List Notice} (h : Told ns r r' log) (before : r.failed = false) :
    r'.failed = false ↔ ∀ n ∈ ns, n.level ≠ .error := by
  rw [h.failed, before, Bool.false_or, List.any_eq_false]
  simp

/-- The whole log tells of an error just if the run counts as failed. -/
theorem Told.failed_iff {ns : List Notice} (h : Told ns r r' log) (before : r.failed = false) :
    r'.failed = true ↔ ∃ n ∈ log, n.level = .error := by
  rw [h.failed, before, Bool.false_or, ← h.remarks, List.any_eq_true]
  constructor
  · rintro ⟨n, mem, error⟩
    exact ⟨n, (List.mem_filter.1 mem).1, of_decide_eq_true error⟩
  · rintro ⟨n, mem, error⟩
    exact ⟨n, List.mem_filter.2 ⟨mem, Notice.ofCommand_of_error error⟩, decide_eq_true error⟩

theorem tells_complain {n : Notice} {u : Unit} (h : Act.Tells (complain n) r r' u log) :
    r' = { r with failed := true } ∧ log = [n] := by
  obtain ⟨_, _, _, _, noted, changed, rfl⟩ := Act.tells_bind.1 h
  obtain ⟨rfl, rfl⟩ := Act.tells_note.1 noted
  obtain ⟨rfl, rfl⟩ := Act.tells_modify.1 changed
  exact ⟨rfl, rfl⟩

theorem told_of_complain {n : Notice} {u : Unit} (error : n.level = .error)
    (h : Act.Tells (complain n) r r' u log) : Told [n] r r' log := by
  obtain ⟨rfl, rfl⟩ := tells_complain h
  constructor
  · exact List.filter_cons_of_pos (Notice.ofCommand_of_error error)
  · simp [error]

theorem told_of_scanPath {path : Text} {u : Unit} (saw : Build.Saw disk r.build)
    (h : Act.Tells (scanPath disk path) r r' u log) : Told (disk.refusal path) r r' log := by
  obtain ⟨t, v, front, back, tried, rest, rfl⟩ := Act.tells_bind.1 h
  obtain ⟨rfl, rfl, outcome⟩ := Act.tells_attempt tried
  have result : (Build.scan disk [path] {}).2.result = v.mapError .expansion :=
    ((Build.steady_scan disk [path]).result_eq (Build.saw_new {}) saw).trans outcome
  -- Reading the file itself tells nothing that counts.
  have scanned : Told [] r (onBuild (Build.scan disk [path]) r).1
      (onBuild (Build.scan disk [path]) r).2.log :=
    ⟨Build.quiet_scan disk [path] r.build, (Bool.or_false _).symm⟩
  rw [Disk.refusal, result]
  cases v with
  | ok places =>
    obtain ⟨rfl, -, rfl⟩ := Act.tells_pure.1 rest
    exact scanned.append .nil
  | error e =>
    obtain ⟨_, _, _, _, told, marked, rfl⟩ := Act.tells_bind.1 rest
    obtain ⟨rfl, rfl⟩ := Act.tells_modify.1 marked
    have complained := told_of_complain rfl told
    rw [List.append_nil]
    exact scanned.append ⟨complained.remarks, complained.failed⟩

theorem told_of_scanPaths {paths : List Text} {us : List Unit} (saw : Build.Saw disk r.build)
    (h : Act.Tells (Act.each (scanPath disk) paths) r r' us log) :
    Told (paths.flatMap disk.refusal) r r' log := by
  induction paths generalizing r us log with
  | nil =>
    obtain ⟨rfl, -, rfl⟩ := Act.tells_each_nil.1 h
    exact .nil
  | cons path paths ih =>
    obtain ⟨next, _, _, front, back, first, others, rfl⟩ := Act.tells_each_cons h
    have swept := swept_of_scanPath saw first.gives
    rw [List.flatMap_cons]
    exact (told_of_scanPath saw first).append (ih (swept.saw saw) others)

theorem told_of_scanFrom {files : List Text} {root : Text} {u : Unit}
    (saw : Build.Saw disk r.build) (h : Act.Tells (scanFrom disk files root) r r' u log) :
    Told (disk.rootRemarks files root) r r' log := by
  obtain ⟨t, found, _, back, listed, onward, rfl⟩ := Act.tells_bind.1 h
  obtain ⟨sources, rfl, rfl⟩ := Act.tells_ofFile.1 listed
  rw [Disk.rootRemarks, sources, List.nil_append]
  cases found with
  | none =>
    cases required : files.contains root with
    | true =>
      rw [required] at onward
      exact told_of_complain rfl onward
    | false =>
      rw [required] at onward
      obtain ⟨rfl, rfl⟩ := Act.tells_note.1 onward
      exact ⟨rfl, (Bool.or_false _).symm⟩
  | some paths =>
    cases required : files.contains root with
    | true =>
      rw [required] at onward
      obtain ⟨t', _, _, _, taken, rest, rfl⟩ := Act.tells_bind.1 onward
      obtain ⟨rfl, rfl⟩ := Act.tells_modify.1 taken
      obtain ⟨_, _, _, _, ran, ended, rfl⟩ := Act.tells_bind.1 rest
      obtain ⟨rfl, -, rfl⟩ := Act.tells_pure.1 ended
      have told := told_of_scanPaths (r := { t with inputs := t.inputs ++ paths }) saw ran
      rw [List.nil_append, List.append_nil]
      exact ⟨told.remarks, told.failed⟩
    | false =>
      rw [required] at onward
      obtain ⟨_, _, _, _, ran, ended, rfl⟩ := Act.tells_bind.1 onward
      obtain ⟨rfl, -, rfl⟩ := Act.tells_pure.1 ended
      rw [List.append_nil]
      exact told_of_scanPaths saw ran

theorem told_of_scanRoots {files : List Text} {given : List Text} {us : List Unit}
    (saw : Build.Saw disk r.build)
    (h : Act.Tells (Act.each (scanRoot disk files) (given.map some)) r r' us log) :
    Told (given.flatMap (disk.rootRemarks files)) r r' log := by
  induction given generalizing r us log with
  | nil =>
    obtain ⟨rfl, -, rfl⟩ := Act.tells_each_nil.1 h
    exact .nil
  | cons root given ih =>
    obtain ⟨next, _, _, front, back, first, others, rfl⟩ := Act.tells_each_cons h
    obtain ⟨found, -, swept⟩ := swept_of_scanFrom saw first.gives
    rw [List.flatMap_cons]
    exact (told_of_scanFrom saw first).append (ih (swept.saw saw) others)

theorem told_of_scanAll {given : List Text} {u : Unit} (saw : Build.Saw disk r.build)
    (given_eq : roots o = given.map some) (h : Act.Tells (scanAll disk o) r r' u log) :
    Told (given.flatMap (disk.rootRemarks o.files)) r r' log := by
  unfold scanAll at h
  split at h
  · obtain ⟨_, _, _, _, failed, -⟩ := Act.tells_bind.1 h
    exact absurd failed.gives Act.not_gives_fail
  · obtain ⟨_, _, _, _, ran, ended, rfl⟩ := Act.tells_bind.1 h
    obtain ⟨rfl, -, rfl⟩ := Act.tells_pure.1 ended
    rw [given_eq] at ran
    rw [List.append_nil]
    exact told_of_scanRoots saw ran

theorem told_of_writePath {opened : Disk} {path : Text} {u : Unit}
    (same : Undisturbed disk opened [path])
    (h : Act.Tells (writePath opened o path) r r' u log) :
    Told (if path ∈ r.unreadable then [] else Notice.ofAttempt
      (path, (Build.compile disk path (!o.keepDefinitions) r.build).2.result)) r r' log := by
  obtain ⟨t, s, _, _, got, h, rfl⟩ := Act.tells_bind.1 h
  obtain ⟨rfl, kept, rfl⟩ := Act.tells_get.1 got
  subst s
  rw [List.nil_append]
  by_cases left_out : path ∈ t.unreadable
  · rw [if_pos left_out]
    rw [if_pos (List.contains_iff_mem.2 left_out)] at h
    obtain ⟨rfl, -, rfl⟩ := Act.tells_pure.1 h
    exact .nil
  · rw [if_neg left_out]
    rw [if_neg (mt List.contains_iff_mem.1 left_out)] at h
    obtain ⟨_, v, front, back, tried, rest, rfl⟩ := Act.tells_bind.1 h
    obtain ⟨rfl, rfl, outcome⟩ := Act.tells_attempt tried
    have own : attempted (expansion opened o path t.build).2.result = some v :=
      attempted_eq_some_iff.2 outcome
    have compiled := expansion_of_undisturbed same own
    rw [compiled, attempted_eq_some_iff] at own
    have expanded : Told [] t (onBuild (expansion opened o path) t).1
        (onBuild (expansion opened o path) t).2.log := by
      have quiet := Build.quiet_compile disk path (!o.keepDefinitions) t.build
      rw [← compiled] at quiet
      exact ⟨quiet, (Bool.or_false _).symm⟩
    rw [own]
    cases v with
    | ok out =>
      obtain ⟨rfl, rfl⟩ := Act.tells_modify.1 rest
      exact ⟨(expanded.append .nil).remarks, (expanded.append .nil).failed⟩
    | error e => exact expanded.append (told_of_complain rfl rest)

/-- What is told of the inputs, but for those that are left out. -/
theorem told_of_writePaths {opened : Disk} {paths : List Text} {us : List Unit}
    (same : Undisturbed disk opened paths)
    (h : Act.Tells (Act.each (writePath opened o) paths) r r' us log) :
    Told ((Build.attempts disk (!o.keepDefinitions)
      (paths.filter fun path => path ∉ r.unreadable) r.build).flatMap Notice.ofAttempt) r r' log := by
  induction paths generalizing r us log with
  | nil =>
    obtain ⟨rfl, -, rfl⟩ := Act.tells_each_nil.1 h
    exact .nil
  | cons path paths ih =>
    obtain ⟨next, _, _, front, back, first, others, rfl⟩ := Act.tells_each_cons h
    have here : Undisturbed disk opened [path] :=
      { same with files := fun q hq => same.files q (List.mem_cons.2 (Or.inl (by simpa using hq))) }
    have there : Undisturbed disk opened paths :=
      { same with files := fun q hq => same.files q (List.mem_cons_of_mem path hq) }
    obtain ⟨unreadable, added⟩ := output_of_writePath here first.gives
    have told := told_of_writePath here first
    have rest := ih there others
    rw [unreadable] at rest
    by_cases left_out : path ∈ r.unreadable
    · rw [if_pos left_out] at added told
      rw [added.1] at rest
      rw [List.filter_cons_of_neg (by simpa using left_out)]
      exact told.append rest
    · rw [if_neg left_out] at added told
      rw [added.1] at rest
      rw [List.filter_cons_of_pos (by simpa using left_out), Build.attempts, List.flatMap_cons]
      exact told.append rest

theorem told_of_writeAll {opened : Disk} {u : Unit} (same : Undisturbed disk opened r.inputs)
    (h : Act.Tells (writeAll opened o) r r' u log) :
    Told ((Build.attempts disk (!o.keepDefinitions)
      (r.inputs.filter fun path => path ∉ r.unreadable) r.build).flatMap Notice.ofAttempt)
      r r' log := by
  obtain ⟨t, s, _, _, got, h, rfl⟩ := Act.tells_bind.1 h
  obtain ⟨rfl, kept, rfl⟩ := Act.tells_get.1 got
  subst s
  obtain ⟨_, _, _, _, ran, ended, rfl⟩ := Act.tells_bind.1 h
  obtain ⟨rfl, -, rfl⟩ := Act.tells_pure.1 ended
  rw [List.nil_append, List.append_nil]
  exact told_of_writePaths same ran

/-- What comes of the inputs of a run that has scanned the sources: each is expanded, but for those
whose declarations are refused. -/
def inputAttempts (disk : Disk) (o : Options) (sources inputs : List Text) :
    List (Text × Except Fault Text) :=
  Build.attempts disk (!o.keepDefinitions) (inputs.filter fun path => !disk.rejects path)
    (Build.surveyed disk sources (newBuild o))

theorem due_eq_inputAttempts (sources inputs : List Text) :
    due disk o sources inputs =
      (inputAttempts disk o sources inputs).flatMap fun a => a.2.toOption.getD [] :=
  Build.expansions_eq_attempts ..

section
variable {sources inputs : List Text} {remarks : List Notice} (among : inputs.Sublist sources)
  (swept : Swept disk sources inputs { build := newBuild o } r)
  (told : Told remarks { build := newBuild o } r log)

include among swept told

theorem told_of_swept {opened : Disk} {u : Unit} {more : List Notice}
    (same : Undisturbed disk opened inputs) (h : Act.Tells (writeAll opened o) r r' u more) :
    Told (remarks ++ (inputAttempts disk o sources inputs).flatMap Notice.ofAttempt)
      { build := newBuild o } r' (log ++ more) := by
  have inputs_eq : r.inputs = inputs := swept.inputs
  rw [← inputs_eq] at same
  have written := told_of_writeAll same h
  rw [kept_of_swept among swept, swept.build] at written
  exact told.append written

theorem told_of_writeToStdout {n : Nat}
    (returned : (writeToStdout disk o log r).status = .ok n) :
    ∃ r' : Run, n = r'.status ∧
      Told (remarks ++ (inputAttempts disk o sources inputs).flatMap Notice.ofAttempt)
        { build := newBuild o } r' (writeToStdout disk o log r).log := by
  obtain ⟨u, written, status⟩ := exists_of_map_eq_ok returned
  exact ⟨_, status.symm, told_of_swept among swept told (undisturbed_self disk inputs)
    (Act.tells_of_result written)⟩

theorem told_of_writeToFile {n : Nat} {path : Text} (output : outputPath? o = some path)
    (apart : OutputApart disk o sources)
    (returned : (writeToFile disk o log r path).status = .ok n) :
    ∃ r' : Run, n = r'.status ∧
      Told (remarks ++ (inputAttempts disk o sources inputs).flatMap Notice.ofAttempt)
        { build := newBuild o } r' (writeToFile disk o log r path).log := by
  unfold writeToFile at returned ⊢
  cases created : disk.tree.create path (disk.now + 1) with
  | error e =>
    simp only [created] at returned
    cases returned
  | ok made =>
    obtain ⟨place, opened⟩ := made
    simp only [created] at returned ⊢
    obtain ⟨u, written, status⟩ := exists_of_map_eq_ok returned
    have same := apart.undisturbed output created fun _ hq => among.subset hq
    exact ⟨_, status.symm, told_of_swept among swept told same (Act.tells_of_result written)⟩

end

/-- What a run that came to its end has told, notice by notice, and its status. -/
theorem told_of_run {given sources inputs : List Text} {n : Nat}
    (given_eq : roots o = given.map some) (listed : Build.listing disk.tree given = .ok sources)
    (named : Build.listing disk.tree (given.filter o.files.contains) = .ok inputs)
    (apart : OutputApart disk o sources) (returned : (run disk o).status = .ok n) :
    ∃ r' : Run, n = r'.status ∧
      Told (given.flatMap (disk.rootRemarks o.files) ++
        (inputAttempts disk o sources inputs).flatMap Notice.ofAttempt)
        { build := newBuild o } r' (run disk o).log := by
  rcases scanned : scanAll disk o { build := newBuild o } with ⟨r, log, f | u⟩
  · have run_eq : run disk o = { status := .error f, log := log, tree := disk.tree } := by
      rw [newBuild] at scanned
      simp only [run, scanned]
    rw [run_eq] at returned
    cases returned
  · have ran : Act.Tells (scanAll disk o) { build := newBuild o } r u log := scanned
    obtain ⟨given', _, _, given_eq', listed', named', among, swept⟩ :=
      swept_of_scanAll (Build.saw_new _) ran.gives
    obtain rfl : given = given' :=
      List.map_injective_iff.2 (Option.some_injective _) (given_eq.symm.trans given_eq')
    obtain rfl := Except.ok.inj (listed.symm.trans listed')
    obtain rfl := Except.ok.inj (named.symm.trans named')
    have told := told_of_scanAll (Build.saw_new _) given_eq ran
    cases output : outputPath? o with
    | none =>
      have run_eq : run disk o = writeToStdout disk o log r := by
        rw [newBuild] at scanned
        simp only [run, scanned, output]
      rw [run_eq] at returned ⊢
      exact told_of_writeToStdout among swept told returned
    | some path =>
      have run_eq : run disk o = writeToFile disk o log r path := by
        rw [newBuild] at scanned
        simp only [run, scanned, output]
      rw [run_eq] at returned ⊢
      exact told_of_writeToFile among swept told output apart returned

/-- Nothing fails: all files exist, no source has declarations that are refused, and each input can
be expanded. -/
structure Flawless (disk : Disk) (o : Options) (sources inputs : List Text) : Prop where
  filesStand : ∀ file ∈ o.files, disk.tree.isFolder file = true ∨ disk.tree.isFile file = true
  accepted : ∀ source ∈ sources, disk.rejects source = false
  expanded : ∀ a ∈ inputAttempts disk o sources inputs, ∀ e, a.2 ≠ .error (.expansion e)

theorem sources_eq_none_iff {tree : FileTree} {root : Text} :
    Discovery.sources tree root = .ok none ↔
      ¬ (tree.isFolder root = true ∨ tree.isFile root = true) := by
  unfold Discovery.sources
  by_cases folder : tree.isFolder root = true
  · cases Discovery.find tree true root with
    | error e => simp [folder, Except.map]
    | ok found => simp [folder, Except.map]
  · by_cases file : tree.isFile root = true
    · simp [folder, file]
    · simp [folder, file]

theorem no_error_refusal_iff {path : Text} :
    (∀ n ∈ disk.refusal path, n.level ≠ .error) ↔ disk.rejects path = false := by
  unfold Disk.refusal Disk.rejects
  rcases (Build.scan disk [path] {}).2.result with (e | _ | _ | _) | _
  · simp [Notice.level]
  · simp
  · simp
  · simp
  · simp

theorem no_error_rootRemarks_iff {files : List Text} {root : Text} {found : Option (List Text)}
    (sources : Discovery.sources disk.tree root = .ok found) :
    (∀ n ∈ disk.rootRemarks files root, n.level ≠ .error) ↔
      (root ∈ files → disk.tree.isFolder root = true ∨ disk.tree.isFile root = true) ∧
        ∀ source ∈ found.getD [], disk.rejects source = false := by
  rw [Disk.rootRemarks, sources]
  cases found with
  | none =>
    have missing := sources_eq_none_iff.1 sources
    by_cases required : root ∈ files
    · simp [Notice.level, required, not_or.1 missing]
    · simp [Notice.level, required]
  | some paths =>
    have stands : disk.tree.isFolder root = true ∨ disk.tree.isFile root = true := by
      by_contra missing
      rw [sources_eq_none_iff.2 missing] at sources
      cases sources
    simp only [stands, implies_true, true_and, Option.getD_some, ← no_error_refusal_iff]
    constructor
    · intro all source mem n told
      exact all n (List.mem_flatMap.2 ⟨source, mem, told⟩)
    · intro all n told
      obtain ⟨source, mem, told⟩ := List.mem_flatMap.1 told
      exact all source mem n told

theorem no_error_roots_iff {files given sources : List Text}
    (listed : Build.listing disk.tree given = .ok sources) :
    (∀ n ∈ given.flatMap (disk.rootRemarks files), n.level ≠ .error) ↔
      (∀ root ∈ given, root ∈ files →
        disk.tree.isFolder root = true ∨ disk.tree.isFile root = true) ∧
        ∀ source ∈ sources, disk.rejects source = false := by
  induction given generalizing sources with
  | nil =>
    obtain rfl := Except.ok.inj listed
    simp
  | cons root given ih =>
    obtain ⟨found, rest, here, others, rfl⟩ := Build.listing_cons_iff.1 listed
    simp only [List.flatMap_cons, List.forall_mem_append, List.forall_mem_cons, ih others,
      no_error_rootRemarks_iff here]
    tauto

theorem no_error_attempts_iff {attempts : List (Text × Except Fault Text)} :
    (∀ n ∈ attempts.flatMap Notice.ofAttempt, n.level ≠ .error) ↔
      ∀ a ∈ attempts, ∀ e, a.2 ≠ .error (.expansion e) := by
  constructor
  · intro all a mem e failed
    obtain ⟨path, result⟩ := a
    obtain rfl : result = .error (.expansion e) := failed
    exact all _ (List.mem_flatMap.2 ⟨_, mem, List.mem_singleton_self _⟩) rfl
  · intro all n told
    obtain ⟨⟨path, result⟩, mem, told⟩ := List.mem_flatMap.1 told
    unfold Notice.ofAttempt at told
    split at told
    · rename_i path' e same
      obtain ⟨-, rfl⟩ := Prod.mk.inj same
      exact absurd rfl (all _ mem e)
    · cases told

theorem flawless_iff {given sources inputs : List Text} (given_eq : roots o = given.map some)
    (listed : Build.listing disk.tree given = .ok sources) :
    (∀ n ∈ given.flatMap (disk.rootRemarks o.files) ++
        (inputAttempts disk o sources inputs).flatMap Notice.ofAttempt, n.level ≠ .error) ↔
      Flawless disk o sources inputs := by
  have files_given : ∀ file ∈ o.files, file ∈ given := by
    intro file mem
    have named : some file ∈ roots o := List.mem_append_right _ (List.mem_map_of_mem mem)
    rw [given_eq] at named
    obtain ⟨_, root, same⟩ := List.mem_map.1 named
    obtain rfl := Option.some.inj same
    exact root
  rw [List.forall_mem_append, no_error_roots_iff listed, no_error_attempts_iff]
  constructor
  · rintro ⟨⟨stand, accepted⟩, expanded⟩
    exact ⟨fun file mem => stand file (files_given file mem) mem, accepted, expanded⟩
  · intro h
    exact ⟨⟨fun root _ named => h.filesStand root named, h.accepted⟩, h.expanded⟩

theorem missingRoot_mem_iff {files given : List Text}
    {attempts : List (Text × Except Fault Text)} {root : Text} {required : Bool} :
    .missingRoot root required ∈
        given.flatMap (disk.rootRemarks files) ++ attempts.flatMap Notice.ofAttempt ↔
      root ∈ given ∧ ¬ (disk.tree.isFolder root = true ∨ disk.tree.isFile root = true) ∧
        required = files.contains root := by
  constructor
  · intro told
    cases List.mem_append.1 told with
    | inl told =>
      obtain ⟨given_root, mem, told⟩ := List.mem_flatMap.1 told
      unfold Disk.rootRemarks at told
      split at told
      · obtain ⟨source, -, told⟩ := List.mem_flatMap.1 told
        unfold Disk.refusal at told
        split at told
        · cases List.mem_singleton.1 told
        · cases told
      · rename_i nothing
        obtain ⟨rfl, rfl⟩ := Notice.missingRoot.inj (List.mem_singleton.1 told)
        exact ⟨mem, sources_eq_none_iff.1 nothing, rfl⟩
      · cases told
    | inr told =>
      obtain ⟨a, -, told⟩ := List.mem_flatMap.1 told
      unfold Notice.ofAttempt at told
      split at told
      · cases List.mem_singleton.1 told
      · cases told
  · rintro ⟨mem, missing, rfl⟩
    apply List.mem_append_left
    apply List.mem_flatMap.2
    refine ⟨root, mem, ?_⟩
    rw [Disk.rootRemarks, sources_eq_none_iff.2 missing]
    exact List.mem_singleton_self _

/-- **The status tells the truth.** A command line with at least one file is run, the run comes to
its end, and the output file, if there is one, is none of the sources. Then the status is zero if
all files exist, no source below any root has declarations that are refused, and each input is
expanded; it is one otherwise, and just then the log tells of an error. Of a root that does not
exist the log tells as an error if it is one of the files, and else as a warning. The output is that
of the inputs that are expanded, each whole and in order; a source whose declarations are refused
and one whose expansion fails add nothing. -/
theorem answer_status (disk : Disk) (args : List Text) (o : Options) (outcome : Outcome) (n : Nat)
    (ran : answer disk args = .ran o outcome) (returned : outcome.status = .ok n) :
    ∃ given sources inputs, roots o = given.map some ∧
      Build.listing disk.tree given = .ok sources ∧
      Build.listing disk.tree (given.filter o.files.contains) = .ok inputs ∧
      (OutputApart disk o sources →
        (n = 0 ↔ Flawless disk o sources inputs) ∧
        (n = 1 ↔ ¬ Flawless disk o sources inputs) ∧
        (n = 1 ↔ ∃ notice ∈ outcome.log, notice.level = .error) ∧
        (∀ root required, .missingRoot root required ∈ outcome.log ↔
          root ∈ given ∧ ¬ (disk.tree.isFolder root = true ∨ disk.tree.isFile root = true) ∧
            required = o.files.contains root) ∧
        Delivers disk o outcome
          ((inputAttempts disk o sources inputs).flatMap fun a => a.2.toOption.getD [])) := by
  obtain ⟨-, -, rfl⟩ := answer_eq_ran_iff.1 ran
  obtain ⟨given, sources, inputs, given_eq, listed, named, delivers⟩ := delivers_of_run returned
  refine ⟨given, sources, inputs, given_eq, listed, named, fun apart => ?_⟩
  obtain ⟨r', status, told⟩ := told_of_run given_eq listed named apart returned
  have flawless : r'.failed = false ↔ Flawless disk o sources inputs :=
    (told.not_failed_iff rfl).trans (flawless_iff given_eq listed)
  have failed : r'.failed = true ↔ ∃ notice ∈ (run disk o).log, notice.level = .error :=
    told.failed_iff rfl
  have zero : n = 0 ↔ r'.failed = false := by
    rw [status, Run.status]
    cases r'.failed with
    | true => simp
    | false => simp
  have one : n = 1 ↔ r'.failed = true := by
    rw [status, Run.status]
    cases r'.failed with
    | true => simp
    | false => simp
  refine ⟨zero.trans flawless, ?_, one.trans failed, ?_, ?_⟩
  · rw [one, ← flawless, Bool.not_eq_false]
  · intro root required
    rw [← missingRoot_mem_iff, ← told.remarks, List.mem_filter]
    exact (and_iff_left rfl).symm
  · rw [← due_eq_inputAttempts]
    exact delivers apart

def halfBroken : Disk where
  tree := {
    root := .folder [
      ("a.css".toList, .file "@mixin --m\x7b".toUTF8 100),
      ("b.css".toList, .file ".x\x7b\x7d".toUTF8 100)] }
  now := 1000

set_option maxRecDepth 10000 in
/-- One of two files is refused, and a folder for definitions is missing. -/
theorem answer_status_halfBroken :
    let disk := halfBroken
    let args := ["-I".toList, "lib".toList, "a.css".toList, "b.css".toList]
    let o : Options :=
      { files := ["a.css".toList, "b.css".toList], includes := [some "lib".toList] }
    let files := ["a.css".toList, "b.css".toList]
    answer disk args = .ran o (run disk o) ∧ (run disk o).status = .ok 1 ∧
      ¬ Flawless disk o files files ∧
      (∃ notice ∈ (run disk o).log, notice.level = .error) ∧
      .missingRoot "lib".toList false ∈ (run disk o).log ∧
      Delivers disk o (run disk o) ".x\x7b\x7d".toList := by
  intro disk args o files
  have apart : OutputApart disk o files := nofun
  have parsed : Options.parse args = .ok o := by cbv
  have ran : answer disk args = .ran o (run disk o) := answer_eq_ran_iff.2 ⟨parsed, rfl, rfl⟩
  have returned : (run disk o).status = .ok 1 := by cbv
  obtain ⟨given, sources, inputs, roots_eq, listed, named, told⟩ :=
    answer_status disk args o (run disk o) 1 ran returned
  obtain rfl : ["lib".toList, "a.css".toList, "b.css".toList] = given :=
    List.map_injective_iff.2 (Option.some_injective _) roots_eq
  have both : Build.listing disk.tree ["lib".toList, "a.css".toList, "b.css".toList] = .ok files := by
    cbv
  obtain rfl := Except.ok.inj (listed.symm.trans both)
  have both_named : Build.listing disk.tree
      (["lib".toList, "a.css".toList, "b.css".toList].filter o.files.contains) = .ok files := by
    cbv
  obtain rfl := Except.ok.inj (named.symm.trans both_named)
  obtain ⟨-, one, error, missing, delivers⟩ := told apart
  have text : ((inputAttempts disk o files files).flatMap fun a => a.2.toOption.getD []) =
      ".x\x7b\x7d".toList := by cbv
  rw [text] at delivers
  have warned : .missingRoot "lib".toList false ∈ (run disk o).log := by
    have no_folder : disk.tree.isFolder "lib".toList = false := by cbv
    have no_file : disk.tree.isFile "lib".toList = false := by cbv
    apply (missing _ _).2
    rw [no_folder, no_file]
    exact ⟨List.mem_cons_self, by decide, by cbv⟩
  exact ⟨ran, returned, one.1 rfl, error.1 rfl, warned, delivers⟩

end Command

end StyleExpansion
