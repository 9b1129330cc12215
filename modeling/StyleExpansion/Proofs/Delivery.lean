import StyleExpansion.Command
import StyleExpansion.Proofs.Opening
import StyleExpansion.Proofs.Survey
import Mathlib

namespace StyleExpansion

/-- The outcome of an expansion that is attempted, if the fault lets the run go on. -/
def attempted {α : Type} : Except Fault α → Option (Except Error α)
  | .ok a => some (.ok a)
  | .error (.expansion e) => some (.error e)
  | .error _ => none

theorem attempted_eq_some_iff {α : Type} {x : Except Fault α} {v : Except Error α} :
    attempted x = some v ↔ x = v.mapError .expansion := by
  rcases x with (_ | _ | _ | _) | _
  all_goals
    cases v <;> simp [attempted, Except.mapError]

namespace Act

variable {σ α : Type} {s t : σ}

theorem gives_get {a : σ} : Gives (get : Act σ Fault σ) s t a ↔ t = s ∧ a = s := by
  constructor
  · rintro ⟨log, ran⟩
    cases ran
    exact ⟨rfl, rfl⟩
  · rintro ⟨rfl, rfl⟩
    exact ⟨[], rfl⟩

theorem gives_modify {f : σ → σ} {u : Unit} :
    Gives (modify f : Act σ Fault Unit) s t u ↔ t = f s := by
  constructor
  · rintro ⟨log, ran⟩
    cases ran
    rfl
  · rintro rfl
    exact ⟨[], rfl⟩

theorem not_gives_fail {f : Fault} {a : α} : ¬ Gives (fail f : Act σ Fault α) s t a := by
  rintro ⟨log, ran⟩
  cases ran

theorem gives_attempt {x : Act σ Fault α} {v : Except Error α} :
    Gives (attempt x) s t v ↔ t = (x s).1 ∧ attempted (x s).2.result = some v := by
  rcases ran : x s with ⟨u, log, f | a⟩
  · cases f with
    | expansion e => simp [Gives, attempt, ran, attempted, eq_comm]
    | file e => simp [Gives, attempt, ran, attempted]
    | neverRead => simp [Gives, attempt, ran, attempted]
    | missingValue => simp [Gives, attempt, ran, attempted]
  · simp [Gives, attempt, ran, attempted, eq_comm]

end Act

namespace Build

variable {disk opened : Disk} {path : Text} {b : Build}

/-- An expansion looks at no file but that of the source. -/
theorem compile_congr (now : opened.now = disk.now)
    (workdir : opened.tree.workdir = disk.tree.workdir)
    (same : opened.tree.file (FileTree.written (Path.normalize disk.tree.workdir path)) =
      disk.tree.file (FileTree.written (Path.normalize disk.tree.workdir path))) (blank : Bool) :
    compile opened path blank = compile disk path blank := by
  simp only [compile, load, spans, text, now, workdir, same]

/-- An expansion that is attempted finds the file of the source. -/
theorem file_of_compile {blank : Bool} {v : Except Error Text}
    (h : attempted (compile disk path blank b).2.result = some v) :
    ∃ file,
      disk.tree.file (FileTree.written (Path.normalize disk.tree.workdir path)) = .ok file := by
  set p := Path.normalize disk.tree.workdir path with place
  cases found : disk.tree.file (FileTree.written p) with
  | ok file => exact ⟨file, rfl⟩
  | error e =>
    have failed := spans_eq disk p (b.remember p (b.source p) b.context)
    rw [found] at failed
    rw [compile, load, ← place, bind_assoc, Act.bind_of_quiet (visit_eq p b), bind_assoc,
      Act.bind_of_error failed] at h
    cases h

end Build

namespace Command

variable {disk : Disk} {o : Options} {r r' r'' : Run}

/-! ## Scanning the roots -/

/-- What the scan of sources makes of a run, when `inputs` of them are to be expanded. -/
structure Swept (disk : Disk) (sources inputs : List Text) (r r' : Run) : Prop where
  build : r'.build = Build.surveyed disk sources r.build
  inputs : r'.inputs = r.inputs ++ inputs
  unreadable : r'.unreadable = r.unreadable ++ sources.filter disk.rejects
  output : r'.output = r.output

theorem Swept.nil : Swept disk [] [] r r where
  build := rfl
  inputs := (List.append_nil _).symm
  unreadable := (List.append_nil _).symm
  output := rfl

theorem Swept.append {ps qs is js : List Text} (first : Swept disk ps is r r')
    (second : Swept disk qs js r' r'') : Swept disk (ps ++ qs) (is ++ js) r r'' where
  build := by rw [second.build, first.build, Build.surveyed_append]
  inputs := by rw [second.inputs, first.inputs, List.append_assoc]
  unreadable := by
    rw [second.unreadable, first.unreadable, List.filter_append, List.append_assoc]
  output := by rw [second.output, first.output]

theorem Swept.saw {ps is : List Text} (h : Swept disk ps is r r')
    (saw : Build.Saw disk r.build) : Build.Saw disk r'.build := by
  rw [h.build]
  exact saw.surveyed ps

theorem gives_complain {n : Notice} {u : Unit} (h : Act.Gives (complain n) r r' u) :
    r' = { r with failed := true } := by
  obtain ⟨_, _, noted, changed⟩ := Act.gives_bind.1 h
  obtain rfl := Act.gives_note.1 noted
  exact Act.gives_modify.1 changed

theorem swept_of_scanPath {path : Text} {u : Unit} (saw : Build.Saw disk r.build)
    (h : Act.Gives (scanPath disk path) r r' u) : Swept disk [path] [] r r' := by
  obtain ⟨t, v, tried, rest⟩ := Act.gives_bind.1 h
  obtain ⟨rfl, outcome⟩ := Act.gives_attempt.1 tried
  have rejects := Build.scan_rejects saw path
  have result : (onBuild (Build.scan disk [path]) r).2.result =
      (Build.scan disk [path] r.build).2.result := rfl
  rw [result, attempted_eq_some_iff] at outcome
  cases v with
  | ok places =>
    obtain ⟨rfl, -⟩ := Act.gives_pure.1 rest
    have accepted : disk.rejects path = false := by
      rw [Bool.eq_false_iff, ne_eq, rejects]
      rintro ⟨e, failed⟩
      rw [failed] at outcome
      cases outcome
    refine ⟨rfl, (List.append_nil _).symm, ?_, rfl⟩
    rw [List.filter_cons_of_neg (by simp [accepted]), List.filter_nil, List.append_nil]
    rfl
  | error e =>
    obtain ⟨_, _, told, marked⟩ := Act.gives_bind.1 rest
    obtain rfl := gives_complain told
    obtain rfl := Act.gives_modify.1 marked
    refine ⟨rfl, (List.append_nil _).symm, ?_, rfl⟩
    rw [List.filter_cons_of_pos (rejects.2 ⟨e, outcome⟩), List.filter_nil]
    rfl

theorem swept_of_scanPaths {paths : List Text} {us : List Unit} (saw : Build.Saw disk r.build)
    (h : Act.Gives (Act.each (scanPath disk) paths) r r' us) : Swept disk paths [] r r' := by
  induction paths generalizing r us with
  | nil =>
    obtain ⟨rfl, -⟩ := Act.gives_each_nil.1 h
    exact .nil
  | cons path paths ih =>
    obtain ⟨next, _, _, first, others, -⟩ := Act.gives_each_cons.1 h
    have here := swept_of_scanPath saw first
    exact here.append (ih (here.saw saw) others)

/-- A root gives its sources to the scan, and to the inputs if it is spelled like a file. -/
theorem swept_of_scanFrom {files : List Text} {root : Text} {u : Unit}
    (saw : Build.Saw disk r.build) (h : Act.Gives (scanFrom disk files root) r r' u) :
    ∃ found, Discovery.sources disk.tree root = .ok found ∧
      Swept disk (found.getD []) (if files.contains root then found.getD [] else []) r r' := by
  obtain ⟨t, found, listed, rest⟩ := Act.gives_bind.1 h
  obtain ⟨sources, same⟩ := Act.gives_ofFile.1 listed
  subst t
  refine ⟨found, sources, ?_⟩
  cases found with
  | none =>
    cases required : files.contains root with
    | true =>
      rw [required] at rest
      obtain rfl := gives_complain rest
      exact ⟨rfl, (List.append_nil _).symm, (List.append_nil _).symm, rfl⟩
    | false =>
      rw [required] at rest
      obtain rfl := Act.gives_note.1 rest
      exact .nil
  | some paths =>
    cases required : files.contains root with
    | true =>
      rw [required] at rest
      obtain ⟨t, _, taken, rest⟩ := Act.gives_bind.1 rest
      obtain rfl := Act.gives_modify.1 taken
      obtain ⟨_, _, ran, ended⟩ := Act.gives_bind.1 rest
      obtain ⟨rfl, -⟩ := Act.gives_pure.1 ended
      have swept := swept_of_scanPaths (r := { r with inputs := r.inputs ++ paths }) saw ran
      exact ⟨swept.build, by simpa using swept.inputs, swept.unreadable, swept.output⟩
    | false =>
      rw [required] at rest
      obtain ⟨_, _, ran, ended⟩ := Act.gives_bind.1 rest
      obtain ⟨rfl, -⟩ := Act.gives_pure.1 ended
      exact swept_of_scanPaths saw ran

theorem swept_of_scanRoots {files : List Text} {given : List (Option Text)} {us : List Unit}
    (saw : Build.Saw disk r.build)
    (h : Act.Gives (Act.each (scanRoot disk files) given) r r' us) :
    ∃ roots sources inputs, given = roots.map some ∧
      Build.listing disk.tree roots = .ok sources ∧
      Build.listing disk.tree (roots.filter files.contains) = .ok inputs ∧
      inputs.Sublist sources ∧ Swept disk sources inputs r r' := by
  induction given generalizing r us with
  | nil =>
    obtain ⟨rfl, -⟩ := Act.gives_each_nil.1 h
    exact ⟨[], [], [], rfl, rfl, rfl, .slnil, .nil⟩
  | cons root? given ih =>
    obtain ⟨next, _, _, first, others, -⟩ := Act.gives_each_cons.1 h
    cases root? with
    | none => exact absurd first Act.not_gives_fail
    | some root =>
      obtain ⟨found, listed, here⟩ := swept_of_scanFrom saw first
      obtain ⟨roots, sources, inputs, rfl, sources_eq, inputs_eq, among, there⟩ :=
        ih (here.saw saw) others
      refine ⟨root :: roots, found.getD [] ++ sources, _, rfl,
        Build.listing_cons_iff.2 ⟨found, sources, listed, sources_eq, rfl⟩, ?_, ?_,
        here.append there⟩
      · by_cases required : files.contains root = true
        · rw [List.filter_cons_of_pos required, if_pos required]
          exact Build.listing_cons_iff.2 ⟨found, inputs, listed, inputs_eq, rfl⟩
        · rw [List.filter_cons_of_neg required, if_neg required]
          exact inputs_eq
      · apply List.Sublist.append ?_ among
        split
        · exact .refl _
        · exact List.nil_sublist _

theorem swept_of_scanAll {u : Unit} (saw : Build.Saw disk r.build)
    (h : Act.Gives (scanAll disk o) r r' u) :
    ∃ given sources inputs, roots o = given.map some ∧
      Build.listing disk.tree given = .ok sources ∧
      Build.listing disk.tree (given.filter o.files.contains) = .ok inputs ∧
      inputs.Sublist sources ∧ Swept disk sources inputs r r' := by
  unfold scanAll at h
  split at h
  · obtain ⟨_, _, failed, -⟩ := Act.gives_bind.1 h
    exact absurd failed Act.not_gives_fail
  · obtain ⟨_, _, ran, ended⟩ := Act.gives_bind.1 h
    obtain ⟨rfl, -⟩ := Act.gives_pure.1 ended
    exact swept_of_scanRoots saw ran

/-! ## Writing the inputs -/

/-- The expansion that a run asks for is that of the build, unless a value is missing. -/
theorem expansion_eq {path : Text} {b : Build} {v : Except Error Text}
    (h : attempted (expansion disk o path b).2.result = some v) :
    expansion disk o path b = Build.compile disk path (!o.keepDefinitions) b := by
  rcases ran : Build.load disk path b with ⟨next, log, f | ⟨t, spans⟩⟩
  · rw [expansion, Build.compile, Act.bind_of_error ran, Act.bind_of_error ran]
  · rw [expansion, Act.bind_of_ok ran] at h
    rw [expansion, Build.compile, Act.bind_of_ok ran, Act.bind_of_ok ran]
    dsimp only at h ⊢
    split
    · rename_i unbounded
      rw [if_pos unbounded] at h
      cases h
    · rfl

/-- The disk on which inputs are written holds no other files at the paths than the one that was
scanned. -/
structure Undisturbed (disk opened : Disk) (paths : List Text) : Prop where
  now : opened.now = disk.now
  workdir : opened.tree.workdir = disk.tree.workdir
  files : ∀ path ∈ paths, ∀ file,
    opened.tree.file (FileTree.written (Path.normalize disk.tree.workdir path)) = .ok file →
      disk.tree.file (FileTree.written (Path.normalize disk.tree.workdir path)) = .ok file

/-- An expansion that came to its end has found its file, and so it is that of the file that was
scanned. -/
theorem expansion_of_undisturbed {opened : Disk} {path : Text} {b : Build} {v : Except Error Text}
    (same : Undisturbed disk opened [path])
    (h : attempted (expansion opened o path b).2.result = some v) :
    expansion opened o path b = Build.compile disk path (!o.keepDefinitions) b := by
  have compiled := expansion_eq h
  rw [compiled] at h
  obtain ⟨file, found⟩ := Build.file_of_compile h
  rw [same.workdir] at found
  have as_scanned := same.files path List.mem_cons_self file found
  rw [compiled, Build.compile_congr same.now same.workdir (found.trans as_scanned.symm)]

/-- What an input adds to the output when it is not left out. -/
theorem output_of_writePath {opened : Disk} {path : Text} {u : Unit}
    (same : Undisturbed disk opened [path])
    (h : Act.Gives (writePath opened o path) r r' u) :
    r'.unreadable = r.unreadable ∧
      if path ∈ r.unreadable then r'.build = r.build ∧ r'.output = r.output
      else
        r'.build = (Build.compile disk path (!o.keepDefinitions) r.build).1 ∧
        r'.output = r.output ++
          (Build.compile disk path (!o.keepDefinitions) r.build).2.result.toOption.getD [] := by
  obtain ⟨t, s, got, h⟩ := Act.gives_bind.1 h
  obtain ⟨kept, read⟩ := Act.gives_get.1 got
  subst t s
  by_cases left_out : path ∈ r.unreadable
  · rw [if_pos left_out]
    rw [if_pos (List.contains_iff_mem.2 left_out)] at h
    obtain ⟨rfl, -⟩ := Act.gives_pure.1 h
    exact ⟨rfl, rfl, rfl⟩
  · rw [if_neg left_out]
    rw [if_neg (mt List.contains_iff_mem.1 left_out)] at h
    obtain ⟨t, v, tried, rest⟩ := Act.gives_bind.1 h
    obtain ⟨rfl, outcome⟩ := Act.gives_attempt.1 tried
    have own : attempted (expansion opened o path r.build).2.result = some v := outcome
    have compiled := expansion_of_undisturbed same own
    rw [compiled] at own
    have state : (onBuild (expansion opened o path) r).1 =
        { r with build := (Build.compile disk path (!o.keepDefinitions) r.build).1 } := by
      rw [← compiled]
      rfl
    rw [state] at rest
    rw [attempted_eq_some_iff.1 own]
    cases v with
    | ok t =>
      obtain rfl := Act.gives_modify.1 rest
      exact ⟨rfl, rfl, rfl⟩
    | error e =>
      obtain rfl := gives_complain rest
      exact ⟨rfl, rfl, (List.append_nil _).symm⟩

/-- The inputs are expanded in order by one build, but for those that are left out. -/
theorem output_of_writePaths {opened : Disk} {paths : List Text} {us : List Unit}
    (same : Undisturbed disk opened paths)
    (h : Act.Gives (Act.each (writePath opened o) paths) r r' us) :
    r'.output = r.output ++ Build.expansions disk (!o.keepDefinitions)
      (paths.filter fun path => path ∉ r.unreadable) r.build := by
  induction paths generalizing r us with
  | nil =>
    obtain ⟨rfl, -⟩ := Act.gives_each_nil.1 h
    exact (List.append_nil _).symm
  | cons path paths ih =>
    obtain ⟨next, _, _, first, others, -⟩ := Act.gives_each_cons.1 h
    have here : Undisturbed disk opened [path] :=
      { same with files := fun q hq => same.files q (List.mem_cons.2 (Or.inl (by simpa using hq))) }
    have there : Undisturbed disk opened paths :=
      { same with files := fun q hq => same.files q (List.mem_cons_of_mem path hq) }
    obtain ⟨unreadable, added⟩ := output_of_writePath here first
    -- What is left out is known before the first input is written and does not change after.
    have rest := ih there others
    rw [unreadable] at rest
    by_cases left_out : path ∈ r.unreadable
    · rw [if_pos left_out] at added
      rw [List.filter_cons_of_neg (by simpa using left_out), rest, added.1, added.2]
    · rw [if_neg left_out] at added
      rw [List.filter_cons_of_pos (by simpa using left_out), rest, added.1, added.2,
        List.append_assoc, Build.expansions]

theorem output_of_writeAll {opened : Disk} {u : Unit} (same : Undisturbed disk opened r.inputs)
    (h : Act.Gives (writeAll opened o) r r' u) :
    r'.output = r.output ++ Build.expansions disk (!o.keepDefinitions)
      (r.inputs.filter fun path => path ∉ r.unreadable) r.build := by
  obtain ⟨t, s, got, h⟩ := Act.gives_bind.1 h
  obtain ⟨kept, read⟩ := Act.gives_get.1 got
  subst t s
  obtain ⟨_, _, ran, ended⟩ := Act.gives_bind.1 h
  obtain ⟨rfl, -⟩ := Act.gives_pure.1 ended
  exact output_of_writePaths same ran

def newBuild (o : Options) : Build :=
  { context := { maxDepth := o.maxDepth?.getD defaultCeiling, strict := o.strict } }

/-- The text that a run is to write when it has scanned the sources and `inputs` are to be
expanded. -/
def due (disk : Disk) (o : Options) (sources inputs : List Text) : Text :=
  Build.expansions disk (!o.keepDefinitions) (inputs.filter fun path => !disk.rejects path)
    (Build.surveyed disk sources (newBuild o))

/-- The run wrote the text and nothing else, to standard output or to the output file. -/
def Delivers (disk : Disk) (o : Options) (outcome : Outcome) (text : Text) : Prop :=
  match outputPath? o with
  | none => outcome.stdout = text ∧ outcome.written? = none ∧ outcome.tree = disk.tree
  | some path => outcome.stdout = [] ∧ outcome.written? = some text ∧
    ∃ place opened, disk.tree.create path (disk.now + 1) = .ok (place, opened) ∧
      outcome.tree = opened.withFile place (String.ofList text).toUTF8 (disk.now + 1)

def OutputApart (disk : Disk) (o : Options) (sources : List Text) : Prop :=
  ∀ path place opened, outputPath? o = some path →
    disk.tree.create path (disk.now + 1) = .ok (place, opened) →
    ∀ source ∈ sources, opened.resolve
      (FileTree.written (Path.normalize disk.tree.workdir source)) ≠ .ok place

theorem undisturbed_self (disk : Disk) (paths : List Text) : Undisturbed disk disk paths where
  now := rfl
  workdir := rfl
  files _ _ _ found := found

/-- Opening the output file leaves the sources as they are. -/
theorem OutputApart.undisturbed {sources paths : List Text} {path : Text} {place : Path}
    {opened : FileTree} (apart : OutputApart disk o sources) (output : outputPath? o = some path)
    (created : disk.tree.create path (disk.now + 1) = .ok (place, opened))
    (among : ∀ q ∈ paths, q ∈ sources) :
    Undisturbed disk { disk with tree := opened } paths := by
  obtain ⟨fits, opened_eq⟩ := FileTree.create_eq created
  refine ⟨rfl, by rw [opened_eq]; rfl, ?_⟩
  intro q hq file found
  have elsewhere := apart path place opened output created q (among q hq)
  rw [opened_eq] at found elsewhere
  exact FileTree.file_of_withFile fits found elsewhere

section
variable {sources inputs : List Text} (among : inputs.Sublist sources)
  (swept : Swept disk sources inputs { build := newBuild o } r)

include among swept

/-- The inputs that are not left out are those whose declarations are not refused. -/
theorem kept_of_swept : (r.inputs.filter fun path => path ∉ r.unreadable) =
    inputs.filter fun path => !disk.rejects path := by
  have inputs_eq : r.inputs = inputs := swept.inputs
  have unreadable_eq : r.unreadable = sources.filter disk.rejects := swept.unreadable
  rw [inputs_eq]
  apply List.filter_congr
  intro path hp
  rw [unreadable_eq]
  simp [List.mem_filter, among.subset hp]

/-- What is written after all roots were scanned. -/
theorem output_of_swept {opened : Disk} {u : Unit} (same : Undisturbed disk opened inputs)
    (h : Act.Gives (writeAll opened o) r r' u) :
    r'.output = due disk o sources inputs := by
  have inputs_eq : r.inputs = inputs := swept.inputs
  have output_eq : r.output = [] := swept.output
  rw [← inputs_eq] at same
  rw [output_of_writeAll same h, output_eq, kept_of_swept among swept, swept.build]
  rfl

theorem delivers_writeToStdout {log : List Notice} {n : Nat} (output : outputPath? o = none)
    (returned : (writeToStdout disk o log r).status = .ok n) :
    Delivers disk o (writeToStdout disk o log r) (due disk o sources inputs) := by
  obtain ⟨u, written, -⟩ := exists_of_map_eq_ok returned
  have text := output_of_swept among swept (undisturbed_self disk inputs)
    (Act.gives_of_result written)
  rw [Delivers, output]
  exact ⟨text, rfl, rfl⟩

theorem delivers_writeToFile {log : List Notice} {n : Nat} {path : Text}
    (output : outputPath? o = some path) (apart : OutputApart disk o sources)
    (returned : (writeToFile disk o log r path).status = .ok n) :
    Delivers disk o (writeToFile disk o log r path) (due disk o sources inputs) := by
  rw [Delivers, output]
  unfold writeToFile at returned ⊢
  cases created : disk.tree.create path (disk.now + 1) with
  | error e =>
    simp only [created] at returned
    cases returned
  | ok made =>
    obtain ⟨place, opened⟩ := made
    simp only [created] at returned ⊢
    obtain ⟨u, written, -⟩ := exists_of_map_eq_ok returned
    have same := apart.undisturbed output created fun _ hq => among.subset hq
    have text := output_of_swept among swept same (Act.gives_of_result written)
    rw [text]
    exact ⟨trivial, rfl, place, opened, rfl, rfl⟩

end

/-- What a run delivers once it has scanned all roots. -/
theorem delivers_of_run {n : Nat} (returned : (run disk o).status = .ok n) :
    ∃ given sources inputs, roots o = given.map some ∧
      Build.listing disk.tree given = .ok sources ∧
      Build.listing disk.tree (given.filter o.files.contains) = .ok inputs ∧
      (OutputApart disk o sources →
        Delivers disk o (run disk o) (due disk o sources inputs)) := by
  rcases scanned : scanAll disk o { build := newBuild o } with ⟨r, log, f | u⟩
  · have run_eq : run disk o = { status := .error f, log := log, tree := disk.tree } := by
      rw [newBuild] at scanned
      simp only [run, scanned]
    rw [run_eq] at returned
    cases returned
  · obtain ⟨given, sources, inputs, given_eq, listed, named, among, swept⟩ :=
      swept_of_scanAll (Build.saw_new _) ⟨log, scanned⟩
    refine ⟨given, sources, inputs, given_eq, listed, named, fun apart => ?_⟩
    cases output : outputPath? o with
    | none =>
      have run_eq : run disk o = writeToStdout disk o log r := by
        rw [newBuild] at scanned
        simp only [run, scanned, output]
      rw [run_eq] at returned ⊢
      exact delivers_writeToStdout among swept output returned
    | some path =>
      have run_eq : run disk o = writeToFile disk o log r path := by
        rw [newBuild] at scanned
        simp only [run, scanned, output]
      rw [run_eq] at returned ⊢
      exact delivers_writeToFile among swept output apart returned

theorem answer_eq_ran_iff {args : List Text} {outcome : Outcome} :
    answer disk args = .ran o outcome ↔
      Options.parse args = .ok o ∧ o.files.isEmpty = false ∧ outcome = run disk o := by
  unfold answer
  cases Options.parse args with
  | error stop => simp
  | ok o' =>
    by_cases empty : o'.files.isEmpty = true
    · simp only [empty, if_true, reduceCtorEq, Except.ok.injEq, false_iff]
      rintro ⟨rfl, some_file, -⟩
      rw [empty] at some_file
      cases some_file
    · simp only [empty, Bool.false_eq_true, if_false, Answer.ran.injEq, Except.ok.injEq]
      constructor
      · rintro ⟨rfl, rfl⟩
        exact ⟨rfl, by simpa using empty, rfl⟩
      · rintro ⟨rfl, -, rfl⟩
        exact ⟨rfl, rfl⟩

/-- **What the command delivers.** A command line with at least one file is run, and the run comes
to its end. If the output file is none of the sources, the output is the expansions that the build
makes once all roots were scanned: those of the sources of the files in order, without the sources
whose declarations are refused or whose expansion fails. The roots that are for definitions only add
nothing, but for those that are spelled like a file: their sources are expanded as well, before the
others. -/
theorem answer_delivers (disk : Disk) (args : List Text) (o : Options) (outcome : Outcome) (n : Nat)
    (ran : answer disk args = .ran o outcome) (returned : outcome.status = .ok n) :
    ∃ others sources repeated inputs,
      roots o = (others ++ o.files).map some ∧
      Build.listing disk.tree (others ++ o.files) = .ok sources ∧
      Build.listing disk.tree (others.filter o.files.contains) = .ok repeated ∧
      Build.listing disk.tree o.files = .ok inputs ∧
      ((∀ root ∈ others, root ∉ o.files) → repeated = []) ∧
      let b := Build.surveyed disk sources (newBuild o)
      let kept := (repeated ++ inputs).filter fun path => !disk.rejects path
      let text := Build.expansions disk (!o.keepDefinitions) kept b
      (OutputApart disk o sources → Delivers disk o outcome text) ∧
      ((∀ path ∈ kept, Build.Current disk path b) →
        text = kept.flatMap fun path =>
          (Build.compile disk path (!o.keepDefinitions) b).2.result.toOption.getD []) := by
  obtain ⟨-, -, rfl⟩ := answer_eq_ran_iff.1 ran
  obtain ⟨given, sources, named, given_eq, listed, named_eq, delivers⟩ := delivers_of_run returned
  obtain ⟨others, files, rfl, others_eq, files_eq⟩ := List.map_eq_append_iff.1 given_eq.symm
  obtain rfl := List.map_injective_iff.2 (Option.some_injective _) files_eq
  rw [List.filter_append, List.filter_eq_self.2 fun root hroot => List.contains_iff_mem.2 hroot]
    at named_eq
  obtain ⟨repeated, inputs, repeated_eq, inputs_eq, rfl⟩ := Build.listing_append_iff.1 named_eq
  refine ⟨others, sources, repeated, inputs, given_eq, listed, repeated_eq, inputs_eq, ?_, delivers,
    ?_⟩
  · intro distinct
    have none_named : others.filter o.files.contains = [] :=
      List.filter_eq_nil_iff.2 fun root hroot named =>
        distinct root hroot (List.contains_iff_mem.1 named)
    rw [none_named] at repeated_eq
    exact (Except.ok.inj repeated_eq).symm
  · intro current
    exact Build.expansions_of_current ((Build.saw_new _).surveyed sources) current _

def twoSources : Disk where
  tree := {
    root := .folder [
      ("a.css".toList, .file "@mixin --m\x7bx\x7d".toUTF8 100),
      ("b.css".toList, .file "@apply --m;".toUTF8 100)] }
  now := 1000

/-- The output file of a run is new, and stands beside the sources. -/
theorem outputApart_twoSources {o : Options} (output : outputPath? o = some "out.css".toList) :
    OutputApart twoSources o ["a.css".toList, "b.css".toList] := by
  intro path place opened output' created source mem
  obtain rfl := Option.some.inj (output.symm.trans output')
  have made : twoSources.tree.create "out.css".toList (twoSources.now + 1) =
      .ok (["out.css".toList], twoSources.tree.withFile ["out.css".toList] .empty 1001) := by cbv
  obtain ⟨rfl, rfl⟩ := Prod.mk.inj (Except.ok.inj (made.symm.trans created))
  have elsewhere : ∀ name ∈ ["a.css".toList, "b.css".toList],
      (twoSources.tree.withFile ["out.css".toList] .empty 1001).resolve
        (FileTree.written (Path.normalize twoSources.tree.workdir name)) = .ok [name] :=
    List.forall_mem_cons.2 ⟨by cbv, List.forall_mem_cons.2 ⟨by cbv, List.forall_mem_nil _⟩⟩
  rw [elsewhere source mem]
  intro same
  obtain rfl : source = "out.css".toList := by simpa using same
  simp at mem

set_option maxRecDepth 10000 in
/-- The one source is scanned, and the other expanded to an output file. -/
theorem answer_delivers_toFile :
    let disk := twoSources
    let args := ["-o".toList, "out.css".toList, "-I".toList, "a.css".toList, "b.css".toList]
    let o : Options :=
      { files := ["b.css".toList], includes := [some "a.css".toList],
        output? := some "out.css".toList }
    answer disk args = .ran o (run disk o) ∧ (run disk o).status = .ok 0 ∧
      Delivers disk o (run disk o)
        (Build.expansions disk true ["b.css".toList]
          (Build.surveyed disk ["a.css".toList, "b.css".toList] (newBuild o))) ∧
      (run disk o).written? = some "x".toList := by
  intro disk args o
  have parsed : Options.parse args = .ok o := by cbv
  have ran : answer disk args = .ran o (run disk o) := answer_eq_ran_iff.2 ⟨parsed, rfl, rfl⟩
  have returned : (run disk o).status = .ok 0 := by cbv
  obtain ⟨others, sources, repeated, inputs, roots_eq, listed, repeated_eq, inputs_eq, -, delivers, -⟩ :=
    answer_delivers disk args o (run disk o) 0 ran returned
  have all_roots : ["a.css".toList] ++ o.files = others ++ o.files :=
    List.map_injective_iff.2 (Option.some_injective _) roots_eq
  obtain rfl := List.append_cancel_right all_roots
  have both : Build.listing disk.tree (["a.css".toList] ++ o.files) =
      .ok ["a.css".toList, "b.css".toList] := by cbv
  obtain rfl := Except.ok.inj (listed.symm.trans both)
  have unnamed : Build.listing disk.tree (["a.css".toList].filter o.files.contains) = .ok [] := by
    cbv
  obtain rfl := Except.ok.inj (repeated_eq.symm.trans unnamed)
  have named : Build.listing disk.tree o.files = .ok ["b.css".toList] := by cbv
  obtain rfl := Except.ok.inj (inputs_eq.symm.trans named)
  have accepted : disk.rejects "b.css".toList = false := by cbv
  have kept : (([] ++ ["b.css".toList]).filter fun path => !disk.rejects path) =
      ["b.css".toList] := by
    rw [List.nil_append, List.filter_cons_of_pos (by rw [accepted]; rfl), List.filter_nil]
  rw [kept] at delivers
  exact ⟨ran, returned, delivers (outputApart_twoSources rfl), by cbv⟩

set_option maxRecDepth 10000 in
/-- A source that is included and named as a file is written twice. -/
theorem answer_repeats_included :
    let disk := Build.loneSource ".x\x7b\x7d" 100 1000
    let args := ["-I".toList, "a.css".toList, "a.css".toList]
    (answer disk args).status = .ok 0 ∧ (answer disk args).stdout = ".x\x7b\x7d.x\x7b\x7d".toList ∧
      Build.listing disk.tree ["a.css".toList] = .ok ["a.css".toList] ∧
      (Build.compile disk "a.css".toList true
        (Build.surveyed disk ["a.css".toList, "a.css".toList] {})).2.result =
          .ok ".x\x7b\x7d".toList := by
  refine ⟨by cbv, by cbv, by cbv, by cbv⟩

end Command

end StyleExpansion
