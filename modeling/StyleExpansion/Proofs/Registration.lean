import StyleExpansion.Context
import StyleExpansion.Proofs.Extraction
import StyleExpansion.Proofs.Search

namespace StyleExpansion

namespace Table

variable {κ α : Type} [DecidableEq κ]

theorem entries_eq_of_find? {es fs : List (κ × α)} (keys : es.map Prod.fst = fs.map Prod.fst)
    (nodup : (es.map Prod.fst).Nodup)
    (same : ∀ k, (es.find? fun e => e.1 = k).map Prod.snd = (fs.find? fun e => e.1 = k).map Prod.snd) :
    es = fs := by
  induction es generalizing fs with
  | nil => exact (List.map_eq_nil_iff.1 keys.symm).symm
  | cons e es ih =>
    cases fs with
    | nil => cases keys
    | cons f fs =>
      obtain ⟨key, rest⟩ := List.cons.inj keys
      obtain ⟨new, nodup⟩ := List.nodup_cons.1 nodup
      have head : e = f := Prod.ext key (by simpa [key] using same e.1)
      subst head
      congr 1
      apply ih rest nodup
      intro k
      by_cases here : e.1 = k
      · -- The key of the head occurs in neither of the tails.
        have absent : ∀ gs : List (κ × α), gs.map Prod.fst = es.map Prod.fst →
            (gs.find? fun g => g.1 = k) = none := by
          intro gs names
          refine List.find?_eq_none.2 fun g hg => ?_
          have mem : g.1 ∈ es.map Prod.fst := names ▸ List.mem_map_of_mem hg
          simpa using fun at_k : g.1 = k => new ((here.trans at_k.symm) ▸ mem)
        rw [absent es rfl, absent fs rest.symm]
      · simpa [List.find?_cons, here] using same k

/-- A table is its keys in order and what stands under them. -/
theorem eq_of_get? {s t : Table κ α} (keys : s.keys = t.keys) (same : ∀ k, s.get? k = t.get? k) :
    s = t :=
  Table.ext (entries_eq_of_find? keys s.nodup_keys same)

end Table

namespace Registry

/-- Of several definitions of one name the last stands. -/
theorem get?_registerAll (r : Registry) (ds : List Definition) (name : Text) :
    (r.registerAll ds).get? name = (ds.reverse.find? (·.name = name)).or (r.get? name) := by
  induction ds generalizing r with
  | nil => rfl
  | cons d ds ih =>
    have step : (r.registerAll (d :: ds)).get? name = ((r.register d).registerAll ds).get? name :=
      rfl
    rw [step, ih, List.reverse_cons, List.find?_append, Option.or_assoc, register,
      Table.get?_insert]
    by_cases same : d.name = name
    · simp [same]
    · have : ¬ name = d.name := fun h => same h.symm
      simp [same, this]

/-- New names come after those that are there, in the order of their first definitions. -/
theorem keys_registerAll (r : Registry) (ds : List Definition) :
    (r.registerAll ds).keys =
      r.keys ++ ((ds.map Definition.name).filter (· ∉ r.keys)).eraseDups := by
  induction ds generalizing r with
  | nil => simp [registerAll]
  | cons d ds ih =>
    have step : (r.registerAll (d :: ds)).keys = ((r.register d).registerAll ds).keys := rfl
    rw [step, ih, register, Table.keys_insert, List.map_cons]
    by_cases old : d.name ∈ r.keys
    · simp [old]
    · have others : (ds.map Definition.name).filter (· ∉ r.keys ++ [d.name]) =
          ((ds.map Definition.name).filter (· ∉ r.keys)).filter fun n => !n == d.name := by
        rw [List.filter_filter]
        refine List.filter_congr fun n _ => ?_
        by_cases same : n = d.name <;> simp [same]
      rw [if_neg old, others, List.filter_cons_of_pos (by simpa using old), List.eraseDups_cons,
        List.append_assoc, List.singleton_append]

theorem registerAll_registerAll (r : Registry) (ds : List Definition) :
    (r.registerAll ds).registerAll ds = r.registerAll ds := by
  apply Table.eq_of_get?
  · have known : (ds.map Definition.name).filter (· ∉ (r.registerAll ds).keys) = [] := by
      rw [List.filter_eq_nil_iff]
      intro n hn
      have present : n ∈ (r.registerAll ds).keys := by
        rw [keys_registerAll, List.mem_append, List.mem_eraseDups, List.mem_filter]
        by_cases old : n ∈ r.keys
        · exact Or.inl old
        · exact Or.inr ⟨hn, by simpa using old⟩
      simpa using present
    rw [keys_registerAll, known]
    exact List.append_nil _
  · intro name
    rw [get?_registerAll, get?_registerAll]
    cases ds.reverse.find? (·.name = name) with
    | none => rfl
    | some d => rfl

end Registry

namespace Declaration

/-- The declarations of a kind that an extraction comes to: those before the first that cannot be
read. When the functions of a text cannot all be read, no mixin is come to. -/
def reached (kind : Kind) (text : Text) : List Declaration :=
  match kind with
  | .function => (scan .function text).items
  | .mixin => if (scan .function text).failure?.isSome then [] else (scan .mixin text).items

theorem isName_of_mem {kind : Kind} {offset : Nat} {s : Text} {d : Declaration}
    (h : d ∈ (scanFrom kind offset s).items) : IsName d.name := by
  obtain ⟨⟨site⟩, -⟩ := exists_site_of_mem h
  rw [site.name]
  exact site.fits.name

theorem le_start_of_mem {kind : Kind} {offset : Nat} {s : Text} {d : Declaration}
    (h : d ∈ (scanFrom kind offset s).items) : offset ≤ d.start := by
  obtain ⟨⟨site⟩, -⟩ := exists_site_of_mem h
  rw [site.start]
  exact Nat.le_add_right _ _

/-- A scan goes through a text from left to right. -/
theorem scanFrom_increasing (kind : Kind) (offset : Nat) (s : Text) :
    (scanFrom kind offset s).items.Pairwise (·.start < ·.start) := by
  fun_induction scanFrom kind offset s with
  | case1 => exact List.Pairwise.nil
  | case2 => exact List.Pairwise.nil
  | case3 offset s o found list closed none_opened ih => exact ih
  | case4 => exact List.Pairwise.nil
  | case5 offset s o found list closed opening opened bodyStart body enclosed ih =>
    refine List.pairwise_cons.2 ⟨?_, ih⟩
    intro d hd
    have later := le_start_of_mem hd
    have taken := List.length_pos_iff.2 (Reader.search_append found).2
    simp only [bodyStart, Occurrence.stop] at later
    simp only
    omega

theorem scanned_of_mem_reached {kind : Kind} {text : Text} {d : Declaration}
    (h : d ∈ reached kind text) : d ∈ (scanFrom kind 0 text).items := by
  cases kind with
  | function => exact h
  | mixin =>
    simp only [reached] at h
    split at h
    · cases h
    · exact h

theorem reached_increasing (kind : Kind) (text : Text) :
    (reached kind text).Pairwise (·.start < ·.start) := by
  cases kind with
  | function => exact scanFrom_increasing _ _ _
  | mixin =>
    simp only [reached]
    split
    · exact List.Pairwise.nil
    · exact scanFrom_increasing _ _ _

def report (text : Text) : List Notice :=
  match spans text with
  | .error _ => []
  | .ok [] => []
  | .ok (_ :: _) =>
    [.extracted (scan .function text).items.length (scan .mixin text).items.length]

end Declaration

namespace Context

@[simp] theorem registry_register_self (c : Context) (kind : Kind) (ds : List Definition) :
    (c.register kind ds).registry kind = (c.registry kind).registerAll ds := by
  cases kind <;> rfl

theorem register_nil (c : Context) (kind : Kind) : c.register kind [] = c := by
  cases kind <;> rfl

def extracted (text : Text) (c : Context) : Context :=
  (c.register .function ((Declaration.reached .function text).map Declaration.definition)).register
    .mixin ((Declaration.reached .mixin text).map Declaration.definition)

theorem extractKind_of_failure {kind : Kind} {text : Text} {e : Error}
    (h : (Declaration.scan kind text).failure? = some e) (c : Context) :
    extractKind kind text c =
      (c.register kind ((Declaration.scan kind text).items.map Declaration.definition),
        ⟨[], .error e⟩) := by
  simp only [extractKind, Scan.map, Scan.toExcept, h]

theorem extractKind_of_complete {kind : Kind} {text : Text}
    (h : (Declaration.scan kind text).failure? = none) (c : Context) :
    extractKind kind text c =
      (c.register kind ((Declaration.scan kind text).items.map Declaration.definition),
        ⟨[], .ok ((Declaration.scan kind text).items.map Declaration.span)⟩) := by
  simp only [extractKind, Scan.map, Scan.toExcept, h]

theorem extract_eq (text : Text) (c : Context) :
    extract text c = (extracted text c, ⟨Declaration.report text, Declaration.spans text⟩) := by
  rcases functions : Declaration.scan .function text with ⟨fs, _ | e⟩
  · rcases mixins : Declaration.scan .mixin text with ⟨ms, _ | e⟩
    · rw [extract_of_scans c functions mixins]
      cases fs <;> cases ms <;>
        simp [extracted, Declaration.reached, Declaration.report, Declaration.spans, functions,
          mixins, Scan.toExcept, bind, Except.bind, pure, Except.pure]
    · have failed : (Declaration.scan .mixin text).failure? = some e := by rw [mixins]
      have complete : (Declaration.scan .function text).failure? = none := by rw [functions]
      rw [extract, Act.bind_of_quiet (extractKind_of_complete complete c),
        Act.bind_of_error (extractKind_of_failure failed _)]
      simp [extracted, Declaration.reached, Declaration.report, Declaration.spans, functions,
        mixins, Scan.toExcept, bind, Except.bind]
  · have failed : (Declaration.scan .function text).failure? = some e := by rw [functions]
    rw [extract, Act.bind_of_error (extractKind_of_failure failed c)]
    simp [extracted, Declaration.reached, Declaration.report, Declaration.spans, functions,
      Scan.toExcept, bind, Except.bind, register_nil]

/-- The spans that an extraction gives are those of the declarations of the text. -/
theorem result_extract (text : Text) (c : Context) :
    (extract text c).2.result = Declaration.spans text := by
  rw [extract_eq]

theorem registry_extracted (text : Text) (c : Context) (kind : Kind) :
    (extracted text c).registry kind =
      (c.registry kind).registerAll ((Declaration.reached kind text).map Declaration.definition) := by
  cases kind <;> rfl

end Context

namespace Context

theorem compile_eq (text : Text) (blank : Bool) (c : Context) :
    compile text blank c =
      (extracted text c, (⟨Declaration.report text, Declaration.spans text⟩ : Traced Error _) >>=
        (extracted text c).render blank text) := by
  have ran := extract_eq text c
  cases found : Declaration.spans text with
  | error e =>
    rw [found] at ran
    exact Act.bind_of_error ran _
  | ok spans =>
    rw [found] at ran
    exact Act.bind_of_ok ran _

/-- A text whose declarations can be told is written with their spans. -/
theorem expandOutside_of_spans (c : Context) {text : Text} {spans : List Span}
    (found : Declaration.spans text = .ok spans) :
    c.expandOutside text none = c.render false text spans := by
  simp only [expandOutside, Option.elim, found]
  rfl

theorem extracted_extracted (text : Text) (c : Context) :
    extracted text (extracted text c) = extracted text c := by
  simp only [extracted, register, Registry.registerAll_registerAll]

/-- **Expanding is repeatable.** A second expansion of a text right after a first one, whether that
gave a text or failed, gives the same text or the same failure with the same log, and leaves the
context as the first one left it; and so does a second extraction. -/
theorem compile_again (c : Context) (text : Text) (blank : Bool) :
    compile text blank (compile text blank c).1 = compile text blank c ∧
      extract text (extract text c).1 = extract text c := by
  constructor
  · rw [compile_eq, compile_eq, extracted_extracted]
  · rw [extract_eq, extract_eq, extracted_extracted]

def extractAll (texts : List Text) (c : Context) : Context :=
  texts.foldl (fun c text => (extract text c).1) c

/-- A run of extractions registers what each of them reaches. -/
theorem registry_extractAll (texts : List Text) (c : Context) (kind : Kind) :
    (extractAll texts c).registry kind = (c.registry kind).registerAll
      ((texts.flatMap (Declaration.reached kind)).map Declaration.definition) := by
  induction texts generalizing c with
  | nil => rfl
  | cons text texts ih =>
    have step : extractAll (text :: texts) c = extractAll texts (extracted text c) := by
      rw [extractAll, List.foldl_cons, extract_eq]
      rfl
    rw [step, ih, registry_extracted, List.flatMap_cons, List.map_append]
    exact (List.foldl_append ..).symm

/-- **The last declaration stands.** After any run of extractions from empty registries, each of
which may fail, the names of a registry are distinct, and they are those of the declarations that
were reached, in the order in which each was first declared. Under a name stands the definition of
its last declaration, in the order of the texts and, within a text, of the offsets. All names are
well formed and all bodies balanced. -/
theorem extractAll_registers (ceiling : Int) (strict : Bool) (texts : List Text) (kind : Kind) :
    let registry := (extractAll texts { maxDepth := ceiling, strict := strict }).registry kind
    let declared := texts.flatMap (Declaration.reached kind)
    registry.keys.Nodup ∧
      registry.keys = (declared.map Declaration.name).eraseDups ∧
      (∀ name, registry.get? name =
        (declared.reverse.find? (·.name = name)).map Declaration.definition) ∧
      (∀ text ∈ texts, (Declaration.reached kind text).Pairwise (·.start < ·.start)) ∧
      (∀ name ∈ registry.keys, IsName name) ∧ ∀ d ∈ registry.values, Balanced d.body := by
  intro registry declared
  have whole : registry = Registry.registerAll .empty (declared.map Declaration.definition) := by
    have start : ({ maxDepth := ceiling, strict := strict } : Context).registry kind = .empty := by
      cases kind <;> rfl
    simp only [registry, registry_extractAll, start, declared]
  have names : (declared.map Declaration.definition).map Definition.name =
      declared.map Declaration.name := by
    rw [List.map_map]
    rfl
  have keys : registry.keys = (declared.map Declaration.name).eraseDups := by
    rw [whole, Registry.keys_registerAll, names]
    simp [Table.keys, Table.empty]
  have origin : ∀ d ∈ declared, ∃ text, d ∈ (Declaration.scanFrom kind 0 text).items := by
    intro d hd
    obtain ⟨text, _, mem⟩ := List.mem_flatMap.1 hd
    exact ⟨text, Declaration.scanned_of_mem_reached mem⟩
  refine ⟨registry.nodup_keys, keys, ?_, fun text _ => Declaration.reached_increasing kind text,
    ?_, ?_⟩
  · intro name
    rw [whole, Registry.get?_registerAll, ← List.map_reverse, List.find?_map]
    exact Option.or_none
  · intro name hname
    rw [keys, List.mem_eraseDups] at hname
    obtain ⟨d, hd, rfl⟩ := List.mem_map.1 hname
    obtain ⟨text, scanned⟩ := origin d hd
    exact Declaration.isName_of_mem scanned
  · intro d hd
    rw [whole] at hd
    rcases mem_values_registerAll hd with none_there | mem
    · cases none_there
    · obtain ⟨e, he, rfl⟩ := List.mem_map.1 mem
      obtain ⟨text, scanned⟩ := origin e he
      exact (Declaration.body_balanced_of_mem scanned).1

end Context

end StyleExpansion
