import StyleExpansion.Context
import StyleExpansion.Proofs.Preambles

namespace StyleExpansion

namespace Declaration

theorem scanFrom_complete (kind : Kind) (offset : Nat) {s : Text} (sealing : Sealed 0 s) :
    (scanFrom kind offset s).failure? = none := by
  cases failed : (scanFrom kind offset s).failure? with
  | none => rfl
  | some e =>
    obtain ⟨n, -, unclosed⟩ := exists_openAt_of_failure failed
    exact absurd unclosed (not_openAt_of_sealed sealing n)

theorem body_balanced_of_mem {kind : Kind} {offset : Nat} {s : Text} {d : Declaration}
    (h : d ∈ (scanFrom kind offset s).items) : Balanced d.body ∧ d.kind = kind := by
  obtain ⟨⟨site⟩, same⟩ := exists_site_of_mem h
  exact ⟨site.balanced, same⟩

/-- Where the spans of a text are given, both scans came to its end. -/
theorem complete_of_spans {text : Text} {found : List Span} (h : spans text = .ok found)
    (kind : Kind) : scan kind text = ⟨(scan kind text).items, none⟩ := by
  simp only [spans, Scan.toExcept] at h
  rcases functions : scan .function text with ⟨fs, _ | e⟩
  · rcases mixins : scan .mixin text with ⟨ms, _ | e⟩
    · cases kind with
      | function => rw [functions]
      | mixin => rw [mixins]
    · simp [functions, mixins, bind, Except.bind] at h
  · simp [functions, bind, Except.bind] at h

/-- The spans of a text are those of the functions and, behind these, of the mixins. -/
theorem eq_of_spans {text : Text} {found : List Span} (h : spans text = .ok found) :
    found = (scan .function text).items.map span ++ (scan .mixin text).items.map span := by
  have functions := complete_of_spans h .function
  have mixins := complete_of_spans h .mixin
  unfold spans at h
  rw [functions, mixins] at h
  exact (Except.ok.inj h).symm

/-- The spans of a text are those of the declarations that the two scans find. -/
theorem exists_of_mem_spans {text : Text} {found : List Span} (h : spans text = .ok found)
    {s : Span} (mem : s ∈ found) : ∃ kind, ∃ d ∈ (scan kind text).items, d.span = s := by
  rw [eq_of_spans h] at mem
  rcases List.mem_append.1 mem with mem | mem
  · exact ⟨.function, List.mem_map.1 mem⟩
  · exact ⟨.mixin, List.mem_map.1 mem⟩

end Declaration

theorem Table.mem_insertEntry {κ α : Type} [DecidableEq κ] {k : κ} {a : α} {es : List (κ × α)}
    {e : κ × α} (h : e ∈ insertEntry k a es) : e = (k, a) ∨ e ∈ es := by
  induction es with
  | nil => exact Or.inl (List.mem_singleton.1 h)
  | cons f es ih =>
    rw [insertEntry] at h
    split at h
    · rcases List.mem_cons.1 h with same | h
      · exact Or.inl same
      · exact Or.inr (List.mem_cons_of_mem f h)
    · rcases List.mem_cons.1 h with same | h
      · exact Or.inr (same ▸ List.mem_cons_self)
      · exact (ih h).imp id (List.mem_cons_of_mem f)

theorem mem_values_registerAll {r : Registry} {ds : List Definition} {d : Definition}
    (h : d ∈ (r.registerAll ds).values) : d ∈ r.values ∨ d ∈ ds := by
  induction ds generalizing r with
  | nil => exact Or.inl h
  | cons e ds ih =>
    rcases ih (r := r.register e) h with mem | mem
    · obtain ⟨entry, inserted, rfl⟩ := List.mem_map.1 mem
      rcases Table.mem_insertEntry inserted with rfl | kept
      · exact Or.inr List.mem_cons_self
      · exact Or.inl (List.mem_map_of_mem kept)
    · exact Or.inr (List.mem_cons_of_mem e mem)

namespace Context

/-- Extraction after two complete scans: the definitions are registered, those of functions first,
and the spans are given in the same order. -/
theorem extract_of_scans (c : Context) {text : Text} {functions mixins : List Declaration}
    (hf : Declaration.scan .function text = ⟨functions, none⟩)
    (hm : Declaration.scan .mixin text = ⟨mixins, none⟩) :
    extract text c =
      ((c.register .function (functions.map Declaration.definition)).register .mixin
          (mixins.map Declaration.definition),
        ⟨if functions.isEmpty && mixins.isEmpty then []
          else [.extracted functions.length mixins.length],
          .ok (functions.map Declaration.span ++ mixins.map Declaration.span)⟩) := by
  simp only [extract, bind, Act.bind, extractKind, hf, hm, Scan.map, Scan.toExcept]
  cases functions <;> cases mixins <;> simp [pure, Act.bind, Act.note, Traced.note]

end Context

end StyleExpansion
