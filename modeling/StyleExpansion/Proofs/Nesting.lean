import StyleExpansion.Proofs.Preambles
import StyleExpansion.Proofs.Registration

namespace StyleExpansion

namespace Span

def Disjoint (a b : Span) : Prop := a.stop ≤ b.start ∨ b.stop ≤ a.start

def Within (a b : Span) : Prop := b.start ≤ a.start ∧ a.stop ≤ b.stop

/-- The spans do not cross. -/
def Nested (a b : Span) : Prop := a.Disjoint b ∨ a.Within b ∨ b.Within a

theorem Nested.symm {a b : Span} (h : a.Nested b) : b.Nested a := by
  rcases h with apart | within | within
  · exact .inl apart.symm
  · exact .inr (.inr within)
  · exact .inr (.inl within)

instance (a b : Span) : Decidable (a.Nested b) :=
  inferInstanceAs (Decidable ((_ ∨ _) ∨ (_ ∧ _) ∨ (_ ∧ _)))

end Span

/-- A balanced text does not go past a bracket that closes what was opened before it. -/
theorem Balanced.prefix_of_closing {t u z : Text} {c : Char} (balanced : Balanced t)
    (sealing : Sealed 0 u) (closes : isClosing c) (stands : t <+: u ++ c :: z) : t <+: u := by
  obtain ⟨w, cut⟩ := stands
  rcases List.append_eq_append_iff.1 cut with ⟨r, rfl, -⟩ | ⟨r, rfl, behind⟩
  · exact List.prefix_append t r
  · cases r with
    | nil => simp
    | cons _ r =>
      obtain ⟨rfl, -⟩ := List.cons_eq_cons.1 behind
      -- With the closing bracket the text would fall below the depth it starts at.
      have up := balanced.2 (u ++ [c]) ⟨r, by simp⟩
      have down := sealing u (List.suffix_refl u)
      rw [bracketDepth_append, bracketDepth_cons, bracketDepth_nil,
        bracketWeight_of_isClosing closes] at up
      omega

/-- A balanced text that starts within or behind a bracketed one ends within it or starts behind its
closing bracket. -/
theorem Balanced.within_or_behind {inner rest m t z : Text} {c : Char} (inside : Balanced inner)
    (closes : isClosing c) (balanced : Balanced t) (other : t.head? = some '@')
    (cut : inner ++ c :: rest = m ++ (t ++ z)) :
    m.length + t.length ≤ inner.length ∨ ∃ n, m = inner ++ c :: n ∧ rest = n ++ (t ++ z) := by
  rcases List.append_eq_append_iff.1 cut with ⟨n, rfl, behind⟩ | ⟨y, rfl, ahead⟩
  · cases n with
    | nil =>
      have first := congrArg List.head? behind
      rw [List.nil_append, List.head?_append, other] at first
      obtain rfl : c = '@' := Option.some.inj first
      exact absurd closes (by decide)
    | cons c' n =>
      obtain ⟨rfl, rest_eq⟩ := List.cons_eq_cons.1 behind
      exact .inr ⟨n, rfl, rest_eq⟩
  · have sealing : Sealed 0 y :=
      (inside.sealed (Int.le_refl 0)).suffix (List.suffix_append m y)
    have stands : t <+: y ++ c :: rest := ⟨z, ahead⟩
    have ends := (balanced.prefix_of_closing sealing closes stands).length_le
    rw [List.length_append]
    exact .inl (by omega)

/-- A text without an at sign stands before whatever starts with one. -/
theorem exists_behind {s rest m w : Text} (absent : '@' ∉ s) (first : w.head? = some '@')
    (cut : s ++ rest = m ++ w) : ∃ n, m = s ++ n ∧ rest = n ++ w := by
  rcases List.append_eq_append_iff.1 cut with ⟨n, rfl, behind⟩ | ⟨y, rfl, ahead⟩
  · exact ⟨n, rfl, behind⟩
  · cases y with
    | nil => exact ⟨[], by simp, by simpa using ahead.symm⟩
    | cons c y =>
      rw [ahead] at first
      obtain rfl : c = '@' := Option.some.inj first
      simp at absent

namespace Declaration

namespace Preamble
variable {kind : Kind} {p : Preamble}

theorem Fits.head_plain (h : p.Fits kind) : ∀ c ∈ p.head kind, isPlain c := by
  obtain ⟨t, head, chars⟩ := h.head_chars
  rw [head]
  rintro c (_ | ⟨_, mem⟩)
  · rfl
  · rcases chars c mem with blank | named
    · exact isPlain_of_isBlank blank
    · exact isPlain_of_isNameChar named

theorem Fits.list_balanced (h : p.Fits kind) : Balanced p.list := by
  cases given : p.list? with
  | none =>
    rw [list, given]
    exact balanced_nil
  | some l =>
    obtain ⟨balanced, closes⟩ := h.closed l given
    rw [list, given]
    exact balanced.bracketed rfl closes

/-- The at sign of a declaration is the only one of its header. -/
theorem Fits.exists_behind_head (h : p.Fits kind) {rest m w : Text} (some_between : m ≠ [])
    (first : w.head? = some '@') (cut : p.head kind ++ rest = m ++ w) :
    ∃ n, m = p.head kind ++ n ∧ rest = n ++ w := by
  obtain ⟨t, head, chars⟩ := h.head_chars
  have absent : '@' ∉ t := fun mem => absurd (chars '@' mem) (by decide)
  obtain ⟨c, m, rfl⟩ := List.exists_cons_of_ne_nil some_between
  rw [head, List.cons_append, List.cons_append] at cut
  obtain ⟨rfl, tails⟩ := List.cons_eq_cons.1 cut
  obtain ⟨n, rfl, behind⟩ := exists_behind absent first tails
  exact ⟨n, by rw [head, List.cons_append], behind⟩

/-- Only a return annotation can have brackets. -/
theorem IsLead.plain {s : Text} (h : IsLead .mixin s) : ∀ c ∈ s, isPlain c := by
  obtain ⟨blank, annotated, rfl, all, rfl | ⟨mixin, -⟩⟩ := h
  · intro c hc
    rw [List.append_nil] at hc
    exact isPlain_of_isBlank (all c hc)
  · cases mixin

end Preamble

/-- What stands in the text between the list of parameters of a declaration and the brace of its
body. -/
def annotationIn (text : Text) (d : Declaration) : Text :=
  ((text.slice d.start (d.bodyStart - 1)).dropWhile (· ≠ '(')).drop (d.params.length + 2)

namespace Site
variable {offset : Nat} {s : Text} {d e : Declaration}

def text (site : Site offset s d) : Text :=
  site.preamble.print d.kind ++ (d.body ++ [site.closer])

theorem whole_text (site : Site offset s d) : s = site.before ++ (site.text ++ site.behind) := by
  conv_lhs => rw [site.whole]
  simp [text]

theorem head?_text (site : Site offset s d) : site.text.head? = some '@' := by
  obtain ⟨t, head, -⟩ := site.fits.head_chars
  simp [text, Preamble.print, head]

/-- The text behind the start of the declaration, part by part. -/
theorem text_append (site : Site offset s d) (z : Text) :
    site.text ++ z = site.preamble.head d.kind ++ (site.preamble.list ++
      (site.preamble.lead ++ '{' :: (d.body ++ site.closer :: z))) := by
  simp [text, Preamble.print]

theorem bodyEnd_eq (site : Site offset s d) :
    d.bodyEnd + 1 = d.start + site.text.length := by
  rw [bodyEnd, site.bodyStart, site.start, text]
  simp only [List.length_append, List.length_singleton]
  omega

theorem balanced_text (site : Site offset s d) (plain : ∀ c ∈ site.preamble.lead, isPlain c) :
    Balanced site.text := by
  have parts := site.text_append []
  have body := site.balanced.bracketed (o := '{') rfl site.closes
  rw [List.append_nil] at parts
  rw [parts]
  exact (balanced_of_plain site.fits.head_plain).append
    (site.fits.list_balanced.append ((balanced_of_plain plain).append body))

theorem annotationIn_eq (site : Site 0 s d) : d.annotationIn s = site.preamble.lead := by
  have parts := site.text_append site.behind
  have whole := site.whole_text
  have start := site.start
  have bodyStart := site.bodyStart
  have fits := site.fits
  have params := site.params
  generalize site.preamble = p at *
  generalize site.before = before at *
  rw [parts] at whole
  have cut : s.slice d.start (d.bodyStart - 1) = p.head d.kind ++ (p.list ++ p.lead) := by
    have stop : d.bodyStart - 1 = (before ++ (p.head d.kind ++ (p.list ++ p.lead))).length := by
      rw [bodyStart]
      simp only [Preamble.print, List.length_append, List.length_singleton]
      omega
    have around : s = before ++ (p.head d.kind ++ (p.list ++ p.lead)) ++
        '{' :: (d.body ++ site.closer :: site.behind) := by
      conv_lhs => rw [whole]
      simp
    rw [stop, start, Nat.zero_add]
    exact (congrArg (Text.slice · _ _) around).trans (Text.slice_append _ _ _)
  have before_list : ∀ c ∈ p.head d.kind, decide (c ≠ '(') = true := by
    intro c hc
    refine decide_eq_true fun opens => ?_
    have plain := fits.head_plain c hc
    rw [opens] at plain
    exact absurd plain (by decide)
  rw [annotationIn, cut, List.dropWhile_append_of_pos before_list, params]
  cases given : p.list? with
  | none => simp [Preamble.list, given, (fits.bare given).2]
  | some l => simp [Preamble.list, Preamble.params, given]

/-- A declaration that starts in the annotation of another one is a mixin without parameters, and
they have one body. -/
theorem length_text_of_annotation (site : Site offset s d) {y body m z : Text} {closer : Char}
    (plain : ∀ c ∈ y, isPlain c) (balanced : Balanced body) (closes : isClosing closer)
    (cut : site.text ++ z = y ++ '{' :: (body ++ closer :: m)) :
    site.text.length = y.length + (body.length + 2) := by
  rw [text_append] at cut
  have behind := site.fits.head?_behind (d.body ++ site.closer :: z)
  rw [List.append_assoc] at behind
  have stops : ∀ c ∈ (site.preamble.list ++ (site.preamble.lead ++
      '{' :: (d.body ++ site.closer :: z))).head?, isPlain c = false := by
    rw [behind]
    intro c hc
    obtain rfl := Option.some.inj hc
    split <;> rfl
  -- The bracket that comes first is the brace, on either side.
  obtain ⟨taken, left⟩ := takeWhile_append_of_head site.fits.head_plain stops
  obtain ⟨taken', left'⟩ := takeWhile_append_of_head (s := '{' :: (body ++ closer :: m)) plain
    fun c hc => by
      obtain rfl : '{' = c := Option.some.inj hc
      rfl
  rw [cut, taken'] at taken
  rw [cut, left'] at left
  rw [← left] at behind
  cases given : site.preamble.list? with
  | some l =>
    rw [given] at behind
    cases behind
  | none =>
    have bare := (site.fits.bare given).2
    rw [Preamble.list, given, bare] at left
    obtain ⟨-, bodies⟩ := List.cons_eq_cons.1 left
    have found : enclosed? (body ++ closer :: m) = some ⟨body, closer, m⟩ :=
      enclosed?_balanced balanced closes
    rw [bodies] at found
    rw [enclosed?_balanced site.balanced site.closes] at found
    obtain ⟨rfl, -, -⟩ := Block.mk.inj (Option.some.inj found)
    rw [text, Preamble.print, Preamble.list, given, bare, ← taken]
    simp

/-- The list of parameters, with its brackets, keeps what starts in it. -/
theorem list_within_or_behind (site : Site offset s d) {rest m t z : Text} (balanced : Balanced t)
    (first : t.head? = some '@') (cut : site.preamble.list ++ rest = m ++ (t ++ z)) :
    m.length + t.length ≤ site.preamble.list.length ∨
      ∃ n, m = site.preamble.list ++ n ∧ rest = n ++ (t ++ z) := by
  cases given : site.preamble.list? with
  | none => exact .inr ⟨m, by simp [Preamble.list, given], by simpa [Preamble.list, given] using cut⟩
  | some l =>
    obtain ⟨inside, closes⟩ := site.fits.closed l given
    have list : site.preamble.list = '(' :: (l.1 ++ [l.2]) := by simp [Preamble.list, given]
    have from_at : (t ++ z).head? = some '@' := by rw [List.head?_append, first]; rfl
    rw [list] at cut ⊢
    rw [List.cons_append, List.append_assoc] at cut
    obtain ⟨m', rfl, behind⟩ := exists_behind (s := ['(']) (by decide) from_at cut
    rcases inside.within_or_behind closes balanced first behind with within | ⟨n, rfl, rest_eq⟩
    · left
      simp only [List.length_append, List.length_cons, List.length_nil]
      omega
    · exact .inr ⟨n, by simp, rest_eq⟩

/-- **A declaration that starts later** starts behind this one or ends within it. -/
theorem within_or_behind (outer : Site offset s d) (inner : Site offset s e)
    (outer_plain : ∀ c ∈ outer.preamble.lead, isPlain c)
    (inner_plain : ∀ c ∈ inner.preamble.lead, isPlain c) (later : d.start < e.start) :
    d.bodyEnd + 1 ≤ e.start ∨ e.bodyEnd + 1 ≤ d.bodyEnd + 1 := by
  have balanced := inner.balanced_text inner_plain
  have first := inner.head?_text
  have from_at : (inner.text ++ inner.behind).head? = some '@' := by
    rw [List.head?_append, first]
    rfl
  obtain ⟨m, place, cut⟩ : ∃ m, inner.before = outer.before ++ m ∧
      outer.text ++ outer.behind = m ++ (inner.text ++ inner.behind) := by
    have starts := outer.start
    have starts' := inner.start
    rcases List.append_eq_append_iff.1 (outer.whole_text.symm.trans inner.whole_text) with
      ⟨m, place, cut⟩ | ⟨m, place, -⟩
    · exact ⟨m, place, cut⟩
    · have := congrArg List.length place
      rw [List.length_append] at this
      omega
  have start : e.start = d.start + m.length := by
    rw [inner.start, outer.start, place, List.length_append]
    omega
  have length : outer.text.length = (outer.preamble.head d.kind).length +
      outer.preamble.list.length + outer.preamble.lead.length + d.body.length + 2 := by
    simp only [text, Preamble.length_print, List.length_append, List.length_singleton]
    omega
  rw [outer.bodyEnd_eq, inner.bodyEnd_eq, start, length]
  rw [outer.text_append] at cut
  have some_between : m ≠ [] := by
    rintro rfl
    rw [List.length_nil] at start
    omega
  obtain ⟨m, rfl, behind_head⟩ := outer.fits.exists_behind_head some_between from_at cut
  rcases outer.list_within_or_behind balanced first behind_head with within | ⟨m, rfl, behind_list⟩
  · rw [List.length_append]
    omega
  rcases List.append_eq_append_iff.1 behind_list with ⟨m, rfl, brace⟩ | ⟨y, lead, inside⟩
  · -- It starts at the brace or behind that.
    obtain ⟨m, rfl, body⟩ := exists_behind (s := ['{']) (by decide) from_at brace
    simp only [List.length_append, List.length_singleton]
    rcases outer.balanced.within_or_behind outer.closes balanced first body with within | ⟨n, rfl, -⟩
    · omega
    · simp only [List.length_append, List.length_cons]
      omega
  · have plain : ∀ c ∈ y, isPlain c := fun c hc => outer_plain c (by simp [lead, hc])
    have ends := inner.length_text_of_annotation plain outer.balanced outer.closes inside
    simp only [List.length_append, lead, ends]
    omega

end Site

/-- Of one kind, only one declaration starts at an offset. -/
theorem eq_of_start_eq {kind : Kind} {offset : Nat} {s : Text} {d e : Declaration}
    (hd : d ∈ (scanFrom kind offset s).items) (he : e ∈ (scanFrom kind offset s).items)
    (same : d.start = e.start) : d = e := by
  have apart : ((scanFrom kind offset s).items.map start).Nodup :=
    (List.pairwise_map.2 (scanFrom_increasing kind offset s)).imp Nat.ne_of_lt
  exact List.inj_on_of_nodup_map apart hd he same

/-- What starts at one offset is of one kind. -/
theorem Site.kind_eq {offset : Nat} {s : Text} {d e : Declaration} (a : Site offset s d)
    (b : Site offset s e) (same : d.start = e.start) : d.kind = e.kind := by
  have whole := a.whole.symm.trans b.whole
  have starts := a.start
  have starts' := b.start
  have behind := (List.append_inj whole (by omega)).2
  simp only [Preamble.print, Preamble.head, List.append_assoc] at behind
  cases hd : d.kind <;> cases he : e.kind
  · rfl
  · simp [hd, he, Kind.keyword, Kind.label] at behind
  · simp [hd, he, Kind.keyword, Kind.label] at behind
  · rfl

theorem Site.nested_of_lt {offset : Nat} {s : Text} {d e : Declaration} (a : Site offset s d)
    (b : Site offset s e) (a_plain : ∀ c ∈ a.preamble.lead, isPlain c)
    (b_plain : ∀ c ∈ b.preamble.lead, isPlain c) (later : d.start < e.start) :
    d.span.Nested e.span := by
  rcases a.within_or_behind b a_plain b_plain later with behind | within
  · refine .inl (.inl ?_)
    simp only [span]
    omega
  · refine .inr (.inr ⟨?_, ?_⟩)
    · simp only [span]
      omega
    · simp only [span]
      omega

/-- **Declarations are nested or apart.** Where both scans of a text come to its end and no return
annotation of a function has a bracket, no two declarations cross, of whatever kinds they are. The
spans of each kind are in the order of their starts, and no two have one start. -/
theorem spans_nested {text : Text} {found : List Span} (declared : spans text = .ok found)
    (plain : ∀ d ∈ (scan .function text).items, ∀ c ∈ d.annotationIn text, isPlain c) :
    (∀ a ∈ found, ∀ b ∈ found, a.Nested b) ∧
      found = (scan .function text).items.map span ++ (scan .mixin text).items.map span ∧
      ∀ kind, ((scan kind text).items.map span).Pairwise (·.start < ·.start) := by
  refine ⟨fun a ha b hb => ?_, eq_of_spans declared, fun kind => ?_⟩
  · obtain ⟨kind, d, hd, rfl⟩ := exists_of_mem_spans declared ha
    obtain ⟨kind', e, he, rfl⟩ := exists_of_mem_spans declared hb
    -- Neither has a bracket between its list and its brace.
    have lead_plain {kind : Kind} {d : Declaration} (mem : d ∈ (scan kind text).items)
        (site : Site 0 text d) : ∀ c ∈ site.preamble.lead, isPlain c := by
      obtain ⟨-, same⟩ := exists_site_of_mem mem
      cases kind with
      | function =>
        rw [← site.annotationIn_eq]
        exact plain d mem
      | mixin => exact Preamble.IsLead.plain (same ▸ site.fits.lead)
    obtain ⟨⟨site⟩, same⟩ := exists_site_of_mem hd
    obtain ⟨⟨site'⟩, same'⟩ := exists_site_of_mem he
    rcases Nat.lt_trichotomy d.start e.start with earlier | together | later
    · exact site.nested_of_lt site' (lead_plain hd site) (lead_plain he site') earlier
    · have kinds := site.kind_eq site' together
      rw [same, same'] at kinds
      subst kinds
      rw [eq_of_start_eq hd he together]
      exact .inr (.inl ⟨Int.le_refl _, Int.le_refl _⟩)
    · exact (site'.nested_of_lt site (lead_plain he site') (lead_plain hd site) later).symm
  · refine List.pairwise_map.2 ((scanFrom_increasing kind 0 text).imp ?_)
    intro d e before
    simpa [span] using before

/-- A function with a mixin among its parameters, one that starts in its annotation and takes its
body, and one in that body. -/
def threeMixins : Text :=
  ("@function --f(@mixin --p \x7b\x7d) returns @mixin --a " ++
    "\x7b @mixin --b \x7b\x7d result: 1 \x7d @mixin --c \x7b\x7d").toList

def threeSpans : List Span := [⟨0, 75⟩, ⟨14, 27⟩, ⟨37, 75⟩, ⟨50, 63⟩, ⟨76, 89⟩]

theorem spans_nested_threeMixins :
    spans threeMixins = .ok threeSpans ∧
    (∀ d ∈ (scan .function threeMixins).items, ∀ c ∈ d.annotationIn threeMixins, isPlain c) ∧
    ∀ a ∈ threeSpans, ∀ b ∈ threeSpans, a.Nested b := by
  have declared : spans threeMixins = .ok threeSpans := by decide +kernel
  have leads : (scan .function threeMixins).items.map (·.annotationIn threeMixins) =
      [" returns @mixin --a ".toList] := by
    decide +kernel
  have plain : ∀ d ∈ (scan .function threeMixins).items, ∀ c ∈ d.annotationIn threeMixins,
      isPlain c := by
    intro d mem
    have lead := List.mem_map_of_mem (f := (·.annotationIn threeMixins)) mem
    rw [leads, List.mem_singleton] at lead
    rw [lead]
    exact List.all_eq_true.1 rfl
  exact ⟨declared, plain, (spans_nested declared plain).1⟩

/-- With a bracket in its annotation, a function may end within a mixin that starts there. -/
theorem spans_cross_bracketed :
    spans "@function --f() returns (@mixin --m(\x7b\x7d) \x7b\x7d".toList = .ok [⟨0, 38⟩, ⟨25, 42⟩] ∧
      ¬ (⟨0, 38⟩ : Span).Nested ⟨25, 42⟩ := by
  decide +kernel

end Declaration

end StyleExpansion
