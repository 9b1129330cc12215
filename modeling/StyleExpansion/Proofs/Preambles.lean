import StyleExpansion.Declaration
import StyleExpansion.Proofs.Locality

namespace StyleExpansion

namespace Declaration

/-- Behind its first character, a header is made of blanks and of characters of names. -/
theorem readHeader?_chars {kind : Kind} {s : Text} {r : Reading Text}
    (h : readHeader? kind s = some r) :
    ∃ t, r.lexeme = '@' :: t ∧ ∀ c ∈ t, isBlank c ∨ isNameChar c := by
  unfold readHeader? at h
  split at h
  · cases h
  · rename_i a at_rule
    split at h
    · cases h
    · obtain rfl := Option.some.inj h
      obtain ⟨gap, spelled, -, blank, name, -⟩ := readAtRule?_parts at_rule
      have label : ∀ c ∈ kind.label, isNameChar c := by
        cases kind <;> exact List.all_eq_true.1 rfl
      refine ⟨kind.label ++ gap ++ a.value ++ Text.blanks a.rest, ?_, ?_⟩
      · rw [spelled]
        rfl
      · intro c hc
        simp only [List.mem_append] at hc
        rcases hc with ((hc | hc) | hc) | hc
        · exact .inr (label c hc)
        · exact .inl (blank c hc)
        · exact .inr (name.isNameChar c hc)
        · exact .inl (List.mem_takeWhile_imp hc)

/-- What stands before the body of a declaration. -/
structure Preamble where
  /-- The blanks behind the keyword. -/
  gap : Text
  name : Text
  /-- The blanks behind the name. -/
  space : Text
  /-- The list of parameters and the bracket that closes it. -/
  list? : Option (Text × Char)
  /-- What stands between the list and the opening brace. -/
  lead : Text
deriving DecidableEq, Repr

namespace Preamble

def head (kind : Kind) (p : Preamble) : Text := kind.keyword ++ p.gap ++ p.name ++ p.space

def params (p : Preamble) : Text := p.list?.elim [] Prod.fst

def list (p : Preamble) : Text := p.list?.elim [] fun l => '(' :: l.1 ++ [l.2]

def print (kind : Kind) (p : Preamble) : Text := p.head kind ++ p.list ++ p.lead ++ ['{']

/-- A return annotation: the word for it, which ends there, and no opening brace and no semicolon.
-/
def IsAnnotation (s : Text) : Prop :=
  ∃ type, s = returnsWord ++ type ∧ (∀ c ∈ type.head?, isWord c = false) ∧ '{' ∉ type ∧ ';' ∉ type

/-- Blanks, and for a function a return annotation behind them. -/
def IsLead (kind : Kind) (s : Text) : Prop :=
  ∃ blank behind, s = blank ++ behind ∧ (∀ c ∈ blank, isBlank c) ∧
    (behind = [] ∨ kind = .function ∧ IsAnnotation behind)

/-- What is asked of a preamble. Only a mixin can do without a list of parameters, and then the
brace follows the blanks behind the name. -/
structure Fits (kind : Kind) (p : Preamble) : Prop where
  gap_ne_nil : p.gap ≠ []
  gap_blank : ∀ c ∈ p.gap, isBlank c
  name : IsName p.name
  space_blank : ∀ c ∈ p.space, isBlank c
  closed : ∀ l ∈ p.list?, Balanced l.1 ∧ isClosing l.2
  bare : p.list? = none → kind = .mixin ∧ p.lead = []
  lead : IsLead kind p.lead

variable {kind : Kind} {p : Preamble}

/-- Behind the blanks comes the list or the brace. -/
theorem Fits.head?_behind (h : p.Fits kind) (s : Text) :
    (p.list ++ p.lead ++ '{' :: s).head? = some (if p.list?.isSome then '(' else '{') := by
  cases given : p.list? with
  | none => simp [list, given, (h.bare given).2]
  | some l => simp [list, given]

theorem Fits.readHeader?_print (h : p.Fits kind) (s : Text) :
    readHeader? kind (p.print kind ++ s) =
      some ⟨p.name, p.head kind, p.list ++ p.lead ++ '{' :: s⟩ := by
  have stops : ∀ c ∈ (p.list ++ p.lead ++ '{' :: s).head?,
      isBlank c = false ∧ isNameChar c = false := by
    rw [h.head?_behind]
    intro c hc
    obtain rfl := Option.some.inj hc
    split <;> decide
  have ends : EndsName (p.space ++ (p.list ++ p.lead ++ '{' :: s)) := by
    cases space : p.space with
    | nil => exact fun c hc => (stops c hc).2
    | cons c t => exact endsName_cons (not_isNameChar_of_isBlank (h.space_blank c (by simp [space]))) _
  obtain ⟨gap, behind⟩ := takeWhile_append_of_head h.gap_blank
    (h.name.head_not_isBlank (p.space ++ (p.list ++ p.lead ++ '{' :: s)))
  obtain ⟨space, rest⟩ := takeWhile_append_of_head h.space_blank fun c hc => (stops c hc).1
  have text : p.print kind ++ s =
      kind.keyword ++ (p.gap ++ (p.name ++ (p.space ++ (p.list ++ p.lead ++ '{' :: s)))) := by
    simp [print, head]
  have at_rule : readAtRule? kind.keyword (p.print kind ++ s) =
      some ⟨p.name, kind.keyword ++ p.gap ++ p.name, p.space ++ (p.list ++ p.lead ++ '{' :: s)⟩ := by
    rw [text, readAtRule?, Text.after?_append]
    simp only [Text.blanks, Text.afterBlanks, gap, behind, List.isEmpty_iff, h.gap_ne_nil, if_false,
      readName?_name h.name ends, Option.map_some]
  have list_next : ¬ (kind = .function ∧ (p.list ++ p.lead ++ '{' :: s).head? ≠ some '(') := by
    rintro ⟨rfl, other⟩
    cases given : p.list? with
    | none => cases (h.bare given).1
    | some l =>
      rw [h.head?_behind, given] at other
      exact other rfl
  rw [readHeader?, at_rule]
  simp only [Text.blanks, Text.afterBlanks, space, rest, list_next, if_false]
  rfl

theorem Fits.head_chars (h : p.Fits kind) :
    ∃ t, p.head kind = '@' :: t ∧ ∀ c ∈ t, isBlank c ∨ isNameChar c :=
  readHeader?_chars (h.readHeader?_print [])

theorem Fits.read_list (h : p.Fits kind) (offset : Nat) (s : Text) :
    Group.read '(' offset (p.list ++ p.lead ++ '{' :: s) =
      .ok ⟨p.list?.map Prod.fst, p.list.length, p.lead ++ '{' :: s⟩ := by
  cases given : p.list? with
  | none => simp [list, given, (h.bare given).2, Group.read]
  | some l =>
    obtain ⟨balanced, closes⟩ := h.closed l given
    have text : p.list ++ p.lead ++ '{' :: s = '(' :: (l.1 ++ l.2 :: (p.lead ++ '{' :: s)) := by
      simp [list, given]
    rw [text, Group.read_closed balanced closes]
    simp [list, given]

end Preamble

theorem annotation_print {kind : Kind} {s : Text}
    (h : s = [] ∨ kind = .function ∧ Preamble.IsAnnotation s) (rest : Text) :
    annotation kind (s ++ '{' :: rest) = s := by
  rcases h with rfl | ⟨rfl, type, rfl, apart, brace, semicolon⟩
  · have absent : Text.after? returnsWord ('{' :: rest) = none := Text.after?_cons_of_ne (by decide)
    simp [absent, annotation]
  · have inside : ∀ c ∈ type, (c != '{' && c != ';') = true := by
      intro c hc
      have left : c ≠ '{' := fun same => brace (same ▸ hc)
      have right : c ≠ ';' := fun same => semicolon (same ▸ hc)
      simp [left, right]
    have stops : ∀ c ∈ ('{' :: rest).head?, (c != '{' && c != ';') = false := by
      intro c hc
      obtain rfl : '{' = c := Option.some.inj hc
      decide
    have ended : (type ++ '{' :: rest).head?.any isWord = false := by
      cases type with
      | nil => exact (by decide : isWord '{' = false)
      | cons c type => exact apart c rfl
    have word : Text.after? returnsWord (returnsWord ++ type ++ '{' :: rest) =
        some (type ++ '{' :: rest) := by
      rw [List.append_assoc, Text.after?_append]
    simp only [word, annotation, ended, Bool.false_eq_true, if_false,
      (takeWhile_append_of_head inside stops).1]

theorem readOpening?_print {kind : Kind} {lead : Text} (h : Preamble.IsLead kind lead)
    (rest : Text) :
    readOpening? kind (lead ++ '{' :: rest) = some ⟨(), lead ++ ['{'], rest⟩ := by
  obtain ⟨blank, annotated, rfl, all, form⟩ := h
  have first : ∀ c ∈ (annotated ++ '{' :: rest).head?, isBlank c = false := by
    intro c hc
    rcases form with rfl | ⟨-, type, rfl, -⟩
    · obtain rfl : '{' = c := Option.some.inj hc
      decide
    · obtain rfl : 'r' = c := Option.some.inj hc
      decide
  obtain ⟨taken, left⟩ := takeWhile_append_of_head all first
  have whole : bodyLead kind (blank ++ annotated ++ '{' :: rest) = blank ++ annotated := by
    rw [List.append_assoc]
    simp only [bodyLead, Text.blanks, Text.afterBlanks, taken, left, annotation_print form]
  rw [readOpening?, whole, List.drop_left]
  rfl

theorem isLead_bodyLead (kind : Kind) (s : Text) : Preamble.IsLead kind (bodyLead kind s) := by
  refine ⟨Text.blanks s, annotation kind (Text.afterBlanks s), rfl,
    fun c hc => List.mem_takeWhile_imp hc, ?_⟩
  unfold annotation
  split
  · rename_i tail _
    split
    · exact .inl rfl
    · rename_i ended
      refine .inr ⟨rfl, _, rfl, ?_, ?_, ?_⟩
      · intro c hc
        cases tail with
        | nil => cases hc
        | cons d tail =>
          rw [List.takeWhile_cons] at hc
          split at hc
          · obtain rfl : d = c := Option.some.inj hc
            simpa using ended
          · cases hc
      · intro mem
        simpa using List.mem_takeWhile_imp mem
      · intro mem
        simpa using List.mem_takeWhile_imp mem
  · exact .inl rfl

theorem annotation_initial (kind : Kind) (s : Text) : annotation kind s <+: s := by
  unfold annotation
  split
  · rename_i tail found
    split
    · exact List.nil_prefix
    · rw [← Text.append_of_after? found]
      exact (List.prefix_append_right_inj returnsWord).2 (List.takeWhile_prefix _)
  · exact List.nil_prefix

theorem bodyLead_initial (kind : Kind) (s : Text) : bodyLead kind s <+: s := by
  conv_rhs => rw [← Text.blanks_append_afterBlanks s]
  exact (List.prefix_append_right_inj _).2 (annotation_initial kind _)

theorem readOpening?_lead {kind : Kind} {s : Text} {r : Reading Unit}
    (h : readOpening? kind s = some r) :
    ∃ lead, Preamble.IsLead kind lead ∧ s = lead ++ '{' :: r.rest ∧
      r.lexeme.length = lead.length + 1 := by
  obtain ⟨behind, whole⟩ := bodyLead_initial kind s
  have isLead := isLead_bodyLead kind s
  unfold readOpening? at h
  generalize bodyLead kind s = lead at h whole isLead
  subst whole
  rw [List.drop_left] at h
  cases behind with
  | nil => cases h
  | cons c behind =>
    simp only at h
    split at h
    · rename_i brace
      obtain rfl := Option.some.inj h
      exact ⟨lead, isLead, by rw [brace], by simp⟩
    · cases h

/-- A mixin has nothing between blanks that have been read and its body. -/
theorem Preamble.IsLead.eq_nil {lead s t : Text} (h : IsLead .mixin lead)
    (read : Text.afterBlanks s = lead ++ t) : lead = [] := by
  obtain ⟨blank, annotated, rfl, all, rfl | ⟨mixin, -⟩⟩ := h
  · cases blank with
    | nil => rfl
    | cons c blank =>
      have first := List.head?_dropWhile_not isBlank s
      unfold Text.afterBlanks at read
      rw [read] at first
      have blank_first := all c List.mem_cons_self
      simp [blank_first] at first
  · cases mixin

/-- What is read as the start of a declaration is a preamble that fits. -/
theorem exists_preamble {kind : Kind} {offset : Nat} {s : Text} {r : Reading Text} {g : Group}
    {opening : Reading Unit} (read : readHeader? kind s = some r)
    (listed : Group.read '(' offset r.rest = .ok g)
    (opened : readOpening? kind g.rest = some opening) :
    ∃ p : Preamble, p.Fits kind ∧ s = p.print kind ++ opening.rest ∧ r.value = p.name ∧
      r.lexeme = p.head kind ∧ g.interior?.getD [] = p.params ∧ g.width = p.list.length ∧
      opening.lexeme.length = p.lead.length + 1 := by
  have whole := (readHeader?_append read).1
  obtain ⟨lead, isLead, behind, lexeme⟩ := readOpening?_lead opened
  unfold readHeader? at read
  split at read
  · cases read
  · rename_i a at_rule
    obtain ⟨gap, spelled, some_gap, gap_blank, is_name, -⟩ := readAtRule?_parts at_rule
    have space_blank : ∀ c ∈ Text.blanks a.rest, isBlank c := fun c hc => List.mem_takeWhile_imp hc
    split at read
    · cases read
    · rename_i next
      obtain rfl := Option.some.inj read
      simp only at whole listed
      rcases Group.read_cases listed with ⟨inner, closer, cut, balanced, closes, interior, width⟩ |
          ⟨other, rfl⟩
      · refine ⟨⟨gap, a.value, Text.blanks a.rest, some (inner, closer), lead⟩,
          ⟨some_gap, gap_blank, is_name, space_blank, ?_, nofun, isLead⟩, ?_, rfl, ?_, ?_, ?_,
            lexeme⟩
        · rintro _ ⟨⟩
          exact ⟨balanced, closes⟩
        · rw [← whole, cut, behind, spelled]
          simp [Preamble.print, Preamble.head, Preamble.list]
        · simp [Preamble.head, spelled]
        · simp [interior, Preamble.params]
        · simp [width, Preamble.list]
      · have mixin : kind = .mixin := by
          cases kind with
          | function => exact absurd ⟨rfl, other⟩ next
          | mixin => rfl
        subst mixin
        obtain rfl := isLead.eq_nil behind
        refine ⟨⟨gap, a.value, Text.blanks a.rest, none, []⟩,
          ⟨some_gap, gap_blank, is_name, space_blank, nofun, fun _ => ⟨rfl, rfl⟩, isLead⟩,
            ?_, rfl, ?_, rfl, rfl, lexeme⟩
        · simp only at behind
          rw [← whole, behind, spelled]
          simp [Preamble.print, Preamble.head, Preamble.list]
        · simp [Preamble.head, spelled]

theorem Preamble.length_print (kind : Kind) (p : Preamble) :
    (p.print kind).length = (p.head kind).length + p.list.length + (p.lead.length + 1) := by
  simp [print, Nat.add_assoc]

/-- The place of a declaration in the text `s`, which stands at `offset`: what is before the
declaration, the parts of it and what is behind it. -/
structure Site (offset : Nat) (s : Text) (d : Declaration) where
  before : Text
  preamble : Preamble
  closer : Char
  behind : Text
  whole : s = before ++ (preamble.print d.kind ++ (d.body ++ closer :: behind))
  fits : preamble.Fits d.kind
  closes : isClosing closer
  balanced : Balanced d.body
  name : d.name = preamble.name
  params : d.params = preamble.params
  start : d.start = offset + before.length
  bodyStart : d.bodyStart = offset + (before ++ preamble.print d.kind).length

def Site.shift {offset : Nat} {front s : Text} {d : Declaration}
    (site : Site (offset + front.length) s d) : Site offset (front ++ s) d where
  before := front ++ site.before
  preamble := site.preamble
  closer := site.closer
  behind := site.behind
  whole := by rw [List.append_assoc, ← site.whole]
  fits := site.fits
  closes := site.closes
  balanced := site.balanced
  name := site.name
  params := site.params
  start := by
    rw [site.start, List.length_append]
    omega
  bodyStart := by
    rw [site.bodyStart]
    simp only [List.length_append]
    omega

/-- A header that a search found, the list behind it and the brace make up a preamble. -/
theorem exists_preamble_of_find? {kind : Kind} {offset : Nat} {s : Text} {o : Occurrence Text}
    {g : Group} {opening : Reading Unit} (found : (header kind).find? s = some o)
    (listed : Group.read '(' (o.stop offset) o.rest = .ok g)
    (opened : readOpening? kind g.rest = some opening) :
    ∃ p : Preamble, p.Fits kind ∧ s = o.before ++ p.print kind ++ opening.rest ∧
      o.value = p.name ∧ g.interior?.getD [] = p.params ∧
      o.stop offset + g.width + opening.lexeme.length =
        offset + (o.before ++ p.print kind).length := by
  obtain ⟨p, fits, text, name, lexeme, params, width, lead⟩ :=
    exists_preamble (Reader.read?_of_find? found) listed opened
  refine ⟨p, fits, ?_, name, params, ?_⟩
  · rw [List.append_assoc, ← text, ← List.append_assoc, Reader.find?_append found]
  · have head : o.lexeme = p.head kind := lexeme
    rw [Occurrence.stop, Occurrence.start, head, width, lead, List.length_append,
      Preamble.length_print]
    omega

/-- A scan finds declarations where they stand. -/
theorem exists_site_of_mem {kind : Kind} {offset : Nat} {s : Text} {d : Declaration}
    (h : d ∈ (scanFrom kind offset s).items) : Nonempty (Site offset s d) ∧ d.kind = kind := by
  fun_induction scanFrom kind offset s with
  | case1 => simp at h
  | case2 => simp [Scan.failed] at h
  | case3 offset s o found list closed none_opened ih =>
    obtain ⟨⟨site⟩, same⟩ := ih h
    refine ⟨⟨?_⟩, same⟩
    rw [← Reader.find?_append found]
    refine Site.shift ?_
    rw [List.length_append, ← Nat.add_assoc]
    exact site
  | case4 => simp [Scan.failed] at h
  | case5 offset s o found list closed opening opened bodyStart body enclosed ih =>
    obtain ⟨p, fits, text, name, params, place⟩ := exists_preamble_of_find? found closed opened
    rcases List.mem_cons.1 h with rfl | h
    · obtain ⟨cut, closes, balanced⟩ := enclosed?_eq_some_iff.1 enclosed
      refine ⟨⟨⟨o.before, p, body.closer, body.rest, ?_, fits, closes, balanced, name, params,
        rfl, place⟩⟩, rfl⟩
      rw [text, cut, List.append_assoc]
    · obtain ⟨⟨site⟩, same⟩ := ih h
      refine ⟨⟨?_⟩, same⟩
      rw [text]
      refine Site.shift ?_
      rw [← place]
      exact site

/-- A scan fails at a bracket that is never closed, and says where that stands. -/
theorem exists_openAt_of_failure {kind : Kind} {offset : Nat} {s : Text} {e : Error}
    (h : (scanFrom kind offset s).failure? = some e) :
    ∃ n, e = .unmatched (offset + n) ∧ OpenAt s n := by
  fun_induction scanFrom kind offset s with
  | case1 => cases h
  | case2 offset s o found e' failed =>
    obtain rfl : e' = e := Option.some.inj h
    obtain ⟨rfl, unclosed⟩ := Group.read_error rfl failed
    refine ⟨(o.before ++ o.lexeme).length + 1, ?_, ?_⟩
    · rw [Occurrence.stop, Occurrence.start, List.length_append]
      simp only [Nat.add_assoc]
    · rw [← Reader.find?_append found]
      exact unclosed.behind
  | case3 offset s o found list closed none_opened ih =>
    obtain ⟨n, rfl, unclosed⟩ := ih h
    refine ⟨(o.before ++ o.lexeme).length + n, ?_, ?_⟩
    · rw [Occurrence.stop, Occurrence.start, List.length_append]
      simp only [Nat.add_assoc]
    · rw [← Reader.find?_append found]
      exact unclosed.behind
  | case4 offset s o found list closed opening opened bodyStart none_enclosed =>
    obtain ⟨p, fits, text, -, -, place⟩ := exists_preamble_of_find? found closed opened
    have start : bodyStart = offset + (o.before ++ p.print kind).length := place
    obtain rfl : Error.unmatched bodyStart = e := Option.some.inj h
    refine ⟨(o.before ++ (p.head kind ++ p.list ++ p.lead)).length + 1, ?_, ?_⟩
    · rw [start]
      simp [Preamble.print, Nat.add_assoc]
    · have cut : s = (o.before ++ (p.head kind ++ p.list ++ p.lead)) ++ '{' :: opening.rest := by
        rw [text]
        simp [Preamble.print]
      rw [cut]
      exact openAt_of_enclosed? _ rfl none_enclosed
  | case5 offset s o found list closed opening opened bodyStart body enclosed ih =>
    obtain ⟨p, fits, text, -, -, place⟩ := exists_preamble_of_find? found closed opened
    have start : bodyStart = offset + (o.before ++ p.print kind).length := place
    obtain ⟨n, rfl, unclosed⟩ := ih h
    refine ⟨(o.before ++ p.print kind).length + n, by rw [start, Nat.add_assoc], ?_⟩
    rw [text]
    exact unclosed.behind

end Declaration

end StyleExpansion
