import StyleExpansion.Proofs.Arguments
import StyleExpansion.Proofs.Extraction

namespace StyleExpansion

inductive Item where
  | param (name hint : Text) (default? : Option Text)
  | contents
deriving DecidableEq, Repr

namespace Item

/-- The item as printed. The annotation of a parameter, its hint, brings its own blank, if it has
one. -/
def print : Item → Text
  | param name hint none => name ++ hint
  | param name hint (some value) => name ++ hint ++ ':' :: ' ' :: value
  | contents => contentsMarker

def parameter? : Item → Option Parameter
  | param name _ default? => some ⟨name, default?⟩
  | contents => none

end Item

/-- What a declaration is made of. -/
structure Draft where
  kind : Kind
  name : Text
  items : List Item
  returns? : Option Text
  body : Text
deriving DecidableEq, Repr

namespace Draft

def params (d : Draft) : Text := Text.commaList (d.items.map Item.print)

def ending (d : Draft) : Text :=
  d.returns?.elim [] fun type => Declaration.returnsWord ++ ' ' :: type ++ [' ']

def opening (d : Draft) : Text :=
  d.kind.keyword ++ ' ' :: d.name ++ '(' :: d.params ++ ')' :: ' ' :: d.ending ++ ['{']

def print (d : Draft) : Text := d.opening ++ d.body ++ ['}']

def definition (d : Draft) : Definition where
  form := match d.kind with
    | .function => .function
    | .mixin => .mixin (d.items.contains .contents)
  name := d.name
  params := d.items.filterMap Item.parameter?
  body := d.body

def printAll (ds : List Draft) : Text := ['\n'].intercalate (ds.map print)

def ofKind (kind : Kind) (ds : List Draft) : List Draft := ds.filter (·.kind = kind)

def spans (kind : Kind) : Nat → List Draft → List Span
  | _, [] => []
  | offset, d :: ds =>
    let others := spans kind (offset + d.print.length + 1) ds
    if d.kind = kind then ⟨offset, (offset + d.print.length : Nat)⟩ :: others else others

end Draft

/-- No keyword of a declaration stands in the text. -/
def NoKeyword (s : Text) : Prop := ∀ kind : Kind, ¬ kind.keyword <:+: s

instance (s : Text) : Decidable (NoKeyword s) :=
  decidable_of_iff (¬ Kind.function.keyword <:+: s ∧ ¬ Kind.mixin.keyword <:+: s)
    ⟨fun h kind => kind.casesOn h.1 h.2, fun h => ⟨h _, h _⟩⟩

/-- A text that can stand between the name of a parameter and its colon. -/
structure IsHint (s : Text) : Prop where
  ends : EndsName s
  balanced : Balanced s
  comma : NoTopComma s
  colon : ':' ∉ s
  keyword : NoKeyword s

structure IsDefault (s : Text) : Prop where
  stripped : Text.strip s = s
  balanced : Balanced s
  comma : NoTopComma s
  keyword : NoKeyword s

/-- What is asked of an item so that it can be read back. -/
def Item.Printable : Item → Prop
  | .param name hint default? =>
    IsName name ∧ IsHint hint ∧ ∀ value ∈ default?, IsDefault value
  | .contents => True

structure Draft.Printable (d : Draft) : Prop where
  name : IsName d.name
  items : ∀ i ∈ d.items, i.Printable
  mixin : d.kind = .mixin → d.returns? = none
  returns : ∀ type ∈ d.returns?, '{' ∉ type ∧ ';' ∉ type ∧ NoKeyword type
  balanced : Balanced d.body
  keyword : NoKeyword d.body

instance (s : Text) : Decidable (IsHint s) :=
  decidable_of_iff (EndsName s ∧ Balanced s ∧ NoTopComma s ∧ ':' ∉ s ∧ NoKeyword s)
    ⟨fun ⟨a, b, c, d, e⟩ => ⟨a, b, c, d, e⟩, fun ⟨a, b, c, d, e⟩ => ⟨a, b, c, d, e⟩⟩

instance (s : Text) : Decidable (IsDefault s) :=
  decidable_of_iff (Text.strip s = s ∧ Balanced s ∧ NoTopComma s ∧ NoKeyword s)
    ⟨fun ⟨a, b, c, d⟩ => ⟨a, b, c, d⟩, fun ⟨a, b, c, d⟩ => ⟨a, b, c, d⟩⟩

instance : (i : Item) → Decidable i.Printable
  | .param name hint default? => inferInstanceAs (Decidable
      (IsName name ∧ IsHint hint ∧ ∀ value ∈ default?, IsDefault value))
  | .contents => inferInstanceAs (Decidable True)

instance (d : Draft) : Decidable d.Printable :=
  decidable_of_iff (IsName d.name ∧ (∀ i ∈ d.items, i.Printable) ∧
      (d.kind = .mixin → d.returns? = none) ∧
      (∀ type ∈ d.returns?, '{' ∉ type ∧ ';' ∉ type ∧ NoKeyword type) ∧
      Balanced d.body ∧ NoKeyword d.body)
    ⟨fun ⟨a, b, c, d, e, f⟩ => ⟨a, b, c, d, e, f⟩, fun ⟨a, b, c, d, e, f⟩ => ⟨a, b, c, d, e, f⟩⟩

theorem splitOnce?_colon {x : Text} (h : ':' ∉ x) (y : Text) :
    Text.splitOnce? [':'] (x ++ ':' :: y) = some (x, y) := by
  induction x with
  | nil => simp [Text.splitOnce?, Text.after?]
  | cons c x ih =>
    have other : ':' ≠ c := fun same => h (same ▸ List.mem_cons_self)
    have behind := ih fun mem => h (List.mem_cons_of_mem c mem)
    simp [Text.splitOnce?, Text.after?, other, behind]

theorem splitOnce?_colon_eq_none {x : Text} (h : ':' ∉ x) : Text.splitOnce? [':'] x = none := by
  induction x with
  | nil => rfl
  | cons c x ih =>
    have other : ':' ≠ c := fun same => h (same ▸ List.mem_cons_self)
    have behind := ih fun mem => h (List.mem_cons_of_mem c mem)
    simp [Text.splitOnce?, Text.after?, other, behind]

theorem EndsName.rdropWhile {s : Text} (h : EndsName s) (p : Char → Bool) :
    EndsName (s.rdropWhile p) := by
  intro c hc
  obtain ⟨tail, whole⟩ := List.rdropWhile_prefix p s
  cases left : s.rdropWhile p with
  | nil => simp [left] at hc
  | cons d rest =>
    obtain rfl : d = c := by simpa [left] using hc
    rw [left] at whole
    exact h d (by simp [← whole])

namespace Item

/-- A name keeps what follows it from being stripped from the front. -/
theorem strip_name {name : Text} (h : IsName name) (s : Text) :
    Text.strip (name ++ s) = name ++ s.rdropWhile isBlank := by
  have split := List.dropLast_append_getLast h.ne_nil
  have last := not_isBlank_of_isNameChar (h.isNameChar _ (List.getLast_mem h.ne_nil))
  have first := h.head_not_isBlank []
  rw [List.append_nil, ← split] at first
  have := strip_append_cons s first last
  rwa [List.append_cons, split, List.append_cons, split] at this

theorem leadingName_name {name s : Text} (h : IsName name) (ends : EndsName s) :
    Parameters.leadingName (name ++ s) = name := by
  rw [Parameters.leadingName, readName?_name h ends]

theorem splitDefault_print {name hint : Text} {default? : Option Text}
    (h : (param name hint default?).Printable) :
    ∃ rest, EndsName rest ∧ Parameters.splitDefault
      (Text.strip (param name hint default?).print) = (name ++ rest, default?) := by
  obtain ⟨isName, form, value⟩ := h
  have no_colon : ':' ∉ name ++ hint := by
    simp [isName.notMem (c := ':') (by decide), form.colon]
  refine ⟨hint.rdropWhile isBlank, form.ends.rdropWhile _, ?_⟩
  cases default? with
  | none =>
    have still : ':' ∉ name ++ hint.rdropWhile isBlank := by
      intro mem
      refine no_colon (?_ : ':' ∈ name ++ hint)
      rcases List.mem_append.1 mem with mem | mem
      · exact List.mem_append_left _ mem
      · exact List.mem_append_right _ ((List.rdropWhile_prefix isBlank hint).subset mem)
    rw [print, strip_name isName, Parameters.splitDefault, splitOnce?_colon_eq_none still]
  | some d =>
    have stripped := (value d rfl).stripped
    have first : ∀ c ∈ (name ++ hint ++ [':']).head?, isBlank c = false := by
      rw [List.append_assoc]
      exact isName.head_not_isBlank _
    have cut := strip_append_cons (' ' :: d) first (by decide)
    rw [print, cut, Parameters.splitDefault, splitOnce?_colon no_colon]
    simp only [strip_name isName, strip_rdropWhile_cons stripped (c := ' ') (by decide)]

theorem ofItem?_print {name hint : Text} {default? : Option Text}
    (h : (param name hint default?).Printable) :
    Parameters.ofItem? (Text.strip (param name hint default?).print) =
      some ⟨name, default?⟩ := by
  obtain ⟨rest, ends, split⟩ := splitDefault_print h
  simp [Parameters.ofItem?, split, leadingName_name h.1 ends, h.1.ne_nil]

theorem strip_print_param {name : Text} (h : IsName name) (hint : Text)
    (default? : Option Text) : ∃ s, Text.strip (param name hint default?).print = '-' :: s := by
  obtain ⟨s, whole⟩ : ∃ s, (param name hint default?).print = name ++ s := by
    cases default? with
    | none => exact ⟨hint, rfl⟩
    | some d => exact ⟨hint ++ ':' :: ' ' :: d, by simp [print]⟩
  rw [whole, strip_name h]
  obtain ⟨run, rfl, -⟩ := h
  exact ⟨_, rfl⟩

theorem strip_contents : Text.strip contents.print = contentsMarker := by decide

/-- A printed item comes back from a comma list. -/
theorem print_inner {i : Item} (h : i.Printable) :
    Balanced i.print ∧ NoTopComma i.print ∧ Text.strip i.print ≠ [] := by
  cases i with
  | contents => exact ⟨by decide, noTopComma_of_notMem (by decide), by decide⟩
  | param name hint default? =>
    obtain ⟨isName, form, value⟩ := h
    have front : Balanced (name ++ hint) := isName.balanced.append form.balanced
    have front_comma : NoTopComma (name ++ hint) :=
      (noTopComma_of_notMem (isName.notMem (by decide))).append isName.balanced.depth form.comma
    have some_left : Text.strip (param name hint default?).print ≠ [] := by
      obtain ⟨s, hs⟩ := strip_print_param isName hint default?
      simp [hs]
    cases default? with
    | none => exact ⟨front, front_comma, some_left⟩
    | some d =>
      have given := value d rfl
      have colon : Balanced [':', ' '] := by decide
      have colon_comma : NoTopComma [':', ' '] := noTopComma_of_notMem (by decide)
      exact ⟨front.append (colon.append given.balanced),
        front_comma.append front.depth (colon_comma.append colon.depth given.comma), some_left⟩

theorem read_items {items : List Item} (h : ∀ i ∈ items, i.Printable) :
    ((items.map fun i => Text.strip i.print).filter (· ≠ contentsMarker)).filterMap
        Parameters.ofItem? = items.filterMap parameter? ∧
      (items.map fun i => Text.strip i.print).contains contentsMarker =
        items.contains .contents := by
  induction items with
  | nil => exact ⟨rfl, rfl⟩
  | cons i items ih =>
    obtain ⟨params, marker⟩ := ih fun j hj => h j (List.mem_cons_of_mem i hj)
    cases i with
    | contents =>
      rw [List.filterMap_cons_none (f := parameter?) (a := contents) rfl]
      exact ⟨by simpa [strip_contents] using params, by simp [strip_contents]⟩
    | param name hint default? =>
      have here := h _ List.mem_cons_self
      have other : Text.strip (param name hint default?).print ≠ contentsMarker := by
        obtain ⟨s, hs⟩ := strip_print_param here.1 hint default?
        simp [hs, contentsMarker]
      rw [List.filterMap_cons_some (f := parameter?) (a := param name hint default?) rfl]
      exact ⟨by simpa [other, ofItem?_print here] using params, by simpa [other.symm] using marker⟩

/-- A printed parameter list is read back, without its annotations. -/
theorem parse_print {items : List Item} (h : ∀ i ∈ items, i.Printable) :
    Parameters.parse (Text.commaList (items.map print)) =
      ⟨items.filterMap parameter?, items.contains .contents⟩ := by
  have split : splitArguments (Text.commaList (items.map print)) =
      items.map fun i => Text.strip i.print := by
    rw [splitArguments_commaList, List.map_map]
    · rfl
    · intro t ht
      obtain ⟨i, hi, rfl⟩ := List.mem_map.1 ht
      obtain ⟨balanced, comma, some_left⟩ := print_inner (h i hi)
      exact ⟨balanced.depth, comma, some_left⟩
  obtain ⟨params, marker⟩ := read_items h
  rw [Parameters.parse, split, params, marker]

end Item

namespace Declaration

theorem scanFrom_eq (kind : Kind) (offset : Nat) (s : Text) :
    scanFrom kind offset s =
      match (header kind).find? s with
      | none => {}
      | some o =>
        match Group.read '(' (o.stop offset) o.rest with
        | .error e => .failed e
        | .ok list =>
          match readOpening? kind list.rest with
          | none => scanFrom kind (o.stop offset) o.rest
          | some opening =>
            match enclosed? opening.rest with
            | none => .failed (.unmatched (o.stop offset + list.width + opening.lexeme.length))
            | some body =>
              (scanFrom kind (o.stop offset + list.width + opening.lexeme.length)
                opening.rest).push ⟨kind, o.value, list.interior?.getD [], body.interior,
                  o.start offset, o.stop offset + list.width + opening.lexeme.length⟩ := by
  rw [scanFrom]
  split
  · rename_i none_found
    rw [none_found]
  · rename_i o found
    rw [found]
    simp only
    split
    · rename_i failed
      rw [failed]
    · rename_i list listed
      rw [listed]
      simp only
      split
      · rename_i unopened
        rw [unopened]
      · rename_i opening opened
        cases closed : enclosed? opening.rest with
        | none => simp only [opened, closed]
        | some body => simp only [opened, closed]

/-- A scan finds a declaration that it comes to, and goes on in its body. -/
theorem scanFrom_preamble {kind : Kind} {p : Preamble} (fits : p.Fits kind) {body : Text}
    {closer : Char} (balanced : Balanced body) (closes : isClosing closer) (offset : Nat)
    (s : Text) :
    scanFrom kind offset (p.print kind ++ (body ++ closer :: s)) =
      (scanFrom kind (offset + (p.print kind).length) (body ++ closer :: s)).push
        ⟨kind, p.name, p.params, body, offset, offset + (p.print kind).length⟩ := by
  have found := Reader.find?_eq_of_read? (r := header kind)
    (fits.readHeader?_print (body ++ closer :: s))
  have bodyStart : offset + 0 + (p.head kind).length + p.list.length + (p.lead ++ ['{']).length =
      offset + (p.print kind).length := by
    rw [p.length_print, List.length_append, List.length_singleton]
    omega
  have params : (p.list?.map Prod.fst).getD [] = p.params := by
    cases given : p.list? <;> simp [Preamble.params, given]
  rw [scanFrom_eq, found]
  simp only [Occurrence.stop, Occurrence.start, List.length_nil, fits.read_list,
    readOpening?_print fits.lead, bodyStart, enclosed?_balanced balanced closes, params]
  rfl

theorem scanFrom_behind {kind : Kind} {x s : Text}
    (h : (header kind).find? (x ++ s) = ((header kind).find? s).map (Occurrence.shift x))
    (offset : Nat) : scanFrom kind offset (x ++ s) = scanFrom kind (offset + x.length) s := by
  rw [scanFrom_eq, scanFrom_eq kind (offset + x.length), h]
  cases (header kind).find? s with
  | none => rfl
  | some o =>
    simp only [Option.map_some, Occurrence.stop_shift, Occurrence.start_shift]
    rfl

/-- A scan goes over the text, whatever follows it. -/
def Skips (kind : Kind) (x : Text) : Prop :=
  ∀ offset s, scanFrom kind offset (x ++ s) = scanFrom kind (offset + x.length) s

theorem Skips.append {kind : Kind} {x y : Text} (hx : Skips kind x) (hy : Skips kind y) :
    Skips kind (x ++ y) := by
  intro offset s
  rw [List.append_assoc, hx, hy, List.length_append, Nat.add_assoc]

theorem skips_of_passes {kind : Kind} {x : Text} (h : ∀ s, (header kind).Passes x s) :
    Skips kind x := by
  intro offset s
  refine scanFrom_behind (Reader.find?_append_of_none (h s) fun blocked => ?_) offset
  -- A declaration may start after any character.
  have free : (header kind).freeAfter true x = true := by
    cases last : x.getLast? <;> simp [Reader.freeAfter, last, header]
  rw [free] at blocked
  cases blocked

theorem read?_eq_none {kind : Kind} {s : Text} (h : Text.after? kind.keyword s = none) :
    (header kind).read? s = none := by
  show readHeader? kind s = none
  rw [readHeader?, readAtRule?, h]

/-- Text without an at sign is gone over. -/
theorem skips_of_notMem {kind : Kind} {x : Text} (h : '@' ∉ x) : Skips kind x := by
  refine skips_of_passes fun s z hz some_left => read?_eq_none ?_
  cases z with
  | nil => exact absurd rfl some_left
  | cons c z =>
    have other : '@' ≠ c := fun same => h (hz.subset (same ▸ List.mem_cons_self))
    exact Text.after?_cons_of_ne other

/-- Text without the keyword is gone over together with a character that is not in it. -/
theorem skips_stop {kind : Kind} {x : Text} {c : Char} (h : ¬ kind.keyword <:+: x)
    (stop : c ∉ kind.keyword) : Skips kind (x ++ [c]) := by
  refine skips_of_passes fun s z hz some_left => read?_eq_none ?_
  rcases List.suffix_concat_iff.1 hz with rfl | ⟨y, rfl, suffix⟩
  · exact absurd rfl some_left
  · rw [List.append_assoc, List.singleton_append, Text.after?_append_stop stop]
    have none_here : Text.after? kind.keyword y = none := by
      rw [Text.after?_eq_none_iff]
      intro starts
      exact h (starts.isInfix.trans suffix.isInfix)
    rw [none_here, Option.map_none]

end Declaration

/-! ## Printed declarations in a scan -/

theorem notMem_keyword (kind : Kind) {c : Char} (h : c ∈ [',', ')', ':', ' ', '}']) :
    c ∉ kind.keyword := by
  simp only [List.mem_cons, List.not_mem_nil, or_false] at h
  rcases h with rfl | rfl | rfl | rfl | rfl <;> cases kind <;> decide

theorem Item.skips_print (kind : Kind) {i : Item} (h : i.Printable) {c : Char}
    (stop : c = ',' ∨ c = ')') : Declaration.Skips kind (i.print ++ [c]) := by
  have ends : c ∉ kind.keyword := notMem_keyword kind (by rcases stop with rfl | rfl <;> decide)
  cases i with
  | contents => exact Declaration.skips_stop (by cases kind <;> decide) ends
  | param name hint default? =>
    obtain ⟨isName, form, value⟩ := h
    have front : Declaration.Skips kind name :=
      Declaration.skips_of_notMem (isName.notMem (by decide))
    cases default? with
    | none =>
      rw [print, List.append_assoc]
      exact front.append (Declaration.skips_stop (form.keyword kind) ends)
    | some d =>
      have colon := Declaration.skips_stop (form.keyword kind)
        (notMem_keyword kind (c := ':') (by decide))
      have space : Declaration.Skips kind [' '] := Declaration.skips_of_notMem (by decide)
      have last := Declaration.skips_stop ((value d rfl).keyword kind) ends
      have parts : print (.param name hint (some d)) ++ [c] =
          name ++ (hint ++ [':'] ++ ([' '] ++ (d ++ [c]))) := by simp [print]
      rw [parts]
      exact front.append (colon.append (space.append last))

namespace Draft

def declaration (d : Draft) (offset : Nat) : Declaration :=
  ⟨d.kind, d.name, d.params, d.body, offset, offset + d.opening.length⟩

theorem skips_params (kind : Kind) {items : List Item} (h : ∀ i ∈ items, i.Printable) :
    Declaration.Skips kind (Text.commaList (items.map Item.print) ++ [')']) := by
  induction items with
  | nil => exact Declaration.skips_of_notMem (by decide)
  | cons i items ih =>
    have first := h i List.mem_cons_self
    cases items with
    | nil => simpa using Item.skips_print kind first (.inr rfl)
    | cons j items =>
      have behind := ih fun k hk => h k (List.mem_cons_of_mem i hk)
      have space : Declaration.Skips kind [' '] := Declaration.skips_of_notMem (by decide)
      have whole := (Item.skips_print kind first (.inl rfl)).append (space.append behind)
      simpa [commaList_cons_cons] using whole

theorem skips_ending (kind : Kind) {d : Draft} (h : d.Printable) :
    Declaration.Skips kind d.ending := by
  rw [ending]
  cases given : d.returns? with
  | none => exact Declaration.skips_of_notMem (by simp)
  | some type =>
    have word : Declaration.Skips kind (Declaration.returnsWord ++ [' ']) :=
      Declaration.skips_of_notMem (by decide)
    have last := Declaration.skips_stop ((h.returns type given).2.2 kind)
      (notMem_keyword kind (c := ' ') (by decide))
    simpa using word.append last

theorem skips_body (kind : Kind) {d : Draft} (h : d.Printable) :
    Declaration.Skips kind (d.body ++ ['}']) :=
  Declaration.skips_stop (h.keyword kind) (notMem_keyword kind (by decide))

/-- A scan goes over declarations of the other kind. -/
theorem skips_print {kind : Kind} {d : Draft} (h : d.Printable) (other : d.kind ≠ kind) :
    Declaration.Skips kind d.print := by
  have keyword : ¬ kind.keyword <:+: d.kind.keyword := by
    revert other
    cases kind <;> cases d.kind <;> decide
  have head : Declaration.Skips kind (d.kind.keyword ++ [' ']) :=
    Declaration.skips_stop keyword (notMem_keyword kind (by decide))
  have name : Declaration.Skips kind (d.name ++ ['(']) :=
    (Declaration.skips_of_notMem (h.name.notMem (by decide))).append
      (Declaration.skips_of_notMem (by decide))
  have space : Declaration.Skips kind [' '] := Declaration.skips_of_notMem (by decide)
  have brace : Declaration.Skips kind ['{'] := Declaration.skips_of_notMem (by decide)
  have whole := head.append (name.append ((skips_params kind h.items).append (space.append
    ((skips_ending kind h).append (brace.append (skips_body kind h))))))
  simpa [print, opening, params] using whole

end Draft

namespace Draft

def preamble (d : Draft) : Declaration.Preamble where
  gap := [' ']
  name := d.name
  space := []
  list? := some (d.params, ')')
  lead := ' ' :: d.ending

theorem preamble_print (d : Draft) : d.preamble.print d.kind = d.opening := by
  simp [preamble, opening, Declaration.Preamble.print, Declaration.Preamble.head,
    Declaration.Preamble.list]

theorem ending_annotation {d : Draft} (h : d.Printable) :
    d.ending = [] ∨ d.kind = .function ∧ Declaration.Preamble.IsAnnotation d.ending := by
  cases given : d.returns? with
  | none => exact .inl (by simp [ending, given])
  | some type =>
    have kind : d.kind = .function := by
      cases kind : d.kind with
      | function => rfl
      | mixin =>
        have := h.mixin kind
        simp [given] at this
    obtain ⟨brace, semicolon, -⟩ := h.returns type given
    refine .inr ⟨kind, ' ' :: type ++ [' '], by simp [ending, given], ?_, ?_, ?_⟩
    · intro c hc
      obtain rfl : ' ' = c := Option.some.inj hc
      decide
    · simp [brace]
    · simp [semicolon]

theorem preamble_fits {d : Draft} (h : d.Printable) : d.preamble.Fits d.kind where
  gap_ne_nil := by simp [preamble]
  gap_blank := List.all_eq_true.1 rfl
  name := h.name
  space_blank := nofun
  closed := by
    rintro _ ⟨⟩
    refine ⟨balanced_commaList fun t ht => ?_, rfl⟩
    obtain ⟨i, hi, rfl⟩ := List.mem_map.1 ht
    exact (Item.print_inner (h.items i hi)).1
  bare := nofun
  lead := ⟨[' '], d.ending, rfl, List.all_eq_true.1 rfl, ending_annotation h⟩

/-- A scan finds a declaration of its kind where it is printed, and goes on in its body. -/
theorem scanFrom_opening {d : Draft} (h : d.Printable) (offset : Nat) (s : Text) :
    Declaration.scanFrom d.kind offset (d.print ++ s) =
      (Declaration.scanFrom d.kind (offset + d.opening.length) (d.body ++ ['}'] ++ s)).push
        (d.declaration offset) := by
  have found := Declaration.scanFrom_preamble (preamble_fits h) h.balanced
    (by decide : isClosing '}') offset s
  have text : d.print ++ s = d.opening ++ (d.body ++ '}' :: s) := by simp [print]
  rw [preamble_print] at found
  rw [text, List.append_assoc]
  exact found

/-- A scan of one kind over a printed declaration: one of its kind is found, one of the other kind
is gone over, and the scan goes on behind it. -/
theorem scanFrom_print (kind : Kind) {d : Draft} (h : d.Printable) (offset : Nat) (s : Text) :
    Declaration.scanFrom kind offset (d.print ++ s) =
      if d.kind = kind then
        (Declaration.scanFrom kind (offset + d.print.length) s).push (d.declaration offset)
      else Declaration.scanFrom kind (offset + d.print.length) s := by
  split
  · rename_i same
    subst same
    have whole : offset + d.print.length =
        offset + d.opening.length + (d.body ++ ['}']).length := by
      simp only [print, List.length_append, Nat.add_assoc]
    rw [scanFrom_opening h, skips_body d.kind h, whole]
  · rename_i other
    exact skips_print h other offset s

theorem definition_declaration {d : Draft} (h : d.Printable) (offset : Nat) :
    (d.declaration offset).definition = d.definition := by
  have list := Item.parse_print h.items
  cases kind : d.kind with
  | function => simp only [Declaration.definition, declaration, definition, params, list, kind]
  | mixin => simp only [Declaration.definition, declaration, definition, params, list, kind]

theorem span_declaration (d : Draft) (offset : Nat) :
    (d.declaration offset).span = ⟨offset, (offset + d.print.length : Nat)⟩ := by
  simp only [Declaration.span, Declaration.bodyEnd, declaration, print, List.length_append,
    List.length_singleton, Span.mk.injEq, true_and]
  omega

def declarations (kind : Kind) : Nat → List Draft → List Declaration
  | _, [] => []
  | offset, d :: ds =>
    let others := declarations kind (offset + d.print.length + 1) ds
    if d.kind = kind then d.declaration offset :: others else others

theorem printAll_cons_cons (d e : Draft) (ds : List Draft) :
    printAll (d :: e :: ds) = d.print ++ '\n' :: printAll (e :: ds) := by
  simp [printAll, List.intercalate]

theorem scanFrom_nil (kind : Kind) (offset : Nat) :
    Declaration.scanFrom kind offset [] = ⟨[], none⟩ := by
  rw [Declaration.scanFrom_eq]
  rfl

theorem scanFrom_printAll (kind : Kind) {ds : List Draft} (h : ∀ d ∈ ds, d.Printable)
    (offset : Nat) :
    Declaration.scanFrom kind offset (printAll ds) = ⟨declarations kind offset ds, none⟩ := by
  induction ds generalizing offset with
  | nil => exact scanFrom_nil kind offset
  | cons d ds ih =>
    have first := h d List.mem_cons_self
    have behind := ih fun e he => h e (List.mem_cons_of_mem d he)
    cases ds with
    | nil =>
      have alone := scanFrom_print kind first offset []
      rw [List.append_nil, scanFrom_nil] at alone
      simp only [printAll, List.map_cons, List.map_nil, List.intercalate_singleton, alone,
        declarations]
      split <;> rfl
    | cons e ds =>
      have newline : Declaration.Skips kind ['\n'] := Declaration.skips_of_notMem (by decide)
      have next := newline (offset + d.print.length) (printAll (e :: ds))
      rw [List.singleton_append] at next
      rw [printAll_cons_cons, scanFrom_print kind first, next, behind]
      conv_rhs => rw [declarations]
      split <;> rfl

theorem map_declarations (kind : Kind) {ds : List Draft} (h : ∀ d ∈ ds, d.Printable)
    (offset : Nat) :
    (declarations kind offset ds).map Declaration.definition =
        (ofKind kind ds).map definition ∧
      (declarations kind offset ds).map Declaration.span = spans kind offset ds := by
  induction ds generalizing offset with
  | nil => exact ⟨rfl, rfl⟩
  | cons d ds ih =>
    have first := h d List.mem_cons_self
    obtain ⟨definitions, spans⟩ := ih (fun e he => h e (List.mem_cons_of_mem d he))
      (offset + d.print.length + 1)
    by_cases same : d.kind = kind
    · rw [ofKind] at definitions ⊢
      simp [declarations, Draft.spans, same, definitions, spans, definition_declaration first,
        span_declaration]
    · rw [ofKind] at definitions ⊢
      simp [declarations, Draft.spans, same, definitions, spans]

theorem isEmpty_declarations (offset : Nat) (ds : List Draft) :
    ((declarations .function offset ds).isEmpty && (declarations .mixin offset ds).isEmpty) =
      ds.isEmpty := by
  cases ds with
  | nil => rfl
  | cons d ds => cases kind : d.kind <;> simp [declarations, kind]

theorem cut_middle (a x b : Text) :
    Span.cut ⟨a.length, (a.length + x.length : Nat)⟩ (a ++ x ++ b) = x := by
  simp only [Span.cut, Text.slice, Int.toNat_natCast]
  rw [← List.length_append, List.take_left, List.drop_left]

theorem cut_spans (kind : Kind) (a : Text) (ds : List Draft) :
    (spans kind a.length ds).map (·.cut (a ++ printAll ds)) = (ofKind kind ds).map print := by
  induction ds generalizing a with
  | nil => rfl
  | cons d ds ih =>
    obtain ⟨b, whole, others⟩ : ∃ b, printAll (d :: ds) = d.print ++ b ∧
        (spans kind (a.length + d.print.length + 1) ds).map (·.cut (a ++ printAll (d :: ds))) =
          (ofKind kind ds).map print := by
      cases ds with
      | nil => exact ⟨[], by simp [printAll], rfl⟩
      | cons e ds =>
        refine ⟨'\n' :: printAll (e :: ds), printAll_cons_cons d e ds, ?_⟩
        have behind := ih (a ++ d.print ++ ['\n'])
        simpa [printAll_cons_cons, Nat.add_assoc] using behind
    have here := cut_middle a d.print b
    rw [List.append_assoc, ← whole] at here
    rw [ofKind] at others ⊢
    by_cases same : d.kind = kind
    · simp only [spans, same, if_true, List.map_cons, here, others, List.filter_cons,
        decide_true]
    · simp only [spans, same, if_false, others, List.filter_cons, decide_false]
      simp

end Draft

/-- **Extraction undoes printing.** Every list of drafts, printed one after the other, is read back
as it was meant: the definitions are registered in their order, those of functions first, and the
spans that are given are those of the printed declarations and of nothing else. -/
theorem Context.extract_printAll (c : Context) (ds : List Draft) (h : ∀ d ∈ ds, d.Printable) :
    extract (Draft.printAll ds) c =
      ((c.register .function ((Draft.ofKind .function ds).map Draft.definition)).register .mixin
          ((Draft.ofKind .mixin ds).map Draft.definition),
        ⟨if ds.isEmpty then [] else
            [.extracted (Draft.ofKind .function ds).length (Draft.ofKind .mixin ds).length],
          .ok (Draft.spans .function 0 ds ++ Draft.spans .mixin 0 ds)⟩) ∧
    ∀ kind, (Draft.spans kind 0 ds).map (·.cut (Draft.printAll ds)) =
      (Draft.ofKind kind ds).map Draft.print := by
  refine ⟨?_, fun kind => Draft.cut_spans kind [] ds⟩
  have extracted := extract_of_scans c (Draft.scanFrom_printAll .function h 0)
    (Draft.scanFrom_printAll .mixin h 0)
  obtain ⟨functions, function_spans⟩ := Draft.map_declarations .function h 0
  obtain ⟨mixins, mixin_spans⟩ := Draft.map_declarations .mixin h 0
  have function_count := congrArg List.length functions
  have mixin_count := congrArg List.length mixins
  rw [List.length_map, List.length_map] at function_count mixin_count
  have empty := Draft.isEmpty_declarations 0 ds
  rw [extracted, functions, mixins, function_spans, mixin_spans, empty, function_count, mixin_count]

def Draft.samples : List Draft :=
  [⟨.function, "--f".toList, [.param "--a".toList " <color>".toList (some "rgb(1, 2)".toList),
      .param "--b".toList [] none], some "<color>".toList, " result: var(--a); ".toList⟩,
    ⟨.mixin, "--m".toList, [.contents, .param "--c".toList [] (some "x: y".toList), .contents],
      none, " a \x7b @contents \x7d ".toList⟩]

theorem Context.extract_samples :
    Draft.printAll Draft.samples =
      "@function --f(--a <color>: rgb(1, 2), --b) returns <color> ".toList ++
        "\x7b result: var(--a); \x7d\n@mixin --m(@contents, --c: x: y, @contents) ".toList ++
        "\x7b a \x7b @contents \x7d \x7d".toList ∧
    (∀ d ∈ Draft.samples, d.Printable) ∧
    (extract (Draft.printAll Draft.samples) {}).2.result = .ok [⟨0, 80⟩, ⟨81, 144⟩] := by
  have printable : ∀ d ∈ Draft.samples, d.Printable := by decide +kernel
  have spans : Draft.spans .function 0 Draft.samples ++ Draft.spans .mixin 0 Draft.samples =
      [⟨0, 80⟩, ⟨81, 144⟩] := by decide +kernel
  refine ⟨by decide +kernel, printable, ?_⟩
  rw [(extract_printAll {} Draft.samples printable).1, spans]

end StyleExpansion
