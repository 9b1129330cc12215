import StyleExpansion.Proofs.Locality

namespace StyleExpansion

namespace Traced

variable {ε α β : Type}

theorem log_bind_of_ok {x : Traced ε α} {f : α → Traced ε β} {a : α} (h : x.result = .ok a) :
    (x >>= f).log = x.log ++ (f a).log := by
  obtain ⟨log, result⟩ := x
  cases h
  rfl

/-- A failure over a list is that of one of its items. -/
theorem exists_error_of_mapM {f : α → Traced ε β} {l : List α} {e : ε}
    (h : (l.mapM f).result = .error e) : ∃ a ∈ l, (f a).result = .error e := by
  induction l with
  | nil => cases h
  | cons a l ih =>
    rw [List.mapM_cons] at h
    obtain here | ⟨b, -, later⟩ := result_bind_eq_error h
    · exact ⟨a, List.mem_cons_self, here⟩
    · obtain later | ⟨bs, -, last⟩ := result_bind_eq_error later
      · obtain ⟨c, mem, failed⟩ := ih later
        exact ⟨c, List.mem_cons_of_mem a mem, failed⟩
      · cases last

/-- Where nothing fails, the log over a list is that of its items in order. -/
theorem log_mapM {f : α → Traced ε β} {l : List α} {bs : List β}
    (h : (l.mapM f).result = .ok bs) : (l.mapM f).log = l.flatMap fun a => (f a).log := by
  induction l generalizing bs with
  | nil => rfl
  | cons a l ih =>
    rw [List.mapM_cons] at h ⊢
    obtain ⟨b, here, h⟩ := result_bind_eq_ok h
    obtain ⟨cs, later, -⟩ := result_bind_eq_ok h
    rw [log_bind_of_ok here, log_bind_of_ok later, ih later, List.flatMap_cons, log_pure,
      List.append_nil]

end Traced

/-- A part of a document: text without an apply site, or a site with the arguments in its list and
what its block holds, either of which may be left out. -/
inductive Piece where
  | plain (s : Text)
  | site (name : Text) (args? : Option (List Text)) (contents? : Option Text)
deriving DecidableEq, Repr

/-- Arguments that come back from a list: stripped, and no comma stands outside of their brackets.
An empty one is dropped at the end of a list. -/
structure IsArguments (args : List Text) : Prop where
  each : ∀ t ∈ args, Text.strip t = t ∧ Balanced t ∧ NoTopComma t
  last : args.getLast? ≠ some []

instance (args : List Text) : Decidable (IsArguments args) :=
  decidable_of_iff ((∀ t ∈ args, Text.strip t = t ∧ Balanced t ∧ NoTopComma t) ∧
    args.getLast? ≠ some []) ⟨fun ⟨a, b⟩ => ⟨a, b⟩, fun ⟨a, b⟩ => ⟨a, b⟩⟩

namespace Piece

def list : Option (List Text) → Text
  | none => []
  | some args => '(' :: (Text.commaList args ++ [')'])

def block : Option Text → Text
  | none => []
  | some contents => ' ' :: '{' :: (contents ++ ['}'])

def print : Piece → Text
  | plain s => s
  | site name args? contents? =>
    ApplySite.keyword ++ ' ' :: name ++ list args? ++ block contents? ++ [';']

def Printable : Piece → Prop
  | plain s => '@' ∉ s
  | site name args? contents? =>
    IsName name ∧ (∀ args ∈ args?, IsArguments args) ∧ ∀ contents ∈ contents?, Balanced contents

instance : (p : Piece) → Decidable p.Printable
  | plain s => inferInstanceAs (Decidable ('@' ∉ s))
  | site name args? contents? => inferInstanceAs (Decidable
      (IsName name ∧ (∀ args ∈ args?, IsArguments args) ∧
        ∀ contents ∈ contents?, Balanced contents))

/-- The body of a mixin for a site: the references to parameters are replaced, and the placeholders
are filled when the mixin declares contents or the site has a block. -/
def instantiation (d : Definition) (args? : Option (List Text)) (contents? : Option Text) :
    Except Error Text :=
  let body := substitute Applications.parameterFunction false (d.bind (args?.getD [])) d.body
  if d.takesContents || contents?.isSome then Placeholder.fill contents? body else .ok body

/-- What a piece becomes: plain text stays, a site of an unknown mixin becomes a comment and gives a
warning, and a site of a known one becomes the body of the mixin. -/
def expansion (mixins : Registry) : Piece → Traced Error Text
  | plain s => pure s
  | site name args? contents? =>
    match mixins.get? name with
    | none => do
      Traced.note (.unknownMixin name)
      return Applications.unknownComment name
    | some d => liftM (instantiation d args? contents?)

def warning? (mixins : Registry) : Piece → Option Notice
  | plain _ => none
  | site name _ _ =>
    match mixins.get? name with
    | none => some (.unknownMixin name)
    | some _ => none

theorem replace_eq (mixins : Registry) (name : Text) (args? : Option (List Text))
    (contents? : Option Text) :
    Applications.replace mixins ⟨name, args?.getD [], contents?⟩ =
      (site name args? contents?).expansion mixins := by
  simp only [Applications.replace, expansion]
  cases mixins.get? name with
  | none => rfl
  | some d => rfl

theorem splitArguments_list {args : List Text} (h : IsArguments args) :
    splitArguments (Text.commaList args) = args := by
  have same : args.map Text.strip = args := by
    rw [List.map_congr_left fun t ht => (h.each t ht).1, List.map_id']
  rw [splitArguments_joined fun t ht => ⟨(h.each t ht).2.1.depth, (h.each t ht).2.2⟩, same]
  rw [same]
  exact h.last

/-- The list of arguments is read up to the block, of which no bracket opens a list. -/
theorem read_list {args? : Option (List Text)} (h : ∀ args ∈ args?, IsArguments args)
    (contents? : Option Text) (offset : Nat) (s : Text) :
    ∃ group, Group.read '(' offset
        (Text.afterBlanks (list args? ++ block contents? ++ ';' :: s)) = .ok group ∧
      splitArguments (group.interior?.getD []) = args?.getD [] ∧
      Text.afterBlanks group.rest = Text.afterBlanks (block contents? ++ ';' :: s) := by
  cases args? with
  | none =>
    cases contents? with
    | none => exact ⟨⟨none, 0, ';' :: s⟩, rfl, rfl, rfl⟩
    | some contents => exact ⟨⟨none, 0, '{' :: (contents ++ ['}'] ++ ';' :: s)⟩, rfl, rfl, rfl⟩
  | some args =>
    have given := h args rfl
    have balanced : Balanced (Text.commaList args) :=
      balanced_commaList fun t ht => (given.each t ht).2.1
    have text : Text.afterBlanks (list (some args) ++ block contents? ++ ';' :: s) =
        '(' :: (Text.commaList args ++ ')' :: (block contents? ++ ';' :: s)) := by
      simp only [list, List.cons_append, List.append_assoc, List.nil_append]
      rfl
    rw [text]
    exact ⟨_, Group.read_closed balanced (by decide) offset _, splitArguments_list given, rfl⟩

/-- The block is read up to the semicolon that ends the site. -/
theorem read_block {contents? : Option Text} (h : ∀ contents ∈ contents?, Balanced contents)
    (offset : Nat) (s : Text) :
    ∃ width, Group.read '{' offset (Text.afterBlanks (block contents? ++ ';' :: s)) =
      .ok ⟨contents?, width, ';' :: s⟩ := by
  cases contents? with
  | none => exact ⟨0, rfl⟩
  | some contents =>
    have text : Text.afterBlanks (block (some contents) ++ ';' :: s) =
        '{' :: (contents ++ '}' :: ';' :: s) := by
      simp only [block, List.cons_append, List.append_assoc, List.nil_append]
      rfl
    rw [text]
    exact ⟨_, Group.read_closed (h contents rfl) (by decide) offset _⟩

/-- What follows the name of a printed site is read back, and nothing behind its semicolon is taken
with it. -/
theorem readTail_print {args? : Option (List Text)} {contents? : Option Text}
    (arguments : ∀ args ∈ args?, IsArguments args)
    (balanced : ∀ contents ∈ contents?, Balanced contents) (offset : Nat) (s : Text) :
    ApplySite.readTail offset (list args? ++ block contents? ++ ';' :: s) =
      .ok (some ⟨args?.getD [], contents?, s⟩) := by
  obtain ⟨group, listed, args, behind⟩ := read_list arguments contents?
    (offset + (Text.blanks (list args? ++ block contents? ++ ';' :: s)).length) s
  obtain ⟨width, blocked⟩ := read_block balanced
    (offset + (Text.blanks (list args? ++ block contents? ++ ';' :: s)).length + group.width +
      (Text.blanks group.rest).length) s
  unfold ApplySite.readTail
  simp only [listed, args, behind, blocked]
  cases contents? with
  | none => rfl
  | some contents => rfl

theorem endsName_tail (args? : Option (List Text)) (contents? : Option Text) (s : Text) :
    EndsName (list args? ++ block contents? ++ ';' :: s) := by
  cases args? with
  | some args => exact endsName_cons (by decide) _
  | none =>
    cases contents? with
    | none => exact endsName_cons (by decide) _
    | some contents => exact endsName_cons (by decide) _

/-- The site that is printed is what is met first, and it reaches to the end of its semicolon. -/
theorem next?_print {name : Text} {args? : Option (List Text)} {contents? : Option Text}
    (h : (site name args? contents?).Printable) (offset : Nat) (s : Text) :
    ∃ o, ApplySite.next? offset ((site name args? contents?).print ++ s) = .ok (some o) ∧
      o.before = [] ∧ o.value = some ⟨name, args?.getD [], contents?⟩ ∧ o.rest = s := by
  obtain ⟨isName, arguments, balanced⟩ := h
  have text : (site name args? contents?).print ++ s =
      ApplySite.keyword ++ ' ' :: name ++ (list args? ++ block contents? ++ ';' :: s) := by
    simp [print]
  have found := Reader.find?_eq_of_read? (r := ApplySite.head)
    (readAtRule?_name isName (endsName_tail args? contents? s))
  rw [text, ApplySite.next?, found]
  simp only [readTail_print arguments balanced]
  exact ⟨_, rfl, rfl, rfl, rfl⟩

/-- A text without an at sign is passed over. -/
theorem next?_plain {x : Text} (h : '@' ∉ x) (offset : Nat) (s : Text) :
    ApplySite.next? offset (x ++ s) =
      (ApplySite.next? (offset + x.length) s).map (Option.map (Occurrence.shift x)) := by
  refine ApplySite.next?_shift (Reader.find?_append_of_none ?_ ?_) offset
  · rintro z ⟨y, rfl⟩ some_left
    obtain ⟨c, z, rfl⟩ := List.exists_cons_of_ne_nil some_left
    have other : '@' ≠ c := by
      rintro rfl
      exact h (by simp)
    simp [ApplySite.head, readAtRule?, ApplySite.keyword, Text.after?_cons_of_ne other]
  · cases last : x.getLast? <;> simp [Reader.freeAfter, last, ApplySite.head]

/-- A pass expands the piece that is printed first and goes on behind it. -/
theorem passFrom_print (mixins : Registry) {p : Piece} (h : p.Printable) (offset : Nat)
    (s : Text) : ∃ behind, Applications.passFrom mixins offset (p.print ++ s) = do
      let part ← p.expansion mixins
      let others ← Applications.passFrom mixins behind s
      return part ++ others := by
  cases p with
  | plain x =>
    refine ⟨offset + x.length, ?_⟩
    rw [print, Applications.passFrom_behind mixins (next?_plain h offset s), expansion, pure_bind,
      map_eq_pure_bind]
  | site name args? contents? =>
    obtain ⟨o, next, before, value, rest⟩ := next?_print h offset s
    refine ⟨o.stop offset, ?_⟩
    rw [Applications.passFrom_eq, next]
    simp only [before, value, rest, replace_eq, List.nil_append]

theorem passFrom_document (mixins : Registry) {doc : List Piece} (h : ∀ p ∈ doc, p.Printable)
    (offset : Nat) : Applications.passFrom mixins offset (doc.flatMap print) = do
      let parts ← doc.mapM (expansion mixins)
      return parts.flatten := by
  induction doc generalizing offset with
  | nil =>
    have nothing : ApplySite.next? offset [] = .ok none := rfl
    rw [List.flatMap_nil, Applications.passFrom_eq, nothing]
    simp
  | cons p doc ih =>
    obtain ⟨behind, first⟩ := passFrom_print mixins (h p List.mem_cons_self) offset
      (doc.flatMap print)
    rw [List.flatMap_cons, first, ih fun q hq => h q (List.mem_cons_of_mem p hq)]
    simp

theorem log_expansion (mixins : Registry) (p : Piece) :
    (p.expansion mixins).log = (p.warning? mixins).toList := by
  cases p with
  | plain s => rfl
  | site name args? contents? =>
    simp only [expansion, warning?]
    cases mixins.get? name with
    | none => rfl
    | some d => rfl

/-- A piece fails only where the body of its mixin cannot be put in its place. -/
theorem exists_instantiation_of_error {mixins : Registry} {p : Piece} {e : Error}
    (h : (p.expansion mixins).result = .error e) : ∃ name args? contents? d,
      p = site name args? contents? ∧ mixins.get? name = some d ∧
        instantiation d args? contents? = .error e := by
  cases p with
  | plain s => cases h
  | site name args? contents? =>
    simp only [expansion] at h
    cases known : mixins.get? name with
    | none =>
      rw [known] at h
      cases h
    | some d =>
      rw [known] at h
      exact ⟨name, args?, contents?, d, rfl, known, h⟩

/-- **Documents.** A pass over a printed document gives what its pieces expand to, in order, with
the warnings of its pieces in order, and fails only where the body of a mixin cannot be put in place
of one of its sites. -/
theorem pass_document (mixins : Registry) {doc : List Piece} (h : ∀ p ∈ doc, p.Printable) :
    (Applications.pass mixins (doc.flatMap print) = do
      let parts ← doc.mapM (expansion mixins)
      return parts.flatten) ∧
    (∀ out, (Applications.pass mixins (doc.flatMap print)).result = .ok out →
      (Applications.pass mixins (doc.flatMap print)).log = doc.filterMap (warning? mixins)) ∧
    ∀ e, (Applications.pass mixins (doc.flatMap print)).result = .error e →
      ∃ name args? contents? d, site name args? contents? ∈ doc ∧ mixins.get? name = some d ∧
        instantiation d args? contents? = .error e := by
  have whole := passFrom_document mixins h 0
  refine ⟨whole, fun out given => ?_, fun e failed => ?_⟩
  · rw [Applications.pass, whole] at given ⊢
    obtain ⟨parts, each, -⟩ := Traced.result_bind_eq_ok given
    rw [Traced.log_bind_of_ok each, Traced.log_mapM each, List.filterMap_eq_flatMap_toList]
    simp only [log_expansion, Traced.log_pure, List.append_nil]
  · rw [Applications.pass, whole] at failed
    obtain failed | ⟨parts, -, last⟩ := Traced.result_bind_eq_error failed
    · obtain ⟨p, mem, failed⟩ := Traced.exists_error_of_mapM failed
      obtain ⟨name, args?, contents?, d, rfl, known, failed⟩ := exists_instantiation_of_error failed
      exact ⟨name, args?, contents?, d, mem, known, failed⟩
    · cases last

def card : Registry := Table.ofList
  [("--card".toList, ⟨.mixin true, "--card".toList, [⟨"--p".toList, none⟩],
    "a: env(--p); @contents;".toList⟩)]

def sample : List Piece :=
  [.plain "x".toList, .site "--card".toList (some ["".toList, "(1, 2)".toList]) none,
    .site "--card".toList (some ["(1, 2)".toList]) (some "@apply --n;".toList), .plain ";".toList,
    .site "--n".toList none none]

theorem pass_document_sample :
    (∀ p ∈ sample, p.Printable) ∧
    sample.flatMap print =
      "x@apply --card(, (1, 2));@apply --card((1, 2)) \x7b@apply --n;\x7d;;@apply --n;".toList ∧
    Applications.pass card (sample.flatMap print) =
      ⟨[.unknownMixin "--n".toList],
        .ok "xa: ; a: (1, 2); @apply --n;;/* Unknown mixin: --n */".toList⟩ := by
  have printable : ∀ p ∈ sample, p.Printable := by decide +kernel
  have result : (Applications.pass card (sample.flatMap print)).result =
      .ok "xa: ; a: (1, 2); @apply --n;;/* Unknown mixin: --n */".toList := by decide +kernel
  have warnings := (pass_document card printable).2.1 _ result
  exact ⟨printable, by decide +kernel, Traced.ext warnings result⟩

end Piece

end StyleExpansion
