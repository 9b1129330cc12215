import StyleExpansion.Proofs.CallByName
import StyleExpansion.Proofs.Inert

namespace StyleExpansion

/-- A balanced text that starts within a block ends within it. -/
theorem Balanced.ends_within {x t y m rest : Text} {closer : Char} (balanced : Balanced t)
    (closing : isClosing closer) (inside : Balanced (x ++ m)) (cut : t ++ y = m ++ closer :: rest) :
    ∃ y', m = t ++ y' ∧ y = y' ++ closer :: rest := by
  rcases List.append_eq_append_iff.1 cut with ⟨y', whole, after⟩ | ⟨k, whole, tail⟩
  · exact ⟨y', whole, after⟩
  · cases k with
    | nil => exact ⟨[], by simpa using whole.symm, by simpa using tail.symm⟩
    | cons c k =>
      -- The closing bracket of the block would close one of the text's own.
      exfalso
      obtain rfl : closer = c := (List.cons.inj tail).1
      rw [whole] at balanced
      have up := balanced.2 (m ++ [closer]) ⟨k, by simp⟩
      have down := inside.sealed (Int.le_refl 0) m (List.suffix_append x m)
      rw [bracketDepth_append, bracketDepth_cons, bracketWeight_of_isClosing closing] at up
      simp only [bracketDepth_nil] at up
      omega

/-- A word that may stand before the opening bracket of a reference. -/
structure IsWord (s : Text) : Prop where
  ne_nil : s ≠ []
  isNameChar : ∀ c ∈ s, isNameChar c

namespace Reference

/-- The text is a reference through `function` from its first to its last character. -/
def Spells (function lexeme : Text) (ref : Reference) : Prop :=
  ∃ interior closer, lexeme = function ++ '(' :: interior ++ [closer] ∧ isClosing closer ∧
    Balanced interior ∧ parse? interior = some ref

theorem read?_opener (function rest : Text) :
    (opener function).read? (function ++ '(' :: rest) = some ⟨(), function ++ ['('], rest⟩ := by
  rw [List.append_cons]
  simp only [opener, readOpener?, Text.after?_append, Option.map_some]

variable {function lexeme : Text} {ref : Reference}

theorem spells_name (function : Text) {name : Text} (h : IsName name) :
    Spells function (function ++ '(' :: name ++ [')']) ⟨name, none⟩ :=
  ⟨name, ')', rfl, rfl, h.balanced, parse?_name h⟩

/-- The leftmost opening in the text is that of a reference, and `block` is what its bracket
encloses. -/
structure Leftmost (function s : Text) (o : Occurrence Unit) (block : Block) (ref : Reference) :
    Prop where
  found : (opener function).find? s = some o
  closed : enclosed? o.rest = some block
  parsed : parse? block.interior = some ref

theorem Leftmost.spells {s : Text} {o : Occurrence Unit} {block : Block}
    (h : Leftmost function s o block ref) : Spells function (o.lexeme ++ block.closed) ref := by
  obtain ⟨_, closer, balanced⟩ := enclosed?_eq_some_iff.1 h.closed
  refine ⟨block.interior, block.closer, ?_, closer, balanced, h.parsed⟩
  rw [lexeme_of_find? h.found, Block.closed]
  simp

/-- A reference is read where it starts. -/
theorem Spells.enclosed?_eq (spells : Spells function lexeme ref) {rest y : Text}
    (here : function ++ ['('] ++ rest = lexeme ++ y) : ∃ block, enclosed? rest = some block ∧
      parse? block.interior = some ref ∧ lexeme = function ++ ['('] ++ block.closed ∧
        y = block.rest := by
  obtain ⟨interior, closer, rfl, closing, balanced, read⟩ := spells
  obtain rfl : rest = interior ++ closer :: y := by simpa using here
  exact ⟨_, enclosed?_balanced balanced closing, read, by simp [Block.closed], rfl⟩

theorem Spells.balanced (word : IsWord function)
    (spells : Spells function lexeme ref) : Balanced lexeme := by
  obtain ⟨interior, closer, rfl, closing, balanced, -⟩ := spells
  rw [List.append_assoc]
  have plain := balanced_of_plain fun c hc => isPlain_of_isNameChar (word.isNameChar c hc)
  exact plain.append (balanced.bracketed rfl closing)

/-- What a reference starts with, before its bracket, ends in a name character. -/
theorem Spells.eq_nil_of_prefix (word : IsWord function)
    (spells : Spells function lexeme ref) {x y : Text} (front : x <+: lexeme ++ y)
    (bracket : '(' ∉ x) (starts : StartsName x) : x = [] := by
  obtain ⟨interior, closer, rfl, -, -, -⟩ := spells
  have inside : x <+: function := by
    obtain ⟨z, cut⟩ := front
    rw [List.append_assoc, List.append_assoc] at cut
    rcases List.append_eq_append_iff.1 cut with ⟨m, whole, -⟩ | ⟨m, rfl, tail⟩
    · exact ⟨m, whole.symm⟩
    · cases m with
      | nil => simp
      | cons c m =>
        obtain rfl : '(' = c := (List.cons.inj tail).1
        exact absurd (by simp) bracket
  exact starts.eq_nil fun c hc => word.isNameChar c (inside.subset hc)

/-- The search finds a reference of the template or an opening that ends before it. -/
theorem Spells.find?_cases (word : IsWord function) (spells : Spells function lexeme ref)
    {x y : Text} (starts : StartsName x) :
    ∃ o, (opener function).find? (x ++ lexeme ++ y) = some o ∧
      ((x = o.before ∧ function ++ ['('] ++ o.rest = lexeme ++ y) ∨
        ∃ x', x = o.before ++ o.lexeme ++ x' ∧ o.rest = x' ++ lexeme ++ y ∧ StartsName x') := by
  have read : ∃ r, (opener function).read? (lexeme ++ y) = some r := by
    obtain ⟨interior, closer, rfl, -, -, -⟩ := spells
    exact ⟨_, by simpa using read?_opener function (interior ++ closer :: y)⟩
  obtain ⟨r, read⟩ := read
  have free : ∀ c ∈ x.getLast?, (opener function).mayFollow c = true := by
    intro c hc
    simp [opener, starts c hc]
  obtain ⟨o, behind, found, parts, -⟩ := Reader.find?_le read free
  rw [← List.append_assoc] at found
  refine ⟨o, found, ?_⟩
  have cut := Reader.find?_append found
  rw [parts, List.append_assoc, List.append_assoc, List.append_assoc] at cut
  have tail := List.append_cancel_left cut
  rw [parts] at starts
  have later := starts.of_append
  rcases List.append_eq_append_iff.1 tail with ⟨x', rfl, rest⟩ | ⟨e, lexeme_eq, e_eq⟩
  · right
    exact ⟨x', by rw [parts, List.append_assoc], by simpa using rest, later.of_append⟩
  · cases e with
    | nil =>
      right
      rw [List.append_nil] at lexeme_eq
      exact ⟨[], by simp [parts, lexeme_eq], by simpa using e_eq.symm, by simp [StartsName]⟩
    | cons c e =>
      left
      -- Two openings do not overlap, since an opening is name characters up to its bracket.
      rw [lexeme_of_find? found] at lexeme_eq tail
      have inside := congrArg List.dropLast lexeme_eq
      rw [List.dropLast_concat, List.dropLast_append_of_ne_nil (List.cons_ne_nil c e)] at inside
      obtain rfl : behind = [] := later.eq_nil fun d hd =>
        word.isNameChar d (inside ▸ List.mem_append_left _ hd)
      exact ⟨by simpa using parts, by simpa using tail⟩

/-- A reference behind an opening bracket stands behind the block of the bracket or inside it. -/
theorem Spells.enclosed?_cases (word : IsWord function) (spells : Spells function lexeme ref)
    {x y : Text} (starts : StartsName x) {block : Block}
    (closed : enclosed? (x ++ lexeme ++ y) = some block) :
    (∃ x', x = block.closed ++ x' ∧ block.rest = x' ++ lexeme ++ y ∧ StartsName x') ∨
      ∃ y', block.interior = x ++ lexeme ++ y' ∧ y = y' ++ block.closer :: block.rest := by
  obtain ⟨cut, closer, inside⟩ := enclosed?_eq_some_iff.1 closed
  rw [List.append_assoc] at cut
  rcases List.append_eq_append_iff.1 cut with ⟨m, interior, tail⟩ | ⟨m, rfl, tail⟩
  · right
    rw [interior] at inside
    obtain ⟨y', rfl, after⟩ := (spells.balanced word).ends_within closer inside tail
    exact ⟨y', by rw [interior, List.append_assoc], after⟩
  · left
    cases m with
    | nil =>
      exfalso
      obtain ⟨interior, _, rfl, -, -, -⟩ := spells
      cases function with
      | nil => exact word.ne_nil rfl
      | cons c function =>
        obtain rfl : block.closer = c := (List.cons.inj tail).1
        have plain := isPlain_of_isNameChar (word.isNameChar _ List.mem_cons_self)
        simp [isPlain, closer] at plain
    | cons c x' =>
      obtain ⟨rfl, rest⟩ := List.cons.inj tail
      have parts : block.interior ++ block.closer :: x' = block.closed ++ x' := by
        simp [Block.closed]
      rw [parts] at starts ⊢
      exact ⟨x', rfl, by simpa using rest, starts.of_append⟩

/-- The three places of a reference with respect to the leftmost one. -/
theorem Spells.place (word : IsWord function) (spells : Spells function lexeme ref)
    {s x y : Text} (cut : s = x ++ lexeme ++ y) (starts : StartsName x) {o : Occurrence Unit}
    {block : Block} {outer : Reference} (first : Leftmost function s o block outer) :
    (x = o.before ∧ lexeme = o.lexeme ++ block.closed ∧ y = block.rest ∧ ref = outer) ∨
      (∃ x' y', x = o.before ++ o.lexeme ++ x' ∧ block.interior = x' ++ lexeme ++ y' ∧
        y = y' ++ block.closer :: block.rest ∧ StartsName x') ∨
      ∃ x', x = o.before ++ o.lexeme ++ block.closed ++ x' ∧ block.rest = x' ++ lexeme ++ y ∧
        StartsName x' := by
  obtain ⟨found, closed, parsed⟩ := first
  obtain ⟨p, found', places⟩ := spells.find?_cases word (y := y) starts
  rw [← cut, found] at found'
  obtain rfl := Option.some.inj found'
  rcases places with ⟨before, here⟩ | ⟨x', before, rest, starts'⟩
  · left
    obtain ⟨block', closed', parsed', lexeme_eq, after⟩ := spells.enclosed?_eq here
    obtain rfl := Option.some.inj (closed.symm.trans closed')
    rw [lexeme_of_find? found]
    exact ⟨before, lexeme_eq, after, Option.some.inj (parsed'.symm.trans parsed)⟩
  · right
    rw [rest] at closed
    rcases spells.enclosed?_cases word starts' closed with
      ⟨x'', rfl, behind, starts''⟩ | ⟨y', inside, after⟩
    · right
      exact ⟨x'', by simp [before], behind, starts''⟩
    · left
      exact ⟨x', y', before, inside, after, starts'⟩

/-- What stands before a fallback: the name and a comma, with blanks around them. -/
def Introduces (lead : Text) (ref : Reference) : Prop :=
  ∃ gap gap' gap'', lead = gap ++ ref.name ++ gap' ++ ',' :: gap'' ∧ IsName ref.name ∧
    ∀ c ∈ gap ++ gap' ++ gap'', isBlank c

theorem Introduces.bracket_notMem {lead : Text} (h : Introduces lead ref) : '(' ∉ lead := by
  obtain ⟨gap, gap', gap'', rfl, name, blank⟩ := h
  have gaps : '(' ∉ gap ++ gap' ++ gap'' := fun mem => absurd (blank _ mem) (by decide)
  simp only [List.mem_append, not_or] at gaps
  simp [gaps, name.notMem (c := '(') (by decide)]

theorem Introduces.startsName {lead : Text} (h : Introduces lead ref) : StartsName lead := by
  obtain ⟨gap, gap', gap'', rfl, name, blank⟩ := h
  intro c hc
  rw [List.getLast?_append_of_ne_nil _ (List.cons_ne_nil _ _)] at hc
  rcases List.mem_cons.1 (List.mem_of_getLast? hc) with rfl | mem
  · decide
  · rw [Bool.eq_false_iff]
    intro named
    have := blank c (List.mem_append_right _ mem)
    rw [not_isBlank_of_isNameChar named] at this
    cases this

/-- The interior of a reference with a fallback, cut around the fallback without its blanks. -/
theorem introduces_of_parse? {interior fallback : Text} (parsed : parse? interior = some ref)
    (given : ref.fallback? = some fallback) : ∃ lead trail,
      interior = lead ++ Text.strip fallback ++ trail ∧ Introduces lead ref ∧
        ∀ c ∈ trail, isBlank c := by
  obtain ⟨gap, gap', rfl, blank, name, blank'⟩ := parse?_parts parsed
  obtain ⟨gap'', trail, cut, blank'', ends⟩ := Text.strip_cut fallback
  refine ⟨gap ++ ref.name ++ gap' ++ ',' :: gap'', trail, ?_, ⟨gap, gap', gap'', rfl, name, ?_⟩,
    ends⟩
  · rw [given, Option.elim_some]
    nth_rewrite 1 [cut]
    simp
  · simp only [List.mem_append]
    rintro c ((hc | hc) | hc)
    · exact blank c hc
    · exact blank' c hc
    · exact blank'' c hc

/-- A reference that holds another one has a fallback: its name and the blanks there hold no
bracket. -/
theorem Spells.fallback?_ne_none (spells : Spells function lexeme ref) {x y : Text}
    {outer : Reference} (parsed : parse? (x ++ lexeme ++ y) = some outer) :
    outer.fallback? ≠ none := by
  intro none_given
  obtain ⟨gap, gap', cut, blank, name, blank'⟩ := parse?_parts parsed
  obtain ⟨interior, closer, rfl, -, -, -⟩ := spells
  rw [none_given] at cut
  have mem : '(' ∈ gap ++ outer.name ++ gap' ++ [] := by
    rw [Option.elim_none] at cut
    rw [← cut]
    simp
  simp only [List.mem_append, List.not_mem_nil, or_false] at mem
  rcases mem with (mem | mem) | mem
  · exact absurd (blank _ mem) (by decide)
  · exact name.notMem (by decide) mem
  · exact absurd (blank' _ mem) (by decide)

/-- A reference within one with a fallback stands in the fallback. -/
theorem Spells.within_fallback (word : IsWord function)
    (spells : Spells function lexeme ref) {x y lead inner trail : Text} {outer : Reference}
    (cut : x ++ lexeme ++ y = lead ++ inner ++ trail) (starts : StartsName x)
    (introduces : Introduces lead outer) (blank : ∀ c ∈ trail, isBlank c) :
    ∃ x' y', x = lead ++ x' ∧ inner = x' ++ lexeme ++ y' ∧ y = y' ++ trail ∧ StartsName x' := by
  have front : ∃ x', x = lead ++ x' ∧ inner ++ trail = x' ++ lexeme ++ y := by
    rw [List.append_assoc, List.append_assoc] at cut
    rcases List.append_eq_append_iff.1 cut with ⟨k, lead_eq, tail⟩ | ⟨x', rfl, tail⟩
    · rw [lead_eq] at introduces
      obtain rfl : k = [] := by
        refine spells.eq_nil_of_prefix word (x := k) (y := y) ⟨_, tail.symm⟩ ?_
          introduces.startsName.of_append
        exact fun mem => introduces.bracket_notMem (List.mem_append_right _ mem)
      rw [List.append_nil] at lead_eq
      exact ⟨[], by simp [lead_eq], by simpa using tail.symm⟩
    · exact ⟨x', rfl, by simpa using tail⟩
  obtain ⟨x', rfl, tail⟩ := front
  rcases List.append_eq_append_iff.1 tail with ⟨k, whole, trail_eq⟩ | ⟨y', whole, y_eq⟩
  · cases k with
    | nil =>
      exact ⟨x', [], rfl, by simpa using whole.symm, by simpa using trail_eq.symm,
        starts.of_append⟩
    | cons c k =>
      -- The closing bracket of the reference would be one of the blanks.
      exfalso
      obtain ⟨interior, closer, rfl, closing, -, -⟩ := spells
      have last := congrArg List.getLast? whole
      rw [List.getLast?_append_of_ne_nil _ (List.cons_ne_nil c k)] at last
      have mem : closer ∈ c :: k := List.mem_of_getLast? (by
        rw [← last, ← List.append_assoc]
        exact List.getLast?_concat)
      have plain := isPlain_of_isBlank (blank closer (trail_eq ▸ List.mem_append_left _ mem))
      simp [isPlain, closing] at plain
  · exact ⟨x', y', rfl, whole, y_eq, starts.of_append⟩

end Reference

/-! ## The steps of a substitution -/

namespace Substitution

/-- A step of a substitution, with the part of the template that it is about. -/
inductive Step where
  | copied (text : Text)
  | replaced (lexeme : Text) (ref : Reference) (value : Text)
  | opened (lexeme : Text) (ref : Reference)
  | closed (lexeme : Text)
  | kept (lexeme : Text) (ref : Reference)

namespace Step

def source : Step → Text
  | copied text => text
  | replaced lexeme _ _ => lexeme
  | opened lexeme _ => lexeme
  | closed lexeme => lexeme
  | kept lexeme _ => lexeme

def written : Step → Text
  | copied text => text
  | replaced _ _ value => value
  | opened _ _ => []
  | closed _ => []
  | kept lexeme _ => lexeme

/-- The step is right for the bindings: a value is put in place of a reference to its name, the
fallback is used where there is no value, and what stays has neither. -/
def Right (function : Text) (boundOnly : Bool) (bindings : Bindings) : Step → Prop
  | copied _ => True
  | replaced lexeme ref value =>
    Reference.Spells function lexeme ref ∧ bindings.get? ref.name = some (some value)
  | opened lexeme ref =>
    ∃ lead, lexeme = function ++ '(' :: lead ∧ Reference.Introduces lead ref ∧
      (bindings.get? ref.name).join = none ∧ (bindings.contains ref.name || !boundOnly)
  | closed lexeme =>
    ∃ trail closer, lexeme = trail ++ [closer] ∧ (∀ c ∈ trail, isBlank c) ∧ isClosing closer
  | kept lexeme ref =>
    Reference.Spells function lexeme ref ∧ (bindings.get? ref.name).join = none ∧
      (ref.fallback? = none ∨ (bindings.contains ref.name = false ∧ boundOnly))

end Step

def sources (steps : List Step) : Text := steps.flatMap Step.source

def written (steps : List Step) : Text := steps.flatMap Step.written

@[simp] theorem sources_nil : sources [] = [] := rfl

@[simp] theorem sources_cons (step : Step) (steps : List Step) :
    sources (step :: steps) = step.source ++ sources steps := rfl

@[simp] theorem sources_append (front back : List Step) :
    sources (front ++ back) = sources front ++ sources back :=
  List.flatMap_append

@[simp] theorem written_nil : written [] = [] := rfl

@[simp] theorem written_cons (step : Step) (steps : List Step) :
    written (step :: steps) = step.written ++ written steps := rfl

@[simp] theorem written_append (front back : List Step) :
    written (front ++ back) = written front ++ written back :=
  List.flatMap_append

/-- The text `part` of the template, with `x` before it and `y` behind it, is in this one of the
steps. -/
def Takes (steps : List Step) (x part y : Text) (step : Step) : Prop :=
  ∃ front back a b, steps = front ++ step :: back ∧ x = sources front ++ a ∧
    step.source = a ++ part ++ b ∧ y = b ++ sources back

theorem Takes.within {steps : List Step} {x part y : Text} {step : Step}
    (h : Takes steps x part y step) (front back : List Step) :
    Takes (front ++ steps ++ back) (sources front ++ x) part (y ++ sources back) step := by
  obtain ⟨before, after, a, b, rfl, rfl, whole, rfl⟩ := h
  exact ⟨front ++ before, after ++ back, a, b, by simp, by simp, whole, by simp⟩

theorem takes_single {step : Step} {x part y : Text} (h : step.source = x ++ part ++ y) :
    Takes [step] x part y step :=
  ⟨[], [], x, y, rfl, rfl, h, by simp⟩

section
variable {function : Text} {boundOnly : Bool} {bindings : Bindings}

/-- What becomes of a reference that has a value: it is replaced by it, alone or in a reference
that is replaced, or it is in a reference that stays since its name is not bound. -/
inductive Met (bindings : Bindings) (boundOnly : Bool) (steps : List Step) (x lexeme y : Text)
    (ref : Reference) (value : Text) : Prop
  | replaced (alone : Takes steps x lexeme y (.replaced lexeme ref value))
  | along {outer : Text} {other : Reference} {instead : Text}
      (around : Takes steps x lexeme y (.replaced outer other instead))
  | unbound {outer : Text} {other : Reference} (around : Takes steps x lexeme y (.kept outer other))
      (other_unbound : bindings.contains other.name = false) (bound_only : boundOnly = true)

theorem Met.within {steps : List Step} {x lexeme y value : Text} {ref : Reference}
    (h : Met bindings boundOnly steps x lexeme y ref value) (front back : List Step) :
    Met bindings boundOnly (front ++ steps ++ back) (sources front ++ x) lexeme
      (y ++ sources back) ref value := by
  cases h with
  | replaced alone => exact .replaced (alone.within front back)
  | along around => exact .along (around.within front back)
  | unbound around other bound => exact .unbound (around.within front back) other bound

/-- The steps make the text `t` out of the template `s`, and no reference that has a value is left
out. -/
structure Account (function : Text) (boundOnly : Bool) (bindings : Bindings) (s t : Text)
    (steps : List Step) : Prop where
  sources_eq : sources steps = s
  written_eq : written steps = t
  right : ∀ step ∈ steps, step.Right function boundOnly bindings
  complete : ∀ x lexeme y ref value, s = x ++ lexeme ++ y → StartsName x →
    Reference.Spells function lexeme ref → bindings.get? ref.name = some (some value) →
      Met bindings boundOnly steps x lexeme y ref value

variable {s t : Text} {o : Occurrence Unit} {steps : List Step}

/-- An opening that no reference starts with is copied. -/
theorem Account.skip (word : IsWord function)
    (found : (Reference.opener function).find? s = some o)
    (none_here : (enclosed? o.rest).bind (fun block => Reference.parse? block.interior) = none)
    (rest : Account function boundOnly bindings o.rest t steps) :
    Account function boundOnly bindings s (o.before ++ o.lexeme ++ t)
      (.copied (o.before ++ o.lexeme) :: steps) where
  sources_eq := by
    rw [sources_cons, rest.sources_eq]
    exact Reader.find?_append found
  written_eq := by rw [written_cons, rest.written_eq]; rfl
  right := List.forall_mem_cons.2 ⟨trivial, rest.right⟩
  complete x lexeme y ref value cut starts spells bound := by
    obtain ⟨p, found', places⟩ := spells.find?_cases word (y := y) starts
    rw [← cut, found] at found'
    obtain rfl := Option.some.inj found'
    rcases places with ⟨-, here⟩ | ⟨x', rfl, rest_eq, starts'⟩
    · exfalso
      obtain ⟨block, closed, parsed, -, -⟩ := spells.enclosed?_eq here
      rw [closed, Option.bind_some, parsed] at none_here
      cases none_here
    · have met := rest.complete x' lexeme y ref value rest_eq starts' spells bound
      simpa [Step.source] using met.within [.copied (o.before ++ o.lexeme)] []

/-- The text before a reference is copied and the steps for the reference come next, then those
for the rest. -/
theorem Account.reference (word : IsWord function) {block : Block} {outer : Reference}
    (first : Reference.Leftmost function s o block outer)
    {middle : List Step} (sources_eq : sources middle = o.lexeme ++ block.closed) {u : Text}
    (written_eq : written middle = u) (right : ∀ step ∈ middle, step.Right function boundOnly bindings)
    (here : ∀ value, bindings.get? outer.name = some (some value) →
      Met bindings boundOnly middle [] (o.lexeme ++ block.closed) [] outer value)
    (inside : ∀ x lexeme y ref value, block.interior = x ++ lexeme ++ y → StartsName x →
      Reference.Spells function lexeme ref → bindings.get? ref.name = some (some value) →
        Met bindings boundOnly middle (o.lexeme ++ x) lexeme (y ++ [block.closer]) ref value)
    (rest : Account function boundOnly bindings block.rest t steps) :
    Account function boundOnly bindings s (o.before ++ u ++ t)
      (.copied o.before :: middle ++ steps) where
  sources_eq := by
    have behind := enclosed?_append first.closed
    rw [List.cons_append, sources_cons, sources_append, sources_eq, rest.sources_eq,
      ← Reader.find?_append first.found, ← behind]
    simp [Block.closed, Step.source]
  written_eq := by simp [Step.written, written_eq, rest.written_eq]
  right := by
    rw [List.cons_append, List.forall_mem_cons, List.forall_mem_append]
    exact ⟨trivial, right, rest.right⟩
  complete x lexeme y ref value cut starts spells bound := by
    rcases spells.place word cut starts first with
      ⟨rfl, rfl, rfl, rfl⟩ | ⟨x', y', rfl, interior, rfl, starts'⟩ | ⟨x', rfl, behind, starts'⟩
    · simpa [Step.source, rest.sources_eq] using (here value bound).within [.copied o.before] steps
    · have met := inside x' lexeme y' ref value interior starts' spells bound
      simpa [Step.source, rest.sources_eq] using met.within [.copied o.before] steps
    · have met := rest.complete x' lexeme y ref value behind starts' spells bound
      simpa [Step.source, sources_eq] using met.within (.copied o.before :: middle) []

/-- A reference that has a value is replaced by it with all that it holds. -/
theorem Account.replaced (word : IsWord function) {block : Block} {outer : Reference}
    (first : Reference.Leftmost function s o block outer)
    {value : Text} (bound : bindings.get? outer.name = some (some value))
    (rest : Account function boundOnly bindings block.rest t steps) :
    Account function boundOnly bindings s (o.before ++ value ++ t)
      (.copied o.before :: [.replaced (o.lexeme ++ block.closed) outer value] ++ steps) := by
  apply rest.reference word first
  case sources_eq =>
    simp [Step.source]
  case written_eq =>
    simp [Step.written]
  case right =>
    rw [List.forall_mem_singleton]
    exact ⟨first.spells, bound⟩
  case here =>
    intro other given
    obtain rfl := Option.some.inj (Option.some.inj (given.symm.trans bound))
    exact .replaced (takes_single (by simp [Step.source]))
  case inside =>
    intro x lexeme y ref other cut _ _ _
    exact .along (takes_single (by simp [Step.source, Block.closed, cut]))

/-- A reference without a value stays if it has no fallback, or if its name is not bound. -/
theorem Account.kept (word : IsWord function) {block : Block} {outer : Reference}
    (first : Reference.Leftmost function s o block outer)
    (no_value : (bindings.get? outer.name).join = none)
    (stays : outer.fallback? = none ∨ (bindings.contains outer.name = false ∧ boundOnly))
    (rest : Account function boundOnly bindings block.rest t steps) :
    Account function boundOnly bindings s (o.before ++ (o.lexeme ++ block.closed) ++ t)
      (.copied o.before :: [.kept (o.lexeme ++ block.closed) outer] ++ steps) := by
  apply rest.reference word first
  case sources_eq =>
    simp [Step.source]
  case written_eq =>
    simp [Step.written]
  case right =>
    rw [List.forall_mem_singleton]
    exact ⟨first.spells, no_value, stays⟩
  case here =>
    intro value given
    rw [given] at no_value
    cases no_value
  case inside =>
    intro x lexeme y ref value cut _ spells _
    rcases stays with none_given | ⟨unbound, bound_only⟩
    · exact absurd none_given (spells.fallback?_ne_none (cut ▸ first.parsed))
    · exact .unbound (takes_single (by simp [Step.source, Block.closed, cut])) unbound bound_only

/-- The fallback of a reference without a value is put in its place, by steps of its own. -/
theorem Account.used (word : IsWord function) {block : Block} {outer : Reference}
    (first : Reference.Leftmost function s o block outer)
    (no_value : (bindings.get? outer.name).join = none) {fallback : Text}
    (given : outer.fallback? = some fallback)
    (usable : (bindings.contains outer.name || !boundOnly) = true) {u : Text} {within : List Step}
    (inner : Account function boundOnly bindings (Text.strip fallback) u within)
    (rest : Account function boundOnly bindings block.rest t steps) :
    ∃ steps, Account function boundOnly bindings s (o.before ++ u ++ t) steps := by
  obtain ⟨lead, trail, interior, introduces, blank⟩ :=
    Reference.introduces_of_parse? first.parsed given
  refine ⟨.copied o.before :: (.opened (o.lexeme ++ lead) outer ::
    (within ++ [.closed (trail ++ [block.closer])])) ++ steps, ?_⟩
  apply rest.reference word first
  case sources_eq =>
    simp [Step.source, inner.sources_eq, Block.closed, interior]
  case written_eq =>
    simp [Step.written, inner.written_eq]
  case right =>
    rw [List.forall_mem_cons, List.forall_mem_append, List.forall_mem_singleton]
    refine ⟨⟨lead, ?_, introduces, no_value, usable⟩, inner.right, trail, block.closer, rfl,
      blank, (enclosed?_eq_some_iff.1 first.closed).2.1⟩
    rw [Reference.lexeme_of_find? first.found]
    simp
  case here =>
    intro value bound
    rw [bound] at no_value
    cases no_value
  case inside =>
    intro x lexeme y ref value cut starts spells bound
    obtain ⟨x', y', rfl, parts, rfl, starts'⟩ :=
      spells.within_fallback word (cut.symm.trans interior) starts introduces blank
    have met := inner.complete x' lexeme y' ref value parts starts' spells bound
    simpa [Step.source] using
      met.within [.opened (o.lexeme ++ lead) outer] [.closed (trail ++ [block.closer])]

/-- What substitution does with any template, step by step. -/
theorem exists_account (word : IsWord function) (s : Text) : ∃ steps,
      Account function boundOnly bindings s (substitute function boundOnly bindings s) steps := by
  fun_induction substitute function boundOnly bindings s with
  | case1 s none_found =>
    refine ⟨[.copied s], by simp [Step.source], by simp [Step.written], by simp [Step.Right], ?_⟩
    intro x lexeme y ref value cut starts spells _
    obtain ⟨o, found, -⟩ := spells.find?_cases word (y := y) starts
    rw [← cut, none_found] at found
    cases found
  | case2 s o found unclosed ih =>
    obtain ⟨steps, rest⟩ := ih
    exact ⟨_, rest.skip word found (by rw [unclosed]; rfl)⟩
  | case3 s o found block closed unparsed ih =>
    obtain ⟨steps, rest⟩ := ih
    exact ⟨_, rest.skip word found (by rw [closed, Option.bind_some, unparsed])⟩
  | case4 s o found block closed ref parsed value? ihf ih =>
    obtain ⟨steps, rest⟩ := ih
    have first : Reference.Leftmost function s o block ref := ⟨found, closed, parsed⟩
    simp only [value?]
    split
    · rename_i value lookedUp
      have bound := Option.join_eq_some_iff.1 lookedUp
      exact ⟨_, rest.replaced word first bound⟩
    · rename_i fallback no_value given
      split
      · rename_i usable
        obtain ⟨within, inner⟩ := ihf fallback given
        exact inner.used word first no_value given usable rest
      · rename_i unusable
        have foreign : bindings.contains ref.name = false ∧ boundOnly := by
          simpa using unusable
        exact ⟨_, rest.kept word first no_value (.inr foreign)⟩
    · rename_i no_value none_given
      exact ⟨_, rest.kept word first no_value (.inl none_given)⟩

end

end Substitution

theorem Reference.parse?_fallback {name : Text} (h : IsName name) (fallback : Text) :
    parse? (name ++ ',' :: fallback) = some ⟨name, some fallback⟩ := by
  have lead : Text.afterBlanks (name ++ ',' :: fallback) = name ++ ',' :: fallback := by
    obtain ⟨run, rfl, -⟩ := h
    rfl
  have read := readName?_name h (endsName_cons (by decide) fallback : EndsName (',' :: fallback))
  rw [parse?, lead, read]
  rfl

/-- A reference at the head of a text is replaced, or stays, and what follows it comes next. -/
theorem substitute_reference {function interior : Text} {boundOnly : Bool} {bindings : Bindings}
    {ref : Reference} (balanced : Balanced interior)
    (parsed : Reference.parse? interior = some ref) (s : Text) :
    substitute function boundOnly bindings (function ++ '(' :: interior ++ ')' :: s) =
      (ref.replacement? function boundOnly bindings).getD (function ++ '(' :: interior ++ [')']) ++
        substitute function boundOnly bindings s := by
  have whole : function ++ '(' :: interior ++ ')' :: s =
      function ++ '(' :: (interior ++ ')' :: s) := by simp
  have read := Reference.read?_opener function (interior ++ ')' :: s)
  have closed : enclosed? (interior ++ ')' :: s) = some ⟨interior, ')', s⟩ :=
    enclosed?_balanced balanced rfl
  rw [whole, substitute_eq, Reader.find?_eq_of_read? read]
  simp [closed, parsed, Block.closed]

@[simp] theorem substitute_nil (function : Text) (boundOnly : Bool) (bindings : Bindings) :
    substitute function boundOnly bindings [] = [] := by
  rw [substitute_eq]
  rfl

/-- A reference to a name that is not bound stays as it is, with all that its fallback holds. -/
theorem substitute_unbound {function name fallback : Text} {bindings : Bindings}
    (is_name : IsName name) (unbound : bindings.contains name = false)
    (balanced : Balanced fallback) :
    substitute function true bindings (function ++ '(' :: name ++ ',' :: fallback ++ [')']) =
      function ++ '(' :: name ++ ',' :: fallback ++ [')'] := by
  have comma : Balanced [','] := by decide
  have interior : Balanced (name ++ ',' :: fallback) :=
    is_name.balanced.append (comma.append balanced)
  have no_value : (bindings.get? name).join = none := by
    rw [Table.contains_eq_isSome, Option.isSome_eq_false_iff, Option.isNone_iff_eq_none] at unbound
    rw [unbound]
    rfl
  have whole : function ++ '(' :: name ++ ',' :: fallback ++ [')'] =
      function ++ '(' :: (name ++ ',' :: fallback) ++ ')' :: [] := by simp
  rw [whole, substitute_reference interior (Reference.parse?_fallback is_name fallback)]
  simp [Reference.replacement?, no_value, unbound]

namespace Calls

/-- A call replaces the references of the result expression that have a value, at any depth of the
fallbacks that are used. A reference to a name that is no parameter stays with its fallback. -/
theorem evaluate_replaces_parameters :
    (∀ (bindings : Bindings) (q t : Text), IsName q → bindings.contains q = false → Balanced t →
      substitute parameterFunction true bindings
          (parameterFunction ++ '(' :: q ++ ',' :: ' ' :: t ++ [')']) =
        parameterFunction ++ '(' :: q ++ ',' :: ' ' :: t ++ [')']) ∧
    ∀ (d : Definition) (args : List Text) (result : Text),
      ResultClause.extract d.name d.body = .ok result →
        ∃ value steps, evaluate d args = .ok value ∧
          Substitution.Account parameterFunction true (d.bind args) result value steps ∧
          ∀ x p v y, result = x ++ (parameterFunction ++ '(' :: p ++ [')']) ++ y →
            StartsName x → IsName p → (d.bind args).get? p = some (some v) →
              Substitution.Met (d.bind args) true steps x
                (parameterFunction ++ '(' :: p ++ [')']) y ⟨p, none⟩ v := by
  constructor
  · intro bindings q t is_name unbound balanced
    have space : Balanced [' '] := by decide
    exact substitute_unbound is_name unbound (space.append balanced)
  · intro d args result clause
    have word : IsWord parameterFunction := ⟨by decide, List.all_eq_true.1 rfl⟩
    have evaluated : evaluate d args =
        .ok (substitute parameterFunction true (d.bind args) result) := by
      rw [evaluate, clause]
    obtain ⟨steps, account⟩ := Substitution.exists_account word result
    refine ⟨_, steps, evaluated, account, ?_⟩
    intro x p v y cut starts is_name bound
    exact account.complete _ _ _ _ _ cut starts (Reference.spells_name _ is_name) bound

/-- A function with one parameter in its result expression: outside of references, in the fallback
of a parameter without a value and in that of a name that is no parameter. -/
def threefold : Definition where
  form := .function
  name := "--f".toList
  params := [⟨"--p".toList, none⟩, ⟨"--r".toList, none⟩]
  body := "result: var(--p) var(--r, var(--p)) var(--q, var(--p));".toList

theorem evaluate_replaces_parameters_threefold :
    let bindings := threefold.bind ["1".toList]
    let result := "var(--p) var(--r, var(--p)) var(--q, var(--p))".toList
    IsName "--q".toList ∧ bindings.contains "--q".toList = false ∧ Balanced "var(--p)".toList ∧
      substitute parameterFunction true bindings "var(--q, var(--p))".toList =
        "var(--q, var(--p))".toList ∧
      ResultClause.extract threefold.name threefold.body = .ok result ∧
      ∃ value steps, evaluate threefold ["1".toList] = .ok value ∧
        value = "1 1 var(--q, var(--p))".toList ∧
        Substitution.Account parameterFunction true bindings result value steps := by
  intro bindings result
  have is_name : IsName "--q".toList := by decide +kernel
  have unbound : bindings.contains "--q".toList = false := by decide +kernel
  have balanced : Balanced "var(--p)".toList := by decide +kernel
  have clause : ResultClause.extract threefold.name threefold.body = .ok result := by decide +kernel
  have kept := evaluate_replaces_parameters.1 bindings "--q".toList "var(--p)".toList is_name
    unbound balanced
  obtain ⟨value, steps, evaluated, account, -⟩ :=
    evaluate_replaces_parameters.2 threefold ["1".toList] result clause
  have computed : evaluate threefold ["1".toList] = .ok "1 1 var(--q, var(--p))".toList := by
    decide +kernel
  exact ⟨is_name, unbound, balanced, kept, clause, value, steps, evaluated,
    Except.ok.inj (evaluated.symm.trans computed), account⟩

/-- Nothing is put in place of a parameter in the fallback of a name that is no parameter. -/
theorem substitute_keeps_fallback_of_unbound :
    let bindings : Bindings := Table.ofList [("--p".toList, some "1".toList)]
    IsName "--q".toList ∧ bindings.contains "--q".toList = false ∧ Balanced "var(--p)".toList ∧
      Text.strip "var(--p)".toList = "var(--p)".toList ∧
      bindings.get? "--p".toList = some (some "1".toList) ∧
      substitute parameterFunction true bindings "var(--q, var(--p))".toList ≠
        "var(--q, ".toList ++ substitute parameterFunction true bindings "var(--p)".toList ++
          ")".toList := by
  refine ⟨by decide +kernel, by decide +kernel, by decide +kernel, by decide +kernel,
    by decide +kernel, ?_⟩
  have outer : substitute parameterFunction true (Table.ofList [("--p".toList, some "1".toList)])
      "var(--q, var(--p))".toList = "var(--q, var(--p))".toList := by decide +kernel
  have inner : substitute parameterFunction true (Table.ofList [("--p".toList, some "1".toList)])
      "var(--p)".toList = "1".toList := by decide +kernel
  rw [outer, inner]
  decide +kernel

end Calls

end StyleExpansion
