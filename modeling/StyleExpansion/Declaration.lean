import StyleExpansion.Bracket
import StyleExpansion.Reading

/-!
Declarations in a text. `@function --f(..) returns .. {..}` declares a function and
`@mixin --m(..) {..}` a mixin; the list of parameters of a mixin and the return annotation of a
function may be left out.
-/

namespace StyleExpansion

/-- The offsets from `start` up to and without `stop`. -/
structure Span where
  start : Int
  stop : Int
deriving DecidableEq, Repr

namespace Span

def Covers (s : Span) (x : Int) : Prop := s.start ≤ x ∧ x < s.stop

/-- The order by start and then by end. -/
def le (a b : Span) : Bool := a.start < b.start || (a.start == b.start && a.stop ≤ b.stop)

/-- Joins the spans of a sorted list to `group` for as long as they overlap or touch it, and goes
on with the first that does not. -/
def coalesce (group : Span) : List Span → List Span
  | [] => [group]
  | s :: ss =>
    if s.start ≤ group.stop then coalesce ⟨group.start, max group.stop s.stop⟩ ss
    else group :: coalesce s ss

/-- The spans in order, joined where they overlap or touch. -/
def merge (spans : List Span) : List Span :=
  match spans.mergeSort le with
  | [] => []
  | s :: ss => coalesce s ss

def cut (s : Span) (text : Text) : Text := text.slice s.start.toNat s.stop.toNat

end Span

/-- The marker of contents, in parameter lists and in bodies. -/
def contentsMarker : Text := ['@', 'c', 'o', 'n', 't', 'e', 'n', 't', 's']

structure Parameters where
  params : List Parameter := []
  takesContents : Bool := false
deriving DecidableEq, Repr

namespace Parameters

/-- The item before its first colon and its default after it, both stripped; without a colon, the
item and no default. -/
def splitDefault (item : Text) : Text × Option Text :=
  match Text.splitOnce? [':'] item with
  | some (head, value) => (Text.strip head, some (Text.strip value))
  | none => (item, none)

/-- The name that a text starts with, or the whole text when it starts with none. -/
def leadingName (s : Text) : Text :=
  match readName? s with
  | some r => r.value
  | none => s

/-- The parameter of one item of the list; an item without a name gives none. -/
def ofItem? (item : Text) : Option Parameter :=
  let (head, value) := splitDefault item
  let name := leadingName head
  if name.isEmpty then none else some ⟨name, value⟩

def parse (s : Text) : Parameters where
  params := ((splitArguments s).filter (· ≠ contentsMarker)).filterMap ofItem?
  takesContents := (splitArguments s).contains contentsMarker

end Parameters

/-- A declaration and its place in the text. -/
structure Declaration where
  kind : Kind
  name : Text
  /-- The parameter list as written. -/
  params : Text
  body : Text
  /-- The offset of the keyword. -/
  start : Nat
  /-- The offset right after the opening bracket of the body. -/
  bodyStart : Nat
deriving DecidableEq, Repr

namespace Declaration

/-- The offset of the bracket that closes the body. -/
def bodyEnd (d : Declaration) : Nat := d.bodyStart + d.body.length

/-- The whole declaration, with the bracket that closes its body. -/
def span (d : Declaration) : Span := ⟨d.start, d.bodyEnd + 1⟩

def definition (d : Declaration) : Definition :=
  let list := Parameters.parse d.params
  let form := match d.kind with
    | .function => .function
    | .mixin => .mixin list.takesContents
  ⟨form, d.name, list.params, d.body⟩

def describe (d : Declaration) : Text :=
  "<Declaration:".toList ++ d.kind.label ++ [' '] ++ d.name ++ " (".toList ++
    (toString d.start).toList ++ ", ".toList ++ (toString (d.bodyEnd + 1)).toList ++ ")>".toList

/-- Reads a keyword, a name and the blanks after them. A function has its list of parameters
next. -/
def readHeader? (kind : Kind) (s : Text) : Option (Reading Text) :=
  match readAtRule? kind.keyword s with
  | none => none
  | some r =>
    if kind = .function ∧ (Text.afterBlanks r.rest).head? ≠ some '(' then none
    else some ⟨r.value, r.lexeme ++ Text.blanks r.rest, Text.afterBlanks r.rest⟩

theorem readHeader?_append {kind : Kind} {s : Text} {r : Reading Text}
    (h : readHeader? kind s = some r) : r.lexeme ++ r.rest = s ∧ r.lexeme ≠ [] := by
  unfold readHeader? at h
  split at h
  · simp at h
  · rename_i a ha
    split at h
    · simp at h
    · obtain rfl : _ = r := Option.some.inj h
      obtain ⟨whole, some_taken⟩ := readAtRule?_append ha
      exact ⟨by simp [Text.blanks_append_afterBlanks, whole], by simp [some_taken]⟩

def header (kind : Kind) : Reader Text where
  read? := readHeader? kind
  lexeme_append_rest h := (readHeader?_append h).1
  lexeme_ne_nil h := (readHeader?_append h).2

def returnsWord : Text := ['r', 'e', 't', 'u', 'r', 'n', 's']

/-- The return annotation of a function at the head of the text, up to the next opening brace or
semicolon. -/
def annotation (kind : Kind) (s : Text) : Text :=
  match kind, Text.after? returnsWord s with
  | .function, some tail =>
    if tail.head?.any isWord then []
    else returnsWord ++ tail.takeWhile fun c => c != '{' && c != ';'
  | _, _ => []

/-- What stands between the list of parameters and the opening brace of the body. -/
def bodyLead (kind : Kind) (s : Text) : Text :=
  Text.blanks s ++ annotation kind (Text.afterBlanks s)

/-- Reads up to and with the opening brace of the body. -/
def readOpening? (kind : Kind) (s : Text) : Option (Reading Unit) :=
  match s.drop (bodyLead kind s).length with
  | [] => none
  | c :: rest => if c = '{' then some ⟨(), bodyLead kind s ++ [c], rest⟩ else none

theorem length_rest_le_of_readOpening? {kind : Kind} {s : Text} {r : Reading Unit}
    (h : readOpening? kind s = some r) : r.rest.length ≤ s.length := by
  unfold readOpening? at h
  split at h
  · simp at h
  · rename_i c rest hd
    split at h
    · obtain rfl : _ = r := Option.some.inj h
      have := congrArg List.length hd
      simp only [List.length_drop, List.length_cons] at this
      show rest.length ≤ s.length
      omega
    · simp at h

/-- The declarations of one kind in a text that stands at `offset`. A header without a body is
passed over. -/
def scanFrom (kind : Kind) (offset : Nat) (s : Text) : Scan Declaration :=
  match _found : (header kind).find? s with
  | none => {}
  | some o =>
    match _closed : Group.read '(' (o.stop offset) o.rest with
    | .error e => .failed e
    | .ok list =>
      match _opened : readOpening? kind list.rest with
      | none => scanFrom kind (o.stop offset) o.rest
      | some opening =>
        let bodyStart := o.stop offset + list.width + opening.lexeme.length
        match enclosed? opening.rest with
        | none => .failed (.unmatched bodyStart)
        | some body =>
          (scanFrom kind bodyStart opening.rest).push
            ⟨kind, o.value, list.interior?.getD [], body.interior, o.start offset, bodyStart⟩
termination_by s.length
decreasing_by
  · exact Reader.length_rest_lt_of_find? _found
  · have := Reader.length_rest_lt_of_find? _found
    have := Group.length_rest_le _closed
    have := length_rest_le_of_readOpening? _opened
    omega

def scan (kind : Kind) (text : Text) : Scan Declaration := scanFrom kind 0 text

/-- The spans of all declarations of the text, those of functions first. -/
def spans (text : Text) : Except Error (List Span) := do
  let functions ← (scan .function text).toExcept
  let mixins ← (scan .mixin text).toExcept
  return functions.map span ++ mixins.map span

end Declaration

end StyleExpansion
