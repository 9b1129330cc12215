import StyleExpansion.Body

namespace StyleExpansion

namespace Calls

/-- Reads a name and an opening bracket; the value is the name. -/
def readHead? (s : Text) : Option (Reading Text) :=
  match readName? s with
  | none => none
  | some r =>
    if r.rest.head? = some '(' then some ⟨r.value, r.lexeme ++ ['('], r.rest.tail⟩ else none

theorem readHead?_append {s : Text} {r : Reading Text} (h : readHead? s = some r) :
    r.lexeme ++ r.rest = s ∧ r.lexeme ≠ [] := by
  unfold readHead? at h
  split at h
  · simp at h
  · rename_i name hn
    split at h
    · rename_i opened
      obtain rfl : _ = r := Option.some.inj h
      refine ⟨?_, by simp⟩
      rw [← (readName?_append hn).1]
      cases hr : name.rest <;> simp_all
    · simp at h

/-- The start of a call that stands apart from other names. -/
def head : Reader Text where
  read? := readHead?
  mayFollow c := !isNameChar c
  lexeme_append_rest h := (readHead?_append h).1
  lexeme_ne_nil h := (readHead?_append h).2

/-- The function through which a function body refers to a parameter. -/
def parameterFunction : Text := ['v', 'a', 'r']

def evaluate (d : Definition) (args : List Text) : Except Error Text :=
  match ResultClause.extract d.name d.body with
  | .error e => .error e
  | .ok result => .ok (substitute parameterFunction true (d.bind args) result)

/-- One pass over the calls of a text that stands at `offset`. It puts the result of each registered
function in place of its call and does not look at it again. The arguments of a call that is not
registered are still searched for calls. -/
def passFrom (functions : Registry) (offset : Nat) (s : Text) : Except Error Text :=
  match _found : head.find? s with
  | none => .ok s
  | some o =>
    match functions.get? o.value with
    | none =>
      match passFrom functions (o.stop offset) o.rest with
      | .error e => .error e
      | .ok t => .ok (o.before ++ o.lexeme ++ t)
    | some d =>
      match _closed : enclosed? o.rest with
      | none => .error (.unmatched (o.stop offset))
      | some block =>
        match evaluate d (splitArguments block.interior) with
        | .error e => .error e
        | .ok value =>
          match passFrom functions (o.stop offset + block.interior.length + 1) block.rest with
          | .error e => .error e
          | .ok t => .ok (o.before ++ value ++ t)
termination_by s.length
decreasing_by
  · exact Reader.length_rest_lt_of_find? _found
  · have := Reader.length_rest_lt_of_find? _found
    have := length_rest_lt _closed
    omega

def pass (functions : Registry) (s : Text) : Except Error Text := passFrom functions 0 s

/-- The registered functions that are called in the text, in code point order. -/
def residual (functions : Registry) (s : Text) : List Text :=
  Text.sortedSet ((head.findAll s).filter functions.contains)

end Calls

namespace Applications

/-- The function through which a mixin body refers to a parameter. -/
def parameterFunction : Text := ['e', 'n', 'v']

def unknownComment (name : Text) : Text :=
  "/* Unknown mixin: ".toList ++ name ++ " */".toList

/-- The body of a mixin for one site. A block that is given fills the placeholders also of a mixin
that does not declare contents. -/
def instantiate (d : Definition) (site : ApplySite) : Except Error Text :=
  let body := substitute parameterFunction false (d.bind site.args) d.body
  if d.takesContents || site.contents?.isSome then Placeholder.fill site.contents? body
  else .ok body

def replace (mixins : Registry) (site : ApplySite) : Traced Error Text :=
  match mixins.get? site.name with
  | none => ⟨[.unknownMixin site.name], .ok (unknownComment site.name)⟩
  | some d => ⟨[], instantiate d site⟩

/-- One pass over the apply sites of a text that stands at `offset`. What is put in place of a site
is not looked at again. -/
def passFrom (mixins : Registry) (offset : Nat) (s : Text) : Traced Error Text :=
  match _found : ApplySite.next? offset s with
  | .error e => .fail e
  | .ok none => pure s
  | .ok (some o) =>
    match o.value with
    | none => do
      let t ← passFrom mixins (o.stop offset) o.rest
      return o.before ++ o.lexeme ++ t
    | some site => do
      let value ← replace mixins site
      let t ← passFrom mixins (o.stop offset) o.rest
      return o.before ++ value ++ t
termination_by s.length
decreasing_by all_goals exact ApplySite.length_rest_lt_of_next? _found

def pass (mixins : Registry) (s : Text) : Traced Error Text := passFrom mixins 0 s

/-- The registered mixins that are applied in the text, in code point order. -/
def residual (mixins : Registry) (s : Text) : List Text :=
  Text.sortedSet ((ApplySite.head.findAll s).filter mixins.contains)

end Applications

end StyleExpansion
