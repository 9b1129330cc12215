import StyleExpansion.ApplySite
import StyleExpansion.Declaration

namespace StyleExpansion

namespace ResultClause

def resultWord : Text := ['r', 'e', 's', 'u', 'l', 't']

/-- Reads a clause; the value is its expression as written, up to the next semicolon or the end. -/
def read? (s : Text) : Option (Reading Text) :=
  match Text.after? resultWord s with
  | none => none
  | some tail =>
    match Text.afterBlanks tail with
    | [] => none
    | c :: value =>
      if c = ':' ∧ value.head?.any (· != ';') then
        some ⟨value.takeWhile (· != ';'),
          resultWord ++ Text.blanks tail ++ c :: value.takeWhile (· != ';'),
          value.dropWhile (· != ';')⟩
      else none

theorem read?_append {s : Text} {r : Reading Text} (h : read? s = some r) :
    r.lexeme ++ r.rest = s ∧ r.lexeme ≠ [] := by
  unfold read? at h
  split at h
  · simp at h
  · rename_i tail ht
    split at h
    · simp at h
    · rename_i c value hv
      split at h
      · obtain rfl : _ = r := Option.some.inj h
        refine ⟨?_, by simp [resultWord]⟩
        have := Text.blanks_append_afterBlanks tail
        rw [hv] at this
        simp [List.takeWhile_append_dropWhile, this, Text.append_of_after? ht]
      · simp at h

/-- The result clause of a function body: a `result:` that stands apart from other names and is
followed by some character other than a semicolon. -/
def reader : Reader Text where
  read? := read?
  mayFollow c := !isNameChar c
  lexeme_append_rest h := (read?_append h).1
  lexeme_ne_nil h := (read?_append h).2

def extract (name body : Text) : Except Error Text :=
  match reader.find? body with
  | some clause => .ok (Text.strip clause.value)
  | none => .error (.missingResult name)

end ResultClause

structure Reference where
  name : Text
  fallback? : Option Text
deriving DecidableEq, Repr

namespace Reference

/-- Reads what stands between the brackets of a reference: a name, then nothing or a comma and a
fallback. -/
def parse? (interior : Text) : Option Reference :=
  match readName? (Text.afterBlanks interior) with
  | none => none
  | some r =>
    match Text.afterBlanks r.rest with
    | [] => some ⟨r.value, none⟩
    | c :: fallback => if c = ',' then some ⟨r.value, some fallback⟩ else none

theorem length_fallback_lt {interior : Text} {ref : Reference} {fallback : Text}
    (h : parse? interior = some ref) (hf : ref.fallback? = some fallback) :
    fallback.length < interior.length := by
  unfold parse? at h
  split at h
  · simp at h
  · rename_i r hr
    have whole := congrArg List.length (readName?_append hr).1
    have lead := Text.length_afterBlanks_le interior
    have gap := Text.length_afterBlanks_le r.rest
    simp only [List.length_append] at whole
    split at h
    · obtain rfl : _ = ref := Option.some.inj h
      simp at hf
    · rename_i c t ht
      rw [ht, List.length_cons] at gap
      split at h
      · obtain rfl : _ = ref := Option.some.inj h
        obtain rfl : t = fallback := Option.some.inj hf
        omega
      · simp at h

def readOpener? (function s : Text) : Option (Reading Unit) :=
  (Text.after? (function ++ ['(']) s).map fun rest => ⟨(), function ++ ['('], rest⟩

/-- The start of a reference through `function`, apart from other names. -/
def opener (function : Text) : Reader Unit where
  read? := readOpener? function
  mayFollow c := !isNameChar c
  lexeme_append_rest h := by
    obtain ⟨rest, hr, rfl⟩ := Option.map_eq_some_iff.1 h
    exact Text.append_of_after? hr
  lexeme_ne_nil h := by
    obtain ⟨rest, hr, rfl⟩ := Option.map_eq_some_iff.1 h
    simp

end Reference

/-- Puts the bound values in place of the references through `function`, and the fallbacks in
place of those without a value. A value is not searched again; a fallback is. With `boundOnly`, a
name that is not bound at all keeps its reference even if it has a fallback. -/
def substitute (function : Text) (boundOnly : Bool) (bindings : Bindings) (s : Text) : Text :=
  match _found : (Reference.opener function).find? s with
  | none => s
  | some o =>
    match _closed : enclosed? o.rest with
    | none => o.before ++ o.lexeme ++ substitute function boundOnly bindings o.rest
    | some block =>
      match _parsed : Reference.parse? block.interior with
      | none => o.before ++ o.lexeme ++ substitute function boundOnly bindings o.rest
      | some ref =>
        let value? : Option Text :=
          match (bindings.get? ref.name).join, _fallback : ref.fallback? with
          | some value, _ => some value
          | none, some fallback =>
            if bindings.contains ref.name || !boundOnly then
              some (substitute function boundOnly bindings (Text.strip fallback))
            else none
          | none, none => none
        o.before ++ value?.getD (o.lexeme ++ block.closed) ++
          substitute function boundOnly bindings block.rest
termination_by s.length
decreasing_by
  · exact Reader.length_rest_lt_of_find? _found
  · exact Reader.length_rest_lt_of_find? _found
  · have := Reader.length_rest_lt_of_find? _found
    have := length_interior_lt _closed
    have := Reference.length_fallback_lt _parsed _fallback
    have := Text.length_strip_le fallback
    omega
  · have := Reader.length_rest_lt_of_find? _found
    have := length_rest_lt _closed
    omega

namespace Placeholder

/-- Reads the marker and the blanks after it. A longer name is not the marker. -/
def readMarker? (s : Text) : Option (Reading Unit) :=
  match Text.after? contentsMarker s with
  | none => none
  | some tail =>
    if tail.head?.any isNameChar then none
    else some ⟨(), contentsMarker ++ Text.blanks tail, Text.afterBlanks tail⟩

theorem readMarker?_append {s : Text} {r : Reading Unit} (h : readMarker? s = some r) :
    r.lexeme ++ r.rest = s ∧ r.lexeme ≠ [] := by
  unfold readMarker? at h
  split at h
  · simp at h
  · rename_i tail ht
    split at h
    · simp at h
    · obtain rfl : _ = r := Option.some.inj h
      refine ⟨?_, by simp [contentsMarker]⟩
      simp [Text.blanks_append_afterBlanks, Text.append_of_after? ht]

def marker : Reader Unit where
  read? := readMarker?
  lexeme_append_rest h := (readMarker?_append h).1
  lexeme_ne_nil h := (readMarker?_append h).2

/-- Fills the placeholders of a body that stands at `offset`: with the given contents, stripped,
else with what the default block of the placeholder holds. A semicolon behind it belongs to it. -/
def fillFrom (contents? : Option Text) (offset : Nat) (s : Text) : Except Error Text :=
  match _found : marker.find? s with
  | none => .ok s
  | some o =>
    match _closed : Group.read '{' (o.stop offset) o.rest with
    | .error e => .error e
    | .ok block =>
      let filler := contents?.elim (block.interior?.getD []) Text.strip
      let rest := afterTrailer block.rest
      match fillFrom contents? (o.stop offset + (o.rest.length - rest.length)) rest with
      | .error e => .error e
      | .ok filled => .ok (o.before ++ filler ++ filled)
termination_by s.length
decreasing_by
  have := Reader.length_rest_lt_of_find? _found
  have := Group.length_rest_le _closed
  have := length_afterTrailer_le block.rest
  omega

def fill (contents? : Option Text) (body : Text) : Except Error Text := fillFrom contents? 0 body

end Placeholder

end StyleExpansion
