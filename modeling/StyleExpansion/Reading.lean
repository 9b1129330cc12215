import StyleExpansion.Letters

namespace StyleExpansion

/-- What was read at the head of a text: its value, the characters it took and those it left. -/
structure Reading (α : Type) where
  value : α
  lexeme : Text
  rest : Text

/-- A recogniser for one thing at the head of a text, which accounts for every character: what it
took and what it left make up the text. `mayFollow` says after which characters the thing can start;
at the start of a text it always can. -/
structure Reader (α : Type) where
  read? : Text → Option (Reading α)
  mayFollow : Char → Bool := fun _ => true
  lexeme_append_rest : ∀ {s r}, read? s = some r → r.lexeme ++ r.rest = s
  lexeme_ne_nil : ∀ {s r}, read? s = some r → r.lexeme ≠ []

/-- A place in a text where something was read, with the text before it. -/
structure Occurrence (α : Type) extends Reading α where
  before : Text

namespace Occurrence

variable {α : Type}

def push (c : Char) (o : Occurrence α) : Occurrence α := { o with before := c :: o.before }

/-- The offset of the occurrence in a text that starts at `offset`. -/
def start (o : Occurrence α) (offset : Nat) : Nat := offset + o.before.length

def stop (o : Occurrence α) (offset : Nat) : Nat := o.start offset + o.lexeme.length

end Occurrence

namespace Reader

variable {α : Type}

/-- The leftmost occurrence, where `free` says whether one may start at the head of the text. -/
def search (r : Reader α) (free : Bool) : Text → Option (Occurrence α)
  | [] => none
  | c :: s =>
    match if free then r.read? (c :: s) else none with
    | some x => some { x with before := [] }
    | none => (search r (r.mayFollow c) s).map (Occurrence.push c)

def find? (r : Reader α) (s : Text) : Option (Occurrence α) := r.search true s

theorem search_append {r : Reader α} {free : Bool} {s : Text} {o : Occurrence α}
    (h : r.search free s = some o) : o.before ++ o.lexeme ++ o.rest = s ∧ o.lexeme ≠ [] := by
  induction s generalizing free o with
  | nil => simp [search] at h
  | cons c s ih =>
    rw [search] at h
    split at h
    · rename_i x found
      obtain rfl : _ = o := Option.some.inj h
      split at found
      · exact ⟨by simpa using r.lexeme_append_rest found, r.lexeme_ne_nil found⟩
      · simp at found
    · obtain ⟨p, hp, rfl⟩ := Option.map_eq_some_iff.1 h
      obtain ⟨whole, some_taken⟩ := ih hp
      exact ⟨by simpa [Occurrence.push] using whole, some_taken⟩

theorem find?_append {r : Reader α} {s : Text} {o : Occurrence α} (h : r.find? s = some o) :
    o.before ++ o.lexeme ++ o.rest = s :=
  (search_append h).1

theorem length_rest_lt_of_find? {r : Reader α} {s : Text} {o : Occurrence α}
    (h : r.find? s = some o) : o.rest.length < s.length := by
  obtain ⟨rfl, some_taken⟩ := search_append h
  have := List.length_pos_iff.2 some_taken
  simp only [List.length_append]
  omega

/-- The values of all occurrences from left to right, where the search goes on after each. -/
def findAll (r : Reader α) (s : Text) : List α :=
  match _h : r.find? s with
  | none => []
  | some o => o.value :: findAll r o.rest
termination_by s.length
decreasing_by exact length_rest_lt_of_find? _h

end Reader

def sigil : Text := ['-', '-']

def nameRun (s : Text) : Text := s.takeWhile isNameChar

def readName? (s : Text) : Option (Reading Text) :=
  match Text.after? sigil s with
  | none => none
  | some tail =>
    if (nameRun tail).isEmpty then none
    else some ⟨sigil ++ nameRun tail, sigil ++ nameRun tail, tail.dropWhile isNameChar⟩

/-- Whether the text is a name and nothing else. -/
def IsName (s : Text) : Prop := ∃ run, s = sigil ++ run ∧ run ≠ [] ∧ ∀ c ∈ run, isNameChar c

/-- Reads a keyword, at least one blank and a name; the value is the name. -/
def readAtRule? (keyword s : Text) : Option (Reading Text) :=
  match Text.after? keyword s with
  | none => none
  | some tail =>
    if (Text.blanks tail).isEmpty then none
    else
      (readName? (Text.afterBlanks tail)).map fun name =>
        { name with lexeme := keyword ++ Text.blanks tail ++ name.lexeme }

theorem readName?_append {s : Text} {r : Reading Text} (h : readName? s = some r) :
    r.lexeme ++ r.rest = s ∧ r.value = r.lexeme := by
  unfold readName? at h
  split at h
  · simp at h
  · rename_i tail ht
    split at h
    · simp at h
    · obtain rfl : _ = r := Option.some.inj h
      refine ⟨?_, rfl⟩
      rw [List.append_assoc, nameRun, List.takeWhile_append_dropWhile,
        Text.append_of_after? ht]

theorem readAtRule?_append {keyword s : Text} {r : Reading Text}
    (h : readAtRule? keyword s = some r) : r.lexeme ++ r.rest = s ∧ r.lexeme ≠ [] := by
  unfold readAtRule? at h
  split at h
  · simp at h
  · rename_i tail ht
    split at h
    · simp at h
    · rename_i gap
      obtain ⟨name, hn, rfl⟩ := Option.map_eq_some_iff.1 h
      constructor
      · simp [(readName?_append hn).1, Text.blanks_append_afterBlanks,
          Text.append_of_after? ht]
      · intro none_taken
        simp_all

end StyleExpansion
