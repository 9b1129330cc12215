import StyleExpansion.Bracket
import StyleExpansion.Reading

namespace StyleExpansion

/-- A site `@apply --m(..);` or `@apply --m(..) {..}`, where the arguments may be left out. An
`@apply --m` with neither a block nor a semicolon is no site. -/
structure ApplySite where
  name : Text
  args : List Text
  contents? : Option Text
deriving DecidableEq, Repr

/-- The text after its leading blanks and one semicolon, if there is one. -/
def afterTrailer (s : Text) : Text :=
  match Text.afterBlanks s with
  | [] => []
  | c :: rest => if c = ';' then rest else c :: rest

theorem length_afterTrailer_le (s : Text) : (afterTrailer s).length ≤ s.length := by
  have lead := Text.length_afterBlanks_le s
  unfold afterTrailer
  split
  · simp
  · rename_i c rest h
    rw [h, List.length_cons] at lead
    split
    · omega
    · rw [List.length_cons]
      exact lead

namespace ApplySite

def keyword : Text := ['@', 'a', 'p', 'p', 'l', 'y']

def head : Reader Text where
  read? := readAtRule? keyword
  lexeme_append_rest h := (readAtRule?_append h).1
  lexeme_ne_nil h := (readAtRule?_append h).2

structure Tail where
  args : List Text
  contents? : Option Text
  rest : Text

/-- Reads what follows the name of an apply site in a text that stands at `offset`. Without a
block and a semicolon it is no apply site. -/
def readTail (offset : Nat) (s : Text) : Except Error (Option Tail) :=
  let listOffset := offset + (Text.blanks s).length
  match Group.read '(' listOffset (Text.afterBlanks s) with
  | .error e => .error e
  | .ok list =>
    let args := splitArguments (list.interior?.getD [])
    let blockOffset := listOffset + list.width + (Text.blanks list.rest).length
    match Group.read '{' blockOffset (Text.afterBlanks list.rest) with
    | .error e => .error e
    | .ok ⟨some contents, _, rest⟩ => .ok (some ⟨args, some contents, afterTrailer rest⟩)
    | .ok ⟨none, _, rest⟩ =>
      if rest.head? = some ';' then .ok (some ⟨args, none, rest.tail⟩) else .ok none

/-- The next `@apply` with a name in a text that stands at `offset`, and the site there, if it is
one. A site reaches to the end of its trailer, an `@apply` that is no site to the end of its
name. -/
def next? (offset : Nat) (s : Text) : Except Error (Option (Occurrence (Option ApplySite))) :=
  match head.find? s with
  | none => .ok none
  | some o =>
    match readTail (o.stop offset) o.rest with
    | .error e => .error e
    | .ok none => .ok (some { o with value := none })
    | .ok (some tail) =>
      .ok (some {
        before := o.before
        lexeme := o.lexeme ++ o.rest.take (o.rest.length - tail.rest.length)
        value := some ⟨o.value, tail.args, tail.contents?⟩
        rest := tail.rest })

def describe (site : ApplySite) (start stop : Nat) : Text :=
  "<ApplySite:".toList ++ site.name ++ [' '] ++ (toString start).toList ++ [':'] ++
    (toString stop).toList ++ ">".toList

theorem length_rest_le_of_readTail {offset : Nat} {s : Text} {tail : Tail}
    (h : readTail offset s = .ok (some tail)) : tail.rest.length ≤ s.length := by
  unfold readTail at h
  have lead := Text.length_afterBlanks_le s
  simp only at h
  split at h
  · exact nomatch h
  · rename_i list hl
    have listed := Group.length_rest_le hl
    have gap := Text.length_afterBlanks_le list.rest
    split at h
    · exact nomatch h
    · rename_i contents width rest hb
      have blocked := Group.length_rest_le hb
      obtain rfl : _ = tail := Option.some.inj (Except.ok.inj h)
      have := length_afterTrailer_le rest
      show (afterTrailer rest).length ≤ s.length
      simp only at blocked
      omega
    · rename_i width rest hb
      have blocked := Group.length_rest_le hb
      simp only at blocked
      split at h
      · obtain rfl : _ = tail := Option.some.inj (Except.ok.inj h)
        show rest.tail.length ≤ s.length
        simp only [List.length_tail]
        omega
      · exact nomatch Except.ok.inj h

theorem length_rest_lt_of_next? {offset : Nat} {s : Text} {o : Occurrence (Option ApplySite)}
    (h : next? offset s = .ok (some o)) : o.rest.length < s.length := by
  unfold next? at h
  split at h
  · exact nomatch Except.ok.inj h
  · rename_i found hf
    have := Reader.length_rest_lt_of_find? hf
    split at h
    · exact nomatch h
    · obtain rfl : _ = o := Option.some.inj (Except.ok.inj h)
      exact this
    · rename_i tail ht
      have := length_rest_le_of_readTail ht
      obtain rfl : _ = o := Option.some.inj (Except.ok.inj h)
      show tail.rest.length < s.length
      omega

/-- An `@apply` with a name in a text, the site there if it is one, and its offsets. -/
structure Placed where
  site? : Option ApplySite
  start : Nat
  stop : Nat
deriving DecidableEq, Repr

def placed (offset : Nat) (o : Occurrence (Option ApplySite)) : Placed :=
  ⟨o.value, o.start offset, o.stop offset⟩

/-- All `@apply` with a name in a text that stands at `offset`, except those within sites. -/
def scanFrom (offset : Nat) (s : Text) : Scan Placed :=
  match _found : next? offset s with
  | .error e => .failed e
  | .ok none => {}
  | .ok (some o) => (scanFrom (o.stop offset) o.rest).push (placed offset o)
termination_by s.length
decreasing_by exact length_rest_lt_of_next? _found

def scan (text : Text) : Scan Placed := scanFrom 0 text

end ApplySite

end StyleExpansion
