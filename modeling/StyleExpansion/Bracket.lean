import StyleExpansion.Outcome

/-!
Brackets are counted over the three families alike: any closing bracket closes any opening one.
`enclosed?` finds the bracket that closes the one opened right before a text, and `Balanced`
says of a text that every bracket in it has its partner in it.
-/

namespace StyleExpansion

def isOpening (c : Char) : Bool := c == '(' || c == '{' || c == '['

def isClosing (c : Char) : Bool := c == ')' || c == '}' || c == ']'

/-- What a character adds to the bracket depth. -/
def bracketWeight (c : Char) : Int :=
  if isOpening c then 1 else if isClosing c then -1 else 0

/-- The bracket depth at the end of a text that starts at depth zero; it may be negative. -/
def bracketDepth : Text → Int
  | [] => 0
  | c :: s => bracketWeight c + bracketDepth s

/-- No bracket of the text is closed outside of it, or opened outside of it. -/
def Balanced (s : Text) : Prop :=
  bracketDepth s = 0 ∧ ∀ p, p <+: s → 0 ≤ bracketDepth p

/-- A text cut at a closing bracket. -/
structure Block where
  interior : Text
  closer : Char
  rest : Text
deriving DecidableEq, Repr

namespace Block

def push (c : Char) (b : Block) : Block := { b with interior := c :: b.interior }

/-- The interior and its closing bracket. -/
def closed (b : Block) : Text := b.interior ++ [b.closer]

end Block

/-- Cuts the text at the bracket that closes the outermost of `depth + 1` open ones. -/
def closeAt (depth : Nat) : Text → Option Block
  | [] => none
  | c :: s =>
    if isOpening c then
      (closeAt (depth + 1) s).map (Block.push c)
    else if isClosing c then
      if depth = 0 then some ⟨[], c, s⟩
      else (closeAt (depth - 1) s).map (Block.push c)
    else
      (closeAt depth s).map (Block.push c)

/-- Cuts the text at the bracket that closes the one opened right before it. -/
def enclosed? (s : Text) : Option Block := closeAt 0 s

/-- The offset of the bracket that closes the one opened right before `start`. -/
def closingOffset? (s : Text) (start : Nat) : Option Nat :=
  (enclosed? (s.drop start)).map fun b => start + b.interior.length

/-- The same as an answer. Where there is no such bracket, a strict search fails at `start`, and any
other answers `-1`. -/
def findCloser (strict : Bool) (s : Text) (start : Nat) : Except Error Int :=
  match closingOffset? s start with
  | some stop => .ok stop
  | none => if strict then .error (.unmatched start) else .ok (-1)

theorem closeAt_append {depth : Nat} {s : Text} {b : Block} (h : closeAt depth s = some b) :
    b.interior ++ b.closer :: b.rest = s := by
  induction s generalizing depth b with
  | nil => simp [closeAt] at h
  | cons c s ih =>
    rw [closeAt] at h
    split at h
    · obtain ⟨d, hd, rfl⟩ := Option.map_eq_some_iff.1 h
      simp [Block.push, ih hd]
    · split at h
      · split at h
        · obtain rfl : _ = b := Option.some.inj h
          rfl
        · obtain ⟨d, hd, rfl⟩ := Option.map_eq_some_iff.1 h
          simp [Block.push, ih hd]
      · obtain ⟨d, hd, rfl⟩ := Option.map_eq_some_iff.1 h
        simp [Block.push, ih hd]

theorem enclosed?_append {s : Text} {b : Block} (h : enclosed? s = some b) :
    b.interior ++ b.closer :: b.rest = s :=
  closeAt_append h

theorem length_interior_lt {s : Text} {b : Block} (h : enclosed? s = some b) :
    b.interior.length < s.length := by
  rw [← enclosed?_append h]
  simp only [List.length_append, List.length_cons]
  omega

theorem length_rest_lt {s : Text} {b : Block} (h : enclosed? s = some b) :
    b.rest.length < s.length := by
  rw [← enclosed?_append h]
  simp only [List.length_append, List.length_cons]
  omega

/-- A bracketed group at the head of a text, or none: what it holds, how many characters it takes
with its brackets, and what follows it. -/
structure Group where
  interior? : Option Text
  width : Nat
  rest : Text

namespace Group

/-- The group that opens with `opener` at the head of the text, which stands at `offset`. Fails
when the group is never closed. -/
def read (opener : Char) (offset : Nat) (s : Text) : Except Error Group :=
  if s.head? = some opener then
    match enclosed? s.tail with
    | some b => .ok ⟨some b.interior, b.interior.length + 2, b.rest⟩
    | none => .error (.unmatched (offset + 1))
  else .ok ⟨none, 0, s⟩

theorem length_rest_le {opener : Char} {offset : Nat} {s : Text} {g : Group}
    (h : read opener offset s = .ok g) : g.rest.length ≤ s.length := by
  unfold read at h
  split at h
  · split at h
    · rename_i b hb
      obtain rfl : _ = g := Except.ok.inj h
      have := length_rest_lt hb
      simp only [List.length_tail] at this
      show b.rest.length ≤ s.length
      omega
    · exact nomatch h
  · obtain rfl : _ = g := Except.ok.inj h
    exact Nat.le_refl _

end Group

/-- The first item of a comma list and the items after it, untrimmed, where the text starts at
bracket depth `depth`. -/
def commaItems (depth : Int) : Text → Text × List Text
  | [] => ([], [])
  | c :: s =>
    if c == ',' && depth == 0 then
      let (first, others) := commaItems depth s
      ([], first :: others)
    else
      let (first, others) := commaItems (depth + bracketWeight c) s
      (c :: first, others)

/-- The items of a comma list, stripped. Empty items count, except for an empty last one. -/
def splitArguments (s : Text) : List Text :=
  let (first, others) := commaItems 0 s
  let items := (first :: others).map Text.strip
  if items.getLast? = some [] then items.dropLast else items

end StyleExpansion
