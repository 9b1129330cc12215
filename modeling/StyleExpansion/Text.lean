namespace StyleExpansion

/-- A style text. Offsets into it count code points. -/
abbrev Text := List Char

namespace Text

/-- The characters at the offsets from `start` up to and without `stop`; none when `stop` is not
past `start`. A cut beyond the end of the text stops at the end. -/
def slice (s : Text) (start stop : Nat) : Text := (s.take stop).drop start

theorem length_slice (s : Text) (a b : Nat) : (slice s a b).length = min b s.length - a := by
  rw [slice, List.length_drop, List.length_take]

theorem length_slice_le (s : Text) (a b : Nat) : (slice s a b).length ≤ b - a := by
  rw [length_slice]
  omega

theorem slice_append_drop {a b : Nat} (h : a ≤ b) (s : Text) :
    slice s a b ++ s.drop b = s.drop a := by
  have rest : s.drop b = (s.drop a).drop (b - a) := by rw [List.drop_drop, Nat.add_sub_cancel' h]
  rw [slice, List.drop_take, rest, List.take_append_drop]

theorem slice_append (x y z : Text) : slice (x ++ y ++ z) x.length (x ++ y).length = y := by
  rw [slice, List.take_left, List.drop_left]

theorem slice_append_of_le {s : Text} {b : Nat} (h : b ≤ s.length) (t : Text) (a : Nat) :
    slice (s ++ t) a b = slice s a b := by
  rw [slice, slice, List.take_append_of_le_length h]

def commaList (ss : List Text) : Text := [',', ' '].intercalate ss

def newlines (s : Text) : Text := s.filter (· == '\n')

/-- Whether the first text is not after the second in code point order. -/
def le : Text → Text → Bool
  | [], _ => true
  | _ :: _, [] => false
  | c :: s, d :: t => if c = d then le s t else c.toNat < d.toNat

def sortedSet (ss : List Text) : List Text := ss.eraseDups.mergeSort le

/-- What follows `mark` in a text that starts with it. -/
def after? : (mark s : Text) → Option Text
  | [], s => some s
  | _ :: _, [] => none
  | m :: mark, c :: s => if m = c then after? mark s else none

/-- The texts before and after the first occurrence of `mark`. -/
def splitOnce? (mark : Text) : Text → Option (Text × Text)
  | [] => if mark.isEmpty then some ([], []) else none
  | c :: s =>
    match after? mark (c :: s) with
    | some rest => some ([], rest)
    | none => (splitOnce? mark s).map fun p => (c :: p.1, p.2)

theorem append_of_after? {mark s rest : Text} (h : after? mark s = some rest) :
    mark ++ rest = s := by
  induction mark generalizing s with
  | nil => simpa [after?] using h.symm
  | cons m mark ih =>
    cases s with
    | nil => simp [after?] at h
    | cons c s =>
      rw [after?] at h
      split at h
      · rename_i same
        simp [same, ih h]
      · simp at h

end Text

/-- The closed ranges of code points that are blank. They hold more than the ASCII spaces, among
them the separator controls U+001C to U+001F, but neither the zero-width space nor the byte order
mark. -/
def blankRanges : List (Nat × Nat) :=
  [(0x9, 0xD), (0x1C, 0x20), (0x85, 0x85), (0xA0, 0xA0), (0x1680, 0x1680), (0x2000, 0x200A),
   (0x2028, 0x2029), (0x202F, 0x202F), (0x205F, 0x205F), (0x3000, 0x3000)]

def isBlank (c : Char) : Bool :=
  blankRanges.any fun r => r.1 ≤ c.toNat && c.toNat ≤ r.2

namespace Text

/-- The blanks a text starts with. -/
def blanks (s : Text) : Text := s.takeWhile isBlank

def afterBlanks (s : Text) : Text := s.dropWhile isBlank

/-- The text without the characters of a class at its two ends. -/
def stripBy (p : Char → Bool) (s : Text) : Text := ((s.dropWhile p).reverse.dropWhile p).reverse

def strip (s : Text) : Text := stripBy isBlank s

theorem blanks_append_afterBlanks (s : Text) : blanks s ++ afterBlanks s = s :=
  List.takeWhile_append_dropWhile

theorem length_afterBlanks_le (s : Text) : (afterBlanks s).length ≤ s.length :=
  (List.dropWhile_suffix isBlank).length_le

theorem length_strip_le (s : Text) : (strip s).length ≤ s.length := by
  have inner := (List.dropWhile_suffix isBlank (l := s)).length_le
  have outer := (List.dropWhile_suffix isBlank (l := (s.dropWhile isBlank).reverse)).length_le
  simp only [strip, stripBy, List.length_reverse] at *
  omega

end Text

end StyleExpansion
