import StyleExpansion.Body
import StyleExpansion.Proofs.Locality

namespace StyleExpansion

namespace Placeholder

/-- A placeholder as written, with a semicolon at its end. -/
structure Slot where
  /-- The blanks behind the marker. -/
  gap : Text
  /-- What the default block holds, and the blanks behind the block. -/
  block? : Option (Text × Text)
  gap_blank : ∀ c ∈ gap, isBlank c
  default_balanced : ∀ b ∈ block?, Balanced b.1
  trail_blank : ∀ b ∈ block?, ∀ c ∈ b.2, isBlank c

namespace Slot

def block (p : Slot) : Text := p.block?.elim [] fun b => '{' :: b.1 ++ '}' :: b.2

def print (p : Slot) : Text := contentsMarker ++ p.gap ++ p.block ++ [';']

/-- What is put in its place: the given contents, stripped, or else what its default block holds, as
it is. -/
def filler (contents? : Option Text) (p : Slot) : Text :=
  contents?.elim (p.block?.elim [] Prod.fst) Text.strip

end Slot

def printBody (first : Text) (slots : List (Slot × Text)) : Text :=
  first ++ slots.flatMap fun p => p.1.print ++ p.2

/-- No marker starts in text without one, nor across its end where another marker starts. -/
theorem passes_literal {s t : Text} (clear : ¬ contentsMarker <:+: s)
    (next : ∀ c ∈ t.head?, c = '@') : marker.Passes s t := by
  intro z suffix some_left
  have absent : ¬ contentsMarker <+: z ++ t := by
    rintro ⟨rest, whole⟩
    rcases List.append_eq_append_iff.1 whole with ⟨m, within, -⟩ | ⟨m, across, behind⟩
    · exact clear (List.IsInfix.trans ⟨[], m, by simpa using within.symm⟩ suffix.isInfix)
    · obtain ⟨d, z, rfl⟩ := List.exists_cons_of_ne_nil some_left
      cases m with
      | nil =>
        rw [List.append_nil] at across
        exact clear (across ▸ suffix.isInfix)
      | cons c m =>
        -- A marker has its at sign in front, and so it does not go on into another one.
        obtain rfl : c = '@' := next c (by rw [behind]; rfl)
        have tail : "contents".toList = z ++ '@' :: m := (List.cons.inj across).2
        have mem : '@' ∈ "contents".toList := by
          rw [tail]
          simp
        revert mem
        decide
  simp [marker, readMarker?, Text.after?_eq_none_iff.2 absent]

namespace Slot

variable (p : Slot)

/-- What follows the blanks behind the marker is a bracket or a semicolon. -/
theorem head?_block (s : Text) :
    (p.block ++ ';' :: s).head? = some (if p.block?.isSome then '{' else ';') := by
  cases given : p.block? <;> simp [block, given]

theorem read?_print (s : Text) :
    marker.read? (p.print ++ s) = some ⟨(), contentsMarker ++ p.gap, p.block ++ ';' :: s⟩ := by
  have text : p.print ++ s = contentsMarker ++ (p.gap ++ (p.block ++ ';' :: s)) := by
    simp [print]
  have stops : ∀ c ∈ (p.block ++ ';' :: s).head?, isBlank c = false ∧ isNameChar c = false := by
    rw [p.head?_block]
    intro c hc
    obtain rfl := Option.some.inj hc
    split <;> decide
  obtain ⟨taken, left⟩ := takeWhile_append_of_head p.gap_blank fun c hc => (stops c hc).1
  have longer : (p.gap ++ (p.block ++ ';' :: s)).head?.any isNameChar = false := by
    cases gap : p.gap with
    | nil =>
      rw [List.nil_append, p.head?_block] at *
      exact (stops _ rfl).2
    | cons c gap =>
      exact not_isNameChar_of_isBlank (p.gap_blank c (by simp [gap]))
  rw [text]
  simp only [marker, readMarker?, Text.after?_append, longer, Bool.false_eq_true, if_false,
    Text.blanks, Text.afterBlanks, taken, left]

/-- The block of a slot is read to its end, and its trailer is the blanks behind it and the
semicolon. -/
theorem read_block (offset : Nat) (s : Text) :
    ∃ group, Group.read '{' offset (p.block ++ ';' :: s) = .ok group ∧
      group.interior?.getD [] = p.block?.elim [] Prod.fst ∧ afterTrailer group.rest = s := by
  cases given : p.block? with
  | none =>
    refine ⟨⟨none, 0, ';' :: s⟩, ?_, rfl, rfl⟩
    simp [block, given, Group.read]
  | some b =>
    have balanced := p.default_balanced b given
    have blank := p.trail_blank b given
    have text : p.block ++ ';' :: s = '{' :: (b.1 ++ '}' :: (b.2 ++ ';' :: s)) := by
      simp [block, given]
    have behind : Text.afterBlanks (b.2 ++ ';' :: s) = ';' :: s :=
      (takeWhile_append_of_head blank fun c hc => by
        obtain rfl : ';' = c := Option.some.inj hc
        decide).2
    refine ⟨_, by rw [text]; exact Group.read_closed balanced rfl offset _, rfl, ?_⟩
    simp only [afterTrailer, behind, if_true]

end Slot

section
variable (contents? : Option Text)

theorem fillFrom_of_none {s : Text} (none_found : marker.find? s = none) (offset : Nat) :
    fillFrom contents? offset s = .ok s := by
  rw [fillFrom]
  split
  · rfl
  · rename_i o found
    rw [none_found] at found
    cases found

theorem fillFrom_of_find? {offset : Nat} {s : Text} {o : Occurrence Unit} {group : Group}
    (found : marker.find? s = some o)
    (closed : Group.read '{' (o.stop offset) o.rest = .ok group) :
    ∃ next, fillFrom contents? offset s =
      (fillFrom contents? next (afterTrailer group.rest)).map
        (o.before ++ contents?.elim (group.interior?.getD []) Text.strip ++ ·) := by
  refine ⟨o.stop offset + (o.rest.length - (afterTrailer group.rest).length), ?_⟩
  rw [fillFrom]
  split
  · rename_i none_found
    rw [found] at none_found
    cases none_found
  · rename_i o' found'
    obtain rfl := Option.some.inj (found.symm.trans found')
    split
    · rename_i e failed
      rw [closed] at failed
      cases failed
    · rename_i group' closed'
      obtain rfl := Except.ok.inj (closed.symm.trans closed')
      cases behind : fillFrom contents? _ (afterTrailer group.rest) <;> simp [behind, Except.map]

/-- The first slot of a body is filled, and what stands behind it is filled by itself. -/
theorem fillFrom_slot (offset : Nat) {first : Text} (clear : ¬ contentsMarker <:+: first)
    (p : Slot) (s : Text) :
    ∃ next, fillFrom contents? offset (first ++ (p.print ++ s)) =
      (fillFrom contents? next s).map (first ++ p.filler contents? ++ ·) := by
  have marked : ∀ c ∈ (p.print ++ s).head?, c = '@' := by
    intro c hc
    exact (Option.some.inj hc).symm
  have found : marker.find? (first ++ (p.print ++ s)) =
      some ⟨⟨(), contentsMarker ++ p.gap, p.block ++ ';' :: s⟩, first⟩ := by
    rw [Reader.find?_append_of_none (passes_literal clear marked) fun closed => by
        unfold Reader.freeAfter at closed
        cases last : first.getLast? <;> simp [last, marker] at closed,
      Reader.find?_eq_of_read? (p.read?_print s)]
    simp [Occurrence.shift]
  obtain ⟨group, closed, interior, rest⟩ := p.read_block _ s
  obtain ⟨next, filled⟩ := fillFrom_of_find? contents? found closed
  rw [interior, rest] at filled
  exact ⟨next, filled⟩

/-- **Filling placeholders.** Each slot of a body is filled once: by the given contents, stripped,
or without contents by what its default block holds. What is put in is not searched for
placeholders, and the literal text stays as it is. -/
theorem fill_slots {first : Text} {slots : List (Slot × Text)}
    (first_clear : ¬ contentsMarker <:+: first)
    (clear : ∀ p ∈ slots, ¬ contentsMarker <:+: p.2) :
    fill contents? (printBody first slots) =
      .ok (first ++ slots.flatMap fun p => p.1.filler contents? ++ p.2) := by
  have from_any (offset : Nat) : fillFrom contents? offset (printBody first slots) =
      .ok (first ++ slots.flatMap fun p => p.1.filler contents? ++ p.2) := by
    induction slots generalizing first offset with
    | nil =>
      have none_found : marker.find? (first ++ []) = none := by
        rw [Reader.find?_append_of_none (passes_literal first_clear (by simp)) fun _ => rfl]
        rfl
      simpa [printBody] using fillFrom_of_none contents? none_found offset
    | cons p slots ih =>
      have text : printBody first (p :: slots) =
          first ++ (p.1.print ++ printBody p.2 slots) := by
        simp [printBody]
      obtain ⟨next, filled⟩ :=
        fillFrom_slot contents? offset first_clear p.1 (printBody p.2 slots)
      have behind := ih (clear p List.mem_cons_self)
        (fun q hq => clear q (List.mem_cons_of_mem p hq)) next
      rw [text, filled, behind]
      simp [Except.map]
  exact from_any 0

end

/-- A slot whose default has a placeholder of its own, and one that is the bare marker. -/
def twoSlots : List (Slot × Text) :=
  [({ gap := "\n ".toList
      block? := some ("x(@contents;)".toList, [' '])
      gap_blank := List.all_eq_true.1 rfl
      default_balanced := by decide +kernel
      trail_blank := by
        rintro _ ⟨⟩
        exact List.all_eq_true.1 rfl }, " c: @content".toList),
    ({ gap := [], block? := none, gap_blank := nofun, default_balanced := nofun,
       trail_blank := nofun }, " \x7d".toList)]

theorem fill_slots_twoSlots :
    let first := "a \x7b b: @cont".toList
    printBody first twoSlots =
      "a \x7b b: @cont@contents\n \x7bx(@contents;)\x7d ; c: @content@contents; \x7d".toList ∧
    (¬ contentsMarker <:+: first ∧ ∀ p ∈ twoSlots, ¬ contentsMarker <:+: p.2) ∧
    fill (some " @contents; ".toList) (printBody first twoSlots) =
      .ok "a \x7b b: @cont@contents; c: @content@contents; \x7d".toList ∧
    fill none (printBody first twoSlots) =
      .ok "a \x7b b: @contx(@contents;) c: @content \x7d".toList := by
  intro first
  have clear : ¬ contentsMarker <:+: first ∧ ∀ p ∈ twoSlots, ¬ contentsMarker <:+: p.2 := by
    decide +kernel
  have filled (contents? : Option Text) := fill_slots contents? clear.1 clear.2
  exact ⟨by decide +kernel, clear, (filled _).trans (by decide +kernel),
    (filled none).trans (by decide +kernel)⟩

end Placeholder

end StyleExpansion
