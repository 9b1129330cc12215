import StyleExpansion.Bracket
import StyleExpansion.Text
import Mathlib

/-!
The theory of bracket depth. Two one-sided conditions make up balance:

* `Grounded d s`: read from depth `d`, the text never closes more than is open;
* `Sealed d s`: with `d` brackets to come, nothing that the text opens is left open.

`enclosed?_eq_some_iff` and `enclosed?_eq_none_iff` say in these terms what a search for the closing
bracket finds. `OpenAt s n` says that the bracket right before an offset is never closed, and
`Tracks s t` that `t` can stand wherever `s` stood.
-/

namespace StyleExpansion

@[simp] theorem bracketDepth_nil : bracketDepth [] = 0 := rfl

@[simp] theorem bracketDepth_cons (c : Char) (s : Text) :
    bracketDepth (c :: s) = bracketWeight c + bracketDepth s := rfl

@[simp] theorem bracketDepth_append (s t : Text) :
    bracketDepth (s ++ t) = bracketDepth s + bracketDepth t := by
  induction s with
  | nil => simp
  | cons c s ih =>
    rw [List.cons_append, bracketDepth_cons, bracketDepth_cons, ih]
    omega

theorem bracketWeight_of_isOpening {c : Char} (h : isOpening c) : bracketWeight c = 1 := by
  simp [bracketWeight, h]

theorem not_isOpening_of_isClosing {c : Char} (h : isClosing c) : isOpening c = false := by
  simp only [isClosing, Bool.or_eq_true, beq_iff_eq] at h
  rcases h with (rfl | rfl) | rfl <;> decide

theorem bracketWeight_of_isClosing {c : Char} (h : isClosing c) : bracketWeight c = -1 := by
  simp [bracketWeight, h, not_isOpening_of_isClosing h]

def isPlain (c : Char) : Bool := !isOpening c && !isClosing c

theorem bracketWeight_of_isPlain {c : Char} (h : isPlain c) : bracketWeight c = 0 := by
  simp only [isPlain, Bool.and_eq_true, Bool.not_eq_true'] at h
  simp [bracketWeight, h]

theorem isPlain_of_isBlank {c : Char} (h : isBlank c) : isPlain c := by
  cases hc : isPlain c
  · simp only [isPlain, isOpening, isClosing, Bool.and_eq_false_iff, Bool.not_eq_false',
      Bool.or_eq_true, beq_iff_eq] at hc
    rcases hc with ((rfl | rfl) | rfl) | ((rfl | rfl) | rfl) <;> exact absurd h (by decide)
  · rfl

/-- Read from depth `d`, the text never closes more brackets than are open. -/
def Grounded (d : Int) (s : Text) : Prop := ∀ p, p <+: s → 0 ≤ d + bracketDepth p

/-- With a change of depth by `d` still to come, no bracket that the text opens is left open. -/
def Sealed (d : Int) (s : Text) : Prop := ∀ t, t <:+ s → bracketDepth t + d ≤ 0

@[simp] theorem grounded_nil (d : Int) : Grounded d [] ↔ 0 ≤ d := by
  constructor
  · intro h
    simpa using h [] (List.nil_prefix)
  · intro h p hp
    rw [List.prefix_nil.1 hp]
    simpa using h

theorem Grounded.nonneg {d : Int} {s : Text} (h : Grounded d s) : 0 ≤ d := by
  simpa using h [] List.nil_prefix

theorem Grounded.depth_nonneg {d : Int} {s : Text} (h : Grounded d s) :
    0 ≤ d + bracketDepth s :=
  h s (List.prefix_refl s)

theorem grounded_cons (d : Int) (c : Char) (s : Text) :
    Grounded d (c :: s) ↔ 0 ≤ d ∧ Grounded (d + bracketWeight c) s := by
  constructor
  · intro h
    refine ⟨h.nonneg, fun p hp => ?_⟩
    have := h (c :: p) (List.cons_prefix_cons.2 ⟨rfl, hp⟩)
    simp only [bracketDepth_cons] at this
    omega
  · rintro ⟨hd, h⟩ p hp
    rcases List.prefix_cons_iff.1 hp with rfl | ⟨q, rfl, hq⟩
    · simpa using hd
    · have := h q hq
      simp only [bracketDepth_cons]
      omega

theorem grounded_append (d : Int) (s t : Text) :
    Grounded d (s ++ t) ↔ Grounded d s ∧ Grounded (d + bracketDepth s) t := by
  induction s generalizing d with
  | nil =>
    simp only [List.nil_append, bracketDepth_nil, Int.add_zero, grounded_nil]
    exact ⟨fun h => ⟨h.nonneg, h⟩, fun h => h.2⟩
  | cons c s ih =>
    rw [List.cons_append, grounded_cons, grounded_cons, ih, bracketDepth_cons, and_assoc,
      Int.add_assoc]

theorem Grounded.mono {d e : Int} {s : Text} (h : Grounded d s) (le : d ≤ e) : Grounded e s := by
  intro p hp
  have := h p hp
  omega

@[simp] theorem sealed_nil (d : Int) : Sealed d [] ↔ d ≤ 0 := by
  constructor
  · intro h
    simpa using h [] List.nil_suffix
  · intro h t ht
    rw [List.suffix_nil.1 ht]
    simpa using h

theorem Sealed.nonpos {d : Int} {s : Text} (h : Sealed d s) : d ≤ 0 := by
  simpa using h [] List.nil_suffix

theorem sealed_append (d : Int) (s t : Text) :
    Sealed d (s ++ t) ↔ Sealed d t ∧ Sealed (bracketDepth t + d) s := by
  constructor
  · intro h
    refine ⟨fun u hu => h u (hu.trans (List.suffix_append s t)), fun u hu => ?_⟩
    obtain ⟨x, rfl⟩ := hu
    have := h (u ++ t) ⟨x, by simp⟩
    simp only [bracketDepth_append] at this
    omega
  · rintro ⟨ht, hs⟩ u hu
    obtain ⟨x, hx⟩ := hu
    -- The suffix starts either in `s` or in `t`.
    rcases List.append_eq_append_iff.1 hx with ⟨m, rfl, rfl⟩ | ⟨m, rfl, rfl⟩
    · have := hs m ⟨x, rfl⟩
      simp only [bracketDepth_append]
      omega
    · exact ht u ⟨m, rfl⟩

theorem Sealed.suffix {s t : Text} (h : Sealed 0 s) (ht : t <:+ s) : Sealed 0 t :=
  fun u hu => h u (hu.trans ht)

theorem balanced_iff {s : Text} : Balanced s ↔ bracketDepth s = 0 ∧ Grounded 0 s := by
  simp [Balanced, Grounded]

theorem balanced_nil : Balanced [] := by
  simp [balanced_iff]

theorem Balanced.depth {s : Text} (h : Balanced s) : bracketDepth s = 0 := h.1

theorem Balanced.grounded {s : Text} {d : Int} (h : Balanced s) (hd : 0 ≤ d) : Grounded d s :=
  (balanced_iff.1 h).2.mono hd

theorem Balanced.sealed {s : Text} {d : Int} (h : Balanced s) (hd : d ≤ 0) : Sealed d s := by
  rintro t ⟨x, rfl⟩
  have total := h.depth
  have front := h.2 x (List.prefix_append x t)
  simp only [bracketDepth_append] at total
  omega

theorem Balanced.append {s t : Text} (hs : Balanced s) (ht : Balanced t) : Balanced (s ++ t) := by
  refine balanced_iff.2 ⟨by simp [hs.depth, ht.depth], ?_⟩
  rw [grounded_append, hs.depth]
  exact ⟨hs.grounded (Int.le_refl 0), ht.grounded (by omega)⟩

theorem balanced_of_plain {s : Text} (h : ∀ c ∈ s, isPlain c) : Balanced s := by
  induction s with
  | nil => exact balanced_nil
  | cons c s ih =>
    have hc := bracketWeight_of_isPlain (h c (by simp))
    have hs := ih fun x hx => h x (by simp [hx])
    refine balanced_iff.2 ⟨by simp [hc, hs.depth], ?_⟩
    rw [grounded_cons, hc]
    exact ⟨Int.le_refl 0, hs.grounded (by omega)⟩

theorem Balanced.bracketed {s : Text} {o c : Char} (h : Balanced s) (ho : isOpening o)
    (hc : isClosing c) : Balanced (o :: s ++ [c]) := by
  have wo := bracketWeight_of_isOpening ho
  have wc := bracketWeight_of_isClosing hc
  refine balanced_iff.2 ⟨by simp [wo, wc, h.depth], ?_⟩
  rw [List.cons_append, grounded_cons, grounded_append, h.depth, grounded_cons, wo, wc]
  exact ⟨Int.le_refl 0, h.grounded (by omega), by omega, by simp⟩

theorem Balanced.of_append_left {s t : Text} (h : Balanced (s ++ t)) (hs : Balanced s) :
    Balanced t := by
  obtain ⟨total, ground⟩ := balanced_iff.1 h
  rw [bracketDepth_append, hs.depth] at total
  rw [grounded_append, hs.depth] at ground
  exact balanced_iff.2 ⟨by omega, ground.2⟩

theorem Balanced.of_append_right {s t : Text} (h : Balanced (s ++ t)) (ht : Balanced t) :
    Balanced s := by
  obtain ⟨total, ground⟩ := balanced_iff.1 h
  rw [bracketDepth_append, ht.depth] at total
  rw [grounded_append] at ground
  exact balanced_iff.2 ⟨by omega, ground.1⟩

theorem Balanced.afterBlanks {s : Text} (h : Balanced s) : Balanced (Text.afterBlanks s) := by
  rw [← Text.blanks_append_afterBlanks s] at h
  refine h.of_append_left (balanced_of_plain fun c hc => ?_)
  exact isPlain_of_isBlank (List.mem_takeWhile_imp hc)

theorem Balanced.strip {s : Text} (h : Balanced s) : Balanced (Text.strip s) := by
  have front := h.afterBlanks
  rw [← List.rdropWhile_append_rtakeWhile (p := isBlank) (l := Text.afterBlanks s)] at front
  refine front.of_append_right (balanced_of_plain fun c hc => ?_)
  exact isPlain_of_isBlank (List.mem_rtakeWhile_imp hc)

theorem closeAt_eq_some_iff {n : Nat} {s : Text} {b : Block} :
    closeAt n s = some b ↔ s = b.interior ++ b.closer :: b.rest ∧ isClosing b.closer ∧
      Grounded n b.interior ∧ n + bracketDepth b.interior = 0 := by
  induction s generalizing n b with
  | nil => simp [closeAt]
  | cons c s ih =>
    -- A character before the closer moves into the interior and changes the depth by its weight.
    have step (m : Nat) (hm : (m : Int) = n + bracketWeight c)
        (inside : ¬ (n = 0 ∧ isClosing c = true)) :
        (closeAt m s).map (Block.push c) = some b ↔
          c :: s = b.interior ++ b.closer :: b.rest ∧ isClosing b.closer ∧
            Grounded n b.interior ∧ n + bracketDepth b.interior = 0 := by
      rw [Option.map_eq_some_iff]
      constructor
      · rintro ⟨d, hd, rfl⟩
        obtain ⟨whole, closer, ground, depth⟩ := ih.1 hd
        refine ⟨by simp [Block.push, whole], closer, ?_, ?_⟩
        · simp only [Block.push, grounded_cons]
          exact ⟨by omega, by rwa [← hm]⟩
        · simp only [Block.push, bracketDepth_cons]
          omega
      · rintro ⟨whole, closer, ground, depth⟩
        obtain ⟨interior, closer', rest⟩ := b
        cases interior with
        | nil =>
          simp only [List.nil_append, List.cons.injEq, bracketDepth_nil] at whole depth
          exact absurd ⟨by omega, whole.1 ▸ closer⟩ inside
        | cons x interior =>
          simp only [List.cons_append, List.cons.injEq] at whole
          obtain ⟨rfl, whole⟩ := whole
          simp only [grounded_cons, bracketDepth_cons] at ground depth
          exact ⟨⟨interior, closer', rest⟩, ih.2 ⟨whole, closer, by rw [hm]; exact ground.2,
            by simp only; omega⟩, rfl⟩
    rw [closeAt]
    by_cases ho : isOpening c
    · rw [if_pos ho]
      refine step (n + 1) (by simp [bracketWeight_of_isOpening ho]) ?_
      rintro ⟨_, hc⟩
      simp [not_isOpening_of_isClosing hc] at ho
    · rw [if_neg ho]
      by_cases hc : isClosing c
      · rw [if_pos hc]
        by_cases hn : n = 0
        · rw [if_pos hn]
          constructor
          · intro h
            obtain rfl : _ = b := Option.some.inj h
            simp [hc, hn]
          · rintro ⟨whole, closer, ground, depth⟩
            obtain ⟨interior, closer', rest⟩ := b
            cases interior with
            | nil =>
              simp only [List.nil_append, List.cons.injEq] at whole
              rw [whole.1, whole.2]
            | cons x interior =>
              simp only [List.cons_append, List.cons.injEq] at whole
              obtain ⟨rfl, _⟩ := whole
              have := ((grounded_cons _ _ _).1 ground).2.nonneg
              rw [bracketWeight_of_isClosing hc] at this
              omega
        · rw [if_neg hn]
          exact step (n - 1) (by rw [bracketWeight_of_isClosing hc]; omega) (fun h => hn h.1)
      · rw [if_neg hc]
        exact step n (by simp [bracketWeight, ho, hc]) (fun h => hc h.2)

/-- The block found is balanced, and it is the only balanced one that a closing bracket ends. -/
theorem enclosed?_eq_some_iff {s : Text} {b : Block} :
    enclosed? s = some b ↔
      s = b.interior ++ b.closer :: b.rest ∧ isClosing b.closer ∧ Balanced b.interior := by
  rw [enclosed?, closeAt_eq_some_iff, balanced_iff]
  simp only [Int.natCast_zero, Int.zero_add]
  constructor
  · rintro ⟨whole, closer, ground, depth⟩
    exact ⟨whole, closer, depth, ground⟩
  · rintro ⟨whole, closer, depth, ground⟩
    exact ⟨whole, closer, ground, depth⟩

theorem closeAt_eq_none_iff {n : Nat} {s : Text} : closeAt n s = none ↔ Grounded n s := by
  induction s generalizing n with
  | nil => simp [closeAt]
  | cons c s ih =>
    rw [closeAt, grounded_cons]
    by_cases ho : isOpening c
    · rw [if_pos ho, Option.map_eq_none_iff, ih, bracketWeight_of_isOpening ho]
      simp
    · rw [if_neg ho]
      by_cases hc : isClosing c
      · rw [if_pos hc, bracketWeight_of_isClosing hc]
        by_cases hn : n = 0
        · subst hn
          rw [if_pos rfl]
          constructor
          · intro h
            cases h
          · rintro ⟨_, ground⟩
            have := ground.nonneg
            simp at this
        · rw [if_neg hn, Option.map_eq_none_iff, ih]
          have : ((n - 1 : Nat) : Int) = n + -1 := by omega
          simp [this]
      · rw [if_neg hc, Option.map_eq_none_iff, ih]
        simp [bracketWeight, ho, hc]

theorem enclosed?_eq_none_iff {s : Text} : enclosed? s = none ↔ Grounded 0 s :=
  closeAt_eq_none_iff

theorem enclosed?_balanced {s t : Text} {c : Char} (h : Balanced s) (hc : isClosing c) :
    enclosed? (s ++ c :: t) = some ⟨s, c, t⟩ :=
  enclosed?_eq_some_iff.2 ⟨rfl, hc, h⟩

theorem balanced_iff_enclosed? {s : Text} :
    Balanced s ↔ enclosed? (s ++ [')']) = some ⟨s, ')', []⟩ := by
  rw [enclosed?_eq_some_iff]
  constructor
  · intro h
    exact ⟨rfl, rfl, h⟩
  · rintro ⟨-, -, h⟩
    exact h

instance (s : Text) : Decidable (Balanced s) := decidable_of_iff _ balanced_iff_enclosed?.symm

theorem balanced_of_closingOffset? {s : Text} {start stop : Nat}
    (h : closingOffset? s start = some stop) : Balanced (s.slice start stop) := by
  obtain ⟨b, closed, rfl⟩ := Option.map_eq_some_iff.1 h
  obtain ⟨cut, -, inside⟩ := enclosed?_eq_some_iff.1 closed
  rw [Text.slice, List.drop_take, Nat.add_sub_cancel_left, cut, List.take_left]
  exact inside

/-- In a text that leaves nothing open, a bracket that was opened is closed. -/
theorem enclosed?_ne_none {s q : Text} {o : Char} (h : Sealed 0 s) (hq : o :: q <:+ s)
    (ho : isOpening o) : enclosed? q ≠ none := by
  intro none_found
  have up := (enclosed?_eq_none_iff.1 none_found).depth_nonneg
  have down := h (o :: q) hq
  rw [bracketDepth_cons, bracketWeight_of_isOpening ho] at down
  omega

/-- An opening bracket stands right before the offset, and no closing bracket with a balanced text
before it follows. -/
def OpenAt (s : Text) (offset : Nat) : Prop :=
  ∃ front o rest, s = front ++ o :: rest ∧ offset = front.length + 1 ∧ isOpening o ∧
    ∀ x c z, rest = x ++ c :: z → isClosing c → ¬ Balanced x

theorem OpenAt.behind {front s : Text} {n : Nat} (h : OpenAt s n) :
    OpenAt (front ++ s) (front.length + n) := by
  obtain ⟨x, o, rest, rfl, rfl, opens, never⟩ := h
  exact ⟨front ++ x, o, rest, by simp, by simp [Nat.add_assoc], opens, never⟩

theorem openAt_of_enclosed? (front : Text) {rest : Text} {o : Char} (opens : isOpening o)
    (unclosed : enclosed? rest = none) : OpenAt (front ++ o :: rest) (front.length + 1) := by
  refine ⟨front, o, rest, rfl, rfl, opens, ?_⟩
  rintro x c z rfl closes balanced
  rw [enclosed?_balanced balanced closes] at unclosed
  cases unclosed

theorem not_openAt_of_sealed {s : Text} (h : Sealed 0 s) (offset : Nat) : ¬ OpenAt s offset := by
  rintro ⟨front, o, rest, rfl, -, opens, never⟩
  cases closed : enclosed? rest with
  | none => exact enclosed?_ne_none h (List.suffix_append front _) opens closed
  | some b =>
    obtain ⟨cut, closes, balanced⟩ := enclosed?_eq_some_iff.1 closed
    exact never _ _ _ cut closes balanced

/-- The text `t` can stand in place of `s` in any text without harm to its brackets. -/
structure Tracks (s t : Text) : Prop where
  depth : bracketDepth t = bracketDepth s
  grounded : ∀ d, Grounded d s → Grounded d t
  sealed : ∀ d, Sealed d s → Sealed d t

namespace Tracks

theorem refl (s : Text) : Tracks s s := ⟨rfl, fun _ => id, fun _ => id⟩

theorem append {s s' t t' : Text} (hs : Tracks s s') (ht : Tracks t t') :
    Tracks (s ++ t) (s' ++ t') where
  depth := by simp [hs.depth, ht.depth]
  grounded d h := by
    rw [grounded_append] at h ⊢
    rw [hs.depth]
    exact ⟨hs.grounded d h.1, ht.grounded _ h.2⟩
  sealed d h := by
    rw [sealed_append] at h ⊢
    rw [ht.depth]
    exact ⟨ht.sealed d h.1, hs.sealed _ h.2⟩

theorem of_balanced {s t : Text} (hs : Balanced s) (ht : Balanced t) : Tracks s t where
  depth := by rw [hs.depth, ht.depth]
  grounded d h := ht.grounded h.nonneg
  sealed d h := ht.sealed h.nonpos

theorem balanced {s t : Text} (h : Tracks s t) (hs : Balanced s) : Balanced t := by
  obtain ⟨total, ground⟩ := balanced_iff.1 hs
  exact balanced_iff.2 ⟨by rw [h.depth, total], h.grounded 0 ground⟩

end Tracks

end StyleExpansion
