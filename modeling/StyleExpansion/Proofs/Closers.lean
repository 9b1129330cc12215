import StyleExpansion.Proofs.Balance

namespace StyleExpansion

theorem bracketDepth_eq_countP (s : Text) :
    bracketDepth s = (s.countP isOpening : Int) - s.countP isClosing := by
  induction s with
  | nil => rfl
  | cons c s ih =>
    rw [bracketDepth_cons, ih]
    by_cases closes : isClosing c
    · simp only [bracketWeight_of_isClosing closes, List.countP_cons, closes,
        not_isOpening_of_isClosing closes, if_true, Bool.false_eq_true, if_false]
      omega
    · by_cases opens : isOpening c
      · simp only [bracketWeight_of_isOpening opens, List.countP_cons, opens, closes, if_true,
          Bool.false_eq_true, if_false]
        omega
      · simp [bracketWeight, opens, closes]

theorem balanced_iff_countP {s : Text} :
    Balanced s ↔ s.countP isOpening = s.countP isClosing ∧
      ∀ p, p <+: s → p.countP isClosing ≤ p.countP isOpening := by
  have even (t : Text) : bracketDepth t = 0 ↔ t.countP isOpening = t.countP isClosing := by
    rw [bracketDepth_eq_countP]
    omega
  have ahead (t : Text) : 0 ≤ bracketDepth t ↔ t.countP isClosing ≤ t.countP isOpening := by
    rw [bracketDepth_eq_countP]
    omega
  simp only [Balanced, even, ahead]

/-- The bracket at `stop` is the first one from `start` on that closes none opened from there on:
what stands between the two closes as much as it opens, and at no place in it more than it has
opened. -/
structure FirstUnmatched (s : Text) (start stop : Nat) : Prop where
  start_le : start ≤ stop
  lt_length : stop < s.length
  closer : isClosing s[stop]
  even : (s.slice start stop).countP isOpening = (s.slice start stop).countP isClosing
  ahead : ∀ p, p <+: s.slice start stop → p.countP isClosing ≤ p.countP isOpening

theorem FirstUnmatched.balanced {s : Text} {start stop : Nat} (h : FirstUnmatched s start stop) :
    Balanced (s.slice start stop) :=
  balanced_iff_countP.2 ⟨h.even, h.ahead⟩

/-- Text behind the bracket does not matter to it. -/
theorem FirstUnmatched.append {s : Text} {start stop : Nat} (h : FirstUnmatched s start stop)
    (t : Text) : FirstUnmatched (s ++ t) start stop := by
  have same := Text.slice_append_of_le (Nat.le_of_lt h.lt_length) t start
  refine ⟨h.start_le, ?_, ?_, ?_, ?_⟩
  · rw [List.length_append]
    exact Nat.lt_add_right _ h.lt_length
  · rw [List.getElem_append_left h.lt_length]
    exact h.closer
  · rw [same]
    exact h.even
  · rw [same]
    exact h.ahead

/-- A search for the closing bracket finds the first unmatched one and nothing else. -/
theorem closingOffset?_eq_some_iff {s : Text} {start stop : Nat} :
    closingOffset? s start = some stop ↔ FirstUnmatched s start stop := by
  constructor
  · intro found
    have inside := balanced_iff_countP.1 (balanced_of_closingOffset? found)
    obtain ⟨b, closed, rfl⟩ := Option.map_eq_some_iff.1 found
    obtain ⟨cut, closes, -⟩ := enclosed?_eq_some_iff.1 closed
    have there : s[start + b.interior.length]? = some b.closer := by
      rw [← List.getElem?_drop, cut]
      simp
    obtain ⟨lt, closer⟩ := List.getElem?_eq_some_iff.1 there
    exact ⟨Nat.le_add_right _ _, lt, closer ▸ closes, inside.1, inside.2⟩
  · intro h
    have lt := h.lt_length
    have closed : enclosed? (s.drop start) =
        some ⟨s.slice start stop, s[stop], s.drop (stop + 1)⟩ := by
      rw [← Text.slice_append_drop h.start_le, List.drop_eq_getElem_cons lt]
      exact enclosed?_balanced h.balanced h.closer
    have width : start + (s.slice start stop).length = stop := by
      have := h.start_le
      rw [Text.length_slice]
      omega
    rw [closingOffset?, closed, Option.map_some, width]

theorem closingOffset?_eq_none_iff {s : Text} {start : Nat} :
    closingOffset? s start = none ↔ ∀ stop, ¬ FirstUnmatched s start stop := by
  simp only [Option.eq_none_iff_forall_ne_some, Ne, closingOffset?_eq_some_iff]

/-- There is one search for each text and start, so there is one such bracket. -/
theorem FirstUnmatched.unique {s : Text} {start i j : Nat} (hi : FirstUnmatched s start i)
    (hj : FirstUnmatched s start j) : i = j := by
  rw [← closingOffset?_eq_some_iff] at hi hj
  exact Option.some.inj (hi.symm.trans hj)

theorem findCloser_eq_ok_iff {strict : Bool} {s : Text} {start stop : Nat} :
    findCloser strict s start = .ok stop ↔ FirstUnmatched s start stop := by
  rw [← closingOffset?_eq_some_iff]
  unfold findCloser
  cases closingOffset? s start with
  | some i => simp
  | none => cases strict <;> simp

theorem findCloser_eq_missing_iff (strict : Bool) {s : Text} {start : Nat} :
    findCloser strict s start = (if strict then .error (.unmatched start) else .ok (-1)) ↔
      ∀ stop, ¬ FirstUnmatched s start stop := by
  rw [← closingOffset?_eq_none_iff]
  unfold findCloser
  cases closingOffset? s start with
  | some i => cases strict <;> simp
  | none => simp

/-- **The closing bracket.** An offset is the answer of a search, strict or not, just where the
first unmatched bracket stands. There is at most one such bracket. Where there is none, a strict
search fails at its start and any other answers `-1`. An offset that was found stays the answer
whatever text is put behind. -/
theorem findCloser_first (text : Text) (start : Nat) :
    (∀ strict (stop : Nat),
      findCloser strict text start = .ok stop ↔ FirstUnmatched text start stop) ∧
    (∀ i j, FirstUnmatched text start i → FirstUnmatched text start j → i = j) ∧
    (findCloser true text start = .error (.unmatched start) ↔
      ∀ stop, ¬ FirstUnmatched text start stop) ∧
    (findCloser false text start = .ok (-1) ↔ ∀ stop, ¬ FirstUnmatched text start stop) ∧
    ∀ strict (stop : Nat) more, findCloser strict text start = .ok stop →
      findCloser strict (text ++ more) start = .ok stop := by
  refine ⟨fun strict stop => findCloser_eq_ok_iff, fun i j => FirstUnmatched.unique,
    findCloser_eq_missing_iff true, findCloser_eq_missing_iff false, ?_⟩
  intro strict stop more found
  have there := findCloser_eq_ok_iff.1 found
  exact findCloser_eq_ok_iff.2 (there.append more)

def mixedBrackets : Text := "f(\x7ba], [(b\x7d) c) d]".toList

theorem findCloser_first_mixedBrackets :
    FirstUnmatched mixedBrackets 2 14 ∧ (∀ i, FirstUnmatched mixedBrackets 2 i → i = 14) ∧
    findCloser false (mixedBrackets ++ ")(".toList) 2 = .ok 14 ∧
    (∀ stop, ¬ FirstUnmatched mixedBrackets 18 stop) ∧
    findCloser true mixedBrackets 40 = .error (.unmatched 40) := by
  obtain ⟨first, unique, -, -, stays⟩ := findCloser_first mixedBrackets 2
  obtain ⟨-, -, -, none_left, -⟩ := findCloser_first mixedBrackets 18
  have found : findCloser false mixedBrackets 2 = .ok 14 := by decide +kernel
  have there := (first false 14).1 found
  refine ⟨there, fun i other => unique i 14 other there, stays false 14 _ found, ?_, ?_⟩
  · exact none_left.1 (by decide +kernel)
  · decide +kernel

end StyleExpansion
