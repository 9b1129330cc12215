import StyleExpansion.Proofs.Segments

namespace StyleExpansion

def Span.covered (spans : List Span) (i : Nat) : Bool := spans.any fun s => s.Covers i

/-- The characters of a text that stands at `offset` which are newlines or covered by no span. -/
def kept (spans : List Span) (offset : Nat) (s : Text) : Text :=
  ((s.zipIdx offset).filter fun p => p.1 == '\n' || !Span.covered spans p.2).map Prod.fst

namespace Span

theorem covered_iff {spans : List Span} {i : Nat} :
    covered spans i = true ↔ ∃ s ∈ spans, s.Covers i := by
  simp [covered]

theorem covered_merge (spans : List Span) : covered (merge spans) = covered spans := by
  funext i
  rw [Bool.eq_iff_iff, covered_iff, covered_iff, covers_merge]

end Span

section
variable {spans : List Span} {offset : Nat}

@[simp] theorem kept_nil : kept spans offset [] = [] := rfl

theorem kept_append (x y : Text) :
    kept spans offset (x ++ y) = kept spans offset x ++ kept spans (offset + x.length) y := by
  simp [kept, List.zipIdx_append]

/-- What is kept of a text depends on which of its own offsets are covered. -/
theorem kept_congr {others : List Span} {s : Text}
    (h : ∀ i, offset ≤ i → i < offset + s.length → Span.covered spans i = Span.covered others i) :
    kept spans offset s = kept others offset s := by
  unfold kept
  congr 1
  refine List.filter_congr ?_
  rintro ⟨c, i⟩ mem
  obtain ⟨low, high, -⟩ := List.mem_zipIdx mem
  rw [h i low high]

/-- A text is kept whole where no span covers it. -/
theorem kept_uncovered {s : Text}
    (h : ∀ i, offset ≤ i → i < offset + s.length → Span.covered spans i = false) :
    kept spans offset s = s := by
  have all : (s.zipIdx offset).filter (fun p => p.1 == '\n' || !Span.covered spans p.2) =
      s.zipIdx offset := by
    refine List.filter_eq_self.2 ?_
    rintro ⟨c, i⟩ mem
    obtain ⟨low, high, -⟩ := List.mem_zipIdx mem
    simp [h i low high]
  rw [kept, all, List.zipIdx_map_fst]

/-- A text that is covered whole leaves its newlines. -/
theorem kept_covered {s : Text}
    (h : ∀ i, offset ≤ i → i < offset + s.length → Span.covered spans i = true) :
    kept spans offset s = Text.newlines s := by
  have same : (s.zipIdx offset).filter (fun p => p.1 == '\n' || !Span.covered spans p.2) =
      (s.zipIdx offset).filter ((· == '\n') ∘ Prod.fst) := by
    refine List.filter_congr ?_
    rintro ⟨c, i⟩ mem
    obtain ⟨low, high, -⟩ := List.mem_zipIdx mem
    simp [h i low high]
  rw [kept, same, ← List.filter_map, List.zipIdx_map_fst, Text.newlines]

theorem kept_cons (c : Char) (s : Text) : kept spans offset (c :: s) =
    if c == '\n' || !Span.covered spans offset then c :: kept spans (offset + 1) s
    else kept spans (offset + 1) s := by
  unfold kept
  rw [List.zipIdx_cons, List.filter_cons]
  split
  · rfl
  · rfl

/-- All newlines are kept. -/
theorem count_kept (s : Text) : (kept spans offset s).count '\n' = s.count '\n' := by
  induction s generalizing offset with
  | nil => rfl
  | cons c s ih =>
    rw [kept_cons]
    split
    · rw [List.count_cons, List.count_cons, ih]
    · rename_i goes
      have other : c ≠ '\n' := by
        rintro rfl
        exact goes rfl
      rw [ih, List.count_cons_of_ne other]

/-- A character that is kept stands in the text as well, behind what was kept before it. -/
theorem exists_of_kept_eq_append {s front back : Text} {c : Char}
    (h : kept spans offset s = front ++ c :: back) : ∃ x y, s = x ++ c :: y ∧
      kept spans offset x = front ∧ kept spans (offset + x.length + 1) y = back ∧
      (c = '\n' ∨ Span.covered spans (offset + x.length) = false) := by
  induction s generalizing offset front with
  | nil => simp at h
  | cons d s ih =>
    rw [kept_cons] at h
    split at h
    · rename_i stays
      cases front with
      | nil =>
        obtain ⟨rfl, rest⟩ := List.cons.inj h
        exact ⟨[], s, rfl, rfl, rest, by simpa using stays⟩
      | cons e front =>
        obtain ⟨rfl, rest⟩ := List.cons.inj h
        obtain ⟨x, y, rfl, before, behind, reason⟩ := ih rest
        refine ⟨d :: x, y, rfl, ?_, ?_, ?_⟩
        · rw [kept_cons, if_pos stays, before]
        · rw [← behind, List.length_cons, Nat.add_assoc offset 1, Nat.add_comm 1]
        · rwa [List.length_cons, ← Nat.add_assoc, Nat.add_right_comm]
    · rename_i goes
      obtain ⟨x, y, rfl, before, behind, reason⟩ := ih h
      refine ⟨d :: x, y, rfl, ?_, ?_, ?_⟩
      · rw [kept_cons, if_neg goes, before]
      · rw [← behind, List.length_cons, Nat.add_assoc offset 1, Nat.add_comm 1]
      · rwa [List.length_cons, ← Nat.add_assoc, Nat.add_right_comm]

/-- The part of a text before the first offset that is covered. -/
theorem exists_uncovered (spans : List Span) (offset : Nat) (s : Text) : ∃ x y, s = x ++ y ∧
    (∀ i, offset ≤ i → i < offset + x.length → Span.covered spans i = false) ∧
    (y ≠ [] → Span.covered spans (offset + x.length) = true) := by
  induction s generalizing offset with
  | nil => exact ⟨[], [], rfl, fun i low high => absurd high (by simpa using low), by simp⟩
  | cons c s ih =>
    cases here : Span.covered spans offset with
    | true =>
      exact ⟨[], c :: s, rfl, fun i low high => absurd high (by simpa using low), fun _ => here⟩
    | false =>
      obtain ⟨x, y, rfl, free, ends⟩ := ih (offset + 1)
      have length : offset + (c :: x).length = offset + 1 + x.length := by
        rw [List.length_cons]
        omega
      refine ⟨c :: x, y, rfl, fun i low high => ?_, by rwa [length]⟩
      rcases Nat.eq_or_lt_of_le low with rfl | low
      · exact here
      · exact free i low (by omega)

/-- Where the first of two neighbours is not covered and the second is, a merged span starts. -/
theorem Span.exists_start {i : Nat} (before : covered spans i = false)
    (here : covered spans (i + 1) = true) : ∃ m ∈ merge spans, m.start = i + 1 := by
  rw [← covered_merge] at before here
  obtain ⟨m, mem, low, high⟩ := covered_iff.1 here
  refine ⟨m, mem, ?_⟩
  by_contra other
  rw [← Bool.not_eq_true, covered_iff] at before
  refine before ⟨m, mem, ?_, ?_⟩
  · push_cast at low
    omega
  · push_cast at high
    omega

end

/-- What is kept from one offset on, in two parts. -/
theorem kept_drop (spans : List Span) {a b : Nat} (h : a ≤ b) (s : Text) :
    kept spans a (s.drop a) = kept spans a (Text.slice s a b) ++ kept spans b (s.drop b) := by
  rw [← Text.slice_append_drop h, kept_append]
  by_cases inside : b ≤ s.length
  · have length : a + (Text.slice s a b).length = b := by
      rw [Text.length_slice]
      omega
    rw [length]
  · rw [List.drop_of_length_le (by omega), kept_nil, kept_nil]

/-- The pieces of a text from an offset on, with the declarations blanked, are what is kept of the
text from there on. -/
theorem shown_walk {offset : Nat} {spans : List Span} (h : Span.Ahead offset spans) (text : Text) :
    (Segment.walk text offset spans).flatMap (Segment.shown true) =
      kept spans offset (text.drop offset) := by
  induction h with
  | nil offset =>
    rw [kept_uncovered fun i _ _ => rfl]
    exact List.append_nil _
  | @cons offset a b spans behind ordered others ih =>
    have before : kept (⟨a, b⟩ :: spans) offset (Text.slice text offset a) =
        Text.slice text offset a := by
      refine kept_uncovered fun i _ high => ?_
      have := Text.length_slice_le text offset a
      rw [← Bool.not_eq_true, Span.covered_iff]
      rintro ⟨s, mem, covers, -⟩
      have := (Span.Ahead.cons (Nat.le_refl a) ordered others).le_start s mem
      omega
    have within : kept (⟨a, b⟩ :: spans) a (Text.slice text a b) =
        Text.newlines (Text.slice text a b) := by
      refine kept_covered fun i _ high => ?_
      have := Text.length_slice_le text a b
      exact Span.covered_iff.2
        ⟨⟨a, b⟩, List.mem_cons_self, by simp only; omega, by simp only; omega⟩
    have rest : kept (⟨a, b⟩ :: spans) b (text.drop b) = kept spans b (text.drop b) := by
      refine kept_congr fun i low _ => ?_
      have passed : ¬ Span.Covers ⟨a, b⟩ i := fun covers => by
        have := covers.2
        simp only at this
        omega
      simp [Span.covered, passed]
    rw [kept_drop _ behind, kept_drop _ ordered, before, within, rest, ← ih]
    rfl

/-- What blanking leaves is the newlines and the characters outside of all spans. -/
theorem blankSpans_eq_kept {spans : List Span} (h : ∀ s ∈ spans, 0 ≤ s.start ∧ s.start ≤ s.stop)
    (text : Text) : blankSpans text spans = kept spans 0 text := by
  have walked := shown_walk (Span.ahead_merge h) text
  rw [List.drop_zero, kept_congr fun i _ _ => congrFun (Span.covered_merge spans) i] at walked
  rw [blankSpans, write_none]
  exact walked

/-- **The walk loses and doubles nothing.** Spans may come in any order, overlap, be empty and lie
beyond the end of the text. Copied, they leave the text as it is. Blanked, they leave nothing but
the newlines and the characters outside of all spans, each behind as many newlines as before. -/
theorem write_loses_nothing {spans : List Span} (h : ∀ s ∈ spans, 0 ≤ s.start ∧ s.start ≤ s.stop)
    (text : Text) :
    (write none false text spans).toTraced = ⟨[], .ok text⟩ ∧
    (write none true text spans).toTraced = ⟨[], .ok (blankSpans text spans)⟩ ∧
    blankSpans text spans = kept spans 0 text ∧
    (blankSpans text spans).count '\n' = text.count '\n' ∧
    (∀ x c y, text = x ++ c :: y → (c = '\n' ∨ Span.covered spans x.length = false) →
      blankSpans text spans = kept spans 0 x ++ c :: kept spans (x.length + 1) y ∧
        (kept spans 0 x).count '\n' = x.count '\n') ∧
    ∀ front c back, blankSpans text spans = front ++ c :: back → ∃ x y, text = x ++ c :: y ∧
      (c = '\n' ∨ Span.covered spans x.length = false) ∧ kept spans 0 x = front ∧
        front.count '\n' = x.count '\n' := by
  have blanked := blankSpans_eq_kept h text
  refine ⟨?_, ?_, blanked, ?_, ?_, ?_⟩
  · rw [write_copied h]
    rfl
  · rw [blankSpans, write_none]
    rfl
  · rw [blanked, count_kept]
  · rintro x c y rfl stays
    refine ⟨?_, count_kept x⟩
    have here : (c == '\n' || !Span.covered spans (0 + x.length)) = true := by simpa using stays
    rw [blanked, kept_append, kept_cons, if_pos here, Nat.zero_add]
  · intro front c back cut
    rw [blanked] at cut
    obtain ⟨x, y, whole, before, -, stays⟩ := exists_of_kept_eq_append cut
    rw [Nat.zero_add] at stays
    exact ⟨x, y, whole, stays, before, by rw [← before, count_kept]⟩

def scattered : List Span := [⟨4, 9⟩, ⟨2, 5⟩, ⟨12, 40⟩, ⟨0, 0⟩, ⟨30, 50⟩, ⟨9, 10⟩, ⟨2, 5⟩]

theorem write_loses_nothing_scattered :
    (∀ s ∈ scattered, 0 ≤ s.start ∧ s.start ≤ s.stop) ∧
    (write none false "ab\ncd\nef\ngh\nij".toList scattered).toTraced =
      ⟨[], .ok "ab\ncd\nef\ngh\nij".toList⟩ ∧
    blankSpans "ab\ncd\nef\ngh\nij".toList scattered = "ab\n\n\nh\n".toList := by
  have ordered : ∀ s ∈ scattered, 0 ≤ s.start ∧ s.start ≤ s.stop := by decide
  have left : kept scattered 0 "ab\ncd\nef\ngh\nij".toList = "ab\n\n\nh\n".toList := by decide
  obtain ⟨copied, -, blanked, -⟩ := write_loses_nothing ordered "ab\ncd\nef\ngh\nij".toList
  exact ⟨ordered, copied, blanked.trans left⟩

end StyleExpansion
