import StyleExpansion.Context
import StyleExpansion.Proofs.Merging

namespace StyleExpansion

namespace Span

/-- The spans lie one behind the other, from `offset` on. -/
inductive Ahead : (offset : Nat) → List Span → Prop
  | nil (offset : Nat) : Ahead offset []
  | cons {offset a b : Nat} {spans : List Span} (behind : offset ≤ a) (ordered : a ≤ b)
      (others : Ahead b spans) : Ahead offset (⟨a, b⟩ :: spans)

theorem Ahead.le_start {offset : Nat} {spans : List Span} (h : Ahead offset spans) :
    ∀ s ∈ spans, (offset : Int) ≤ s.start := by
  induction h with
  | nil => nofun
  | cons behind ordered _ ih =>
    refine List.forall_mem_cons.2 ⟨Int.ofNat_le.2 behind, fun s mem => ?_⟩
    have := ih s mem
    omega

theorem ahead_of_apart {offset : Nat} {spans : List Span}
    (bounds : ∀ s ∈ spans, (offset : Int) ≤ s.start ∧ s.start ≤ s.stop) (apart : Apart spans) :
    Ahead offset spans := by
  induction spans generalizing offset with
  | nil => exact .nil offset
  | cons s spans ih =>
    obtain ⟨start, stop⟩ := s
    obtain ⟨⟨low, ordered⟩, others⟩ := List.forall_mem_cons.1 bounds
    obtain ⟨behind, rest⟩ := List.pairwise_cons.1 apart
    simp only at low ordered behind
    lift start to Nat using by omega
    lift stop to Nat using by omega
    refine .cons (Int.ofNat_le.1 low) (Int.ofNat_le.1 ordered) (ih (fun m mem => ?_) rest)
    exact ⟨(behind m mem).le, (others m mem).2⟩

/-- Merged spans that do not end before they start lie one behind the other. -/
theorem ahead_merge {spans : List Span} (h : ∀ s ∈ spans, 0 ≤ s.start ∧ s.start ≤ s.stop) :
    Ahead 0 (merge spans) := by
  have join (a b : Span) (ha : 0 ≤ a.start ∧ a.start ≤ a.stop)
      (_ : 0 ≤ b.start ∧ b.start ≤ b.stop) : 0 ≤ a.start ∧ a.start ≤ max a.stop b.stop :=
    ⟨ha.1, ha.2.trans (le_max_left _ _)⟩
  exact ahead_of_apart (forall_mem_merge join h) (merge_apart spans)

end Span

namespace Segment

def shown (blank : Bool) : Segment → Text
  | code s => s
  | declaration s => if blank then Text.newlines s else s

/-- The pieces of a text from an offset on are the text from there on. -/
theorem source_walk {offset : Nat} {spans : List Span} (h : Span.Ahead offset spans) (text : Text) :
    (walk text offset spans).flatMap (shown false) = text.drop offset := by
  induction h with
  | nil offset => exact List.append_nil _
  | @cons offset a b spans behind ordered _ ih =>
    calc (walk text offset (⟨a, b⟩ :: spans)).flatMap (shown false)
        = Text.slice text offset a ++ (Text.slice text a b ++
            (walk text b spans).flatMap (shown false)) := rfl
      _ = Text.slice text offset a ++ text.drop a := by rw [ih, Text.slice_append_drop ordered]
      _ = text.drop offset := Text.slice_append_drop behind text

/-- No character of a text is lost between its pieces, and none is in two of them. -/
theorem source_split {spans : List Span} (h : ∀ s ∈ spans, 0 ≤ s.start ∧ s.start ≤ s.stop)
    (text : Text) : (split text spans).flatMap (shown false) = text :=
  source_walk (Span.ahead_merge h) text

end Segment

/-- Where every piece is shown as it is, the pieces are written one after the other. -/
theorem Written.ofSegments_of_shown {context? : Option Context} {blank : Bool}
    {segments : List Segment}
    (h : ∀ piece ∈ segments, piece.render context? blank = pure (piece.shown blank)) :
    ofSegments context? blank segments = { text := segments.flatMap (Segment.shown blank) } := by
  induction segments with
  | nil => rfl
  | cons piece segments ih =>
    obtain ⟨first, others⟩ := List.forall_mem_cons.1 h
    rw [ofSegments, first, ih others]
    rfl

/-- Without a context no code is expanded. -/
theorem write_none (blank : Bool) (text : Text) (spans : List Span) :
    write none blank text spans =
      { text := (Segment.split text spans).flatMap (Segment.shown blank) } := by
  refine Written.ofSegments_of_shown fun piece _ => ?_
  cases piece with
  | code s => rfl
  | declaration s => rfl

/-- A text whose declarations are copied comes out as it went in. -/
theorem write_copied {spans : List Span} (h : ∀ s ∈ spans, 0 ≤ s.start ∧ s.start ≤ s.stop)
    (text : Text) : write none false text spans = { text := text } := by
  rw [write_none, Segment.source_split h]

end StyleExpansion
