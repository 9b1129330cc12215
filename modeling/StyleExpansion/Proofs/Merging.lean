import StyleExpansion.Declaration
import Mathlib

/-!
Merging spans. The spans are sorted by start and then by end, and one group after the other takes in
those that overlap or touch it. Groups stay in that order (`ordered_coalesce`), which is what all of
the following rests on.

* `merge_apart`: every merged span ends before the next one starts;
* `covers_merge`: the merged spans cover the offsets that the given ones cover;
* `forall_mem_merge`: what the given spans have in common and joining keeps, the merged spans have;
* `merge_of_ordered`: spans in order and apart are merged already;
* `merge_canonical`: the cover does not depend on the order in which the spans are given, and
  merging it again gives it back.

Nothing is asked of the ends of a span here; one that ends before it starts covers nothing.
-/

namespace StyleExpansion

namespace Span

instance (s : Span) (x : Int) : Decidable (s.Covers x) :=
  inferInstanceAs (Decidable (s.start ≤ x ∧ x < s.stop))

theorem le_iff {a b : Span} :
    le a b ↔ a.start < b.start ∨ (a.start = b.start ∧ a.stop ≤ b.stop) := by
  simp [le]

theorem start_le_of_le {a b : Span} (h : le a b) : a.start ≤ b.start := by
  have := le_iff.1 h
  omega

theorem le_trans (a b c : Span) (hab : le a b) (hbc : le b c) : le a c := by
  rw [le_iff] at hab hbc ⊢
  omega

theorem le_total (a b : Span) : le a b || le b a := by
  rw [Bool.or_eq_true, le_iff, le_iff]
  omega

theorem le_antisymm {a b : Span} (hab : le a b) (hba : le b a) : a = b := by
  obtain ⟨_, _⟩ := a
  obtain ⟨_, _⟩ := b
  rw [le_iff] at hab hba
  simp only [mk.injEq]
  simp only at hab hba
  omega

/-- The spans are in order: by start, and by end where they start alike. -/
def Ordered (spans : List Span) : Prop := spans.Pairwise fun a b => le a b

def Apart (spans : List Span) : Prop := spans.Pairwise fun a b => a.stop < b.start

theorem ordered_mergeSort (spans : List Span) : Ordered (spans.mergeSort le) :=
  List.pairwise_mergeSort le_trans le_total spans

/-- Of the same spans there is only one list in order. -/
theorem Ordered.eq_of_perm {spans others : List Span} (hs : Ordered spans) (ho : Ordered others)
    (perm : spans.Perm others) : spans = others :=
  perm.eq_of_pairwise (fun _ _ _ _ => le_antisymm) hs ho

section
variable {group s : Span} {ss : List Span}

/-- A group that takes in the next span is still before the others: one of them that starts with the
group starts with the span as well, and so it ends behind both. -/
theorem Ordered.take_in (h : Ordered (group :: s :: ss)) :
    Ordered (⟨group.start, max group.stop s.stop⟩ :: ss) := by
  obtain ⟨first, rest⟩ := List.pairwise_cons.1 h
  obtain ⟨second, rest⟩ := List.pairwise_cons.1 rest
  refine List.pairwise_cons.2 ⟨fun m hm => ?_, rest⟩
  have next := le_iff.1 (first s List.mem_cons_self)
  have behind := le_iff.1 (first m (List.mem_cons_of_mem s hm))
  have behind_next := le_iff.1 (second m hm)
  rw [le_iff]
  simp only
  omega

theorem le_of_mem_coalesce (ordered : Ordered (group :: ss)) {m : Span}
    (h : m ∈ coalesce group ss) : le group m := by
  induction ss generalizing group with
  | nil =>
    obtain rfl : m = group := List.mem_singleton.1 h
    exact le_iff.2 (.inr ⟨rfl, Int.le_refl _⟩)
  | cons s ss ih =>
    rw [coalesce] at h
    split at h
    · have grown : le group ⟨group.start, max group.stop s.stop⟩ :=
        le_iff.2 (.inr ⟨rfl, Int.le_max_left _ _⟩)
      exact le_trans _ _ _ grown (ih ordered.take_in h)
    · obtain ⟨first, rest⟩ := List.pairwise_cons.1 ordered
      rcases List.mem_cons.1 h with rfl | h
      · exact le_iff.2 (.inr ⟨rfl, Int.le_refl _⟩)
      · exact le_trans _ _ _ (first s List.mem_cons_self) (ih rest h)

theorem ordered_coalesce (ordered : Ordered (group :: ss)) : Ordered (coalesce group ss) := by
  induction ss generalizing group with
  | nil => exact List.pairwise_singleton _ _
  | cons s ss ih =>
    rw [coalesce]
    split
    · exact ih ordered.take_in
    · obtain ⟨first, rest⟩ := List.pairwise_cons.1 ordered
      refine List.pairwise_cons.2 ⟨fun m hm => ?_, ih rest⟩
      exact le_trans _ _ _ (first s List.mem_cons_self) (le_of_mem_coalesce rest hm)

theorem coalesce_apart (ordered : Ordered (group :: ss)) : Apart (coalesce group ss) := by
  induction ss generalizing group with
  | nil => exact List.pairwise_singleton _ _
  | cons s ss ih =>
    rw [coalesce]
    split
    · exact ih ordered.take_in
    · rename_i behind
      have rest := (List.pairwise_cons.1 ordered).2
      refine List.pairwise_cons.2 ⟨fun m hm => ?_, ih rest⟩
      have := start_le_of_le (le_of_mem_coalesce rest hm)
      omega

/-- Spans that are apart are taken in by none of the groups before them. -/
theorem coalesce_of_apart (apart : Apart (group :: ss)) : coalesce group ss = group :: ss := by
  induction ss generalizing group with
  | nil => rfl
  | cons s ss ih =>
    obtain ⟨behind, rest⟩ := List.pairwise_cons.1 apart
    have := behind s List.mem_cons_self
    rw [coalesce, if_neg (by omega), ih rest]

theorem covers_coalesce (ordered : Ordered (group :: ss)) {x : Int} :
    (∃ m ∈ coalesce group ss, m.Covers x) ↔ ∃ s ∈ group :: ss, s.Covers x := by
  induction ss generalizing group with
  | nil => rfl
  | cons s ss ih =>
    have first := start_le_of_le ((List.pairwise_cons.1 ordered).1 s List.mem_cons_self)
    rw [coalesce]
    split
    · rename_i meets
      have both : Covers ⟨group.start, max group.stop s.stop⟩ x ↔ group.Covers x ∨ s.Covers x := by
        simp only [Covers]
        omega
      rw [ih ordered.take_in]
      simp only [List.exists_mem_cons_iff, both, or_assoc]
    · rw [List.exists_mem_cons_iff, ih (List.pairwise_cons.1 ordered).2,
        List.exists_mem_cons_iff (a := group)]

/-- What the given spans have in common and a group keeps when it takes in a span, the groups have
in common. -/
theorem forall_mem_coalesce {P : Span → Prop}
    (join : ∀ a b, P a → P b → P ⟨a.start, max a.stop b.stop⟩) (h : ∀ s ∈ group :: ss, P s) :
    ∀ m ∈ coalesce group ss, P m := by
  induction ss generalizing group with
  | nil => exact h
  | cons s ss ih =>
    obtain ⟨first, rest⟩ := List.forall_mem_cons.1 h
    rw [coalesce]
    split
    · obtain ⟨second, rest⟩ := List.forall_mem_cons.1 rest
      exact ih (List.forall_mem_cons.2 ⟨join group s first second, rest⟩)
    · exact List.forall_mem_cons.2 ⟨first, ih rest⟩

end

/-- The merged spans are those of a list in order of the same spans, one group after the other. -/
theorem merge_cases (spans : List Span) : (spans = [] ∧ merge spans = []) ∨
    ∃ s ss, merge spans = coalesce s ss ∧ Ordered (s :: ss) ∧ (s :: ss).Perm spans := by
  have perm := List.mergeSort_perm spans le
  have ordered := ordered_mergeSort spans
  unfold merge
  cases h : spans.mergeSort le with
  | nil =>
    rw [h] at perm
    exact .inl ⟨perm.nil_eq.symm, rfl⟩
  | cons s ss =>
    rw [h] at perm ordered
    exact .inr ⟨s, ss, rfl, ordered, perm⟩

theorem ordered_merge (spans : List Span) : Ordered (merge spans) := by
  obtain ⟨-, none_left⟩ | ⟨s, ss, groups, ordered, -⟩ := merge_cases spans
  · rw [none_left]
    exact List.Pairwise.nil
  · rw [groups]
    exact ordered_coalesce ordered

/-- Every merged span ends before the next one starts. -/
theorem merge_apart (spans : List Span) : Apart (merge spans) := by
  obtain ⟨-, none_left⟩ | ⟨s, ss, groups, ordered, -⟩ := merge_cases spans
  · rw [none_left]
    exact List.Pairwise.nil
  · rw [groups]
    exact coalesce_apart ordered

/-- The merged spans cover the offsets that the given ones cover. -/
theorem covers_merge {spans : List Span} {x : Int} :
    (∃ m ∈ merge spans, m.Covers x) ↔ ∃ s ∈ spans, s.Covers x := by
  obtain ⟨rfl, none_left⟩ | ⟨s, ss, groups, ordered, perm⟩ := merge_cases spans
  · rw [none_left]
  · rw [groups, covers_coalesce ordered]
    exact exists_congr fun a => and_congr_left fun _ => perm.mem_iff

/-- What the given spans have in common, and two of them keep when one takes in the other, the
merged spans have in common. -/
theorem forall_mem_merge {P : Span → Prop} {spans : List Span}
    (join : ∀ a b, P a → P b → P ⟨a.start, max a.stop b.stop⟩) (h : ∀ s ∈ spans, P s) :
    ∀ m ∈ merge spans, P m := by
  obtain ⟨-, none_left⟩ | ⟨s, ss, groups, ordered, perm⟩ := merge_cases spans
  · rw [none_left]
    nofun
  · rw [groups]
    exact forall_mem_coalesce join fun a ha => h a (perm.mem_iff.1 ha)

/-- The order in which the spans are given makes no difference. -/
theorem merge_perm {spans others : List Span} (perm : spans.Perm others) :
    merge spans = merge others := by
  have same : (spans.mergeSort le).Perm (others.mergeSort le) :=
    (List.mergeSort_perm spans le).trans (perm.trans (List.mergeSort_perm others le).symm)
  have sorted := (ordered_mergeSort spans).eq_of_perm (ordered_mergeSort others) same
  rw [merge, merge, sorted]

/-- Spans in order that are apart are merged already. -/
theorem merge_of_ordered {spans : List Span} (ordered : Ordered spans) (apart : Apart spans) :
    merge spans = spans := by
  have sorted : spans.mergeSort le = spans :=
    (ordered_mergeSort spans).eq_of_perm ordered (List.mergeSort_perm spans le)
  rw [merge, sorted]
  cases spans with
  | nil => rfl
  | cons s ss => exact coalesce_of_apart apart

/-- **The cover of a list of spans.** Whatever the spans are, the merged ones are apart, with starts
that do not decrease, and cover the same offsets. They do not depend on the order of the given
spans, and merging them again gives them back. -/
theorem merge_canonical (spans : List Span) :
    (merge spans).Pairwise (fun a b => a.stop < b.start) ∧
    (merge spans).Pairwise (fun a b => a.start ≤ b.start) ∧
    (∀ x, (∃ s ∈ spans, s.Covers x) ↔ ∃ m ∈ merge spans, m.Covers x) ∧
    (∀ others, others.Perm spans → merge others = merge spans) ∧
    merge (merge spans) = merge spans := by
  refine ⟨merge_apart spans, ?_, ?_, ?_, ?_⟩
  · exact (ordered_merge spans).imp start_le_of_le
  · exact fun x => covers_merge.symm
  · exact fun others perm => merge_perm perm
  · exact merge_of_ordered (ordered_merge spans) (merge_apart spans)

def mixed : List Span := [⟨7, 2⟩, ⟨3, 5⟩, ⟨0, 3⟩, ⟨7, 4⟩, ⟨-4, -4⟩, ⟨1, 2⟩]

theorem merge_canonical_mixed :
    mixed.reverse.Perm mixed ∧ merge mixed = [⟨-4, -4⟩, ⟨0, 5⟩, ⟨7, 2⟩, ⟨7, 4⟩] ∧
    merge mixed.reverse = [⟨-4, -4⟩, ⟨0, 5⟩, ⟨7, 2⟩, ⟨7, 4⟩] ∧
    merge [⟨-4, -4⟩, ⟨0, 5⟩, ⟨7, 2⟩, ⟨7, 4⟩] = [⟨-4, -4⟩, ⟨0, 5⟩, ⟨7, 2⟩, ⟨7, 4⟩] := by
  have merged : merge mixed = [⟨-4, -4⟩, ⟨0, 5⟩, ⟨7, 2⟩, ⟨7, 4⟩] := by
    simp only [merge, mixed]
    cbv
  have perm : mixed.reverse.Perm mixed := List.reverse_perm mixed
  obtain ⟨-, -, -, any_order, again⟩ := merge_canonical mixed
  rw [merged] at again
  exact ⟨perm, merged, (any_order _ perm).trans merged, again⟩

end Span

end StyleExpansion
