import StyleExpansion.Bracket
import StyleExpansion.Proofs.Balance

namespace StyleExpansion

theorem strip_blank_cons {c : Char} (s : Text) (h : isBlank c) :
    Text.strip (c :: s) = Text.strip s := by
  simp [Text.strip, Text.stripBy, h]

theorem strip_eq_rdropWhile (s : Text) :
    Text.strip s = (s.dropWhile isBlank).rdropWhile isBlank := rfl

theorem rdropWhile_append_cons {p : Char → Bool} {c : Char} (h : p c = false) (a y : Text) :
    (a ++ c :: y).rdropWhile p = a ++ c :: y.rdropWhile p := by
  induction y using List.reverseRecOn with
  | nil => exact List.rdropWhile_concat_neg p a c (by simp [h])
  | append_singleton y d ih =>
    have split : a ++ c :: (y ++ [d]) = (a ++ c :: y) ++ [d] := by simp
    rw [split, List.rdropWhile_concat, List.rdropWhile_concat, ih]
    cases p d <;> simp

/-- Behind a character that is not blank, stripping takes blanks from the end only. -/
theorem strip_append_cons {a : Text} {c : Char} (y : Text)
    (first : ∀ d ∈ (a ++ [c]).head?, isBlank d = false) (last : isBlank c = false) :
    Text.strip (a ++ c :: y) = a ++ c :: y.rdropWhile isBlank := by
  have front : (a ++ c :: y).dropWhile isBlank = a ++ c :: y := by
    cases a with
    | nil => simp [last]
    | cons d a => simp [first d rfl]
  rw [strip_eq_rdropWhile, front, rdropWhile_append_cons last]

theorem strip_rdropWhile_cons {s : Text} {c : Char} (h : Text.strip s = s) (blank : isBlank c) :
    Text.strip ((c :: s).rdropWhile isBlank) = s := by
  have kept : s.rdropWhile isBlank = s := by
    rw [← h, strip_eq_rdropWhile, List.rdropWhile_idempotent]
  cases s with
  | nil => simp [List.rdropWhile, blank, Text.strip, Text.stripBy]
  | cons d s =>
    have whole : (c :: d :: s).rdropWhile isBlank = c :: d :: s := by
      rw [List.rdropWhile_eq_self_iff] at kept ⊢
      intro some_left
      rw [List.getLast_cons (by simp)]
      exact kept (by simp)
    rw [whole, strip_blank_cons _ blank, h]

theorem strip_blank_append {x : Text} (blank : ∀ c ∈ x, isBlank c) (s : Text) :
    Text.strip (x ++ s) = Text.strip s := by
  induction x with
  | nil => rfl
  | cons c x ih =>
    rw [List.cons_append, strip_blank_cons _ (blank c List.mem_cons_self)]
    exact ih fun d hd => blank d (List.mem_cons_of_mem c hd)

theorem strip_append_blank {x : Text} (blank : ∀ c ∈ x, isBlank c) (s : Text) :
    Text.strip (s ++ x) = Text.strip s := by
  induction x using List.reverseRecOn with
  | nil => rw [List.append_nil]
  | append_singleton x c ih =>
    have last : isBlank c = true := blank c (by simp)
    have rest := ih fun d hd => blank d (by simp [hd])
    rw [← rest, ← List.append_assoc, strip_eq_rdropWhile, strip_eq_rdropWhile,
      List.dropWhile_append]
    split
    · rename_i nothing
      rw [List.isEmpty_iff.1 nothing]
      simp [last]
    · rw [List.rdropWhile_concat_pos _ _ _ last]

/-- A text is what stripping leaves of it, with blanks at both ends. -/
theorem Text.strip_cut (s : Text) : ∃ lead trail, s = lead ++ Text.strip s ++ trail ∧
    (∀ c ∈ lead, isBlank c) ∧ ∀ c ∈ trail, isBlank c := by
  refine ⟨s.takeWhile isBlank, (s.dropWhile isBlank).rtakeWhile isBlank, ?_,
    fun c hc => List.mem_takeWhile_imp hc, fun c hc => List.mem_rtakeWhile_imp hc⟩
  rw [List.append_assoc, strip_eq_rdropWhile, List.rdropWhile_append_rtakeWhile,
    List.takeWhile_append_dropWhile]

theorem strip_strip (s : Text) : Text.strip (Text.strip s) = Text.strip s := by
  obtain ⟨lead, trail, whole, blank, blank'⟩ := Text.strip_cut s
  conv_rhs => rw [whole, strip_append_blank blank', strip_blank_append blank]

/-! ## Comma lists -/

/-- No comma of the text stands outside of all its brackets. -/
def NoTopComma (s : Text) : Prop := ∀ p q, s = p ++ ',' :: q → bracketDepth p ≠ 0

theorem NoTopComma.append {s t : Text} (hs : NoTopComma s) (depth : bracketDepth s = 0)
    (ht : NoTopComma t) : NoTopComma (s ++ t) := by
  intro p q same
  rcases List.append_eq_append_iff.1 same with ⟨m, rfl, rest⟩ | ⟨m, rfl, rest⟩
  · have := ht m q rest
    rw [bracketDepth_append]
    omega
  · cases m with
    | nil =>
      have := ht [] q (by simpa using rest.symm)
      simp at this
    | cons c m =>
      obtain ⟨rfl, rfl⟩ := List.cons.inj rest
      exact hs p m rfl

theorem noTopComma_of_notMem {s : Text} (h : ',' ∉ s) : NoTopComma s := by
  rintro p q rfl
  simp at h

theorem NoTopComma.strip {s : Text} (h : NoTopComma s) : NoTopComma (Text.strip s) := by
  obtain ⟨lead, trail, whole, blank, -⟩ := Text.strip_cut s
  have depth := (balanced_of_plain fun c hc => isPlain_of_isBlank (blank c hc)).depth
  intro p q same
  have outside := h (lead ++ p) (q ++ trail) (by rw [whole, same]; simp)
  rwa [bracketDepth_append, depth, Int.zero_add] at outside

theorem noTopComma_of_blank {s : Text} (h : ∀ c ∈ s, isBlank c) : NoTopComma s :=
  noTopComma_of_notMem fun comma => absurd (h _ comma) (by decide)

theorem commaItems_balanced {d : Int} {s : Text} (ground : Grounded d s)
    (total : d + bracketDepth s = 0) :
    (Grounded d (commaItems d s).1 ∧ d + bracketDepth (commaItems d s).1 = 0) ∧
      ∀ t ∈ (commaItems d s).2, Balanced t := by
  induction s generalizing d with
  | nil =>
    rw [bracketDepth_nil] at total
    simp only [commaItems, grounded_nil, bracketDepth_nil, List.not_mem_nil, false_implies,
      implies_true, and_true]
    omega
  | cons c s ih =>
    rw [grounded_cons] at ground
    rw [bracketDepth_cons] at total
    rw [commaItems]
    split
    · -- A comma outside of all brackets: what was read of the list so far is one item.
      rename_i comma
      simp only [Bool.and_eq_true, beq_iff_eq] at comma
      obtain ⟨rfl, rfl⟩ := comma
      have weight : bracketWeight ',' = 0 := by decide
      rw [weight] at ground total
      obtain ⟨⟨first, depth⟩, others⟩ := ih (d := 0) ground.2 (by omega)
      refine ⟨by simp, ?_⟩
      intro t ht
      rcases List.mem_cons.1 ht with rfl | ht
      · exact balanced_iff.2 ⟨by omega, first⟩
      · exact others t ht
    · obtain ⟨⟨first, depth⟩, others⟩ := ih ground.2 (by omega)
      refine ⟨⟨?_, ?_⟩, others⟩
      · rw [grounded_cons]
        exact ⟨ground.1, first⟩
      · rw [bracketDepth_cons]
        omega

/-- Every argument is an item of the comma list, stripped. -/
theorem exists_item_of_mem_splitArguments {s t : Text} (ht : t ∈ splitArguments s) :
    ∃ u ∈ (commaItems 0 s).1 :: (commaItems 0 s).2, Text.strip u = t := by
  have every : t ∈ ((commaItems 0 s).1 :: (commaItems 0 s).2).map Text.strip := by
    simp only [splitArguments] at ht
    split at ht
    · exact (List.dropLast_subset _) ht
    · exact ht
  exact List.mem_map.1 every

theorem balanced_of_mem_splitArguments {s t : Text} (h : Balanced s)
    (ht : t ∈ splitArguments s) : Balanced t := by
  obtain ⟨depth, ground⟩ := balanced_iff.1 h
  obtain ⟨⟨first, total⟩, others⟩ := commaItems_balanced ground (by omega)
  obtain ⟨u, hu, rfl⟩ := exists_item_of_mem_splitArguments ht
  rcases List.mem_cons.1 hu with rfl | hu
  · exact (balanced_iff.2 ⟨by omega, first⟩).strip
  · exact (others u hu).strip

theorem commaItems_noTopComma (d : Int) (s : Text) :
    (∀ p q, (commaItems d s).1 = p ++ ',' :: q → d + bracketDepth p ≠ 0) ∧
      ∀ t ∈ (commaItems d s).2, NoTopComma t := by
  induction s generalizing d with
  | nil => simp [commaItems]
  | cons c s ih =>
    rw [commaItems]
    split
    · -- A comma outside of all brackets: what was read of the list so far is one item.
      rename_i comma
      simp only [Bool.and_eq_true, beq_iff_eq] at comma
      obtain ⟨rfl, rfl⟩ := comma
      obtain ⟨first, others⟩ := ih 0
      refine ⟨by simp, ?_⟩
      intro t ht
      rcases List.mem_cons.1 ht with rfl | ht
      · intro p q same
        simpa using first p q same
      · exact others t ht
    · rename_i other
      obtain ⟨first, others⟩ := ih (d + bracketWeight c)
      refine ⟨?_, others⟩
      intro p q same
      cases p with
      | nil =>
        obtain ⟨rfl, -⟩ := List.cons.inj same
        simpa using other
      | cons a p =>
        obtain ⟨rfl, behind⟩ := List.cons.inj same
        have := first p q behind
        rw [bracketDepth_cons]
        omega

theorem noTopComma_of_mem_splitArguments {s t : Text} (ht : t ∈ splitArguments s) :
    NoTopComma t := by
  obtain ⟨first, others⟩ := commaItems_noTopComma 0 s
  obtain ⟨u, hu, rfl⟩ := exists_item_of_mem_splitArguments ht
  rcases List.mem_cons.1 hu with rfl | hu
  · exact NoTopComma.strip fun p q same => by simpa using first p q same
  · exact (others u hu).strip

theorem strip_of_mem_splitArguments {s t : Text} (ht : t ∈ splitArguments s) :
    Text.strip t = t := by
  obtain ⟨u, -, rfl⟩ := exists_item_of_mem_splitArguments ht
  exact strip_strip u

theorem commaItems_append {d : Int} {s : Text} (t : Text)
    (h : ∀ p q, s = p ++ ',' :: q → d + bracketDepth p ≠ 0) :
    commaItems d (s ++ t) =
      (s ++ (commaItems (d + bracketDepth s) t).1, (commaItems (d + bracketDepth s) t).2) := by
  induction s generalizing d with
  | nil => simp
  | cons c s ih =>
    have inside : ¬ ((c == ',' && d == 0) = true) := by
      intro comma
      simp only [Bool.and_eq_true, beq_iff_eq] at comma
      exact h [] s (by simp [comma.1]) (by simp [comma.2])
    have later : ∀ p q, s = p ++ ',' :: q → d + bracketWeight c + bracketDepth p ≠ 0 := by
      intro p q hs
      have := h (c :: p) q (by simp [hs])
      rw [bracketDepth_cons] at this
      omega
    rw [List.cons_append, commaItems, if_neg inside, ih later, bracketDepth_cons, Int.add_assoc]
    rfl

theorem commaItems_snd_eq_nil_iff {d : Int} {s : Text} :
    (commaItems d s).2 = [] ↔ ∀ p q, s = p ++ ',' :: q → d + bracketDepth p ≠ 0 := by
  constructor
  · induction s generalizing d with
    | nil => simp
    | cons c s ih =>
      intro none_left p q same comma
      rw [commaItems] at none_left
      split at none_left
      · cases none_left
      · rename_i other
        cases p with
        | nil =>
          obtain ⟨rfl, rfl⟩ := List.cons.inj same
          simp at comma other
          exact other comma
        | cons a p =>
          obtain ⟨rfl, rfl⟩ := List.cons.inj same
          refine ih none_left p q rfl ?_
          rw [bracketDepth_cons] at comma
          omega
  · intro h
    have whole := commaItems_append [] h
    rw [List.append_nil] at whole
    rw [whole]
    rfl

theorem noTopComma_iff {s : Text} : NoTopComma s ↔ (commaItems 0 s).2 = [] := by
  simp [commaItems_snd_eq_nil_iff, NoTopComma]

instance (s : Text) : Decidable (NoTopComma s) := decidable_of_iff _ noTopComma_iff.symm

@[simp] theorem commaList_singleton (a : Text) : Text.commaList [a] = a := by
  simp [Text.commaList, List.intercalate]

theorem commaList_cons_cons (a b : Text) (l : List Text) :
    Text.commaList (a :: b :: l) = a ++ ',' :: ' ' :: Text.commaList (b :: l) := by
  simp [Text.commaList, List.intercalate]

theorem balanced_commaList {l : List Text} (h : ∀ t ∈ l, Balanced t) :
    Balanced (Text.commaList l) := by
  induction l with
  | nil => exact balanced_nil
  | cons a l ih =>
    have first := h a List.mem_cons_self
    cases l with
    | nil => simpa using first
    | cons b l =>
      have others := ih fun t ht => h t (List.mem_cons_of_mem a ht)
      rw [commaList_cons_cons]
      have comma : Balanced [',', ' '] := by decide
      exact first.append (comma.append others)

theorem mem_commaList {l : List Text} {c : Char} (h : c ∈ Text.commaList l) :
    c = ',' ∨ c = ' ' ∨ ∃ t ∈ l, c ∈ t := by
  induction l with
  | nil => cases h
  | cons a l ih =>
    cases l with
    | nil => exact .inr (.inr ⟨a, by simp, by simpa using h⟩)
    | cons b l =>
      rw [commaList_cons_cons] at h
      simp only [List.mem_append, List.mem_cons] at h
      rcases h with mem | rfl | rfl | mem
      · exact .inr (.inr ⟨a, List.mem_cons_self, mem⟩)
      · exact .inl rfl
      · exact .inr (.inl rfl)
      · exact (ih mem).imp id (Or.imp id fun ⟨t, ht, hc⟩ => ⟨t, List.mem_cons_of_mem a ht, hc⟩)

/-- A space behind each comma goes with the item behind it. -/
theorem commaList_eq_intercalate (a : Text) (l : List Text) :
    Text.commaList (a :: l) = [','].intercalate (a :: l.map (' ' :: ·)) := by
  induction l generalizing a with
  | nil => rw [commaList_singleton, List.map_nil, List.intercalate_singleton]
  | cons b l ih =>
    rw [commaList_cons_cons, ih, List.map_cons, List.intercalate_cons_cons]
    cases l with
    | nil => simp
    | cons c l => simp

/-- The commas between the items separate them again. -/
theorem commaItems_intercalate {a : Text} {l : List Text}
    (h : ∀ t ∈ a :: l, bracketDepth t = 0 ∧ NoTopComma t) :
    commaItems 0 ([','].intercalate (a :: l)) = (a, l) := by
  induction l generalizing a with
  | nil =>
    obtain ⟨depth, inner⟩ := h a (by simp)
    have := commaItems_append (d := 0) [] fun p q hp => by simpa using inner p q hp
    simpa [depth, commaItems] using this
  | cons b l ih =>
    obtain ⟨depth, inner⟩ := h a (by simp)
    have tail := ih (a := b) fun t ht => h t (List.mem_cons_of_mem _ ht)
    rw [List.intercalate_cons_cons, List.append_assoc,
      commaItems_append _ fun p q hp => by simpa using inner p q hp, depth]
    simp [commaItems, tail]

/-- Splitting undoes joining, up to the blanks around the items and an empty last one. -/
theorem splitArguments_intercalate {l : List Text}
    (h : ∀ t ∈ l, bracketDepth t = 0 ∧ NoTopComma t)
    (last : (l.map Text.strip).getLast? ≠ some []) :
    splitArguments ([','].intercalate l) = l.map Text.strip := by
  cases l with
  | nil => rfl
  | cons a l =>
    rw [splitArguments, commaItems_intercalate h]
    exact if_neg last

/-- The same with a space behind each comma. -/
theorem splitArguments_joined {l : List Text} (h : ∀ t ∈ l, bracketDepth t = 0 ∧ NoTopComma t)
    (last : (l.map Text.strip).getLast? ≠ some []) :
    splitArguments (Text.commaList l) = l.map Text.strip := by
  cases l with
  | nil => rfl
  | cons a l =>
    have space : isBlank ' ' = true := by decide
    have stripped : (a :: l.map (' ' :: ·)).map Text.strip = (a :: l).map Text.strip := by
      simp [Function.comp_def, strip_blank_cons, space]
    rw [commaList_eq_intercalate, ← stripped]
    refine splitArguments_intercalate ?_ (by rwa [stripped])
    intro t ht
    rcases List.mem_cons.1 ht with rfl | ht
    · exact h t List.mem_cons_self
    · obtain ⟨u, hu, rfl⟩ := List.mem_map.1 ht
      obtain ⟨depth, inner⟩ := h u (List.mem_cons_of_mem a hu)
      have before : NoTopComma [' '] := noTopComma_of_notMem (by decide)
      exact ⟨by rw [bracketDepth_cons, depth]; rfl, before.append rfl inner⟩

/-- Splitting undoes joining, up to the blanks around the items. -/
theorem splitArguments_commaList {l : List Text}
    (h : ∀ t ∈ l, bracketDepth t = 0 ∧ NoTopComma t ∧ Text.strip t ≠ []) :
    splitArguments (Text.commaList l) = l.map Text.strip := by
  refine splitArguments_joined (fun t ht => ⟨(h t ht).1, (h t ht).2.1⟩) ?_
  intro empty
  obtain ⟨t, ht, none_left⟩ := List.mem_map.1 (List.mem_of_getLast? empty)
  exact (h t ht).2.2 none_left

/-- An item of a comma list as written, with what stands between it and the commas. -/
structure Padded where
  lead : Text
  item : Text
  trail : Text
deriving DecidableEq, Repr

namespace Padded

def print (p : Padded) : Text := p.lead ++ p.item ++ p.trail

/-- Only blanks stand around the item, which has none at its own ends. It closes as many brackets as
it opens, though it may close them first, and no comma stands at the depth at which it starts. -/
structure Fits (p : Padded) : Prop where
  lead : ∀ c ∈ p.lead, isBlank c
  trail : ∀ c ∈ p.trail, isBlank c
  stripped : Text.strip p.item = p.item
  depth : bracketDepth p.item = 0
  comma : NoTopComma p.item

instance (p : Padded) : Decidable p.Fits :=
  decidable_of_iff (p.lead.all isBlank ∧ p.trail.all isBlank ∧ Text.strip p.item = p.item ∧
      bracketDepth p.item = 0 ∧ NoTopComma p.item) <| by
    rw [List.all_eq_true, List.all_eq_true]
    exact ⟨fun ⟨a, b, c, d, e⟩ => ⟨a, b, c, d, e⟩, fun ⟨a, b, c, d, e⟩ => ⟨a, b, c, d, e⟩⟩

theorem Fits.strip_print {p : Padded} (h : p.Fits) : Text.strip p.print = p.item := by
  rw [print, strip_append_blank h.trail, strip_blank_append h.lead, h.stripped]

theorem Fits.isItem_print {p : Padded} (h : p.Fits) :
    bracketDepth p.print = 0 ∧ NoTopComma p.print := by
  have lead := balanced_of_plain fun c hc => isPlain_of_isBlank (h.lead c hc)
  have trail := balanced_of_plain fun c hc => isPlain_of_isBlank (h.trail c hc)
  have front : bracketDepth (p.lead ++ p.item) = 0 := by
    rw [bracketDepth_append, lead.depth, h.depth, Int.add_zero]
  constructor
  · rw [print, bracketDepth_append, front, trail.depth, Int.add_zero]
  · exact ((noTopComma_of_blank h.lead).append lead.depth h.comma).append front
      (noTopComma_of_blank h.trail)

end Padded

/-- **Comma lists.** A list of items with blanks around them and commas between them is split into
the items, if the last one is not empty. What stands between a bracket and the bracket that closes
it is split into balanced parts, none of which has a comma outside of its brackets. -/
theorem splitArguments_restores :
    (∀ items : List Padded, (∀ p ∈ items, p.Fits) → (∀ p ∈ items.getLast?, p.item ≠ []) →
      splitArguments ([','].intercalate (items.map Padded.print)) = items.map Padded.item) ∧
    ∀ text start stop, closingOffset? text start = some stop →
      ∀ t ∈ splitArguments (text.slice start stop), Balanced t ∧ NoTopComma t := by
  constructor
  · intro items fits last
    have stripped : (items.map Padded.print).map Text.strip = items.map Padded.item := by
      rw [List.map_map]
      exact List.map_congr_left fun p hp => (fits p hp).strip_print
    rw [splitArguments_intercalate, stripped]
    · intro t ht
      obtain ⟨p, hp, rfl⟩ := List.mem_map.1 ht
      exact (fits p hp).isItem_print
    · rw [stripped, List.getLast?_map]
      intro empty
      obtain ⟨p, hp, nothing⟩ := Option.map_eq_some_iff.1 empty
      exact last p hp nothing
  · intro text start stop closed t ht
    exact ⟨balanced_of_mem_splitArguments (balanced_of_closingOffset? closed) ht,
      noTopComma_of_mem_splitArguments ht⟩

/-- An item that closes a bracket before it opens one, with a comma between the two, an empty one,
and one with commas in its brackets. -/
def paddedItems : List Padded :=
  [⟨"\t".toList, ")a, b[".toList, []⟩, ⟨" ".toList, [], "\x1f".toList⟩,
    ⟨"\n ".toList, "f(x, [y, z])".toList, " ".toList⟩]

theorem splitArguments_restores_paddedItems :
    (∀ p ∈ paddedItems, p.Fits) ∧ (∀ p ∈ paddedItems.getLast?, p.item ≠ []) ∧
    splitArguments "\t)a, b[, \x1f,\n f(x, [y, z]) ".toList =
      [")a, b[".toList, [], "f(x, [y, z])".toList] ∧
    closingOffset? "--f(a, (b, c) ,, [)])".toList 4 = some 19 ∧
    ∀ t ∈ ["a".toList, "(b, c)".toList, [], "[)".toList], Balanced t ∧ NoTopComma t := by
  have fits : ∀ p ∈ paddedItems, p.Fits := by decide +kernel
  have last : ∀ p ∈ paddedItems.getLast?, p.item ≠ [] := by decide +kernel
  have closed : closingOffset? "--f(a, (b, c) ,, [)])".toList 4 = some 19 := by decide +kernel
  have parts : splitArguments (Text.slice "--f(a, (b, c) ,, [)])".toList 4 19) =
      ["a".toList, "(b, c)".toList, [], "[)".toList] := by decide +kernel
  obtain ⟨restored, apart⟩ := splitArguments_restores
  refine ⟨fits, last, restored paddedItems fits last, closed, ?_⟩
  rw [← parts]
  exact apart _ _ _ closed

end StyleExpansion
