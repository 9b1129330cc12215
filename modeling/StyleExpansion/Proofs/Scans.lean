import StyleExpansion.Proofs.Preambles
import StyleExpansion.Proofs.Registration

namespace StyleExpansion

namespace Declaration

/-- A declaration of the kind opens at the head of the text: a preamble stands there. -/
def Opens (kind : Kind) (s : Text) : Prop := ∃ p : Preamble, p.Fits kind ∧ p.print kind <+: s

section
variable {kind : Kind} {offset : Nat} {s : Text}

/-- A declaration opens where its header, its list of parameters and its brace are read. -/
theorem opens_iff (n : Nat) :
    Opens kind s ↔ ∃ r g opening, readHeader? kind s = some r ∧ Group.read '(' n r.rest = .ok g ∧
      readOpening? kind g.rest = some opening := by
  constructor
  · rintro ⟨p, fits, rest, rfl⟩
    exact ⟨_, _, _, fits.readHeader?_print rest, fits.read_list n rest,
      readOpening?_print fits.lead rest⟩
  · rintro ⟨r, g, opening, read, listed, opened⟩
    obtain ⟨p, fits, rfl, -⟩ := exists_preamble read listed opened
    exact ⟨p, fits, List.prefix_append _ _⟩

theorem Opens.exists_read? (h : Opens kind s) : ∃ r, (header kind).read? s = some r := by
  obtain ⟨r, -, -, read, -⟩ := (opens_iff 0).1 h
  exact ⟨r, read⟩

theorem Opens.head? (h : Opens kind s) : s.head? = some '@' := by
  obtain ⟨p, fits, rest, rfl⟩ := h
  rfl

theorem Opens.opened {r : Reading Text} {g : Group} {n : Nat} (h : Opens kind s)
    (read : readHeader? kind s = some r) (listed : Group.read '(' n r.rest = .ok g) :
    readOpening? kind g.rest ≠ none := by
  obtain ⟨r', g', opening, read', listed', opened⟩ := (opens_iff n).1 h
  obtain rfl := Option.some.inj (read'.symm.trans read)
  obtain rfl := Except.ok.inj (listed'.symm.trans listed)
  rw [opened]
  nofun

/-- An at sign stands only at the start of a header. -/
theorem notMem_of_header {o : Occurrence Text} (found : (header kind).find? s = some o) :
    ∃ t, o.lexeme = '@' :: t ∧ '@' ∉ t := by
  obtain ⟨t, lexeme, chars⟩ := readHeader?_chars (Reader.read?_of_find? found)
  refine ⟨t, lexeme, fun mem => ?_⟩
  exact absurd (chars '@' mem) (by decide)

theorem not_opens_of_none (none_found : (header kind).find? s = none) (q : Nat) :
    ¬ Opens kind (s.drop q) := by
  intro opens
  obtain ⟨r, read⟩ := opens.exists_read?
  obtain ⟨o, -, found, -⟩ := Reader.find?_le (a := s.take q) read fun _ _ => rfl
  rw [List.take_append_drop, none_found] at found
  cases found

/-- Up to the end of the header that is found first, no declaration opens but where it starts. -/
theorem not_opens_before_stop {o : Occurrence Text} (found : (header kind).find? s = some o)
    {q : Nat} (before : q < (o.before ++ o.lexeme).length) (other : q ≠ o.before.length) :
    ¬ Opens kind (s.drop q) := by
  intro opens
  rcases Nat.lt_or_ge q o.before.length with earlier | later
  · obtain ⟨r, read⟩ := opens.exists_read?
    obtain ⟨o', behind, found', parts, -⟩ :=
      Reader.find?_le (a := s.take q) read fun _ _ => rfl
    rw [List.take_append_drop, found] at found'
    obtain rfl := Option.some.inj found'
    have length := congrArg List.length parts
    simp only [List.length_take, List.length_append] at length
    omega
  · obtain ⟨t, lexeme, absent⟩ := notMem_of_header found
    have starts := opens.head?
    obtain ⟨k, rfl⟩ : ∃ k, q = o.before.length + (k + 1) := ⟨q - o.before.length - 1, by omega⟩
    rw [← Reader.find?_append found, List.append_assoc, List.drop_length_add_append, lexeme,
      List.head?_drop, List.cons_append, List.getElem?_cons_succ] at starts
    rw [List.length_append, lexeme, List.length_cons] at before
    rw [List.getElem?_append_left (by omega)] at starts
    exact absent (List.mem_of_getElem? starts)

theorem Site.start_lt {d : Declaration} (site : Site offset s d) :
    offset ≤ d.start ∧ d.start < d.bodyStart := by
  have := site.start
  have := site.bodyStart
  simp only [List.length_append, Preamble.length_print] at this
  omega

theorem start_lt_of_mem {d : Declaration} (h : d ∈ (scanFrom kind offset s).items) :
    offset ≤ d.start ∧ d.start < d.bodyStart := by
  obtain ⟨⟨site⟩, -⟩ := exists_site_of_mem h
  exact site.start_lt

/-- **Exactness of a scan**, for a text that stands at `offset`. -/
theorem mem_starts_iff (complete : (scanFrom kind offset s).failure? = none) (q : Nat) :
    (∃ d ∈ (scanFrom kind offset s).items, d.start = offset + q) ↔
      Opens kind (s.drop q) ∧ ∀ d ∈ (scanFrom kind offset s).items,
        ¬ (d.start < offset + q ∧ offset + q < d.bodyStart) := by
  fun_induction scanFrom kind offset s generalizing q with
  | case1 offset s none_found => simp [not_opens_of_none none_found q]
  | case2 => cases complete
  | case3 offset s o found list closed none_opened ih =>
    have stop : o.stop offset = offset + (o.before ++ o.lexeme).length := by
      rw [Occurrence.stop, Occurrence.start, List.length_append, Nat.add_assoc]
    rcases Nat.lt_or_ge q (o.before ++ o.lexeme).length with before | behind
    · -- The header that was found has no body, and nothing else opens up to its end.
      have closed_here : ¬ Opens kind (s.drop q) := by
        by_cases here : q = o.before.length
        · intro opens
          rw [here, ← Reader.find?_append found, List.append_assoc, List.drop_left] at opens
          exact opens.opened (Reader.read?_of_find? found) closed none_opened
        · exact not_opens_before_stop found before here
      constructor
      · rintro ⟨d, mem, start⟩
        have := start_lt_of_mem mem
        omega
      · exact fun opens => absurd opens.1 closed_here
    · obtain ⟨k, rfl⟩ := Nat.exists_eq_add_of_le behind
      have rest : s.drop ((o.before ++ o.lexeme).length + k) = o.rest.drop k := by
        rw [← Reader.find?_append found, List.drop_length_add_append]
      rw [rest, ← Nat.add_assoc, ← stop]
      exact ih complete k
  | case4 => cases complete
  | case5 offset s o found list closed opening opened bodyStart body enclosed ih =>
    obtain ⟨p, fits, text, -, -, place⟩ := exists_preamble_of_find? found closed opened
    have start : bodyStart = offset + (o.before ++ p.print kind).length := place
    have first : o.start offset = offset + o.before.length := rfl
    simp only [Scan.push, List.mem_cons, exists_eq_or_imp, forall_eq_or_imp, first]
    rcases Nat.lt_or_ge q (o.before ++ p.print kind).length with before | behind
    · have not_later : ¬ ∃ d ∈ (scanFrom kind bodyStart opening.rest).items, d.start = offset + q := by
        rintro ⟨d, mem, at_q⟩
        have := start_lt_of_mem mem
        omega
      by_cases here : q = o.before.length
      · -- Here the declaration opens that was found, and those found later start behind it.
        have opens : Opens kind (s.drop q) := by
          rw [here, text, List.append_assoc, List.drop_left]
          exact ⟨p, fits, List.prefix_append _ _⟩
        refine iff_of_true (.inl (by rw [here])) ⟨opens, by omega, ?_⟩
        rintro d mem ⟨earlier, -⟩
        have := start_lt_of_mem mem
        omega
      · refine iff_of_false ?_ ?_
        · rintro (same | later)
          · omega
          · exact not_later later
        · rintro ⟨opens, apart, -⟩
          rcases Nat.lt_or_ge q o.before.length with earlier | later
          · exact not_opens_before_stop found (by rw [List.length_append]; omega) here opens
          · exact apart ⟨by omega, by omega⟩
    · obtain ⟨k, rfl⟩ := Nat.exists_eq_add_of_le behind
      have rest : s.drop ((o.before ++ p.print kind).length + k) = opening.rest.drop k := by
        rw [text, List.drop_length_add_append]
      have later := ih complete k
      rw [start, Nat.add_assoc] at later
      rw [rest, start, later]
      have not_first : ¬ offset + o.before.length =
          offset + ((o.before ++ p.print kind).length + k) := by
        simp only [List.length_append, Preamble.length_print]
        omega
      have not_within : ¬ (offset + o.before.length <
          offset + ((o.before ++ p.print kind).length + k) ∧
            offset + ((o.before ++ p.print kind).length + k) <
              offset + (o.before ++ p.print kind).length) := by
        omega
      simp only [not_first, not_within, not_false_eq_true, true_and, false_or]

/-- The declaration stands where it says: an opening brace right before its body, a closing bracket
right behind it, and in the body every bracket has its partner. -/
structure InPlace (text : Text) (d : Declaration) : Prop where
  start_lt : d.start < d.bodyStart
  bodyStart_le : d.bodyStart ≤ d.bodyEnd
  bodyEnd_lt : d.bodyEnd < text.length
  opens : text[d.bodyStart - 1]? = some '{'
  closes : ∃ c, text[d.bodyEnd]? = some c ∧ isClosing c
  body : text.slice d.bodyStart d.bodyEnd = d.body
  balanced : Balanced d.body

theorem Site.inPlace {text : Text} {d : Declaration} (site : Site 0 text d) : d.InPlace text := by
  have start_lt := site.start_lt.2
  obtain ⟨before, p, closer, behind, rfl, -, closes, balanced, -, -, -, place⟩ := site
  rw [Nat.zero_add] at place
  have stop : d.bodyEnd = (before ++ p.print d.kind ++ d.body).length := by
    rw [bodyEnd, place]
    simp only [List.length_append]
  have whole : before ++ (p.print d.kind ++ (d.body ++ closer :: behind)) =
      before ++ p.print d.kind ++ d.body ++ closer :: behind := by
    simp
  refine ⟨start_lt, Nat.le_add_right _ _, ?_, ?_, ⟨closer, ?_, closes⟩, ?_, balanced⟩
  · rw [stop, whole]
    simp only [List.length_append, List.length_cons]
    omega
  · have brace : before ++ (p.print d.kind ++ (d.body ++ closer :: behind)) =
        before ++ (p.head d.kind ++ p.list ++ p.lead) ++ '{' :: (d.body ++ closer :: behind) := by
      simp [Preamble.print]
    have before_brace :
        d.bodyStart - 1 = (before ++ (p.head d.kind ++ p.list ++ p.lead)).length := by
      rw [place]
      simp only [Preamble.print, List.length_append, List.length_singleton]
      omega
    rw [before_brace, brace, List.getElem?_append_right (Nat.le_refl _), Nat.sub_self]
    rfl
  · rw [stop, whole, List.getElem?_append_right (Nat.le_refl _), Nat.sub_self]
    rfl
  · rw [stop, whole, place, Text.slice_append]

end

/-- **What a scan finds.** When a scan comes to its end, it found, from left to right, a declaration
at each offset where one opens, but for the offsets between the start of a declaration that it found
and the body of that. Each declaration that is found stands where it says, also when the scan fails
later, and a scan fails only at a bracket that is never closed. -/
theorem scan_finds (kind : Kind) (text : Text) :
    ((scan kind text).failure? = none →
      ((scan kind text).items.map start).Pairwise (· < ·) ∧
      ∀ p, p ∈ (scan kind text).items.map start ↔
        Opens kind (text.drop p) ∧
          ∀ d ∈ (scan kind text).items, ¬ (d.start < p ∧ p < d.bodyStart)) ∧
    (∀ d ∈ (scan kind text).items, d.InPlace text) ∧
    ∀ e, (scan kind text).failure? = some e → ∃ n, e = .unmatched n ∧ OpenAt text n := by
  refine ⟨fun complete => ⟨?_, fun p => ?_⟩, fun d found => ?_, fun e failed => ?_⟩
  · exact List.pairwise_map.2 (scanFrom_increasing kind 0 text)
  · have exact_at := mem_starts_iff complete p
    rw [Nat.zero_add] at exact_at
    exact List.mem_map.trans exact_at
  · obtain ⟨⟨site⟩, -⟩ := exists_site_of_mem found
    exact site.inPlace
  · obtain ⟨n, same, unclosed⟩ := exists_openAt_of_failure failed
    rw [Nat.zero_add] at same
    exact ⟨n, same, unclosed⟩

/-- A function with a declaration among its parameters, one in its body, and a header without a body
behind that. -/
def nestedText : Text :=
  "@function --f(@function --p() \x7b\x7d) \x7b @function --g() \x7b\x7d @function --h(); \x7d".toList

theorem scan_finds_nestedText :
    (∀ p, p ∈ [0, 36] ↔ Opens .function (nestedText.drop p) ∧
      ∀ d ∈ (scan .function nestedText).items, ¬ (d.start < p ∧ p < d.bodyStart)) ∧
    Opens .function (nestedText.drop 14) ∧
    (∀ d ∈ (scan .function nestedText).items, d.InPlace nestedText) ∧
    OpenAt "@mixin --m(".toList 11 := by
  have complete : (scan .function nestedText).failure? = none := by decide +kernel
  have starts : (scan .function nestedText).items.map start = [0, 36] := by decide +kernel
  have failed : (scan .mixin "@mixin --m(".toList).failure? = some (.unmatched 11) := by
    decide +kernel
  obtain ⟨exact_at, in_place, -⟩ := scan_finds .function nestedText
  obtain ⟨-, -, at_bracket⟩ := scan_finds .mixin "@mixin --m(".toList
  refine ⟨fun p => ?_, ?_, in_place, ?_⟩
  · rw [← starts]
    exact (exact_at complete).2 p
  · exact (opens_iff 0).2 ⟨_, _, _, rfl, rfl, rfl⟩
  · obtain ⟨n, same, open_at⟩ := at_bracket _ failed
    obtain rfl : 11 = n := by
      simp only [Error.unmatched, Error.malformed.injEq, true_and, Option.some.injEq] at same
      omega
    exact open_at

end Declaration

end StyleExpansion
