import StyleExpansion.Proofs.Clauses

namespace StyleExpansion

namespace ResultClause

/-- A result clause with the text before it and the text behind it. -/
structure Clause where
  before : Text
  gap : Text
  value : Text
  behind : Text

namespace Clause

def print (c : Clause) : Text := resultWord ++ c.gap ++ ':' :: c.value

/-- The clause stands in the body: its word continues no name, only blanks stand before the colon,
and its expression, which has at least one character, goes up to the next semicolon or to the
end. -/
structure StandsIn (body : Text) (c : Clause) : Prop where
  whole : body = c.before ++ c.print ++ c.behind
  apart : StartsName c.before
  blank : ∀ a ∈ c.gap, isBlank a
  some_value : c.value ≠ []
  within : ';' ∉ c.value
  ends : ∀ a ∈ c.behind.head?, a = ';'

variable {body : Text} {c : Clause}

theorem StandsIn.read?_print (h : c.StandsIn body) :
    read? (c.print ++ c.behind) = some ⟨c.value, c.print, c.behind⟩ := by
  have inside : ∀ a ∈ c.value, (a != ';') = true := by
    intro a ha
    rw [bne_iff_ne]
    rintro rfl
    exact h.within ha
  obtain ⟨taken, left⟩ := takeWhile_append_of_head (p := (· != ';')) (s := c.behind) inside
    fun a ha => by simp [h.ends a ha]
  have shown : (c.value ++ c.behind).head?.any (· != ';') := by
    obtain ⟨a, value, cut⟩ := List.exists_cons_of_ne_nil h.some_value
    simpa [cut] using inside a (by simp [cut])
  rw [print, List.append_assoc, List.cons_append, read?_clause h.blank shown, taken, left]

/-- What the search finds is a clause in its place. -/
theorem exists_of_find? {o : Occurrence Text} (found : reader.find? body = some o) :
    ∃ c : Clause, c.StandsIn body ∧ c.before = o.before ∧ c.value = o.value := by
  have whole := Reader.find?_append found
  have read : read? _ = some o.toReading := Reader.read?_of_find? found
  have ends := semicolon_of_read? read
  obtain ⟨gap, value, blank, some_value, -, same⟩ := read?_parts read
  obtain ⟨value_eq, lexeme_eq, -⟩ := Reading.mk.inj same
  refine ⟨⟨o.before, gap, o.value, o.rest⟩, ⟨?_, startsName_of_find? found, blank, ?_, ?_, ends⟩,
    rfl, rfl⟩
  · rw [← whole, lexeme_eq, value_eq, print]
  · rw [value_eq]
    cases value with
    | nil => cases some_value
    | cons a value =>
      have first : (a != ';') = true := some_value
      simp [first]
  · rw [value_eq]
    intro mem
    have := List.mem_takeWhile_imp mem
    simp at this

/-- No clause stands before the one that the search finds. -/
theorem StandsIn.exists_find? (h : c.StandsIn body) : ∃ o behind, reader.find? body = some o ∧
    c.before = o.before ++ behind ∧ (behind = [] → o.value = c.value) := by
  have read : reader.read? (c.print ++ c.behind) = some _ := h.read?_print
  obtain ⟨o, behind, found, parts, same⟩ := Reader.find?_le (a := c.before) read
    fun a ha => by simp [reader, h.apart a ha]
  rw [← List.append_assoc, ← h.whole] at found
  exact ⟨o, behind, found, parts, fun here => congrArg Reading.value (same here)⟩

theorem find?_eq_none_iff : reader.find? body = none ↔ ∀ c : Clause, ¬ c.StandsIn body := by
  constructor
  · intro none_found c stands
    obtain ⟨o, -, found, -⟩ := stands.exists_find?
    rw [none_found] at found
    cases found
  · intro clear
    rw [Option.eq_none_iff_forall_ne_some]
    intro o found
    obtain ⟨c, stands, -⟩ := exists_of_find? found
    exact clear c stands

structure First (body : Text) (c : Clause) : Prop where
  stands : c.StandsIn body
  least : ∀ d : Clause, d.StandsIn body → c.before.length ≤ d.before.length

theorem first_of_find? {o : Occurrence Text} (found : reader.find? body = some o) :
    ∃ c : Clause, c.First body ∧ c.value = o.value := by
  obtain ⟨c, stands, before, value⟩ := exists_of_find? found
  refine ⟨c, ⟨stands, fun d other => ?_⟩, value⟩
  obtain ⟨o', behind, found', parts, -⟩ := other.exists_find?
  obtain rfl := Option.some.inj (found.symm.trans found')
  rw [before, parts, List.length_append]
  exact Nat.le_add_right _ _

theorem First.find? (h : c.First body) : ∃ o, reader.find? body = some o ∧ o.value = c.value := by
  obtain ⟨o, behind, found, parts, same⟩ := h.stands.exists_find?
  obtain ⟨d, stands, before, -⟩ := exists_of_find? found
  have least := h.least d stands
  rw [before, parts, List.length_append] at least
  exact ⟨o, found, same (List.length_eq_zero_iff.1 (by omega))⟩

theorem StandsIn.notMem_print (h : c.StandsIn body) : ';' ∉ c.print := by
  intro mem
  rw [print, List.mem_append, List.mem_append, List.mem_cons] at mem
  rcases mem with (word | gap) | colon | value
  · exact absurd word (by decide)
  · exact absurd (h.blank _ gap) (by decide)
  · exact absurd colon (by decide)
  · exact h.within value

/-- Where no clause stands up to a semicolon, each clause stands behind it. -/
theorem StandsIn.behind_semicolon {front rest : Text} (h : c.StandsIn (front ++ ';' :: rest))
    (clear : ∀ d : Clause, ¬ d.StandsIn (front ++ [';'])) :
    ∃ u, c.before = front ++ ';' :: u ∧ StandsIn rest { c with before := u } := by
  have whole : front ++ [';'] ++ rest = c.before ++ (c.print ++ c.behind) := by
    rw [← List.append_assoc c.before, ← h.whole, List.append_assoc, List.singleton_append]
  have later {u : Text} (before : c.before = front ++ [';'] ++ u)
      (behind : rest = u ++ (c.print ++ c.behind)) :
      ∃ u, c.before = front ++ ';' :: u ∧ StandsIn rest { c with before := u } := by
    have apart := h.apart
    rw [before] at apart
    refine ⟨u, by simp [before], ⟨?_, apart.of_append, h.blank, h.some_value, h.within, h.ends⟩⟩
    rw [behind]
    exact (List.append_assoc _ _ _).symm
  rcases List.append_eq_append_iff.1 whole with ⟨u, before, behind⟩ | ⟨m, cut, tail⟩
  · exact later before behind
  · rcases List.append_eq_append_iff.1 tail with ⟨e, rfl, behind⟩ | ⟨e, print, rfl⟩
    · -- The clause is over before the end of `front`.
      refine absurd ⟨?_, h.apart, h.blank, h.some_value, h.within, fun a ha => h.ends a ?_⟩
        (clear { c with behind := e })
      · rw [cut]
        exact (List.append_assoc _ _ _).symm
      · rw [behind, List.head?_append, Option.mem_def.1 ha]
        rfl
    · cases last : m.getLast? with
      | none =>
        obtain rfl := List.getLast?_eq_none_iff.1 last
        refine later (u := []) (by rw [cut, List.append_nil, List.append_nil]) ?_
        rw [print]
        rfl
      | some a =>
        have same := congrArg List.getLast? cut
        rw [List.getLast?_concat, List.getLast?_append, last] at same
        obtain rfl : ';' = a := Option.some.inj same
        refine absurd ?_ h.notMem_print
        rw [print]
        exact List.mem_append_left _ (List.mem_of_getLast? last)

theorem First.behind_semicolon {front rest : Text} (h : c.First rest)
    (clear : ∀ d : Clause, ¬ d.StandsIn (front ++ [';'])) :
    First (front ++ ';' :: rest) { c with before := front ++ ';' :: c.before } := by
  obtain ⟨stands, least⟩ := h
  refine ⟨⟨?_, ?_, stands.blank, stands.some_value, stands.within, stands.ends⟩, fun d other => ?_⟩
  · conv_lhs => rw [stands.whole]
    simp [print]
  · have semicolon : StartsName (front ++ [';']) := startsName_concat (by decide) front
    rw [List.append_cons]
    exact semicolon.append stands.apart
  · obtain ⟨u, before, inner⟩ := other.behind_semicolon clear
    have := least _ inner
    rw [before]
    simp only [List.length_append, List.length_cons] at this ⊢
    omega

end Clause

variable {name body : Text}

theorem extract_of_first {c : Clause} (h : c.First body) :
    extract name body = .ok (Text.strip c.value) := by
  obtain ⟨o, found, value⟩ := h.find?
  rw [extract, found]
  simp only [value]

theorem extract_of_none (clear : ∀ c : Clause, ¬ c.StandsIn body) :
    extract name body = .error (.missingResult name) := by
  rw [extract, Clause.find?_eq_none_iff.2 clear]

/-- **The first clause.** The result of a function is the expression of the first clause of its
body, stripped; without a clause it fails and names the function. A part of the body up to a
semicolon in which no clause stands is passed over, such as one that ends in a `result:` without an
expression. -/
theorem extract_first (name body : Text) :
    (∀ c : Clause, c.First body → extract name body = .ok (Text.strip c.value)) ∧
    ((∀ c : Clause, ¬ c.StandsIn body) → extract name body = .error (.missingResult name)) ∧
    ∀ front rest, body = front ++ ';' :: rest → (∀ c : Clause, ¬ c.StandsIn (front ++ [';'])) →
      extract name body = extract name rest := by
  refine ⟨fun c h => extract_of_first h, extract_of_none, ?_⟩
  rintro front rest rfl clear
  cases found : reader.find? rest with
  | some o =>
    obtain ⟨c, first, -⟩ := Clause.first_of_find? found
    rw [extract_of_first first, extract_of_first (first.behind_semicolon clear)]
  | none =>
    have none_behind := Clause.find?_eq_none_iff.1 found
    rw [extract_of_none none_behind, extract_of_none]
    intro c stands
    obtain ⟨u, -, inner⟩ := stands.behind_semicolon clear
    exact none_behind _ inner

/-- The word as the end of a name, and a clause that has no expression when a semicolon follows. -/
def fruitless : Text := "x-result: 0; result:".toList

theorem extract_first_fruitless :
    (∀ c : Clause, ¬ c.StandsIn (fruitless ++ [';'])) ∧
    extract "--f".toList (fruitless ++ [';']) = .error (.missingResult "--f".toList) ∧
    (∃ c : Clause, c.First " result : (a; result: 2".toList ∧ c.value = " (a".toList) ∧
    extract "--f".toList (fruitless ++ ';' :: " result : (a; result: 2".toList) =
      .ok "(a".toList ∧
    (∃ c : Clause, c.First "result: ;result: 1".toList ∧ c.value = " ".toList) ∧
    extract "--f".toList "result: ;result: 1".toList = .ok [] := by
  have clear : ∀ c : Clause, ¬ c.StandsIn (fruitless ++ [';']) :=
    Clause.find?_eq_none_iff.1 (Option.map_eq_none_iff.1
      (by decide +kernel : (reader.find? (fruitless ++ [';'])).map (·.value) = none))
  have stands (body value : Text) (found : (reader.find? body).map (·.value) = some value) :
      ∃ c : Clause, c.First body ∧ c.value = value := by
    obtain ⟨o, searched, rfl⟩ := Option.map_eq_some_iff.1 found
    exact Clause.first_of_find? searched
  obtain ⟨c, first, value⟩ := stands " result : (a; result: 2".toList
    " (a".toList (by decide +kernel)
  obtain ⟨d, blank, blank_value⟩ := stands "result: ;result: 1".toList " ".toList
    (by decide +kernel)
  have result := (extract_first "--f".toList _).1 c first
  have blank_result := (extract_first "--f".toList _).1 d blank
  rw [value] at result
  rw [blank_value] at blank_result
  refine ⟨clear, (extract_first _ _).2.1 clear, ⟨c, first, value⟩, ?_, ⟨d, blank, blank_value⟩,
    blank_result⟩
  rw [(extract_first _ _).2.2 fruitless _ rfl clear]
  exact result

end ResultClause
end StyleExpansion
