import StyleExpansion.Body
import StyleExpansion.Proofs.Arguments
import StyleExpansion.Proofs.Search

namespace StyleExpansion

namespace ResultClause

/-- A clause is the word, blanks, the colon and what follows up to the semicolon. -/
theorem read?_clause {gap value : Text} (blank : ∀ a ∈ gap, isBlank a)
    (some_value : value.head?.any (· != ';')) :
    read? (resultWord ++ gap ++ ':' :: value) =
      some ⟨value.takeWhile (· != ';'), resultWord ++ gap ++ ':' :: value.takeWhile (· != ';'),
        value.dropWhile (· != ';')⟩ := by
  obtain ⟨taken, left⟩ := takeWhile_append_of_head (s := ':' :: value) blank (by
    intro c hc
    obtain rfl : ':' = c := Option.some.inj hc
    decide)
  have blanks : Text.blanks (gap ++ ':' :: value) = gap := taken
  have after : Text.afterBlanks (gap ++ ':' :: value) = ':' :: value := left
  rw [read?, List.append_assoc, Text.after?_append]
  simp only [blanks, after, true_and, some_value, if_true]

theorem read?_parts {s : Text} {r : Reading Text} (h : read? s = some r) :
    ∃ gap value, (∀ a ∈ gap, isBlank a) ∧ value.head?.any (· != ';') ∧
      s = resultWord ++ gap ++ ':' :: value ∧
      r = ⟨value.takeWhile (· != ';'), resultWord ++ gap ++ ':' :: value.takeWhile (· != ';'),
        value.dropWhile (· != ';')⟩ := by
  unfold read? at h
  split at h
  · cases h
  · rename_i tail word
    split at h
    · cases h
    · rename_i c value lead
      split at h
      · rename_i here
        obtain ⟨rfl, some_value⟩ := here
        refine ⟨Text.blanks tail, value, fun a ha => List.mem_takeWhile_imp ha, some_value, ?_,
          (Option.some.inj h).symm⟩
        rw [← Text.append_of_after? word, List.append_assoc, ← lead,
          Text.blanks_append_afterBlanks]
      · cases h

theorem semicolon_of_read? {s : Text} {r : Reading Text} (h : read? s = some r) :
    ∀ c ∈ r.rest.head?, c = ';' := by
  obtain ⟨gap, value, -, -, -, rfl⟩ := read?_parts h
  intro c hc
  have stopped := List.head?_dropWhile_not (· != ';') value
  rw [Option.mem_def.1 hc] at stopped
  simpa using stopped

/-- A clause is read the same whatever follows its semicolon. -/
theorem read?_closed {s rest : Text} {r : Reading Text} (h : read? s = some r)
    (closed : ∀ c ∈ rest.head?, c = ';') :
    read? (r.lexeme ++ rest) = some { r with rest := rest } := by
  obtain ⟨gap, value, blank, some_value, -, rfl⟩ := read?_parts h
  obtain ⟨c, value, rfl⟩ : ∃ c t, value = c :: t := by
    cases value with
    | nil => cases some_value
    | cons c t => exact ⟨c, t, rfl⟩
  have first : (c != ';') = true := some_value
  obtain ⟨taken, left⟩ := takeWhile_append_of_head (p := (· != ';')) (s := rest)
    (x := (c :: value).takeWhile (· != ';'))
    (fun a ha => List.mem_takeWhile_imp (p := (· != ';')) ha)
    (fun d hd => by simp [closed d hd])
  have shown : ((c :: value).takeWhile (· != ';') ++ rest).head?.any (· != ';') := by
    simp [first]
  simp only
  rw [List.append_assoc, List.cons_append, read?_clause blank shown, taken, left]

theorem startsName_of_find? {body : Text} {o : Occurrence Text}
    (found : reader.find? body = some o) : StartsName o.before := by
  intro c hc
  simpa [reader] using Reader.mayFollow_of_search found c hc

theorem isNameChar_of_mem_resultWord : ∀ c ∈ resultWord, isNameChar c :=
  List.all_eq_true.1 rfl

/-- A clause that is read across the end of the text `z` is read there whatever follows but a
semicolon, or `z` ends before the colon. -/
theorem read?_append_cases {z w : Text} {r : Reading Text} (h : read? (z ++ w) = some r) :
    (∀ d u, d ≠ ';' → (read? (z ++ d :: u)).isSome) ∨
      ∃ gap e, (∀ a ∈ gap, isBlank a) ∧ e ≠ [] ∧ resultWord ++ gap ++ [':'] = z ++ e ∧ e <+: w := by
  obtain ⟨gap, value, blank, some_value, whole, -⟩ := read?_parts h
  have colon : resultWord ++ gap ++ ':' :: value = resultWord ++ gap ++ [':'] ++ value := by simp
  rw [colon] at whole
  -- Where the text reaches beyond the colon, what follows it starts with no semicolon.
  have beyond {e : Text} (cut : z = resultWord ++ gap ++ [':'] ++ e) (first : value = e ++ w) :
      ∀ d u, d ≠ ';' → (read? (z ++ d :: u)).isSome := by
    intro d u other
    have text : z ++ d :: u = resultWord ++ gap ++ ':' :: (e ++ d :: u) := by simp [cut]
    have shown : (e ++ d :: u).head?.any (· != ';') := by
      cases e with
      | nil => simpa using other
      | cons c e => simpa [first] using some_value
    rw [text, read?_clause blank shown]
    rfl
  rcases List.append_eq_append_iff.1 whole with ⟨e, ends, behind⟩ | ⟨e, cut, first⟩
  · by_cases at_colon : e = []
    · refine .inl (beyond (e := []) ?_ ?_)
      · rw [at_colon, List.append_nil] at ends
        rw [ends, List.append_nil]
      · rw [at_colon, List.nil_append] at behind
        rw [behind, List.nil_append]
    · exact .inr ⟨gap, e, blank, at_colon, ends, value, behind.symm⟩
  · exact .inl (beyond cut first)

end ResultClause

end StyleExpansion
