import StyleExpansion.Proofs.Locality

namespace StyleExpansion

namespace ApplySite

/-- The text starts with the keyword, at least one blank and a name. -/
def Starts (s : Text) : Prop :=
  ∃ gap name rest, s = keyword ++ gap ++ name ++ rest ∧ gap ≠ [] ∧ (∀ c ∈ gap, isBlank c) ∧
    IsName name

theorem isSome_read?_iff {s : Text} : (head.read? s).isSome ↔ Starts s := by
  constructor
  · intro some_read
    obtain ⟨r, read⟩ := Option.isSome_iff_exists.1 some_read
    obtain ⟨gap, lexeme, some_gap, blank, name, -⟩ := readAtRule?_parts read
    have whole := (readAtRule?_append read).1
    rw [lexeme] at whole
    exact ⟨gap, r.value, r.rest, whole.symm, some_gap, blank, name⟩
  · rintro ⟨gap, name, rest, rfl, some_gap, blank, is_name⟩
    obtain ⟨taken, left⟩ := takeWhile_append_of_head blank (is_name.head_not_isBlank rest)
    have blanks : Text.blanks (gap ++ (name ++ rest)) = gap := taken
    have behind : Text.afterBlanks (gap ++ (name ++ rest)) = name ++ rest := left
    have named := isSome_readName? is_name rest
    simp [head, readAtRule?, List.append_assoc, blanks, behind, some_gap, named]

/-- The search finds no apply site just where none starts. -/
theorem find?_eq_none_iff {s : Text} : head.find? s = none ↔ ∀ t, t <:+ s → ¬ Starts t := by
  constructor
  · rintro none_found t ⟨front, rfl⟩ starts
    obtain ⟨r, read⟩ := Option.isSome_iff_exists.1 (isSome_read?_iff.2 starts)
    obtain ⟨o, -, found, -⟩ := Reader.find?_le (a := front) read fun _ _ => rfl
    rw [none_found] at found
    cases found
  · intro free
    rw [Option.eq_none_iff_forall_ne_some]
    intro o found
    have whole := Reader.find?_append found
    refine free (o.lexeme ++ o.rest) ⟨o.before, by rw [← List.append_assoc, whole]⟩ ?_
    rw [← isSome_read?_iff, Reader.read?_of_find? found]
    rfl

theorem next?_eq_none_iff {offset : Nat} {s : Text} :
    next? offset s = .ok none ↔ head.find? s = none := by
  constructor
  · exact Applications.find?_of_next?_none
  · intro none_found
    rw [next?, none_found]

/-- What an answer takes of the text starts where the search for the header came to. -/
theorem exists_header_of_next? {offset : Nat} {s : Text} {o : Occurrence (Option ApplySite)}
    (h : next? offset s = .ok (some o)) : ∃ found, head.find? s = some found ∧
      o.before = found.before ∧ found.lexeme <+: o.lexeme := by
  unfold next? at h
  split at h
  · cases Except.ok.inj h
  · rename_i found searched
    split at h
    · cases h
    · obtain rfl : _ = o := Option.some.inj (Except.ok.inj h)
      exact ⟨found, searched, rfl, List.prefix_refl _⟩
    · obtain rfl : _ = o := Option.some.inj (Except.ok.inj h)
      exact ⟨found, searched, rfl, List.prefix_append _ _⟩

theorem exists_list_of_readTail {offset : Nat} {s : Text} {tail : Tail}
    (h : readTail offset s = .ok (some tail)) : ∃ list, tail.args = splitArguments list := by
  unfold readTail at h
  simp only at h
  split at h
  · cases h
  · split at h
    · cases h
    · obtain rfl : _ = tail := Option.some.inj (Except.ok.inj h)
      exact ⟨_, rfl⟩
    · split at h
      · obtain rfl : _ = tail := Option.some.inj (Except.ok.inj h)
        exact ⟨_, rfl⟩
      · cases Except.ok.inj h

theorem exists_list_of_next? {offset : Nat} {s : Text} {o : Occurrence (Option ApplySite)}
    {site : ApplySite} (h : next? offset s = .ok (some o)) (given : o.value = some site) :
    ∃ list, site.args = splitArguments list := by
  unfold next? at h
  split at h
  · cases Except.ok.inj h
  · split at h
    · cases h
    · obtain rfl : _ = o := Option.some.inj (Except.ok.inj h)
      cases given
    · rename_i tail read
      obtain rfl : _ = o := Option.some.inj (Except.ok.inj h)
      obtain rfl := Option.some.inj given
      exact exists_list_of_readTail read

/-- The block and the arguments of the site close all that they open. An argument has no comma
outside of its brackets and no blanks at its ends. -/
structure WellMade (site : ApplySite) : Prop where
  contents : ∀ t ∈ site.contents?, Balanced t
  args : ∀ a ∈ site.args, Balanced a ∧ NoTopComma a ∧ Text.strip a = a

theorem wellMade_of_next? {offset : Nat} {s : Text} {o : Occurrence (Option ApplySite)}
    {site : ApplySite} (h : next? offset s = .ok (some o)) (given : o.value = some site) :
    site.WellMade := by
  obtain ⟨-, balanced, contents⟩ := (next?_balanced h).2.2 site given
  obtain ⟨list, args⟩ := exists_list_of_next? h given
  refine ⟨contents, fun a ha => ⟨balanced a ha, ?_⟩⟩
  rw [args] at ha
  exact ⟨noTopComma_of_mem_splitArguments ha, strip_of_mem_splitArguments ha⟩

/-- In the text, the first `@apply` with a name from the offset on. -/
structure Placed.InPlace (text : Text) (offset : Nat) (p : Placed) : Prop where
  start_le : offset ≤ p.start
  start_lt : p.start < p.stop
  stop_le : p.stop ≤ text.length
  starts : Starts (text.drop p.start)
  first : ∀ q, offset ≤ q → Starts (text.drop q) → p.start ≤ q
  balanced : Balanced (text.slice p.start p.stop)
  wellMade : ∀ site ∈ p.site?, site.WellMade

/-- **Step.** What is found is in its place. -/
theorem inPlace_of_next? {text : Text} {offset : Nat} {o : Occurrence (Option ApplySite)}
    (h : next? offset (text.drop offset) = .ok (some o)) :
    (placed offset o).InPlace text offset := by
  obtain ⟨whole, balanced, -⟩ := next?_balanced h
  obtain ⟨found, searched, before, header⟩ := exists_header_of_next? h
  have taken := List.length_pos_iff.2 (Reader.search_append searched).2
  have longer := header.length_le
  have length := congrArg List.length whole
  simp only [List.length_append, List.length_drop] at length
  have start : (placed offset o).start = offset + o.before.length := rfl
  have stop : (placed offset o).stop = offset + o.before.length + o.lexeme.length := rfl
  have behind : text.drop (placed offset o).start = o.lexeme ++ o.rest := by
    rw [start, ← List.drop_drop, ← whole, List.append_assoc, List.drop_left]
  refine ⟨by omega, by omega, by omega, ?_, ?_, ?_, fun site given => wellMade_of_next? h given⟩
  · -- The site starts where its header was found.
    have here : text.drop (placed offset o).start = found.lexeme ++ found.rest := by
      rw [start, before, ← List.drop_drop, ← Reader.find?_append searched, List.append_assoc,
        List.drop_left]
    rw [here, ← isSome_read?_iff, Reader.read?_of_find? searched]
    rfl
  · intro q later starts
    obtain ⟨k, rfl⟩ := Nat.exists_eq_add_of_le later
    rw [← List.drop_drop] at starts
    obtain ⟨r, read⟩ := Option.isSome_iff_exists.1 (isSome_read?_iff.2 starts)
    obtain ⟨found', rest, searched', parts, -⟩ :=
      Reader.find?_le (a := (text.drop offset).take k) read fun _ _ => rfl
    rw [List.take_append_drop, searched] at searched'
    obtain rfl := Option.some.inj searched'
    have up_to := congrArg List.length parts
    simp only [List.length_append, List.length_take] at up_to
    rw [before] at start
    omega
  · have width : (placed offset o).stop - (placed offset o).start = o.lexeme.length := by omega
    rw [Text.slice, List.drop_take, width, behind, List.take_left]
    exact balanced

theorem next?_eq_none_iff_drop {text : Text} {offset : Nat} :
    next? offset (text.drop offset) = .ok none ↔ ∀ q, offset ≤ q → ¬ Starts (text.drop q) := by
  rw [next?_eq_none_iff, find?_eq_none_iff]
  constructor
  · exact fun none_starts q later => none_starts _ (List.drop_suffix_drop_left text later)
  · rintro none_starts t ⟨front, cut⟩ starts
    refine none_starts (offset + front.length) (by omega) ?_
    rwa [← List.drop_drop, ← cut, List.drop_left]

/-- What is met from the offset on when each search goes on where the last one ended, up to the
end or to a failure. -/
inductive Visits (text : Text) : Nat → Scan Placed → Prop
  | done {offset : Nat} (none_left : next? offset (text.drop offset) = .ok none) :
      Visits text offset {}
  | failed {offset : Nat} {e : Error} (failed : next? offset (text.drop offset) = .error e) :
      Visits text offset (.failed e)
  | found {offset : Nat} {o : Occurrence (Option ApplySite)} {run : Scan Placed}
      (found : next? offset (text.drop offset) = .ok (some o))
      (later : Visits text (o.stop offset) run) : Visits text offset (run.push (placed offset o))

theorem drop_stop_of_next? {text : Text} {offset : Nat} {o : Occurrence (Option ApplySite)}
    (h : next? offset (text.drop offset) = .ok (some o)) : text.drop (o.stop offset) = o.rest := by
  rw [Occurrence.stop, Occurrence.start, Nat.add_assoc, ← List.drop_drop, ← (next?_balanced h).1,
    ← List.length_append, List.drop_left]

theorem scanFrom_eq (offset : Nat) (s : Text) :
    scanFrom offset s =
      match next? offset s with
      | .error e => .failed e
      | .ok none => {}
      | .ok (some o) => (scanFrom (o.stop offset) o.rest).push (placed offset o) := by
  rw [scanFrom]
  split <;> simp [*]

theorem visits_scanFrom (text : Text) (offset : Nat) :
    Visits text offset (scanFrom offset (text.drop offset)) := by
  generalize cut : text.drop offset = s
  fun_induction scanFrom offset s with
  | case1 offset s e failed =>
    subst cut
    exact .failed failed
  | case2 offset s none_left =>
    subst cut
    exact .done none_left
  | case3 offset s o found ih =>
    subst cut
    exact .found found (ih (drop_stop_of_next? found))

/-- There is one way to go on from each offset, and it comes to an end. -/
theorem visits_iff {text : Text} {offset : Nat} {run : Scan Placed} :
    Visits text offset run ↔ run = scanFrom offset (text.drop offset) := by
  constructor
  · intro visits
    induction visits with
    | done none_left => rw [scanFrom_eq, none_left]
    | failed failed => rw [scanFrom_eq, failed]
    | found found _ ih => rw [scanFrom_eq, found, ih, drop_stop_of_next? found]
  · rintro rfl
    exact visits_scanFrom text offset

/-- **Run.** Whatever is met is in its place, and starts where the one before it has ended. -/
theorem Visits.inPlace {text : Text} {offset : Nat} {run : Scan Placed}
    (h : Visits text offset run) :
    run.items.Pairwise (fun a b => a.stop ≤ b.start) ∧
      ∀ p ∈ run.items, ∃ n, offset ≤ n ∧ p.InPlace text n := by
  induction h with
  | done => simp
  | failed => simp [Scan.failed]
  | @found offset o run found later ih =>
    obtain ⟨apart, inPlace⟩ := ih
    have here := inPlace_of_next? found
    have stop : (placed offset o).stop = o.stop offset := rfl
    have past : offset ≤ o.stop offset := by
      have := here.start_le
      have := here.start_lt
      omega
    rw [Scan.push, List.pairwise_cons, List.forall_mem_cons]
    refine ⟨⟨fun p hp => ?_, apart⟩, ⟨offset, Nat.le_refl _, here⟩, fun p hp => ?_⟩
    · obtain ⟨n, behind, there⟩ := inPlace p hp
      have := there.start_le
      omega
    · obtain ⟨n, behind, there⟩ := inPlace p hp
      exact ⟨n, by omega, there⟩

/-- **From one apply site to the next.** A search from an offset on finds nothing just where no
`@apply` with a name starts from there on. What it finds otherwise is the first one, in its place:
the search goes on behind it, and a site is made up as it should be. Searching from the start of a
text and on from where the last search ended comes to an end, and what is met lies apart, from left
to right. -/
theorem search_advances (text : Text) :
    (∀ offset, next? offset (text.drop offset) = .ok none ↔
      ∀ q, offset ≤ q → ¬ Starts (text.drop q)) ∧
    (∀ offset o, next? offset (text.drop offset) = .ok (some o) →
      (placed offset o).InPlace text offset) ∧
    (∀ run, Visits text 0 run ↔ run = scan text) ∧
    (scan text).items.Pairwise (fun a b => a.stop ≤ b.start) ∧
    ∀ p ∈ (scan text).items, ∃ n, p.InPlace text n := by
  obtain ⟨apart, inPlace⟩ := (visits_scanFrom text 0).inPlace
  refine ⟨fun offset => next?_eq_none_iff_drop, fun offset o found => inPlace_of_next? found,
    fun run => visits_iff, apart, fun p hp => ?_⟩
  obtain ⟨n, -, there⟩ := inPlace p hp
  exact ⟨n, there⟩

/-- A site with a list and a block that holds another site, an `@apply` that is no site, and a site
with a line break before its name. -/
def threeApplies : Text :=
  "x@apply --m(1, f(2, 3)) \x7b @apply --n; \x7d ;@apply --p @apply\n--q; y".toList

def threePlaces : List Placed :=
  [⟨some ⟨"--m".toList, ["1".toList, "f(2, 3)".toList], some " @apply --n; ".toList⟩, 1, 41⟩,
    ⟨none, 41, 51⟩, ⟨some ⟨"--q".toList, [], none⟩, 52, 63⟩]

theorem search_advances_threeApplies :
    (∃ o, next? 3 (threeApplies.drop 3) = .ok (some o) ∧
      placed 3 o = ⟨some ⟨"--n".toList, [], none⟩, 26, 37⟩ ∧
      (placed 3 o).InPlace threeApplies 3) ∧
    (∀ q, 53 ≤ q → ¬ Starts (threeApplies.drop q)) ∧
    Visits threeApplies 0 ⟨threePlaces, none⟩ ∧
    threePlaces.Pairwise (fun a b => a.stop ≤ b.start) ∧
    ∀ p ∈ threePlaces, ∃ n, p.InPlace threeApplies n := by
  obtain ⟨none_left, in_place, visits, apart, all_in_place⟩ := search_advances threeApplies
  have met : scan threeApplies = ⟨threePlaces, none⟩ := by decide +kernel
  have inner : (next? 3 (threeApplies.drop 3)).map (Option.map (placed 3)) =
      .ok (some ⟨some ⟨"--n".toList, [], none⟩, 26, 37⟩) := by decide +kernel
  have last : (next? 53 (threeApplies.drop 53)).map (Option.map (placed 53)) = .ok none := by
    decide +kernel
  refine ⟨?_, ?_, (visits _).2 met.symm, ?_, ?_⟩
  · obtain ⟨answer, found, mapped⟩ := exists_of_map_eq_ok inner
    obtain ⟨o, rfl, place⟩ := Option.map_eq_some_iff.1 mapped
    exact ⟨o, found, place, in_place 3 o found⟩
  · obtain ⟨answer, found, mapped⟩ := exists_of_map_eq_ok last
    obtain rfl := Option.map_eq_none_iff.1 mapped
    exact (none_left 53).1 found
  · rwa [met] at apart
  · rwa [met] at all_in_place

end ApplySite
end StyleExpansion
