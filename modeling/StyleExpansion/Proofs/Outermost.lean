import StyleExpansion.Proofs.Locality

/-!
What one pass over calls rewrites. A text falls apart into calls of registered functions, each
closed by its own bracket, and gaps in which no such call starts; the pass keeps the gaps and puts
the results in place of the calls (`Rewrites`).

* `rewrites_of_passFrom`: what a pass gives, it gives in this way;
* `passFrom_of_rewrites`: a text that falls apart in this way is what the pass makes of it;
* `pass_rewrites_outermost`: both, and a text has no call to rewrite just when none is left over.
-/

namespace StyleExpansion

namespace Calls

/-- A call as written: the name, what stands between its brackets, and the bracket that ends it. -/
structure Call where
  name : Text
  interior : Text
  closer : Char
deriving DecidableEq, Repr

namespace Call

def text (c : Call) : Text := c.name ++ '(' :: c.interior ++ [c.closer]

/-- The bracket that ends the call closes the one after its name. -/
structure Closed (c : Call) : Prop where
  name : IsName c.name
  inside : Balanced c.interior
  closes : isClosing c.closer

/-- The call gives the result of the function with its references to parameters replaced. -/
def Gives (d : Definition) (c : Call) (value : Text) : Prop :=
  ∃ result, ResultClause.extract d.name d.body = .ok result ∧
    value = substitute parameterFunction true (d.bind (splitArguments c.interior)) result

theorem gives_iff {d : Definition} {c : Call} {value : Text} :
    c.Gives d value ↔ evaluate d (splitArguments c.interior) = .ok value := by
  unfold Gives evaluate
  cases ResultClause.extract d.name d.body with
  | error e => simp
  | ok result => simp [eq_comm]

end Call

/-- Between the two texts a call of a registered function starts, apart from other names. -/
def StartsCall (functions : Registry) (x y : Text) : Prop :=
  StartsName x ∧ ∃ name rest, y = name ++ '(' :: rest ∧ IsName name ∧ functions.contains name

/-- No call of a registered function starts in `gap`, where `front` is before it and `behind`
after it. -/
def NoCall (functions : Registry) (front gap behind : Text) : Prop :=
  ∀ x y, gap = x ++ y → y ≠ [] → ¬ StartsCall functions (front ++ x) (y ++ behind)

/-- The text, with `front` before it, falls apart into gaps without a call and the listed calls of
registered functions, and with their values in place of the calls it is the other text. -/
inductive Rewrites (functions : Registry) : (front text : Text) → List Call → (out : Text) → Prop
  | rest {front gap : Text} (free : NoCall functions front gap []) :
      Rewrites functions front gap [] gap
  | call {front gap text value out : Text} {c : Call} {calls : List Call} {d : Definition}
      (free : NoCall functions front gap (c.text ++ text)) (apart : StartsName (front ++ gap))
      (closed : c.Closed) (known : functions.get? c.name = some d) (gives : c.Gives d value)
      (others : Rewrites functions (front ++ gap ++ c.text) text calls out) :
      Rewrites functions front (gap ++ c.text ++ text) (c :: calls) (gap ++ value ++ out)

theorem readHead?_name {name : Text} (h : IsName name) (rest : Text) :
    readHead? (name ++ '(' :: rest) = some ⟨name, name ++ ['('], rest⟩ := by
  have read := readName?_name h (endsName_cons (c := '(') (by decide) rest)
  simp [readHead?, read]

theorem Call.Closed.startsName {c : Call} (h : c.Closed) (x : Text) : StartsName (x ++ c.text) := by
  rw [Call.text, ← List.append_assoc]
  exact startsName_concat (not_isNameChar_of_isClosing h.closes) _

theorem startsName_lexeme {s : Text} {o : Occurrence Text} (found : head.find? s = some o)
    (x : Text) : StartsName (x ++ o.lexeme) := by
  rw [(lexeme_of_find? found).2, ← List.append_assoc]
  exact startsName_concat (by decide) _

theorem startsName_before {s : Text} {o : Occurrence Text} (found : head.find? s = some o) :
    StartsName o.before := by
  intro c hc
  simpa [head] using Reader.mayFollow_of_search found c hc

section
variable {functions : Registry} {front s : Text} {o : Occurrence Text}

/-- Where a call of a registered function starts, a search finds its head or one before it. -/
theorem StartsCall.find? {x y : Text} (h : StartsCall functions (front ++ x) y) :
    ∃ o behind, head.find? (x ++ y) = some o ∧ x = o.before ++ behind ∧
      (behind = [] → functions.contains o.value = true ∧
        head.find? (x ++ y) = (head.find? y).map (Occurrence.shift x)) := by
  obtain ⟨apart, name, rest, rfl, isName, known⟩ := h
  have free : ∀ c ∈ x.getLast?, head.mayFollow c = true := by
    intro c hc
    simp [head, apart.of_append c hc]
  have read : head.read? _ = some _ := readHead?_name isName rest
  obtain ⟨o, behind, found, parts, same⟩ := Reader.find?_le read free
  refine ⟨o, behind, found, parts, ?_⟩
  rintro rfl
  rw [List.append_nil] at parts
  obtain ⟨reading, before⟩ := o
  obtain rfl : reading = _ := same rfl
  obtain rfl : x = before := parts
  refine ⟨known, ?_⟩
  rw [found, Reader.find?_eq_of_read? read]
  simp [Occurrence.shift]

theorem noCall_of_none (none_found : head.find? s = none) : NoCall functions front s [] := by
  rintro x y rfl - starts
  obtain ⟨o, -, found, -⟩ := starts.find?
  rw [List.append_nil, none_found] at found
  cases found

/-- No call starts before the leftmost head. -/
theorem noCall_before (found : head.find? s = some o) :
    NoCall functions front o.before (o.lexeme ++ o.rest) := by
  intro x y cut some_left starts
  have whole := Reader.find?_append found
  obtain ⟨p, behind, found', parts, -⟩ := starts.find?
  rw [← List.append_assoc, ← cut, ← List.append_assoc, whole, found] at found'
  obtain rfl := Option.some.inj found'
  rw [parts, List.append_assoc, eq_comm, List.append_right_eq_self] at cut
  exact some_left (List.append_eq_nil_iff.1 cut).2

/-- Nor does one start before the end of the leftmost head, when that is of no registered
function. -/
theorem noCall_unknown (found : head.find? s = some o) (unknown : functions.get? o.value = none) :
    NoCall functions front (o.before ++ o.lexeme) o.rest := by
  intro x y cut some_left starts
  have whole := Reader.find?_append found
  obtain ⟨apart, name, rest, tail, isName, -⟩ := id starts
  obtain ⟨p, behind, found', parts, same⟩ := starts.find?
  rw [← List.append_assoc, ← cut, whole, found] at found'
  obtain rfl := Option.some.inj found'
  by_cases here : behind = []
  · have known := (same here).1
    rw [Table.contains_eq_isSome, unknown] at known
    cases known
  · rw [parts, List.append_assoc, List.append_cancel_left_eq] at cut
    have free : ∀ c ∈ behind.getLast?, head.mayFollow c = true := by
      intro c hc
      rw [parts, ← List.append_assoc] at apart
      simp [head, apart.of_append c hc]
    have none_within := head_separate.within (Reader.read?_of_find? found) behind y cut here
      some_left free
    rw [tail] at none_within
    exact absurd (none_within.symm.trans (readHead?_name isName rest)) (by simp)

end

/-- A gap goes on with what follows it. -/
theorem NoCall.append {functions : Registry} {front x y behind : Text}
    (hx : NoCall functions front x (y ++ behind)) (hy : NoCall functions (front ++ x) y behind) :
    NoCall functions front (x ++ y) behind := by
  intro a b cut some_left starts
  rcases List.append_eq_append_iff.1 cut with ⟨k, rfl, rfl⟩ | ⟨k, rfl, rfl⟩
  · exact hy k b rfl some_left (by rwa [List.append_assoc])
  · by_cases at_border : k = []
    · subst at_border
      refine hy [] y rfl (by simpa using some_left) ?_
      simpa using starts
    · exact hx a k rfl at_border (by rwa [← List.append_assoc])

theorem Rewrites.prepend {functions : Registry} {front x s out : Text} {calls : List Call}
    (free : NoCall functions front x s) (h : Rewrites functions (front ++ x) s calls out) :
    Rewrites functions front (x ++ s) calls (x ++ out) := by
  cases h with
  | rest later => exact .rest (NoCall.append (by simpa using free) later)
  | @call _ gap text value out c calls d later apart closed known gives others =>
    have whole : NoCall functions front (x ++ gap) (c.text ++ text) :=
      NoCall.append (by simpa using free) later
    rw [List.append_assoc front] at apart others
    simpa using Rewrites.call whole apart closed known gives others

/-- What a pass gives is the text with the outermost calls of registered functions rewritten. -/
theorem rewrites_of_passFrom {functions : Registry} {offset : Nat} {front s out : Text}
    (apart : StartsName front) (h : passFrom functions offset s = .ok out) :
    ∃ calls, Rewrites functions front s calls out := by
  fun_induction passFrom functions offset s generalizing front out with
  | case1 offset s none_found =>
    obtain rfl := Except.ok.inj h
    exact ⟨[], .rest (noCall_of_none none_found)⟩
  | case2 => cases h
  | case3 offset s o found unknown t passed ih =>
    obtain rfl := Except.ok.inj h
    have starts : StartsName (front ++ (o.before ++ o.lexeme)) := by
      rw [← List.append_assoc]
      exact startsName_lexeme found _
    obtain ⟨calls, later⟩ := ih starts passed
    have whole := later.prepend (noCall_unknown found unknown)
    rw [Reader.find?_append found] at whole
    exact ⟨calls, whole⟩
  | case4 => cases h
  | case5 => cases h
  | case6 => cases h
  | case7 offset s o found d known block closed value evaluated t passed ih =>
    obtain rfl := Except.ok.inj h
    obtain ⟨cut, closer, inside⟩ := enclosed?_eq_some_iff.1 closed
    obtain ⟨name, lexeme⟩ := lexeme_of_find? found
    let c : Call := ⟨o.value, block.interior, block.closer⟩
    have call : c.Closed := ⟨name, inside, closer⟩
    obtain ⟨calls, later⟩ := ih (call.startsName (front ++ o.before)) passed
    have tail : c.text ++ block.rest = o.lexeme ++ o.rest := by
      simp [c, Call.text, lexeme, cut]
    have before : StartsName (front ++ o.before) := apart.append (startsName_before found)
    have free : NoCall functions front o.before (o.lexeme ++ o.rest) := noCall_before found
    rw [← tail] at free
    have whole := Rewrites.call free before call known (Call.gives_iff.2 evaluated) later
    rw [List.append_assoc, tail, ← List.append_assoc, Reader.find?_append found] at whole
    exact ⟨c :: calls, whole⟩

/-- A head that is found in a gap is of no registered function, and it ends in the gap. -/
theorem NoCall.head_within {functions : Registry} {front b behind : Text} {s : Text}
    {o : Occurrence Text} (found : head.find? s = some o) (apart : StartsName front)
    (free : NoCall functions front (o.before ++ b) behind) (some_left : b ≠ [])
    (cut : b ++ behind = o.lexeme ++ o.rest)
    (next : behind = [] ∨ StartsName (front ++ (o.before ++ b))) :
    functions.get? o.value = none ∧ ∃ m, b = o.lexeme ++ m ∧ o.rest = m ++ behind := by
  obtain ⟨name, lexeme⟩ := lexeme_of_find? found
  constructor
  · rw [← Option.not_isSome_iff_eq_none, ← Table.contains_eq_isSome]
    intro known
    refine free o.before b rfl some_left ⟨apart.append (startsName_before found), ?_⟩
    exact ⟨o.value, o.rest, by rw [cut, lexeme]; simp, name, known⟩
  · rcases List.append_eq_append_iff.1 cut with ⟨k, lexeme_eq, behind_eq⟩ | ⟨m, b_eq, rest_eq⟩
    · cases k with
      | nil => exact ⟨[], by simpa using lexeme_eq.symm, by simpa using behind_eq.symm⟩
      | cons e k =>
        -- The head would run on into what follows the gap, within its name.
        exfalso
        have part : b <+: o.value := by
          have cut_off : b <+: o.value ++ ['('] := ⟨e :: k, by rw [← lexeme_eq, lexeme]⟩
          rcases List.prefix_concat_iff.1 cut_off with whole | part
          · rw [← lexeme, lexeme_eq] at whole
            simp at whole
          · exact part
        rcases next with none_behind | starts
        · rw [none_behind] at behind_eq
          cases behind_eq
        · rw [← List.append_assoc] at starts
          exact some_left (starts.of_append.eq_nil fun c hc => name.isNameChar c (part.subset hc))
    · exact ⟨m, b_eq, rest_eq⟩

/-- A pass goes over a gap to the call behind it. -/
theorem passFrom_noCall {functions : Registry} {front gap behind : Text} (offset : Nat)
    (apart : StartsName front) (free : NoCall functions front gap behind)
    (next : behind = [] ∨ StartsCall functions (front ++ gap) behind) :
    passFrom functions offset (gap ++ behind) =
      (passFrom functions (offset + gap.length) behind).map (gap ++ ·) := by
  induction hn : gap.length using Nat.strongRecOn generalizing front gap offset with
  | ind n ih =>
    subst hn
    cases found : head.find? (gap ++ behind) with
    | none =>
      refine passFrom_behind functions ?_ offset
      rcases next with rfl | starts
      · rw [found]
        rfl
      · obtain ⟨o, -, found', -⟩ := starts.find?
        rw [found] at found'
        cases found'
    | some o =>
      have whole := Reader.find?_append found
      obtain ⟨b, rfl, border⟩ : ∃ b, gap = o.before ++ b ∧
          (b = [] → head.find? (gap ++ behind) = (head.find? behind).map (Occurrence.shift gap)) := by
        rcases next with rfl | starts
        · rw [List.append_nil, List.append_assoc] at whole
          refine ⟨o.lexeme ++ o.rest, whole.symm, fun none_left => ?_⟩
          exact absurd (List.append_eq_nil_iff.1 none_left).1 (Reader.search_append found).2
        · obtain ⟨p, b, found', parts, border⟩ := starts.find?
          obtain rfl := Option.some.inj (found'.symm.trans found)
          exact ⟨b, parts, fun none_left => (border none_left).2⟩
      by_cases at_border : b = []
      · exact passFrom_behind functions (border at_border) offset
      · have cut : b ++ behind = o.lexeme ++ o.rest := by
          rw [List.append_assoc, List.append_assoc, List.append_cancel_left_eq] at whole
          exact whole.symm
        obtain ⟨unknown, m, rfl, rest⟩ :=
          free.head_within found apart at_border cut (next.imp_right And.left)
        have later : NoCall functions (front ++ o.before ++ o.lexeme) m behind := by
          intro x y m_eq
          have := free (o.before ++ (o.lexeme ++ x)) y (by rw [m_eq]; simp)
          simpa using this
        have taken := List.length_pos_iff.2 (Reader.search_append found).2
        have over_rest := ih m.length (by simp only [List.length_append]; omega) (o.stop offset)
          (startsName_lexeme found _) later (by simpa using next) rfl
        have offsets : o.stop offset + m.length = offset + (o.before ++ (o.lexeme ++ m)).length := by
          simp only [Occurrence.stop, Occurrence.start, List.length_append]
          omega
        rw [passFrom_eq, found]
        simp only [unknown, rest, over_rest, offsets]
        cases passFrom functions (offset + (o.before ++ (o.lexeme ++ m)).length) behind with
        | error e => rfl
        | ok t => simp [Except.map]

/-- A text that falls apart into gaps and calls is made by a pass into the gaps and their values. -/
theorem passFrom_of_rewrites {functions : Registry} {front s out : Text} {calls : List Call}
    (offset : Nat) (apart : StartsName front) (h : Rewrites functions front s calls out) :
    passFrom functions offset s = .ok out := by
  induction h generalizing offset with
  | @rest front gap free =>
    have passed := passFrom_noCall offset apart free (.inl rfl)
    rw [List.append_nil] at passed
    rw [passed, passFrom_eq]
    simp [Reader.find?, Reader.search, Except.map]
  | @call front gap text value out c calls d free before closed known gives others ih =>
    have starts : StartsCall functions (front ++ gap) (c.text ++ text) := by
      refine ⟨before, c.name, c.interior ++ c.closer :: text, by simp [Call.text], closed.name, ?_⟩
      rw [Table.contains_eq_isSome, known, Option.isSome_some]
    have read := readHead?_name closed.name (c.interior ++ c.closer :: text)
    have found := Reader.find?_eq_of_read? (r := head) read
    have tail : c.text ++ text = c.name ++ '(' :: (c.interior ++ c.closer :: text) := by
      simp [Call.text]
    have enclosed := enclosed?_balanced (t := text) closed.inside closed.closes
    have value_eq := Call.gives_iff.1 gives
    rw [List.append_assoc, passFrom_noCall offset apart free (.inr starts), tail, passFrom_eq,
      found]
    simp only [known, enclosed, value_eq]
    rw [ih _ (closed.startsName _)]
    simp [Except.map]

theorem mem_residual_iff {functions : Registry} {s name : Text} :
    name ∈ residual functions s ↔ name ∈ head.findAll s ∧ functions.contains name = true := by
  rw [residual, Text.sortedSet, List.mem_mergeSort, List.mem_eraseDups, List.mem_filter]

/-- Nothing is left over just when no call of a registered function starts in the text. -/
theorem residual_eq_nil_iff {functions : Registry} {s : Text} :
    residual functions s = [] ↔ NoCall functions [] s [] := by
  rw [List.eq_nil_iff_forall_not_mem]
  constructor
  · rintro none_left x y rfl - ⟨apart, name, rest, tail, isName, known⟩
    rw [List.append_nil] at tail
    subst tail
    refine none_left name (mem_residual_iff.2 ⟨?_, known⟩)
    refine (Reader.mem_findAll_iff head_separate).2 ⟨x, _, _, rfl, ?_, readHead?_name isName rest, rfl⟩
    intro c hc
    simpa [head] using apart c hc
  · intro free name mem
    obtain ⟨mem, known⟩ := mem_residual_iff.1 mem
    obtain ⟨x, y, r, rfl, apart, read, rfl⟩ := (Reader.mem_findAll_iff head_separate).1 mem
    obtain ⟨isName, lexeme⟩ := readHead?_parts read
    have whole := head.lexeme_append_rest read
    have some_left : y ≠ [] := by
      rw [← whole, lexeme]
      simp
    refine free x y rfl some_left ⟨fun c hc => by simpa [head] using apart c hc, ?_⟩
    exact ⟨r.value, r.rest, by rw [← whole, lexeme]; simp, isName, known⟩

/-- **Outermost calls.** What a pass gives is the text with its outermost calls of registered
functions rewritten, and it gives something wherever all of these can be rewritten. The pass has no
call to rewrite, and so gives the text back, just when the search through the whole text, arguments
included, leaves no name over. -/
theorem pass_rewrites_outermost (functions : Registry) (s : Text) :
    (∀ out, pass functions s = .ok out ↔ ∃ calls, Rewrites functions [] s calls out) ∧
    ((pass functions s = .ok s ∧ Rewrites functions [] s [] s) ↔ residual functions s = []) := by
  refine ⟨fun out => ⟨rewrites_of_passFrom startsName_nil, ?_⟩, ?_⟩
  · rintro ⟨calls, rewrites⟩
    exact passFrom_of_rewrites 0 startsName_nil rewrites
  · rw [residual_eq_nil_iff]
    constructor
    · rintro ⟨-, rewrites⟩
      cases rewrites with
      | rest free => exact free
    · intro free
      exact ⟨passFrom_of_rewrites 0 startsName_nil (.rest free), .rest free⟩

end Calls

end StyleExpansion
