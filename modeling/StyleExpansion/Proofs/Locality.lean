import StyleExpansion.Proofs.Soundness

namespace StyleExpansion

/-- Whether a text can be cut at the character: no apply site and no call has it outside of its
brackets, unless as the closing one. -/
def isDivider (c : Char) : Bool :=
  !isNameChar c && !isBlank c && c != ';' && c != '(' && c != '{'

theorem isDivider_iff {c : Char} : isDivider c = true ↔
    isNameChar c = false ∧ isBlank c = false ∧ c ≠ ';' ∧ c ≠ '(' ∧ c ≠ '{' := by
  simp [isDivider, and_assoc]

namespace Calls

/-- Calls do not overlap: no name starts within a name. -/
theorem head_separate : head.Separate where
  ends h c hc := by
    rw [(readHead?_parts h).2] at hc
    obtain rfl : '(' = c := by simpa using hc
    decide
  within := by
    intro s x h a z cut some_front some_back free
    obtain ⟨name, lexeme⟩ := readHead?_parts h
    rw [lexeme] at cut
    obtain ⟨c, last⟩ := Option.ne_none_iff_exists'.1 (mt List.getLast?_eq_none_iff.1 some_front)
    have mem : c ∈ a := List.mem_of_getLast? last
    have inName : c ∈ x.value := by
      rcases List.append_eq_append_iff.1 cut with ⟨l, front, closing⟩ | ⟨l, front, -⟩
      · have none_between : l = [] := by
          rcases List.append_eq_singleton_iff.1 closing.symm with ⟨empty, -⟩ | ⟨-, empty⟩
          · exact empty
          · exact absurd empty some_back
        rw [front, none_between, List.append_nil] at mem
        exact mem
      · rw [front]
        exact List.mem_append_left l mem
    have follows := free c last
    simp [head, name.isNameChar c inName] at follows

end Calls

namespace ApplySite

/-- The head of an apply site is an `@`, a letter that shows that no declaration follows, and
characters other than an `@`. -/
theorem lexeme_of_read? {s : Text} {x : Reading Text} (h : head.read? s = some x) :
    ∃ t, x.lexeme = '@' :: 'a' :: t ∧ '@' ∉ t := by
  obtain ⟨gap, spelled, _, blank, name, _⟩ := readAtRule?_parts h
  refine ⟨['p', 'p', 'l', 'y'] ++ gap ++ x.value, by simp [spelled, keyword], ?_⟩
  have notBlank : '@' ∉ gap := by
    intro mem
    have := blank _ mem
    revert this
    decide
  have notName : '@' ∉ x.value := name.notMem (by decide)
  simp [notBlank, notName]

/-- Apply sites do not overlap: an `@` stands only at the start of their heads. -/
theorem head_separate : head.Separate where
  ends _ _ _ := rfl
  within := by
    intro s x h a z cut some_front some_back _
    obtain ⟨t, lexeme, notAt⟩ := lexeme_of_read? h
    obtain ⟨e, a, rfl⟩ := List.exists_cons_of_ne_nil some_front
    obtain ⟨c, z, rfl⟩ := List.exists_cons_of_ne_nil some_back
    rw [lexeme, List.cons_append] at cut
    have mem : c ∈ 'a' :: t := by
      rw [(List.cons.inj cut).2]
      simp
    have other : '@' ≠ c := by
      rintro rfl
      rcases List.mem_cons.1 mem with same | mem
      · exact absurd same (by decide)
      · exact notAt mem
    simp [head, readAtRule?, keyword, Text.after?_cons_of_ne other]

end ApplySite

/-! ## Reading before a divider -/

def Reading.extend {α : Type} (r : Reading α) (s : Text) : Reading α :=
  { r with rest := r.rest ++ s }

def Occurrence.extend {α : Type} (o : Occurrence α) (s : Text) : Occurrence α :=
  { o with rest := o.rest ++ s }

/-- Where reading does not depend on what follows a text, the search of a longer text looks through
the text first and goes on behind it. -/
theorem Reader.search_append_of_local {α : Type} {r : Reader α} {y s : Text}
    (loc : ∀ z, z <:+ y → z ≠ [] → r.read? (z ++ s) = (r.read? z).map (·.extend s))
    (free : Bool) :
    r.search free (y ++ s) = ((r.search free y).map (·.extend s)).or
      ((r.search (r.freeAfter free y) s).map (Occurrence.shift y)) := by
  induction y generalizing free with
  | nil =>
    have : (Occurrence.shift [] : Occurrence α → Occurrence α) = id := rfl
    simp [search, freeAfter, this]
  | cons c y ih =>
    have here := loc (c :: y) (List.suffix_refl _) (by simp)
    have later := ih (fun z hz => loc z (hz.trans (List.suffix_cons c y))) (r.mayFollow c)
    rw [List.cons_append] at here
    rw [List.cons_append, search, search, freeAfter_cons, later, here]
    cases free with
    | true =>
      cases r.read? (c :: y) with
      | some x => rfl
      | none =>
        simp only [if_true, Option.map_none, Option.map_or, Option.map_map]
        rfl
    | false =>
      simp only [Bool.false_eq_true, if_false, Option.map_or, Option.map_map]
      rfl

theorem takeWhile_append_stop {p : Char → Bool} {c : Char} (hc : p c = false) (x s : Text) :
    (x ++ c :: s).takeWhile p = x.takeWhile p ∧
      (x ++ c :: s).dropWhile p = x.dropWhile p ++ c :: s := by
  induction x with
  | nil => simp [hc]
  | cons a x ih =>
    cases h : p a
    · simp [h]
    · simp [h, ih]

theorem Text.after?_append_stop {mark : Text} {c : Char} (hc : c ∉ mark) (x s : Text) :
    Text.after? mark (x ++ c :: s) = (Text.after? mark x).map (· ++ c :: s) := by
  induction mark generalizing x with
  | nil => rfl
  | cons m mark ih =>
    simp only [List.mem_cons, not_or] at hc
    cases x with
    | nil => simp [Text.after?, Ne.symm hc.1]
    | cons a x =>
      by_cases same : m = a
      · simp [Text.after?, same, ih hc.2]
      · simp [Text.after?, same]

theorem readName?_append_stop {c : Char} (hc : isNameChar c = false) (x s : Text) :
    readName? (x ++ c :: s) = (readName? x).map (·.extend (c :: s)) := by
  have stop : c ∉ sigil := by
    intro hyphen
    obtain rfl : c = '-' := by simpa [sigil] using hyphen
    exact absurd hc (by decide)
  unfold readName?
  rw [Text.after?_append_stop stop]
  cases Text.after? sigil x with
  | none => rfl
  | some tail =>
    obtain ⟨taken, left⟩ := takeWhile_append_stop hc tail s
    simp only [Option.map_some, nameRun, taken, left]
    by_cases empty : (tail.takeWhile isNameChar).isEmpty
    · simp only [empty, if_true, Option.map_none]
    · simp only [empty, Bool.false_eq_true, if_false, Option.map_some, Reading.extend]

theorem readAtRule?_append_stop {word : Text} (all : ∀ a ∈ word, isNameChar a) {c : Char}
    (name : isNameChar c = false) (blank : isBlank c = false) {x : Text} (some_left : x ≠ [])
    (s : Text) :
    readAtRule? ('@' :: word) (x ++ c :: s) =
      (readAtRule? ('@' :: word) x).map (·.extend (c :: s)) := by
  have stop : c ∉ word := fun mem => by simp [all c mem] at name
  obtain ⟨a, x, rfl⟩ := List.exists_cons_of_ne_nil some_left
  unfold readAtRule?
  by_cases same : '@' = a
  · simp only [List.cons_append, Text.after?, same, if_true, Text.after?_append_stop stop]
    cases Text.after? word x with
    | none => rfl
    | some tail =>
      obtain ⟨taken, left⟩ := takeWhile_append_stop blank tail s
      simp only [Option.map_some, Text.blanks, Text.afterBlanks, taken, left,
        readName?_append_stop name]
      by_cases empty : (tail.takeWhile isBlank).isEmpty
      · simp only [empty, if_true, Option.map_none]
      · simp only [empty, Bool.false_eq_true, if_false, Option.map_map]
        rfl
  · simp [Text.after?, same]

theorem readHead?_append_stop {c : Char} (name : isNameChar c = false) (opens : c ≠ '(')
    (x s : Text) : Calls.readHead? (x ++ c :: s) =
      (Calls.readHead? x).map (·.extend (c :: s)) := by
  unfold Calls.readHead?
  rw [readName?_append_stop name]
  cases readName? x with
  | none => rfl
  | some r =>
    obtain ⟨value, lexeme, rest⟩ := r
    cases rest with
    | nil => simp [Reading.extend, opens]
    | cons d rest =>
      by_cases same : d = '('
      · simp [Reading.extend, same]
      · simp [Reading.extend, same]

theorem readHead?_append_after {c : Char} (name : isNameChar c = false) (x s : Text) :
    Calls.readHead? (x ++ [c] ++ s) = (Calls.readHead? (x ++ [c])).map (·.extend s) := by
  unfold Calls.readHead?
  rw [List.append_assoc, List.singleton_append, readName?_append_stop name,
    readName?_append_stop name]
  cases readName? x with
  | none => rfl
  | some r =>
    obtain ⟨value, lexeme, rest⟩ := r
    cases rest with
    | nil =>
      by_cases same : c = '('
      · simp [Reading.extend, same]
      · simp [Reading.extend, same]
    | cons d rest =>
      by_cases same : d = '('
      · simp [Reading.extend, same]
      · simp [Reading.extend, same]

theorem enclosed?_extend {s : Text} {b : Block} (h : enclosed? s = some b) (t : Text) :
    enclosed? (s ++ t) = some { b with rest := b.rest ++ t } := by
  obtain ⟨cut, closer, inside⟩ := enclosed?_eq_some_iff.1 h
  exact enclosed?_eq_some_iff.2 ⟨by simp [cut], closer, inside⟩

theorem Group.read_append_stop {opener c : Char} (hc : c ≠ opener) {offset : Nat} {x : Text}
    {g : Group} (h : read opener offset x = .ok g) (s : Text) :
    read opener offset (x ++ c :: s) = .ok { g with rest := g.rest ++ c :: s } := by
  cases x with
  | nil =>
    obtain rfl : _ = g := Except.ok.inj h
    simp [read, hc]
  | cons a x =>
    unfold read at h ⊢
    by_cases starts : a = opener
    · simp only [List.head?_cons, starts, if_true, List.tail_cons, List.cons_append] at h ⊢
      cases closed : enclosed? x with
      | none => simp [closed] at h
      | some b =>
        rw [closed] at h
        obtain rfl : _ = g := Except.ok.inj h
        simp [enclosed?_extend closed]
    · simp only [List.head?_cons, Option.some.injEq, starts, if_false, List.cons_append] at h ⊢
      obtain rfl : _ = g := Except.ok.inj h
      rfl

theorem Group.read_closed {opener closer : Char} {inner : Text} (h : Balanced inner)
    (closes : isClosing closer) (offset : Nat) (s : Text) :
    read opener offset (opener :: (inner ++ closer :: s)) =
      .ok ⟨some inner, inner.length + 2, s⟩ := by
  have closed := enclosed?_balanced (t := s) h closes
  simp only [read, List.head?_cons, List.tail_cons, if_true, closed]

theorem afterTrailer_append_stop {c : Char} (blank : isBlank c = false) (hc : c ≠ ';')
    (x s : Text) : afterTrailer (x ++ c :: s) = afterTrailer x ++ c :: s := by
  unfold afterTrailer Text.afterBlanks
  rw [(takeWhile_append_stop blank x s).2]
  cases x.dropWhile isBlank with
  | nil => simp [hc]
  | cons d rest =>
    by_cases semicolon : d = ';'
    · simp [semicolon]
    · simp [semicolon]

namespace ApplySite

/-- What follows the name of an apply site is read the same with a divider behind it. -/
theorem readTail_append {c : Char} (hc : isDivider c) {offset : Nat} {x : Text}
    {tail? : Option Tail} (h : readTail offset x = .ok tail?) (s : Text) :
    readTail offset (x ++ c :: s) =
      .ok (tail?.map fun t => { t with rest := t.rest ++ c :: s }) := by
  obtain ⟨_, blank, semicolon, paren, brace⟩ := isDivider_iff.1 hc
  have lead (y : Text) : Text.blanks (y ++ c :: s) = Text.blanks y ∧
      Text.afterBlanks (y ++ c :: s) = Text.afterBlanks y ++ c :: s :=
    takeWhile_append_stop blank y s
  unfold readTail at h ⊢
  simp only [(lead x).1, (lead x).2] at h ⊢
  cases listed : Group.read '(' (offset + (Text.blanks x).length) (Text.afterBlanks x) with
  | error e => simp [listed] at h
  | ok list =>
    simp only [listed, Group.read_append_stop paren listed, (lead list.rest).1,
      (lead list.rest).2] at h ⊢
    cases blocked : Group.read '{'
        (offset + (Text.blanks x).length + list.width + (Text.blanks list.rest).length)
        (Text.afterBlanks list.rest) with
    | error e => simp [blocked] at h
    | ok block =>
      simp only [blocked, Group.read_append_stop brace blocked] at h ⊢
      obtain ⟨interior?, width, rest⟩ := block
      cases interior? with
      | some contents =>
        obtain rfl : _ = tail? := Except.ok.inj h
        simp [afterTrailer_append_stop blank semicolon]
      | none =>
        cases rest with
        | nil =>
          obtain rfl : _ = tail? := Except.ok.inj h
          simp [semicolon]
        | cons d rest =>
          by_cases ends : d = ';'
          · simp only [ends, List.head?_cons, if_true] at h
            obtain rfl : _ = tail? := Except.ok.inj h
            simp [ends]
          · simp only [List.head?_cons, Option.some.injEq, ends, if_false] at h
            obtain rfl : _ = tail? := Except.ok.inj h
            simp [ends]

end ApplySite

/-- A reader that reads the same before a divider `c`, and reads nothing that starts with it, finds
what there is before the divider or what there is behind it. -/
theorem Reader.find?_divided {α : Type} {r : Reader α} {c : Char} {x s : Text}
    (loc : ∀ z, z <:+ x → z ≠ [] →
      r.read? (z ++ c :: s) = (r.read? z).map (·.extend (c :: s)))
    (here : r.read? (c :: s) = none) (free : r.mayFollow c = true) :
    r.find? (x ++ c :: s) = ((r.find? x).map (·.extend (c :: s))).or
      ((r.find? s).map (Occurrence.shift (x ++ [c]))) := by
  have divider : r.search (r.freeAfter true x) (c :: s) = (r.find? s).map (Occurrence.push c) := by
    rw [search, here, free, ite_self]
    rfl
  rw [find?, search_append_of_local loc true, divider, Option.map_map]
  have both : Occurrence.shift x ∘ Occurrence.push c =
      (Occurrence.shift (x ++ [c]) : Occurrence α → Occurrence α) := by
    funext o
    simp [Occurrence.shift, Occurrence.push]
  rw [both]
  rfl

namespace ApplySite

theorem find?_head {c : Char} (name : isNameChar c = false) (blank : isBlank c = false)
    {s : Text} (here : head.read? (c :: s) = none) (x : Text) :
    head.find? (x ++ c :: s) = ((head.find? x).map (·.extend (c :: s))).or
      ((head.find? s).map (Occurrence.shift (x ++ [c]))) :=
  Reader.find?_divided
    (fun _ _ some_left => readAtRule?_append_stop (List.all_eq_true.1 rfl) name blank some_left
      s) here rfl

/-- What there is before a divider is found there. -/
theorem next?_before {c : Char} (hc : isDivider c) {offset : Nat} {x s : Text}
    (here : head.read? (c :: s) = none) {o : Occurrence (Option ApplySite)}
    (h : next? offset x = .ok (some o)) :
    next? offset (x ++ c :: s) = .ok (some (o.extend (c :: s))) := by
  obtain ⟨name, blank, _⟩ := isDivider_iff.1 hc
  unfold next? at h ⊢
  rw [find?_head name blank here]
  cases found : head.find? x with
  | none => simp [found] at h
  | some start =>
    simp only [found, Option.map_some, Option.some_or, Occurrence.extend] at h ⊢
    have stop : ({ start with rest := start.rest ++ c :: s } : Occurrence Text).stop offset =
        start.stop offset := rfl
    rw [stop]
    cases read : readTail (start.stop offset) start.rest with
    | error e => simp [read] at h
    | ok tail? =>
      rw [readTail_append hc read]
      cases tail? with
      | none =>
        simp only [read] at h
        obtain rfl : _ = o := Option.some.inj (Except.ok.inj h)
        rfl
      | some tail =>
        simp only [read] at h
        obtain rfl : _ = o := Option.some.inj (Except.ok.inj h)
        obtain ⟨_, _, taken, cut, _⟩ := readTail_balanced read
        simp [cut]

/-- Where the search for a head goes on behind a text, so does the search for a site. -/
theorem next?_shift {x s : Text}
    (h : head.find? (x ++ s) = (head.find? s).map (Occurrence.shift x)) (offset : Nat) :
    next? offset (x ++ s) =
      (next? (offset + x.length) s).map (Option.map (Occurrence.shift x)) := by
  unfold next?
  rw [h]
  cases head.find? s with
  | none => rfl
  | some start =>
    simp only [Option.map_some, Occurrence.stop_shift]
    have rest : (start.shift x).rest = start.rest := rfl
    rw [rest]
    cases readTail (start.stop (offset + x.length)) start.rest with
    | error e => rfl
    | ok tail? =>
      cases tail? with
      | none => rfl
      | some tail => rfl

/-- Where there is nothing before a character, what there is behind it is found. -/
theorem next?_behind {c : Char} (name : isNameChar c = false) (blank : isBlank c = false)
    (offset : Nat) {x s : Text} (here : head.read? (c :: s) = none)
    (none_found : head.find? x = none) :
    next? offset (x ++ c :: s) =
      (next? (offset + (x ++ [c]).length) s).map (Option.map (Occurrence.shift (x ++ [c]))) := by
  have found := find?_head name blank here x
  rw [none_found, Option.map_none, Option.none_or] at found
  rw [List.append_cons] at found ⊢
  exact next?_shift found offset

end ApplySite

/-! ## Passes over a divided text -/

namespace Applications

theorem passFrom_eq (mixins : Registry) (offset : Nat) (s : Text) :
    passFrom mixins offset s =
      match ApplySite.next? offset s with
      | .error e => .fail e
      | .ok none => pure s
      | .ok (some o) =>
        match o.value with
        | none => do
          let t ← passFrom mixins (o.stop offset) o.rest
          return o.before ++ o.lexeme ++ t
        | some site => do
          let value ← replace mixins site
          let t ← passFrom mixins (o.stop offset) o.rest
          return o.before ++ value ++ t := by
  rw [passFrom]
  split
  · rename_i e failed
    rw [failed]
  · rename_i none_found
    rw [none_found]
  · rename_i o found
    cases h : o.value with
    | none => simp only [found, h]
    | some site => simp only [found, h]

theorem passFrom_behind (mixins : Registry) {offset : Nat} {y s : Text}
    (h : ApplySite.next? offset (y ++ s) =
      (ApplySite.next? (offset + y.length) s).map (Option.map (Occurrence.shift y))) :
    passFrom mixins offset (y ++ s) = (y ++ ·) <$> passFrom mixins (offset + y.length) s := by
  rw [passFrom_eq, passFrom_eq mixins (offset + y.length), h]
  cases ApplySite.next? (offset + y.length) s with
  | error e => rfl
  | ok o? =>
    cases o? with
    | none => rfl
    | some o =>
      simp only [Except.map, Option.map_some, Occurrence.stop_shift]
      have value : (o.shift y).value = o.value := rfl
      rw [value]
      cases o.value with
      | none => simp [Occurrence.shift, List.append_assoc]
      | some site => simp [Occurrence.shift, List.append_assoc]

theorem find?_of_next?_none {offset : Nat} {s : Text} (h : ApplySite.next? offset s = .ok none) :
    ApplySite.head.find? s = none := by
  unfold ApplySite.next? at h
  split at h
  · assumption
  · split at h
    · cases h
    · cases Except.ok.inj h
    · cases Except.ok.inj h

/-- What is put before a divider keeps the brackets before it in order, and a pass goes on behind
the divider as if the text started there. -/
theorem passFrom_divided {c : Context} (ok : c.BalancedDefinitions) {d : Char}
    (hd : isDivider d) {s : Text} (here : ApplySite.head.read? (d :: s) = none) {P : Text → Prop}
    (behind : ∀ offset, Sound P (passFrom c.mixins offset s).result) (offset : Nat) {x : Text}
    (sealing : Sealed 0 x) :
    Sound (fun t => ∃ x' t', t = x' ++ d :: t' ∧ Tracks x x' ∧ P t')
      (passFrom c.mixins offset (x ++ d :: s)).result := by
  obtain ⟨name, blank, _⟩ := isDivider_iff.1 hd
  induction offset, x using passFrom.induct with
  | case1 offset x e failed =>
    obtain ⟨o, found⟩ := ApplySite.next?_ok offset sealing
    simp [failed] at found
  | case2 offset x none_found =>
    have next := ApplySite.next?_behind name blank offset here (find?_of_next?_none none_found)
    have pass := passFrom_behind c.mixins (y := x ++ [d]) (s := s) (by simpa using next)
    rw [List.append_assoc, List.singleton_append] at pass
    rw [pass]
    refine Sound.bind (behind _) fun t ht => ?_
    exact ⟨x, t, by simp, Tracks.refl x, ht⟩
  | case3 offset x o found value ih =>
    obtain ⟨whole, _, _⟩ := ApplySite.next?_balanced found
    rw [passFrom_eq, ApplySite.next?_before hd here found]
    simp only [Occurrence.extend, value]
    refine Sound.bind (ih (sealing.suffix ⟨_, whole⟩)) ?_
    rintro _ ⟨x', t, rfl, tracks, ht⟩
    refine ⟨o.before ++ o.lexeme ++ x', t, by simp, ?_, ht⟩
    have := (Tracks.refl (o.before ++ o.lexeme)).append tracks
    rwa [whole] at this
  | case4 offset x o found site value ih =>
    obtain ⟨whole, lexeme, held⟩ := ApplySite.next?_balanced found
    obtain ⟨siteName, args, contents⟩ := held site value
    rw [passFrom_eq, ApplySite.next?_before hd here found]
    simp only [Occurrence.extend, value]
    refine (replace_sound ok siteName args contents).bind fun v hv => ?_
    refine Sound.bind (ih (sealing.suffix ⟨_, whole⟩)) ?_
    rintro _ ⟨x', t, rfl, tracks, ht⟩
    refine ⟨o.before ++ v ++ x', t, by simp, ?_, ht⟩
    have := ((Tracks.refl o.before).append (Tracks.of_balanced lexeme hv)).append tracks
    rwa [whole] at this

end Applications

namespace Calls

theorem passFrom_eq (functions : Registry) (offset : Nat) (s : Text) :
    passFrom functions offset s =
      match head.find? s with
      | none => .ok s
      | some o =>
        match functions.get? o.value with
        | none => (passFrom functions (o.stop offset) o.rest).map (o.before ++ o.lexeme ++ ·)
        | some d =>
          match enclosed? o.rest with
          | none => .error (.unmatched (o.stop offset))
          | some block =>
            match evaluate d (splitArguments block.interior) with
            | .error e => .error e
            | .ok value =>
              (passFrom functions (o.stop offset + block.interior.length + 1) block.rest).map
                (o.before ++ value ++ ·) := by
  rw [passFrom]
  split
  · rename_i none_found
    rw [none_found]
  · rename_i o found
    rw [found]
    cases known : functions.get? o.value with
    | none =>
      simp only [known]
      cases passFrom functions (o.stop offset) o.rest <;> rfl
    | some d =>
      simp only [known]
      split
      · rename_i unclosed
        rw [unclosed]
      · rename_i block closed
        rw [closed]
        simp only
        cases evaluate d (splitArguments block.interior) with
        | error e => rfl
        | ok value =>
          simp only
          cases passFrom functions (o.stop offset + block.interior.length + 1) block.rest <;> rfl

theorem passFrom_behind (functions : Registry) {y s : Text}
    (h : head.find? (y ++ s) = (head.find? s).map (Occurrence.shift y)) (offset : Nat) :
    passFrom functions offset (y ++ s) =
      (passFrom functions (offset + y.length) s).map (y ++ ·) := by
  rw [passFrom_eq, passFrom_eq functions (offset + y.length), h]
  cases head.find? s with
  | none => rfl
  | some o =>
    simp only [Option.map_some, Occurrence.stop_shift]
    have value : (o.shift y).value = o.value := rfl
    have rest : (o.shift y).rest = o.rest := rfl
    rw [value, rest]
    cases functions.get? o.value with
    | none =>
      cases passFrom functions (o.stop (offset + y.length)) o.rest with
      | error e => rfl
      | ok t => simp [Except.map, Occurrence.shift]
    | some d =>
      cases enclosed? o.rest with
      | none => rfl
      | some block =>
        simp only
        cases evaluate d (splitArguments block.interior) with
        | error e => rfl
        | ok v =>
          simp only
          cases passFrom functions (o.stop (offset + y.length) + block.interior.length + 1)
              block.rest with
          | error e => rfl
          | ok t => simp [Except.map, Occurrence.shift]

theorem read?_eq_none_of_stop {c : Char} (name : isNameChar c = false) (s : Text) :
    head.read? (c :: s) = none := by
  have : readName? (c :: s) = none := by
    have := readName?_append_stop name [] s
    simpa [readName?, sigil, Text.after?] using this
  show readHead? (c :: s) = none
  rw [readHead?, this]

theorem find?_head {c : Char} (name : isNameChar c = false) (opens : c ≠ '(') (x s : Text) :
    head.find? (x ++ c :: s) = ((head.find? x).map (·.extend (c :: s))).or
      ((head.find? s).map (Occurrence.shift (x ++ [c]))) :=
  Reader.find?_divided (fun z _ _ => readHead?_append_stop name opens z s)
    (read?_eq_none_of_stop name s) (by simp [head, name])

/-- Over a text that leaves no bracket open, a pass is the same with more text behind it, as long as
no call has the character between them outside of its brackets. -/
theorem passFrom_stop (functions : Registry) {d : Char} (name : isNameChar d = false)
    (opens : d ≠ '(') (s : Text) (offset : Nat) {x : Text} (sealing : Sealed 0 x) :
    passFrom functions offset (x ++ d :: s) =
      (passFrom functions offset x).bind fun t =>
        (passFrom functions (offset + x.length + 1) s).map (t ++ d :: ·) := by
  induction hn : x.length using Nat.strongRecOn generalizing offset x with
  | ind n ih =>
    subst hn
    have find := find?_head name opens x s
    cases found : head.find? x with
    | none =>
      rw [found, Option.map_none, Option.none_or] at find
      have behind := passFrom_behind functions (y := x ++ [d]) (s := s) (by simpa using find) offset
      have alone : passFrom functions offset x = .ok x := by rw [passFrom_eq, found]
      rw [List.append_assoc, List.singleton_append] at behind
      rw [behind, alone, Except.bind, List.length_append, List.length_singleton, ← Nat.add_assoc]
      simp
    | some o =>
      rw [found, Option.map_some, Option.some_or] at find
      have whole := Reader.find?_append found
      have shorter := Reader.length_rest_lt_of_find? found
      have offsets : offset + x.length = o.stop offset + o.rest.length := by
        rw [← whole]
        simp only [Occurrence.stop, Occurrence.start, List.length_append]
        omega
      rw [passFrom_eq, find, passFrom_eq functions offset x, found]
      simp only [Occurrence.extend]
      cases known : functions.get? o.value with
      | none =>
        have later := ih o.rest.length (by omega) (o.stop offset) (sealing.suffix ⟨_, whole⟩) rfl
        have stop : ({ o with rest := o.rest ++ d :: s } : Occurrence Text).stop offset =
            o.stop offset := rfl
        simp only [stop, later, offsets]
        cases passFrom functions (o.stop offset) o.rest with
        | error e => rfl
        | ok t => cases passFrom functions (o.stop offset + o.rest.length + 1) s <;>
            simp [Except.bind, Except.map]
      | some definition =>
        have opened : '(' :: o.rest <:+ x :=
          ⟨o.before ++ o.value, by simpa [(lexeme_of_find? found).2] using whole⟩
        obtain ⟨block, closed⟩ :=
          Option.ne_none_iff_exists'.1 (enclosed?_ne_none sealing opened rfl)
        have cut := enclosed?_append closed
        have suffix : block.rest <:+ x :=
          ⟨o.before ++ o.lexeme ++ block.interior ++ [block.closer], by rw [← whole, ← cut]; simp⟩
        have width : o.rest.length = block.interior.length + 1 + block.rest.length := by
          rw [← cut]
          simp only [List.length_append, List.length_cons]
          omega
        simp only [enclosed?_extend closed, closed]
        cases evaluate definition (splitArguments block.interior) with
        | error e => rfl
        | ok value =>
          have later := ih block.rest.length (by omega)
            (o.stop offset + block.interior.length + 1) (sealing.suffix suffix) rfl
          have stop : ({ o with rest := o.rest ++ d :: s } : Occurrence Text).stop offset =
              o.stop offset := rfl
          have behind : offset + x.length + 1 =
              o.stop offset + block.interior.length + 1 + block.rest.length + 1 := by omega
          simp only [stop, later, behind]
          cases passFrom functions (o.stop offset + block.interior.length + 1) block.rest with
          | error e => rfl
          | ok t =>
            cases passFrom functions
                (o.stop offset + block.interior.length + 1 + block.rest.length + 1) s <;>
              simp [Except.bind, Except.map]

/-- As for apply sites: what is put before such a character keeps the brackets before it in order,
and the pass goes on behind it as if the text started there. -/
theorem passFrom_divided {c : Context} (ok : c.BalancedDefinitions) {d : Char}
    (name : isNameChar d = false) (opens : d ≠ '(') {s : Text} {P : Text → Prop}
    (behind : ∀ offset, Sound P (passFrom c.functions offset s)) (offset : Nat) {x : Text}
    (sealing : Sealed 0 x) :
    Sound (fun t => ∃ x' t', t = x' ++ d :: t' ∧ Tracks x x' ∧ P t')
      (passFrom c.functions offset (x ++ d :: s)) := by
  rw [passFrom_stop c.functions name opens s offset sealing]
  cases before : passFrom c.functions offset x with
  | error e =>
    obtain ⟨missing, rfl⟩ := error_of_passFrom sealing before
    exact sound_missingResult missing
  | ok x' => exact (behind _).map fun t ht => ⟨x', t, rfl, tracks_passFrom ok before, ht⟩

end Calls

end StyleExpansion
