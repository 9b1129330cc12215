import StyleExpansion.Proofs.Blanking
import StyleExpansion.Proofs.Clauses
import StyleExpansion.Proofs.Extraction

/-!
The result of a function whose body holds declarations of its own. The search for the result clause
does not know of declarations, and so it may come by a clause of one that is nested.

* `declared_of_mem_spans`: a declaration stands between an at sign and a closing bracket;
* `extract_of_first_nested`: a clause in the body of a nested declaration that comes before every
  other one gives the result of that body;
* `exists_clause_of_kept`: blanking declarations that are `Orderly` makes no new clause;
* `extract_blanked`: hence, when the first clause is in none of the nested declarations, the result
  is the one of the body without them;
* `extract_of_nested`: the result may be that of a nested function.
-/

namespace StyleExpansion

/-- The span goes from an at sign up to and with a closing bracket. -/
structure Span.Declared (text : Text) (s : Span) : Prop where
  nonneg : 0 ≤ s.start
  ordered : s.start < s.stop
  opens : (text.drop s.start.toNat).head? = some '@'
  closes : ∃ x c, text.take s.stop.toNat = x ++ [c] ∧ isClosing c

theorem Span.Declared.join {text : Text} {a b : Span} (ha : Declared text a)
    (hb : Declared text b) : Declared text ⟨a.start, max a.stop b.stop⟩ where
  nonneg := ha.nonneg
  ordered := by
    have := ha.ordered
    simp only
    omega
  opens := ha.opens
  closes := by
    rcases Int.le_total a.stop b.stop with le | le
    · rw [Int.max_eq_right le]
      exact hb.closes
    · rw [Int.max_eq_left le]
      exact ha.closes

namespace Declaration

/-- The declaration stands in the text `s` at `offset`, from an at sign to the bracket that closes
its body. -/
def StandsIn (offset : Nat) (s : Text) (d : Declaration) : Prop :=
  ∃ x y c z, s = x ++ '@' :: y ++ '{' :: (d.body ++ c :: z) ∧ isClosing c ∧
    d.start = offset + x.length ∧ d.bodyStart = offset + (x ++ '@' :: y).length + 1

theorem standsIn_of_mem {kind : Kind} {offset : Nat} {s : Text} {d : Declaration}
    (h : d ∈ (scanFrom kind offset s).items) : StandsIn offset s d := by
  obtain ⟨⟨site⟩, -⟩ := exists_site_of_mem h
  obtain ⟨before, p, closer, behind, rfl, fits, closes, -, -, -, start, bodyStart⟩ := site
  obtain ⟨t, head, -⟩ := fits.head_chars
  refine ⟨before, t ++ p.list ++ p.lead, closer, behind, ?_, closes, start, ?_⟩
  · simp [Preamble.print, head]
  · rw [bodyStart]
    simp [Preamble.print, head, Nat.add_assoc]

theorem StandsIn.declared {text : Text} {d : Declaration} (h : StandsIn 0 text d) :
    d.span.Declared text := by
  obtain ⟨x, y, c, z, rfl, closer, start, bodyStart⟩ := h
  rw [Nat.zero_add] at start bodyStart
  have opens : d.span.start.toNat = x.length := by simp [span, start]
  have closes : d.span.stop.toNat = (x ++ '@' :: y ++ '{' :: d.body ++ [c]).length := by
    have stop : d.span.stop.toNat = d.bodyEnd + 1 := rfl
    rw [stop, bodyEnd, bodyStart]
    simp only [List.length_append, List.length_cons, List.length_nil]
    omega
  refine ⟨Int.natCast_nonneg _, ?_, ?_, x ++ '@' :: y ++ '{' :: d.body, c, ?_, closer⟩
  · simp only [span, bodyEnd, start, bodyStart, List.length_append, List.length_cons]
    omega
  · rw [opens, List.append_assoc, List.drop_left]
    rfl
  · have whole : x ++ '@' :: y ++ '{' :: (d.body ++ c :: z) =
        x ++ '@' :: y ++ '{' :: d.body ++ [c] ++ z := by simp
    rw [closes, whole, List.take_left]

theorem declared_of_mem_spans {text : Text} {spans : List Span} {s : Span}
    (h : Declaration.spans text = .ok spans) (mem : s ∈ spans) : s.Declared text := by
  obtain ⟨kind, d, found, rfl⟩ := exists_of_mem_spans h mem
  exact (standsIn_of_mem found).declared

end Declaration

namespace ResultClause

/-- No clause goes on behind the text: it ends neither in a name nor, up to blanks, in the word of a
clause. -/
def Ended (x : Text) : Prop := StartsName x ∧ ¬ resultWord <:+ x.rdropWhile isBlank

instance (x : Text) : Decidable (Ended x) :=
  inferInstanceAs (Decidable (StartsName x ∧ ¬ resultWord <:+ x.rdropWhile isBlank))

/-- A clause that is read across the end of such a text has its colon in the text. -/
theorem Ended.read? {a z w u : Text} {d : Char} {r : Reading Text} (ended : Ended (a ++ z))
    (some_left : z ≠ []) (h : ResultClause.read? (z ++ w) = some r) (other : d ≠ ';') :
    (ResultClause.read? (z ++ d :: u)).isSome := by
  rcases read?_append_cases h with here | ⟨gap, e, blank, some_e, cut, -⟩
  · exact here d u other
  · exfalso
    obtain ⟨e, c, rfl⟩ := List.eq_nil_or_concat e |>.resolve_left some_e
    have inner : resultWord ++ gap = z ++ e := by
      rw [List.concat_eq_append, ← List.append_assoc] at cut
      exact (List.append_inj' cut rfl).1
    rcases List.append_eq_append_iff.1 inner with ⟨f, within, parts⟩ | ⟨f, within, -⟩
    · -- The text ends in the word and in some of the blanks behind it.
      have none_left : f.rdropWhile isBlank = [] :=
        List.rdropWhile_eq_nil_iff.2 fun c hc => blank c (parts ▸ List.mem_append_left e hc)
      have word : a ++ z = a ++ ['r', 'e', 's', 'u', 'l'] ++ 't' :: f := by
        rw [within]
        simp [resultWord]
      refine ended.2 ?_
      rw [word, rdropWhile_append_cons (by decide), none_left, List.append_assoc]
      exact List.suffix_append a resultWord
    · -- The text ends in the first letters of the word.
      refine some_left (ended.1.of_append.eq_nil fun c hc => ?_)
      refine isNameChar_of_mem_resultWord c ?_
      rw [within]
      exact List.mem_append_left f hc

/-- A clause does not reach over the start of another one without a colon between them. -/
theorem read?_before {z w u : Text} {r : Reading Text} (some_left : z ≠ [])
    (h : ResultClause.read? (z ++ 'r' :: w) = some r) :
    (ResultClause.read? (z ++ 'r' :: u)).isSome := by
  rcases read?_append_cases h with here | ⟨gap, e, blank, some_e, cut, starts⟩
  · exact here 'r' u (by decide)
  · exfalso
    obtain ⟨c, z, rfl⟩ := List.exists_cons_of_ne_nil some_left
    obtain ⟨d, e, rfl⟩ := List.exists_cons_of_ne_nil some_e
    obtain ⟨rfl, -⟩ := List.cons_prefix_cons.1 starts
    have tail : ['e', 's', 'u', 'l', 't'] ++ gap ++ [':'] = z ++ 'r' :: e := (List.cons.inj cut).2
    have mem : 'r' ∈ ['e', 's', 'u', 'l', 't'] ++ gap ++ [':'] := by
      rw [tail]
      simp
    simp only [List.mem_append, List.mem_cons, Char.reduceEq, List.not_mem_nil, or_false,
      false_or] at mem
    exact absurd (blank _ mem) (by decide)

/-- Across the start of a clause another one is read, or not, whatever follows the first. -/
theorem read?_across {s z rest other : Text} {x r : Reading Text} (h : read? s = some x)
    (some_left : z ≠ []) (across : read? (z ++ (x.lexeme ++ rest)) = some r) :
    (read? (z ++ (x.lexeme ++ other))).isSome := by
  obtain ⟨gap, value, -, -, -, parts⟩ := read?_parts h
  obtain ⟨l, lexeme⟩ : ∃ l, x.lexeme = 'r' :: l := ⟨_, congrArg Reading.lexeme parts⟩
  rw [lexeme] at across ⊢
  exact read?_before some_left across

/-! ## The clause that is found first -/

section
variable {body : Text} {o : Occurrence Text}

/-- No clause starts before the one that is found. -/
theorem read?_eq_none_before (found : reader.find? body = some o) {a b : Text}
    (cut : o.before = a ++ b) (some_left : b ≠ []) (apart : StartsName a) :
    read? (b ++ (o.lexeme ++ o.rest)) = none := by
  by_contra clause
  obtain ⟨r, clause⟩ := Option.ne_none_iff_exists'.1 clause
  obtain ⟨p, tail, earlier, parts, -⟩ := Reader.find?_le (r := reader) (a := a) clause
    fun c hc => by simp [reader, apart c hc]
  have whole := Reader.find?_append found
  rw [cut] at whole
  rw [← List.append_assoc, ← List.append_assoc, whole, found] at earlier
  obtain rfl := Option.some.inj earlier
  rw [parts, List.append_assoc, eq_comm, List.append_right_eq_self] at cut
  exact some_left (List.append_eq_nil_iff.1 cut).2

/-- The clause that is found first is found as well behind another text, when in that text no clause
starts but for those that start before it in the body. -/
theorem find?_exchange (found : reader.find? body = some o) {y rest : Text} (free : StartsName y)
    (closed : ∀ c ∈ rest.head?, c = ';')
    (origin : ∀ {a b r}, y = a ++ b → b ≠ [] → StartsName a →
      read? (b ++ (o.lexeme ++ rest)) = some r → ∃ c d, o.before = c ++ d ∧ d ≠ [] ∧ StartsName c ∧
        (read? (d ++ (o.lexeme ++ o.rest))).isSome) :
    ∃ p, reader.find? (y ++ (o.lexeme ++ rest)) = some p ∧ p.value = o.value := by
  have read : read? _ = some o.toReading := Reader.read?_of_find? found
  obtain ⟨p, behind, left, parts, reading⟩ := Reader.find?_le (r := reader) (a := y)
    (z := o.lexeme ++ rest) (read?_closed read closed) fun c hc => by simp [reader, free c hc]
  have nothing : behind = [] := by
    by_contra some_left
    have tail : p.lexeme ++ p.rest = behind ++ (o.lexeme ++ rest) := by
      have whole := Reader.find?_append left
      rw [parts, List.append_assoc, List.append_assoc] at whole
      exact List.append_cancel_left whole
    have earlier : read? _ = some p.toReading := Reader.read?_of_find? left
    rw [tail] at earlier
    obtain ⟨c, d, cut, some_d, apart, clause⟩ :=
      origin parts some_left (startsName_of_find? left) earlier
    rw [read?_eq_none_before found cut some_d apart] at clause
    cases clause
  exact ⟨p, left, by rw [reading nothing]⟩

/-- The clause that is found first is the clause of a nested declaration when it stands in the body
of one. -/
theorem extract_of_first_nested {kind : Kind} {d : Declaration}
    (nested : d ∈ (Declaration.scan kind body).items) (found : reader.find? body = some o)
    (start : d.bodyStart ≤ o.start 0) (stop : o.stop 0 ≤ d.bodyEnd) (name other : Text) :
    extract name body = extract other d.body := by
  obtain ⟨x, y, c, z, text, -, -, bodyStart⟩ := Declaration.standsIn_of_mem nested
  have whole := Reader.find?_append found
  have text : body = x ++ '@' :: y ++ ['{'] ++ (d.body ++ c :: z) := by rw [text]; simp
  -- The body of the declaration starts within what is before the clause.
  obtain ⟨b, before⟩ : x ++ '@' :: y ++ ['{'] <+: o.before := by
    refine List.prefix_of_prefix_length_le ⟨_, text.symm⟩ ⟨_, by rw [← whole, List.append_assoc]⟩ ?_
    rw [Occurrence.start] at start
    rw [List.length_append, List.length_singleton]
    omega
  have tail : b ++ o.lexeme ++ o.rest = d.body ++ c :: z := by
    rw [← before, text, List.append_assoc, List.append_assoc] at whole
    rw [List.append_assoc]
    exact List.append_cancel_left whole
  obtain ⟨rest, inside⟩ : b ++ o.lexeme <+: d.body := by
    refine List.prefix_of_prefix_length_le ⟨_, tail⟩ ⟨_, rfl⟩ ?_
    have length := congrArg List.length before
    rw [Declaration.bodyEnd, Occurrence.stop, Occurrence.start] at stop
    simp only [List.length_append, List.length_singleton] at length bodyStart ⊢
    omega
  have closed : ∀ e ∈ rest.head?, e = ';' := by
    intro e he
    have behind : o.rest = rest ++ c :: z := by
      rw [← inside, List.append_assoc (b ++ o.lexeme)] at tail
      exact List.append_cancel_left tail
    refine semicolon_of_read? (Reader.read?_of_find? found) e ?_
    rw [behind]
    cases rest with
    | nil => cases he
    | cons f rest => exact he
  have free : StartsName b := by
    have front := startsName_of_find? found
    rw [← before] at front
    exact front.of_append
  obtain ⟨p, first, value⟩ := find?_exchange found free closed fun {a b' r} cut some_left apart read =>
    ⟨x ++ '@' :: y ++ ['{'] ++ a, b', by rw [← before, cut]; simp, some_left,
      (startsName_concat (by decide) _).append apart,
      read?_across (Reader.read?_of_find? found) some_left read⟩
  rw [List.append_assoc] at inside
  rw [extract, extract, found, ← inside, first]
  simp only [value]

end

/-- The spans are declarations of the body, and those that start before the offset `n` stand behind
texts that have come to their end. -/
structure Orderly (spans : List Span) (body : Text) (n : Nat) : Prop where
  declared : ∀ s ∈ spans, s.Declared body
  ended : ∀ m ∈ Span.merge spans, m.start < n → Ended (body.take m.start.toNat)

section
variable {spans : List Span} {x t : Text}

/-- Where a declaration ended, a name may start. -/
theorem startsName_of_kept {a rest : Text} (declared : ∀ s ∈ spans, s.Declared (a ++ rest))
    (here : Span.covered spans a.length = false) (free : StartsName (kept spans 0 a)) :
    StartsName a := by
  rcases List.eq_nil_or_concat a with rfl | ⟨a, d, rfl⟩
  · exact startsName_nil
  · rw [List.concat_eq_append] at *
    rw [List.length_append, List.length_singleton] at here
    cases before : Span.covered spans a.length with
    | true =>
      obtain ⟨s, mem, low, high⟩ := Span.covered_iff.1 before
      have stop : s.stop = (a ++ [d]).length := by
        by_contra other
        rw [← Bool.not_eq_true, Span.covered_iff] at here
        refine here ⟨s, mem, ?_, ?_⟩
        · push_cast
          omega
        · rw [List.length_append, List.length_singleton] at other
          push_cast at other ⊢
          omega
      obtain ⟨y, c, ends, closer⟩ := (declared s mem).closes
      rw [stop, Int.toNat_natCast, List.take_left] at ends
      rw [ends]
      exact startsName_concat (not_isNameChar_of_isClosing closer) y
    | false =>
      have last : kept spans (0 + a.length) [d] = [d] := kept_uncovered fun i low high => by
        obtain rfl : i = a.length := by
          rw [List.length_singleton] at high
          omega
        exact before
      rw [kept_append, last] at free
      have apart := free.of_append
      exact startsName_concat (apart d (by simp)) a

/-- Where covered offsets begin a declaration does, and the text before it has come to its end. -/
theorem Orderly.start {u v : Text} {c : Char} {n : Nat} (orderly : Orderly spans (u ++ [c] ++ v) n)
    (inside : u.length + 1 < n) (before : Span.covered spans u.length = false)
    (here : Span.covered spans (u.length + 1) = true) :
    v.head? = some '@' ∧ Ended (u ++ [c]) := by
  obtain ⟨m, mem, start⟩ := Span.exists_start before here
  have length : m.start = (u ++ [c]).length := by simp [start]
  have opens :=
    (Span.forall_mem_merge (fun _ _ => Span.Declared.join) orderly.declared m mem).opens
  have stands := orderly.ended m mem (by omega)
  rw [length, Int.toNat_natCast] at opens stands
  rw [List.drop_left] at opens
  rw [List.take_left] at stands
  exact ⟨opens, stands⟩

/-- What blanking leaves of a text does not end in a name where the text does not and the
declarations in it stand behind texts that come to their end. -/
theorem Orderly.startsName_kept (orderly : Orderly spans (x ++ t) x.length) (free : StartsName x) :
    StartsName (kept spans 0 x) := by
  rcases List.eq_nil_or_concat (kept spans 0 x) with none_left | ⟨front, c, whole⟩
  · rw [none_left]
    exact startsName_nil
  · rw [List.concat_eq_append] at whole
    obtain ⟨a, b, rfl, -, behind, reason⟩ := exists_of_kept_eq_append whole
    rw [whole]
    refine startsName_concat ?_ front
    rw [Nat.zero_add] at behind reason
    cases b with
    | nil => exact free c (by simp)
    | cons d b =>
      rcases reason with rfl | here
      · decide
      · -- What comes next is not kept, so that a declaration starts there.
        have next : Span.covered spans (a.length + 1) = true := by
          by_contra uncovered
          rw [kept_cons] at behind
          simp [uncovered] at behind
        have text : a ++ c :: d :: b ++ t = a ++ [c] ++ (d :: b ++ t) := by simp
        rw [text] at orderly
        have stands := (orderly.start (by simp) here next).2
        exact stands.1 c (by simp)

/-- A clause that is read in what blanking leaves of a text is read in the text itself. -/
theorem exists_clause_of_kept {t' front back : Text} {r : Reading Text}
    (orderly : Orderly spans (x ++ t) x.length)
    (same : ∀ {z r}, z ≠ [] → read? (z ++ t') = some r → (read? (z ++ t)).isSome)
    (whole : kept spans 0 x = front ++ back) (some_left : back ≠ []) (free : StartsName front)
    (read : read? (back ++ t') = some r) :
    ∃ a b, x = a ++ b ∧ b ≠ [] ∧ StartsName a ∧ (read? (b ++ t)).isSome := by
  obtain ⟨c, back, rfl⟩ := List.exists_cons_of_ne_nil some_left
  obtain ⟨a, b, rfl, before, behind, reason⟩ := exists_of_kept_eq_append whole
  obtain ⟨gap, value, -, -, spelled, -⟩ := read?_parts read
  obtain rfl : c = 'r' := (List.cons.inj spelled).1
  rw [Nat.zero_add] at behind reason
  have here : Span.covered spans a.length = false := reason.resolve_left (by decide)
  refine ⟨a, 'r' :: b, rfl, List.cons_ne_nil _ b, ?_, ?_⟩
  · have declared := orderly.declared
    rw [List.append_assoc] at declared
    exact startsName_of_kept declared here (before ▸ free)
  · obtain ⟨u, v, parts, uncovered, ends⟩ := exists_uncovered spans a.length ('r' :: b)
    have some_u : u ≠ [] := by
      rintro rfl
      have covered := ends (by
        rintro rfl
        cases parts)
      rw [List.length_nil, Nat.add_zero, here] at covered
      cases covered
    have taken : kept spans a.length ('r' :: b) = 'r' :: back := by
      rw [kept_cons, behind]
      simp [here]
    have left : 'r' :: back = u ++ kept spans (a.length + u.length) v := by
      rw [← taken, parts, kept_append, kept_uncovered uncovered]
    cases v with
    | nil =>
      rw [kept_nil, List.append_nil] at left
      rw [List.append_nil] at parts
      rw [left] at read
      rw [parts]
      exact same some_u read
    | cons d v =>
      -- Where the part ends a declaration starts, so that the clause has its colon before that.
      have covered := ends (List.cons_ne_nil d v)
      obtain ⟨u, c, rfl⟩ := (List.eq_nil_or_concat u).resolve_left some_u
      rw [List.concat_eq_append] at *
      rw [List.length_append, List.length_singleton, ← Nat.add_assoc, ← List.length_append] at covered
      have free : Span.covered spans (a ++ u).length = false := by
        refine uncovered _ ?_ ?_
        · simp
        · simp
      have text : a ++ 'r' :: b ++ t = a ++ u ++ [c] ++ (d :: v ++ t) := by simp [parts]
      rw [text] at orderly
      have inside : (a ++ u).length + 1 < (a ++ 'r' :: b).length := by
        rw [parts]
        simp only [List.length_append, List.length_cons]
        omega
      obtain ⟨opens, stands⟩ := orderly.start inside free covered
      obtain rfl : d = '@' := Option.some.inj opens
      rw [left, List.append_assoc] at read
      rw [parts, List.append_assoc]
      rw [List.append_assoc] at stands
      exact stands.read? some_u read (by decide)

end

/-! ## The result of a body with declarations -/

section
variable {body : Text} {spans : List Span}

/-- Blanking leaves the clause that is found as it is, with the semicolon that ends it. -/
theorem kept_of_clear (declared : ∀ s ∈ spans, s.Declared body) {o : Occurrence Text}
    (found : reader.find? body = some o)
    (clear : ∀ s ∈ spans, s.stop ≤ o.start 0 ∨ o.stop 0 ≤ s.start) :
    ∃ rest, kept spans 0 body = kept spans 0 o.before ++ (o.lexeme ++ rest) ∧
      ∀ c ∈ rest.head?, c = ';' := by
  have whole := Reader.find?_append found
  have ends := semicolon_of_read? (Reader.read?_of_find? found)
  have start : o.start 0 = o.before.length := Nat.zero_add _
  have stop : o.stop 0 = (o.before ++ o.lexeme).length := by
    rw [Occurrence.stop, start, List.length_append]
  have free : ∀ i, 0 + o.before.length ≤ i → i < 0 + o.before.length + o.lexeme.length →
      Span.covered spans i = false := by
    intro i low high
    rw [← Bool.not_eq_true, Span.covered_iff]
    rintro ⟨s, mem, within⟩
    have := within.1
    have := within.2
    rw [List.length_append] at stop
    rcases clear s mem with before | behind
    · omega
    · omega
  refine ⟨kept spans (o.before ++ o.lexeme).length o.rest, ?_, ?_⟩
  · rw [← whole, kept_append, kept_append, kept_uncovered free, Nat.zero_add, List.append_assoc]
  · cases rest : o.rest with
    | nil => simp
    | cons d rest' =>
      rw [rest] at ends
      obtain rfl : d = ';' := ends d rfl
      have next : Span.covered spans (o.before ++ o.lexeme).length = false := by
        rw [← Bool.not_eq_true, Span.covered_iff]
        rintro ⟨s, mem, low, high⟩
        rcases clear s mem with before | behind
        · rw [List.length_append] at high
          omega
        · -- A declaration starts with an at sign.
          have length : s.start = (o.before ++ o.lexeme).length := by omega
          have opens := (declared s mem).opens
          rw [length, Int.toNat_natCast, ← whole, List.drop_left, rest] at opens
          cases opens
      intro c hc
      rw [kept_cons, next] at hc
      exact (Option.some.inj hc).symm

/-- Blanking makes no clause where there is none. -/
theorem find?_kept_none (orderly : Orderly spans body body.length)
    (h : reader.find? body = none) : reader.find? (kept spans 0 body) = none := by
  by_contra some_found
  obtain ⟨o, found⟩ := Option.ne_none_iff_exists'.1 some_found
  have whole := Reader.find?_append found
  have read : read? _ = some o.toReading := Reader.read?_of_find? found
  rw [List.append_assoc] at whole
  rw [← List.append_nil (o.lexeme ++ o.rest)] at read
  have all : Orderly spans (body ++ []) body.length := by rwa [List.append_nil]
  obtain ⟨a, b, rfl, -, apart, clause⟩ := exists_clause_of_kept all
    (fun _ read => by rw [read]; rfl) whole.symm
    (mt List.append_eq_nil_iff.1 fun nothing => (Reader.search_append found).2 nothing.1)
    (startsName_of_find? found) read
  obtain ⟨r, clause⟩ := Option.isSome_iff_exists.1 clause
  obtain ⟨p, -, here, -⟩ := Reader.find?_le (r := reader) (a := a) clause
    fun c hc => by simp [reader, apart c hc]
  rw [List.append_nil, h] at here
  cases here

/-- Blanking leaves the clause that is found the first one. -/
theorem find?_kept_some {o : Occurrence Text} (found : reader.find? body = some o)
    (clear : ∀ s ∈ spans, s.stop ≤ o.start 0 ∨ o.stop 0 ≤ s.start)
    (orderly : Orderly spans body o.before.length) :
    ∃ p, reader.find? (kept spans 0 body) = some p ∧ p.value = o.value := by
  obtain ⟨rest, text, closed⟩ := kept_of_clear orderly.declared found clear
  have whole := Reader.find?_append found
  rw [List.append_assoc] at whole
  rw [← whole] at orderly
  rw [text]
  refine find?_exchange found (orderly.startsName_kept (startsName_of_find? found)) closed ?_
  intro a b r parts some_left apart read
  exact exists_clause_of_kept orderly
    (fun some_z across => read?_across (Reader.read?_of_find? found) some_z across)
    parts some_left apart read

/-- A merged span that starts before a clause ends before it when no span meets the clause. -/
theorem stop_le_of_clear {o : Occurrence Text} (found : reader.find? body = some o)
    (clear : ∀ s ∈ spans, s.stop ≤ o.start 0 ∨ o.stop 0 ≤ s.start) {m : Span}
    (mem : m ∈ Span.merge spans) (early : m.start < o.before.length) : m.stop ≤ o.start 0 := by
  by_contra late
  have start : o.start 0 = o.before.length := Nat.zero_add _
  have stop : o.stop 0 = o.start 0 + o.lexeme.length := rfl
  have taken := List.length_pos_iff.2 (Reader.search_append found).2
  obtain ⟨s, mem, low, high⟩ :=
    Span.covers_merge.1 ⟨m, mem, (by omega : m.start ≤ o.start 0), not_le.1 late⟩
  rcases clear s mem with before | behind
  · omega
  · omega

end

/-- **Results with nested declarations.** When the first clause of a function body meets none of the
declarations in the body, and those before it stand behind texts that have come to their end, the
result is that of the body with its declarations blanked. -/
theorem extract_blanked {name body : Text} {spans : List Span}
    (declared : Declaration.spans body = .ok spans)
    (clear : ∀ o, reader.find? body = some o →
      ∀ s ∈ spans, s.stop ≤ o.start 0 ∨ o.stop 0 ≤ s.start)
    (ended : ∀ m ∈ Span.merge spans,
      (∀ o, reader.find? body = some o → m.stop ≤ o.start 0) → Ended (body.take m.start.toNat)) :
    extract name body = extract name (blankSpans body spans) := by
  have stand : ∀ s ∈ spans, s.Declared body := fun s => Declaration.declared_of_mem_spans declared
  rw [blankSpans_eq_kept (fun s mem => ⟨(stand s mem).nonneg, (stand s mem).ordered.le⟩), extract,
    extract]
  cases found : reader.find? body with
  | none =>
    have orderly : Orderly spans body body.length :=
      ⟨stand, fun m mem _ => ended m mem fun o again => by
        rw [found] at again
        cases again⟩
    rw [find?_kept_none orderly found]
  | some o =>
    have orderly : Orderly spans body o.before.length :=
      ⟨stand, fun m mem early => ended m mem fun q again => by
        obtain rfl := Option.some.inj (found.symm.trans again)
        exact stop_le_of_clear found (clear o found) mem early⟩
    obtain ⟨p, left, value⟩ := find?_kept_some found (clear o found) orderly
    rw [left]
    simp only [value]

def between : Text :=
  "a: b; @mixin --m \x7b c: d; \x7d result: 2; @function --g() \x7b result: 3; \x7d".toList

def betweenSpans : List Span := [⟨38, 68⟩, ⟨6, 26⟩]

theorem extract_blanked_between :
    Declaration.spans between = .ok betweenSpans ∧
    (∀ o, reader.find? between = some o →
      ∀ s ∈ betweenSpans, s.stop ≤ o.start 0 ∨ o.stop 0 ≤ s.start) ∧
    (∀ m ∈ Span.merge betweenSpans, (∀ o, reader.find? between = some o → m.stop ≤ o.start 0) →
      Ended (between.take m.start.toNat)) ∧
    extract "--f".toList between = .ok "2".toList ∧
    extract "--f".toList between = extract "--f".toList (blankSpans between betweenSpans) := by
  have declared : Declaration.spans between = .ok betweenSpans := by decide +kernel
  have place : (reader.find? between).map (fun o => (o.start 0, o.stop 0)) = some (27, 36) := by
    decide +kernel
  have clear : ∀ o, reader.find? between = some o →
      ∀ s ∈ betweenSpans, s.stop ≤ o.start 0 ∨ o.stop 0 ≤ s.start := by
    intro o found
    rw [found] at place
    obtain ⟨start, stop⟩ := Prod.mk.inj (Option.some.inj place)
    rw [start, stop]
    decide
  have merged : Span.merge betweenSpans = [⟨6, 26⟩, ⟨38, 68⟩] := by
    simp only [Span.merge, betweenSpans]
    cbv
  have mixin_stands : Ended (between.take 6) := by decide +kernel
  have function_stands : Ended (between.take 38) := by decide +kernel
  have ended : ∀ m ∈ Span.merge betweenSpans,
      (∀ o, reader.find? between = some o → m.stop ≤ o.start 0) →
        Ended (between.take m.start.toNat) := by
    rw [merged]
    intro m mem _
    obtain rfl | rfl : m = ⟨6, 26⟩ ∨ m = ⟨38, 68⟩ := by simpa using mem
    · exact mixin_stands
    · exact function_stands
  exact ⟨declared, clear, ended, by decide +kernel, extract_blanked declared clear ended⟩

/-- The result is that of a nested function when its clause comes first. -/
theorem extract_of_nested :
    let body := "@function --g() \x7bresult: 1;\x7d result: 2;".toList
    Declaration.spans body = .ok [⟨0, 28⟩] ∧
    (reader.find? (blankSpans body [⟨0, 28⟩])).isSome ∧
    extract "--f".toList (blankSpans body [⟨0, 28⟩]) = .ok "2".toList ∧
    extract "--f".toList body = .ok "1".toList ∧
    extract "--f".toList body ≠ extract "--f".toList (blankSpans body [⟨0, 28⟩]) := by
  decide +kernel

end ResultClause

end StyleExpansion
