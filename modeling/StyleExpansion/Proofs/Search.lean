import StyleExpansion.Reading
import StyleExpansion.Proofs.Balance

namespace StyleExpansion

namespace Text

@[simp] theorem after?_append (mark s : Text) : after? mark (mark ++ s) = some s := by
  induction mark with
  | nil => rfl
  | cons m mark ih => simp [after?, ih]

theorem after?_eq_some_iff {mark s rest : Text} : after? mark s = some rest ↔ mark ++ rest = s := by
  constructor
  · exact append_of_after?
  · rintro rfl
    exact after?_append mark rest

theorem after?_eq_none_iff {mark s : Text} : after? mark s = none ↔ ¬ mark <+: s := by
  rw [Option.eq_none_iff_forall_ne_some]
  constructor
  · rintro h ⟨rest, hr⟩
    exact h rest (after?_eq_some_iff.2 hr)
  · intro h rest hr
    exact h ⟨rest, after?_eq_some_iff.1 hr⟩

theorem after?_cons_of_ne {m c : Char} {mark s : Text} (h : m ≠ c) :
    after? (m :: mark) (c :: s) = none := by
  simp [after?, h]

end Text

namespace Occurrence

variable {α : Type}

def shift (x : Text) (o : Occurrence α) : Occurrence α := { o with before := x ++ o.before }

theorem stop_shift (x : Text) (o : Occurrence α) (offset : Nat) :
    (o.shift x).stop offset = o.stop (offset + x.length) := by
  simp only [stop, start, shift, List.length_append]
  omega

theorem start_shift (x : Text) (o : Occurrence α) (offset : Nat) :
    (o.shift x).start offset = o.start (offset + x.length) := by
  simp only [start, shift, List.length_append]
  omega

end Occurrence

namespace Reader

variable {α : Type} {r : Reader α}

theorem read?_of_search {free : Bool} {s : Text} {o : Occurrence α}
    (h : r.search free s = some o) : r.read? (o.lexeme ++ o.rest) = some o.toReading := by
  induction s generalizing free o with
  | nil => simp [search] at h
  | cons c s ih =>
    rw [search] at h
    split at h
    · rename_i x found
      obtain rfl : _ = o := Option.some.inj h
      split at found
      · rw [r.lexeme_append_rest found]
        exact found
      · simp at found
    · obtain ⟨p, hp, rfl⟩ := Option.map_eq_some_iff.1 h
      exact ih (o := p) hp

theorem read?_of_find? {s : Text} {o : Occurrence α} (h : r.find? s = some o) :
    r.read? (o.lexeme ++ o.rest) = some o.toReading :=
  read?_of_search h

theorem free_of_search {free : Bool} {s : Text} {o : Occurrence α} (h : r.search free s = some o)
    (first : o.before = []) : free = true := by
  cases s with
  | nil => simp [search] at h
  | cons c s =>
    rw [search] at h
    split at h
    · rename_i x found
      by_contra notFree
      simp [notFree] at found
    · obtain ⟨p, _, rfl⟩ := Option.map_eq_some_iff.1 h
      cases first

/-- What is found stands after a character that it may follow, or at the start of the text. -/
theorem mayFollow_of_search {free : Bool} {s : Text} {o : Occurrence α}
    (h : r.search free s = some o) : ∀ c ∈ o.before.getLast?, r.mayFollow c = true := by
  induction s generalizing free o with
  | nil => simp [search] at h
  | cons d s ih =>
    rw [search] at h
    split at h
    · obtain rfl := Option.some.inj h
      simp
    · obtain ⟨p, found, rfl⟩ := Option.map_eq_some_iff.1 h
      intro c hc
      cases before : p.before with
      | nil =>
        obtain rfl : d = c := by simpa [Occurrence.push, before] using hc
        exact free_of_search found before
      | cons e front =>
        refine ih found c ?_
        rw [before]
        simpa [Occurrence.push, before] using hc

theorem find?_eq_of_read? {s : Text} {x : Reading α} (h : r.read? s = some x) :
    r.find? s = some { x with before := [] } := by
  cases s with
  | nil =>
    have whole := r.lexeme_append_rest h
    exact absurd (List.append_eq_nil_iff.1 whole).1 (r.lexeme_ne_nil h)
  | cons c s => simp [find?, search, h]

/-- Nothing starts in the text `x` when `s` follows it. -/
def Passes (r : Reader α) (x s : Text) : Prop := ∀ z, z <:+ x → z ≠ [] → r.read? (z ++ s) = none

theorem Passes.tail {c : Char} {x s : Text} (h : r.Passes (c :: x) s) : r.Passes x s :=
  fun z hz some_left => h z (hz.trans (List.suffix_cons c x)) some_left

/-- Whether something may start after the text `x`, where `free` says whether it may before `x`. -/
def freeAfter (r : Reader α) (free : Bool) (x : Text) : Bool := x.getLast?.elim free r.mayFollow

theorem freeAfter_cons (r : Reader α) (free : Bool) (c : Char) (x : Text) :
    r.freeAfter free (c :: x) = r.freeAfter (r.mayFollow c) x := by
  cases x with
  | nil => rfl
  | cons d x => simp [freeAfter, List.getLast?_cons]

theorem search_append_of_none {free : Bool} {x s : Text} (h : r.Passes x s) :
    r.search free (x ++ s) =
      (r.search (r.freeAfter free x) s).map (Occurrence.shift x) := by
  induction x generalizing free with
  | nil =>
    have : (Occurrence.shift [] : Occurrence α → Occurrence α) = id := rfl
    simp [freeAfter, this]
  | cons c x ih =>
    have here : (if free then r.read? (c :: (x ++ s)) else none) = none := by
      cases free
      · rfl
      · exact h (c :: x) (List.suffix_refl _) (by simp)
    rw [List.cons_append, search, here, ih h.tail, freeAfter_cons, Option.map_map]
    rfl

theorem search_eq_find? {free : Bool} {s : Text} (h : free = false → r.read? s = none) :
    r.search free s = r.find? s := by
  cases free with
  | true => rfl
  | false =>
    cases s with
    | nil => rfl
    | cons c s => simp [find?, search, h rfl]

/-- Text in which nothing can start is passed over. -/
theorem find?_append_of_none {x s : Text} (h : r.Passes x s)
    (free : r.freeAfter true x = false → r.read? s = none) :
    r.find? (x ++ s) = (r.find? s).map (Occurrence.shift x) := by
  rw [find?, search_append_of_none h, search_eq_find? free]

/-- Nothing starts in a run of characters after which nothing may start. -/
theorem search_run {x : Text} (hx : ∀ c ∈ x, r.mayFollow c = false) (s : Text) :
    r.search false (x ++ s) = (r.search false s).map (Occurrence.shift x) := by
  induction x with
  | nil =>
    have : (Occurrence.shift [] : Occurrence α → Occurrence α) = id := rfl
    simp [this]
  | cons c x ih =>
    have here := hx c List.mem_cons_self
    have behind := ih fun d hd => hx d (List.mem_cons_of_mem c hd)
    simp only [List.cons_append, search, here, behind, Bool.false_eq_true, if_false,
      Option.map_map]
    rfl

theorem find?_cons_of_none {c : Char} {s : Text} (none_here : r.read? (c :: s) = none)
    (free : r.mayFollow c = true) :
    r.find? (c :: s) = (r.find? s).map (Occurrence.shift [c]) := by
  simp only [find?, search, none_here, free, if_true]
  rfl

/-- A run of characters after which nothing may start is passed over when nothing starts with
it. -/
theorem find?_run {x s : Text} {c d : Char} (closed : ∀ a ∈ d :: x, r.mayFollow a = false)
    (none_here : r.read? (d :: x ++ c :: s) = none) (free : r.mayFollow c = true) :
    r.find? (d :: x ++ c :: s) = (r.find? s).map (Occurrence.shift (d :: x ++ [c])) := by
  have first : r.mayFollow d = false := closed d List.mem_cons_self
  have run := search_run (fun a ha => closed a (List.mem_cons_of_mem d ha)) (c :: s)
  have last : r.search false (c :: s) = (r.find? s).map (Occurrence.push c) := by
    simp only [search, free, Bool.false_eq_true, if_false, find?]
  rw [last] at run
  rw [List.cons_append] at none_here ⊢
  rw [find?, search, if_pos rfl, none_here, first, run]
  cases r.find? s with
  | none => rfl
  | some o => simp [Occurrence.push, Occurrence.shift]

/-- Where something can be read and may start, the search finds it or something before it. -/
theorem find?_le {a z : Text} {x : Reading α} (read : r.read? z = some x)
    (free : ∀ c ∈ a.getLast?, r.mayFollow c = true) :
    ∃ o behind, r.find? (a ++ z) = some o ∧ a = o.before ++ behind ∧
      (behind = [] → o.toReading = x) := by
  have search : ∀ b : Bool, r.freeAfter b a = true → ∃ o behind,
      r.search b (a ++ z) = some o ∧ a = o.before ++ behind ∧ (behind = [] → o.toReading = x) := by
    clear free
    induction a with
    | nil =>
      intro b free
      obtain rfl : b = true := free
      exact ⟨_, [], find?_eq_of_read? read, rfl, fun _ => rfl⟩
    | cons c a ih =>
      intro b free
      rw [freeAfter_cons] at free
      rw [List.cons_append, Reader.search]
      split
      · exact ⟨_, c :: a, rfl, rfl, fun none_behind => absurd none_behind (List.cons_ne_nil c a)⟩
      · obtain ⟨o, behind, found, parts, same⟩ := ih _ free
        exact ⟨o.push c, behind, by rw [found]; rfl, congrArg (c :: ·) parts, same⟩
  refine search true ?_
  unfold freeAfter
  cases last : a.getLast? with
  | none => rfl
  | some c => exact free c last

/-- Nothing that may start lies across the end of what was read, or within it. -/
structure Separate (r : Reader α) : Prop where
  ends : ∀ {s x}, r.read? s = some x → ∀ c ∈ x.lexeme.getLast?, r.mayFollow c = true
  within : ∀ {s x}, r.read? s = some x → ∀ a z, x.lexeme = a ++ z → a ≠ [] → z ≠ [] →
    (∀ c ∈ a.getLast?, r.mayFollow c = true) → r.read? (z ++ x.rest) = none

/-- All occurrences are those places where something can be read and may start. -/
theorem mem_findAll_iff (separate : r.Separate) {s : Text} {v : α} :
    v ∈ r.findAll s ↔ ∃ a z x, s = a ++ z ∧ (∀ c ∈ a.getLast?, r.mayFollow c = true) ∧
      r.read? z = some x ∧ x.value = v := by
  fun_induction findAll r s with
  | case1 s none_found =>
    constructor
    · intro mem
      cases mem
    · rintro ⟨a, z, x, rfl, free, read, rfl⟩
      obtain ⟨o, _, found, _⟩ := find?_le read free
      rw [none_found] at found
      cases found
  | case2 s o found ih =>
    have whole := find?_append found
    have read_here := read?_of_find? found
    rw [List.mem_cons, ih]
    constructor
    · rintro (rfl | ⟨a, z, x, rest, free, read, rfl⟩)
      · refine ⟨o.before, o.lexeme ++ o.rest, o.toReading, ?_, mayFollow_of_search found,
          read_here, rfl⟩
        rw [← whole, List.append_assoc]
      · refine ⟨o.before ++ o.lexeme ++ a, z, x, ?_, ?_, read, rfl⟩
        · rw [← whole, rest, List.append_assoc _ a]
        · cases a with
          | nil =>
            rw [List.append_nil, List.getLast?_append_of_ne_nil _ (r.lexeme_ne_nil read_here)]
            exact separate.ends read_here
          | cons c a =>
            rw [List.getLast?_append_of_ne_nil _ (by simp)]
            exact free
    · rintro ⟨a, z, x, rfl, free, read, rfl⟩
      obtain ⟨o', behind, found', parts, same⟩ := find?_le read free
      obtain rfl := Option.some.inj (found'.symm.trans found)
      cases behind with
      | nil => exact Or.inl (by rw [← same rfl])
      | cons d behind =>
        -- The occurrence starts before `z`, and so ends before it.
        have tail : o'.lexeme ++ o'.rest = d :: behind ++ z := by
          rw [parts, List.append_assoc, List.append_assoc] at whole
          exact List.append_cancel_left whole
        have last : (d :: behind).getLast? = a.getLast? := by
          rw [parts, List.getLast?_append_of_ne_nil _ (by simp)]
        rcases List.append_eq_append_iff.1 tail with ⟨front, behind_eq, rest_eq⟩ |
            ⟨front, lexeme_eq, z_eq⟩
        · refine Or.inr ⟨front, z, x, rest_eq, ?_, read, rfl⟩
          cases front with
          | nil => nofun
          | cons e front =>
            rw [← last, behind_eq, List.getLast?_append_of_ne_nil _ (by simp)] at free
            exact free
        · cases front with
          | nil =>
            refine Or.inr ⟨[], z, x, ?_, nofun, read, rfl⟩
            exact z_eq.symm
          | cons e front =>
            have none_within := separate.within read_here (d :: behind) (e :: front) lexeme_eq
              (by simp) (by simp) (by rw [last]; exact free)
            rw [← z_eq, read] at none_within
            cases none_within

theorem findAll_of_none {s : Text} (h : r.find? s = none) : r.findAll s = [] := by
  rw [findAll]
  split
  · rfl
  · rename_i o found
    rw [h] at found
    cases found

theorem findAll_of_find? {s : Text} {o : Occurrence α} (h : r.find? s = some o) :
    r.findAll s = o.value :: r.findAll o.rest := by
  rw [findAll]
  split
  · rename_i none_found
    rw [h] at none_found
    cases none_found
  · rename_i p found
    obtain rfl := Option.some.inj (h.symm.trans found)
    rfl

/-- What occurs in a text occurs in it also when it is put behind another one. -/
theorem mem_findAll_append (separate : r.Separate) {x s : Text} {v : α}
    (free : ∀ c ∈ x.getLast?, r.mayFollow c = true) (h : v ∈ r.findAll s) :
    v ∈ r.findAll (x ++ s) := by
  obtain ⟨a, z, y, rfl, free', read, rfl⟩ := (mem_findAll_iff separate).1 h
  refine (mem_findAll_iff separate).2 ⟨x ++ a, z, y, by simp, ?_, read, rfl⟩
  cases a with
  | nil => simpa using free
  | cons c a =>
    rw [List.getLast?_append_of_ne_nil _ (by simp)]
    exact free'

end Reader

/-! ## Names -/

/-- The text does not start with a name character. -/
def EndsName (s : Text) : Prop := ∀ c ∈ s.head?, isNameChar c = false

instance (s : Text) : Decidable (EndsName s) :=
  decidable_of_iff (s.head?.all fun c => !isNameChar c)
    (by cases h : s.head? <;> simp [EndsName, h])

theorem endsName_cons {c : Char} (h : isNameChar c = false) (s : Text) : EndsName (c :: s) := by
  intro d hd
  obtain rfl : c = d := Option.some.inj hd
  exact h

/-- The text does not end in a name character. -/
def StartsName (s : Text) : Prop := ∀ c ∈ s.getLast?, isNameChar c = false

instance (s : Text) : Decidable (StartsName s) :=
  decidable_of_iff (s.getLast?.all fun c => !isNameChar c)
    (by cases h : s.getLast? <;> simp [StartsName, h])

theorem startsName_nil : StartsName [] := by
  simp [StartsName]

theorem StartsName.of_append {x s : Text} (h : StartsName (x ++ s)) : StartsName s := by
  intro c hc
  apply h c
  rw [List.getLast?_append, Option.mem_def.1 hc]
  rfl

theorem StartsName.append {x s : Text} (hx : StartsName x) (hs : StartsName s) :
    StartsName (x ++ s) := by
  cases s with
  | nil => rwa [List.append_nil]
  | cons d s =>
    intro c hc
    rw [List.getLast?_append_of_ne_nil _ (List.cons_ne_nil d s)] at hc
    exact hs c hc

theorem startsName_concat {c : Char} (h : isNameChar c = false) (x : Text) :
    StartsName (x ++ [c]) := by
  intro d hd
  rw [List.getLast?_concat] at hd
  rwa [← Option.some.inj hd]

theorem StartsName.eq_nil {s : Text} (h : StartsName s) (names : ∀ c ∈ s, isNameChar c) :
    s = [] := by
  cases last : s.getLast? with
  | none => exact List.getLast?_eq_none_iff.1 last
  | some c =>
    have named := names c (List.mem_of_getLast? last)
    rw [h c last] at named
    cases named

theorem not_isNameChar_of_isClosing {c : Char} (h : isClosing c) : isNameChar c = false := by
  simp only [isClosing, Bool.or_eq_true, beq_iff_eq] at h
  rcases h with (rfl | rfl) | rfl <;> decide

theorem isPlain_of_isNameChar {c : Char} (h : isNameChar c) : isPlain c := by
  cases hc : isPlain c
  · simp only [isPlain, isOpening, isClosing, Bool.and_eq_false_iff, Bool.not_eq_false',
      Bool.or_eq_true, beq_iff_eq] at hc
    rcases hc with ((rfl | rfl) | rfl) | ((rfl | rfl) | rfl) <;> exact absurd h (by decide)
  · rfl

/-- No range of letters or ASCII name characters meets a range of blanks. -/
theorem blankRanges_apart : ∀ r ∈ (0x2D, 0x7A) :: letterRanges, ∀ b ∈ blankRanges,
    r.2 < b.1 ∨ b.2 < r.1 := by
  decide +kernel

theorem exists_range_of_isNameChar {c : Char} (h : isNameChar c) :
    ∃ r ∈ (0x2D, 0x7A) :: letterRanges, r.1 ≤ c.toNat ∧ c.toNat ≤ r.2 := by
  simp only [isNameChar, isWord, Bool.or_eq_true, beq_iff_eq, Bool.and_eq_true, List.any_eq_true,
    decide_eq_true_eq] at h
  rcases h with ((ascii | rfl) | ⟨_, r, hr, range⟩) | rfl
  · refine ⟨_, List.mem_cons_self, ?_⟩
    simp only [Char.isAlphanum, Char.isAlpha, Char.isUpper, Char.isLower, Char.isDigit,
      Bool.or_eq_true, Bool.and_eq_true, decide_eq_true_eq, ge_iff_le, UInt32.le_iff_toNat_le,
      Char.toNat_val, Char.reduceToNat] at ascii
    simp only
    omega
  · exact ⟨_, List.mem_cons_self, by decide⟩
  · exact ⟨r, List.mem_cons_of_mem _ hr, range⟩
  · exact ⟨_, List.mem_cons_self, by decide⟩

theorem not_isBlank_of_isNameChar {c : Char} (h : isNameChar c) : isBlank c = false := by
  rw [Bool.eq_false_iff]
  intro blank
  obtain ⟨b, hb, range⟩ := List.any_eq_true.1 blank
  simp only [Bool.and_eq_true, decide_eq_true_eq] at range
  obtain ⟨r, hr, within⟩ := exists_range_of_isNameChar h
  have := blankRanges_apart r hr b hb
  omega

theorem not_isNameChar_of_isBlank {c : Char} (h : isBlank c) : isNameChar c = false := by
  by_contra named
  rw [not_isBlank_of_isNameChar (by simpa using named)] at h
  cases h

theorem isName_iff {s : Text} :
    IsName s ↔ s.take 2 = sigil ∧ s.drop 2 ≠ [] ∧ (s.drop 2).all isNameChar := by
  constructor
  · rintro ⟨run, rfl, some_run, all⟩
    exact ⟨rfl, some_run, List.all_eq_true.2 all⟩
  · rintro ⟨sigil_first, some_run, all⟩
    refine ⟨s.drop 2, ?_, some_run, List.all_eq_true.1 all⟩
    rw [← sigil_first, List.take_append_drop]

instance (s : Text) : Decidable (IsName s) := decidable_of_iff _ isName_iff.symm

theorem IsName.ne_nil {n : Text} (h : IsName n) : n ≠ [] := by
  obtain ⟨run, rfl, -⟩ := h
  simp [sigil]

theorem IsName.isNameChar {n : Text} (h : IsName n) : ∀ c ∈ n, isNameChar c := by
  obtain ⟨run, rfl, _, all⟩ := h
  have hyphen : StyleExpansion.isNameChar '-' = true := by decide
  simpa [sigil, hyphen] using all

theorem IsName.notMem {name : Text} (h : IsName name) {c : Char}
    (other : StyleExpansion.isNameChar c = false) : c ∉ name := by
  intro mem
  rw [h.isNameChar c mem] at other
  cases other

theorem IsName.head_not_isBlank {name : Text} (h : IsName name) (s : Text) :
    ∀ c ∈ (name ++ s).head?, isBlank c = false := by
  obtain ⟨run, rfl, -⟩ := h
  intro c hc
  obtain rfl : '-' = c := Option.some.inj hc
  decide

theorem IsName.balanced {n : Text} (h : IsName n) : Balanced n :=
  balanced_of_plain fun c hc => isPlain_of_isNameChar (h.isNameChar c hc)

theorem takeWhile_append_of_head {p : Char → Bool} {x s : Text} (hx : ∀ c ∈ x, p c)
    (hs : ∀ c ∈ s.head?, p c = false) :
    (x ++ s).takeWhile p = x ∧ (x ++ s).dropWhile p = s := by
  induction x with
  | nil => cases s <;> simp_all
  | cons c x ih => simp_all

theorem readName?_name {n s : Text} (h : IsName n) (hs : EndsName s) :
    readName? (n ++ s) = some ⟨n, n, s⟩ := by
  obtain ⟨run, rfl, some_run, all⟩ := h
  obtain ⟨taken, left⟩ := takeWhile_append_of_head all hs
  simp [readName?, nameRun, taken, left, some_run]

/-- What starts with a name is read as one, though the name that is read may be longer. -/
theorem isSome_readName? {name : Text} (h : IsName name) (rest : Text) :
    (readName? (name ++ rest)).isSome := by
  obtain ⟨run, rfl, some_run, all⟩ := h
  obtain ⟨c, run, rfl⟩ := List.exists_cons_of_ne_nil some_run
  have first : isNameChar c = true := all c List.mem_cons_self
  simp [readName?, nameRun, first]

theorem isName_of_readName? {s : Text} {r : Reading Text} (h : readName? s = some r) :
    IsName r.value ∧ EndsName r.rest := by
  unfold readName? at h
  split at h
  · simp at h
  · rename_i tail ht
    split at h
    · simp at h
    · rename_i some_run
      obtain rfl : _ = r := Option.some.inj h
      refine ⟨⟨nameRun tail, rfl, by simpa using some_run, ?_⟩, ?_⟩
      · exact fun c hc => List.mem_takeWhile_imp hc
      · intro c hc
        have := List.head?_dropWhile_not isNameChar tail
        rw [Option.mem_def.1 hc] at this
        simpa using this

theorem readName?_eq_none_of_head {s : Text} (h : s.head? ≠ some '-') : readName? s = none := by
  cases s with
  | nil => rfl
  | cons c s =>
    have : '-' ≠ c := fun same => h (by rw [same]; rfl)
    simp [readName?, sigil, Text.after?_cons_of_ne this]

/-- A keyword and a name with a space between them are read to the end of the name. -/
theorem readAtRule?_name {keyword name s : Text} (h : IsName name) (ends : EndsName s) :
    readAtRule? keyword (keyword ++ ' ' :: name ++ s) =
      some ⟨name, keyword ++ ' ' :: name, s⟩ := by
  obtain ⟨blanks, after⟩ := takeWhile_append_of_head (p := isBlank) (x := [' '])
    (List.all_eq_true.1 rfl) (h.head_not_isBlank s)
  have gap : Text.blanks (' ' :: (name ++ s)) = [' '] := blanks
  have behind : Text.afterBlanks (' ' :: (name ++ s)) = name ++ s := after
  rw [readAtRule?, List.append_assoc, Text.after?_append]
  simp only [List.cons_append, gap, behind, readName?_name h ends]
  simp

/-- A keyword, blanks and a name, read back into its three parts. -/
theorem readAtRule?_parts {keyword s : Text} {r : Reading Text}
    (h : readAtRule? keyword s = some r) :
    ∃ gap, r.lexeme = keyword ++ gap ++ r.value ∧ gap ≠ [] ∧ (∀ c ∈ gap, isBlank c) ∧
      IsName r.value ∧ EndsName r.rest := by
  unfold readAtRule? at h
  split at h
  · simp at h
  · rename_i tail ht
    split at h
    · simp at h
    · rename_i gap
      obtain ⟨name, hn, rfl⟩ := Option.map_eq_some_iff.1 h
      refine ⟨Text.blanks tail, ?_, by simpa using gap, fun c hc => List.mem_takeWhile_imp hc,
        isName_of_readName? (r := name) hn⟩
      simp [(readName?_append hn).2]

end StyleExpansion
