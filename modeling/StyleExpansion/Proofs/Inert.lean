import StyleExpansion.Declaration
import StyleExpansion.Proofs.Replacement

/-!
Texts in which no declaration can come up. It is not enough that the keyword of a declaration does
not stand in a text: an expansion takes texts apart and puts them together in another way, and may
complete a keyword with what it puts in. In an inert text every `@` is followed by a word that is
visibly another one, so that wherever such a text is cut the parts that are kept stay inert.

* `Inert.append`, `Inert.cut`, `Inert.cut_name`: what holds when texts are joined and cut;
* `inert_substitute`, `inert_fillFrom`: inert values in an inert body make an inert text;
* `spans_of_inert`: an inert text declares nothing.
-/

namespace StyleExpansion

/-- Whether the character can show that a word is another one: no cut is made right before it. -/
def isSolid (c : Char) : Bool := !isBlank c && !isClosing c && c != ',' && c != '@'

def departs : (word s : Text) → Bool
  | k :: word, c :: s => if k = c then departs word s else isSolid c
  | _, _ => false

/-- The words that make a declaration of an `@`, and the start of a call, which may give such a
word. -/
def declaringWords : List Text := [Kind.function.label, Kind.mixin.label, sigil]

/-- Every `@` is followed by another word than those that make a declaration of it. -/
def Inert (s : Text) : Prop := ∀ t, '@' :: t <:+ s → ∀ word ∈ declaringWords, departs word t = true

instance (s : Text) : Decidable (Inert s) :=
  decidable_of_iff
    (∀ z ∈ s.tails, z.head? = some '@' → ∀ word ∈ declaringWords, departs word z.tail = true) <| by
    constructor
    · intro h t ht
      exact h ('@' :: t) ((List.mem_tails _ _).2 ht) rfl
    · intro h z hz starts
      obtain ⟨t, rfl⟩ : ∃ t, z = '@' :: t := by
        cases z with
        | nil => cases starts
        | cons c t => exact ⟨t, by rw [Option.some.inj starts]⟩
      exact h t ((List.mem_tails _ _).1 hz)

theorem solid_and_name_of_mem {word : Text} (hw : word ∈ declaringWords) {c : Char}
    (hc : c ∈ word) : isSolid c = true ∧ isNameChar c = true := by
  have all : declaringWords.all (fun w => w.all fun c => isSolid c && isNameChar c) = true := rfl
  have here := List.all_eq_true.1 (List.all_eq_true.1 all word hw) c hc
  exact Bool.and_eq_true_iff.1 here

theorem departs_append {word t : Text} (h : departs word t = true) (s : Text) :
    departs word (t ++ s) = true := by
  fun_induction departs word t with
  | case1 word c t ih => simpa [departs] using ih h
  | case2 k word c t other => simpa [departs, other] using h
  | case3 => cases h

/-- A text that departs from a word does so before a cut, or the part before the cut is the start of
the word. -/
theorem departs_append_cases {word t s : Text} (h : departs word (t ++ s) = true) :
    departs word t = true ∨ t <+: word ∧ departs (word.drop t.length) s = true := by
  induction t generalizing word with
  | nil => exact Or.inr ⟨List.nil_prefix, h⟩
  | cons c t ih =>
    cases word with
    | nil => cases h
    | cons k word =>
      by_cases same : k = c
      · subst same
        simp only [List.cons_append, departs, if_true] at h ⊢
        rcases ih h with departed | ⟨start, later⟩
        · exact Or.inl departed
        · exact Or.inr ⟨List.cons_prefix_cons.2 ⟨rfl, start⟩, later⟩
      · simp only [List.cons_append, departs, same, if_false] at h ⊢
        exact Or.inl h

theorem inert_cons {c : Char} {s : Text} :
    Inert (c :: s) ↔ (c = '@' → ∀ word ∈ declaringWords, departs word s = true) ∧ Inert s := by
  constructor
  · intro h
    refine ⟨?_, fun t ht => h t (ht.trans (List.suffix_cons c s))⟩
    rintro rfl
    exact h s (List.suffix_refl _)
  · rintro ⟨here, later⟩ t ht
    rcases List.suffix_cons_iff.1 ht with same | inner
    · obtain ⟨rfl, rfl⟩ := List.cons.inj same
      exact here rfl
    · exact later t inner

theorem inert_of_notMem {s : Text} (h : '@' ∉ s) : Inert s := by
  intro t ht
  exact absurd (ht.subset List.mem_cons_self) h

theorem inert_nil : Inert [] := inert_of_notMem List.not_mem_nil

namespace Inert

variable {s t : Text}

theorem suffix (h : Inert s) (ht : t <:+ s) : Inert t := fun u hu => h u (hu.trans ht)

theorem append (hs : Inert s) (ht : Inert t) : Inert (s ++ t) := by
  induction s with
  | nil => exact ht
  | cons c s ih =>
    obtain ⟨here, later⟩ := inert_cons.1 hs
    refine inert_cons.2 ⟨?_, ih later⟩
    intro isAt word hw
    exact departs_append (here isAt word hw) t

/-- An inert text cut right before a character that is not solid. -/
theorem cut (h : Inert (s ++ t)) (next : ∀ c ∈ t.head?, isSolid c = false) : Inert s := by
  induction s with
  | nil => exact inert_nil
  | cons c s ih =>
    obtain ⟨here, later⟩ := inert_cons.1 h
    refine inert_cons.2 ⟨?_, ih later⟩
    intro isAt word hw
    rcases departs_append_cases (here isAt word hw) with departed | ⟨_, late⟩
    · exact departed
    · -- The rest of the word would have to part from `t` at its first character.
      rcases rest : word.drop s.length with _ | ⟨k, rest'⟩
      · rw [rest] at late
        cases late
      · rw [rest] at late
        cases t with
        | nil => cases late
        | cons d t =>
          have soft := next d rfl
          have mem : k ∈ word := List.mem_of_mem_drop (rest ▸ List.mem_cons_self)
          have solid := (solid_and_name_of_mem hw mem).1
          have other : k ≠ d := by
            rintro rfl
            rw [solid] at soft
            cases soft
          rw [departs, if_neg other, soft] at late
          cases late

/-- An inert text cut where a name can start, if no `@` stands right before the cut. -/
theorem cut_name (h : Inert (s ++ t)) (free : ∀ c ∈ s.getLast?, isNameChar c = false)
    (loose : s.getLast? ≠ some '@') : Inert s := by
  induction s with
  | nil => exact inert_nil
  | cons c s ih =>
    obtain ⟨here, later⟩ := inert_cons.1 h
    cases s with
    | nil =>
      refine inert_cons.2 ⟨?_, inert_nil⟩
      rintro rfl
      exact absurd rfl loose
    | cons d s =>
      rw [List.getLast?_cons_cons] at free loose
      refine inert_cons.2 ⟨?_, ih later free loose⟩
      intro isAt word hw
      rcases departs_append_cases (here isAt word hw) with departed | ⟨start, _⟩
      · exact departed
      · -- The part before the cut ends with a character of the word, and so of a name.
        obtain ⟨e, last⟩ : ∃ e, (d :: s).getLast? = some e :=
          Option.isSome_iff_exists.1 (by simp [List.getLast?_cons])
        have mem : e ∈ word := start.subset (List.mem_of_getLast? last)
        have name := (solid_and_name_of_mem hw mem).2
        rw [free e last] at name
        cases name

theorem afterBlanks (h : Inert s) : Inert (Text.afterBlanks s) := h.suffix (afterBlanks_suffix s)

theorem strip (h : Inert s) : Inert (Text.strip s) := by
  have front := h.afterBlanks
  rw [← List.rdropWhile_append_rtakeWhile (p := isBlank) (l := Text.afterBlanks s)] at front
  refine front.cut ?_
  intro c hc
  have blank : isBlank c = true := List.mem_rtakeWhile_imp (List.mem_of_mem_head? hc)
  simp [isSolid, blank]

theorem afterTrailer (h : Inert s) : Inert (afterTrailer s) := by
  obtain ⟨x, cut, -⟩ := afterTrailer_cut s
  exact h.suffix ⟨x, cut.symm⟩

/-- The parts of an inert text that is cut at a closing bracket. -/
theorem block {b : Block} (h : Inert s) (closed : enclosed? s = some b) :
    Inert b.interior ∧ Inert b.closed ∧ Inert b.rest := by
  obtain ⟨parts, closer, -⟩ := enclosed?_eq_some_iff.1 closed
  have soft : isSolid b.closer = false := by simp [isSolid, closer]
  have notAt : '@' ∉ [b.closer] := by
    intro mem
    rw [← List.mem_singleton.1 mem] at closer
    cases closer
  rw [parts] at h
  have interior : Inert b.interior := by
    refine h.cut ?_
    intro c hc
    rw [← Option.some.inj hc]
    exact soft
  refine ⟨interior, interior.append (inert_of_notMem notAt), ?_⟩
  exact h.suffix ⟨b.interior ++ [b.closer], by simp⟩

theorem group {opener : Char} {offset : Nat} {g : Group} (h : Inert s)
    (read : Group.read opener offset s = .ok g) : Inert (g.interior?.getD []) ∧ Inert g.rest := by
  unfold Group.read at read
  split at read
  · split at read
    · rename_i b closed
      obtain rfl := Except.ok.inj read
      obtain ⟨interior, -, rest⟩ := (h.suffix (List.tail_suffix s)).block closed
      exact ⟨interior, rest⟩
    · cases read
  · obtain rfl := Except.ok.inj read
    exact ⟨inert_nil, h⟩

end Inert

theorem commaItems_fst (d : Int) (s : Text) :
    ∃ rest, (commaItems d s).1 ++ rest = s ∧ ∀ c ∈ rest.head?, c = ',' := by
  induction s generalizing d with
  | nil => exact ⟨[], rfl, nofun⟩
  | cons c s ih =>
    rw [commaItems]
    split
    · rename_i comma
      simp only [Bool.and_eq_true, beq_iff_eq] at comma
      refine ⟨c :: s, rfl, ?_⟩
      intro e he
      rw [← Option.some.inj he]
      exact comma.1
    · obtain ⟨rest, whole, next⟩ := ih (d + bracketWeight c)
      exact ⟨rest, congrArg (c :: ·) whole, next⟩

theorem inert_commaItems {s : Text} (h : Inert s) (d : Int) :
    ∀ t ∈ (commaItems d s).1 :: (commaItems d s).2, Inert t := by
  have first : ∀ {s : Text}, Inert s → ∀ d, Inert (commaItems d s).1 := by
    intro s h d
    obtain ⟨rest, whole, next⟩ := commaItems_fst d s
    rw [← whole] at h
    refine h.cut ?_
    intro c hc
    rw [next c hc]
    rfl
  intro t ht
  rcases List.mem_cons.1 ht with rfl | others
  · exact first h d
  clear ht
  induction s generalizing d with
  | nil => cases others
  | cons c s ih =>
    have later := h.suffix (List.suffix_cons c s)
    rw [commaItems] at others
    split at others
    · rcases List.mem_cons.1 others with rfl | others
      · exact first later d
      · exact ih later d others
    · exact ih later _ others

theorem inert_of_mem_splitArguments {s a : Text} (h : Inert s) (ha : a ∈ splitArguments s) :
    Inert a := by
  obtain ⟨u, hu, rfl⟩ := exists_item_of_mem_splitArguments ha
  exact (inert_commaItems h 0 u hu).strip

/-- A text that is inert, and that stays so when its references through `function` are replaced: no
`@` stands right before one of them. -/
structure InertTemplate (function s : Text) : Prop where
  inert : Inert s
  loose : ¬ '@' :: function ++ ['('] <:+: s

theorem InertTemplate.within {function s t : Text} (h : InertTemplate function s) (inert : Inert t)
    (ht : t <:+: s) : InertTemplate function t :=
  ⟨inert, fun attached => h.loose (attached.trans ht)⟩

theorem Reference.fallback_suffix {interior fallback : Text} {ref : Reference}
    (parsed : parse? interior = some ref) (given : ref.fallback? = some fallback) :
    fallback <:+ interior := by
  obtain ⟨lead, gap, rfl, -⟩ := parse?_parts parsed
  rw [given, Option.elim_some, List.append_cons]
  exact List.suffix_append _ _

theorem strip_isInfix (s : Text) : Text.strip s <:+: s := by
  obtain ⟨lead, trail, cut, -⟩ := Text.strip_cut s
  exact ⟨lead, trail, cut.symm⟩

section
variable {function : Text} {s : Text} {o : Occurrence Unit}

/-- The text before a reference of an inert template. -/
theorem InertTemplate.before (h : InertTemplate function s)
    (found : (Reference.opener function).find? s = some o) : Inert o.before := by
  have whole := Reader.find?_append found
  have lexeme := Reference.lexeme_of_find? found
  have inert := h.inert
  rw [← whole, List.append_assoc] at inert
  refine inert.cut_name ?_ ?_
  · intro c hc
    have free := Reader.mayFollow_of_search found c hc
    simpa [Reference.opener] using free
  · intro last
    obtain ⟨front, same⟩ := List.getLast?_eq_some_iff.1 last
    refine h.loose ⟨front, o.rest, ?_⟩
    rw [← whole, same, lexeme]
    simp

/-- Inert values in place of the references of an inert template make an inert text. -/
theorem inert_substitute (named : '@' ∉ function) (boundOnly : Bool) {bindings : Bindings}
    (bound : ∀ k v, bindings.get? k = some (some v) → Inert v) (h : InertTemplate function s) :
    Inert (substitute function boundOnly bindings s) := by
  fun_induction substitute function boundOnly bindings s with
  | case1 s found => exact h.inert
  | case2 s o found _ ih | case3 s o found _ _ _ ih =>
    have whole := Reader.find?_append found
    have rest : o.rest <:+ s := ⟨_, whole⟩
    have lexeme : Inert o.lexeme := by
      refine inert_of_notMem ?_
      rw [Reference.lexeme_of_find? found]
      simp [named]
    have later := ih (h.within (h.inert.suffix rest) rest.isInfix)
    exact ((h.before found).append lexeme).append later
  | case4 s o found block closed ref parsed value? ihf ih =>
    have whole := Reader.find?_append found
    have rest : o.rest <:+ s := ⟨_, whole⟩
    obtain ⟨interior, closing, behind⟩ := (h.inert.suffix rest).block closed
    have cut := enclosed?_append closed
    have lexeme : Inert o.lexeme := by
      refine inert_of_notMem ?_
      rw [Reference.lexeme_of_find? found]
      simp [named]
    have inside : block.interior <:+: s := by
      refine List.IsInfix.trans ?_ rest.isInfix
      exact ⟨[], block.closer :: block.rest, by simpa using cut⟩
    have later : block.rest <:+: s := by
      refine List.IsInfix.trans ?_ rest.isInfix
      exact ⟨block.interior ++ [block.closer], [], by simpa using cut⟩
    have value : Inert (value?.getD (o.lexeme ++ block.closed)) := by
      simp only [value?]
      split
      · rename_i v lookedUp
        exact bound ref.name v (Option.join_eq_some_iff.1 lookedUp)
      · rename_i fallback _ given
        split
        · have suffix := Reference.fallback_suffix parsed given
          refine ihf fallback given (h.within (interior.suffix suffix).strip ?_)
          exact (strip_isInfix fallback).trans (suffix.isInfix.trans inside)
        · exact lexeme.append closing
      · exact lexeme.append closing
    exact ((h.before found).append value).append (ih (h.within behind later))

end

theorem Placeholder.head_of_find? {s : Text} {o : Occurrence Unit} (h : marker.find? s = some o) :
    (o.lexeme ++ o.rest).head? = some '@' := by
  have read : readMarker? (o.lexeme ++ o.rest) = some o.toReading := Reader.read?_of_find? h
  unfold readMarker? at read
  split at read
  · cases read
  · rename_i tail marked
    rw [← Text.append_of_after? marked]
    rfl

/-- Inert contents in place of the placeholders of an inert text make an inert text. -/
theorem inert_fillFrom {contents? : Option Text} (given : ∀ t, contents? = some t → Inert t)
    {offset : Nat} {s t : Text} (h : Inert s)
    (filled : Placeholder.fillFrom contents? offset s = .ok t) : Inert t := by
  fun_induction Placeholder.fillFrom contents? offset s generalizing t with
  | case1 =>
    obtain rfl := Except.ok.inj filled
    exact h
  | case2 => cases filled
  | case3 => cases filled
  | case4 offset s o found block closed filler rest filled' recursive =>
    rename_i ih
    obtain rfl := Except.ok.inj filled
    have whole := Reader.find?_append found
    obtain ⟨inside, behind⟩ := (h.suffix ⟨_, whole⟩).group closed
    have before : Inert o.before := by
      rw [← whole, List.append_assoc] at h
      refine h.cut ?_
      intro c hc
      rw [Placeholder.head_of_find? found] at hc
      rw [← Option.some.inj hc]
      rfl
    have filling : Inert filler := by
      cases hc : contents? with
      | none => simpa [filler, hc] using inside
      | some c => simpa [filler, hc] using (given c hc).strip
    exact (before.append filling).append (ih behind.afterTrailer recursive)

theorem departs_self (word s : Text) : departs word (word ++ s) = false := by
  induction word with
  | nil => rfl
  | cons k word ih => simpa [departs] using ih

theorem find?_header_of_inert {s : Text} (h : Inert s) (kind : Kind) :
    (Declaration.header kind).find? s = none := by
  cases found : (Declaration.header kind).find? s with
  | none => rfl
  | some o =>
    have suffix : o.lexeme ++ o.rest <:+ s :=
      ⟨o.before, by rw [← List.append_assoc]; exact Reader.find?_append found⟩
    have read : Declaration.readHeader? kind (o.lexeme ++ o.rest) = some o.toReading :=
      Reader.read?_of_find? found
    have keyword : kind.keyword <+: o.lexeme ++ o.rest := by
      by_contra absent
      have none_read : readAtRule? kind.keyword (o.lexeme ++ o.rest) = none := by
        rw [readAtRule?, Text.after?_eq_none_iff.2 absent]
      simp [Declaration.readHeader?, none_read] at read
    obtain ⟨tail, starts⟩ := keyword
    have declaring : kind.label ∈ declaringWords := by
      cases kind <;> simp [declaringWords]
    have departed := h (kind.label ++ tail) (by rw [← starts] at suffix; exact suffix) _ declaring
    rw [departs_self] at departed
    cases departed

/-- An inert text declares nothing. -/
theorem spans_of_inert {s : Text} (h : Inert s) : Declaration.spans s = .ok [] := by
  have nothing : ∀ kind, Declaration.scan kind s = {} := by
    intro kind
    rw [Declaration.scan, Declaration.scanFrom]
    split
    · rfl
    · rename_i o found
      rw [find?_header_of_inert h kind] at found
      cases found
  rw [Declaration.spans, nothing, nothing]
  rfl

end StyleExpansion
