import StyleExpansion.Pass
import StyleExpansion.Proofs.Arguments
import StyleExpansion.Proofs.Search

namespace StyleExpansion

namespace Table

variable {κ α : Type} [DecidableEq κ]

theorem get?_foldl_insert (es : List (κ × α)) (t : Table κ α) (k : κ) :
    (es.foldl (fun t e => t.insert e.1 e.2) t).get? k =
      ((es.reverse.find? fun e => e.1 = k).map Prod.snd).or (t.get? k) := by
  induction es generalizing t with
  | nil => simp
  | cons e es ih =>
    rw [List.foldl_cons, ih, get?_insert, List.reverse_cons, List.find?_append]
    cases es.reverse.find? fun e => e.1 = k with
    | some found => simp
    | none =>
      by_cases same : k = e.1
      · simp [same]
      · have other : e.1 ≠ k := fun x => same x.symm
        simp [same, other]

/-- Of several values for a key the last stays. -/
theorem get?_ofList (es : List (κ × α)) (k : κ) :
    (ofList es).get? k = (es.reverse.find? fun e => e.1 = k).map Prod.snd := by
  rw [ofList, get?_foldl_insert]
  simp [get?, empty]

theorem mem_of_get?_ofList {es : List (κ × α)} {k : κ} {a : α}
    (h : (ofList es).get? k = some a) : (k, a) ∈ es := by
  rw [get?_ofList] at h
  obtain ⟨e, he, rfl⟩ := Option.map_eq_some_iff.1 h
  have key := List.find?_some he
  have mem := List.mem_reverse.1 (List.mem_of_find?_eq_some he)
  rw [← of_decide_eq_true key]
  exact mem

theorem mem_of_get? {t : Table κ α} {k : κ} {a : α} (h : t.get? k = some a) :
    (k, a) ∈ t.entries := by
  obtain ⟨e, he, rfl⟩ := Option.map_eq_some_iff.1 h
  have key := List.find?_some he
  rw [← of_decide_eq_true key]
  exact List.mem_of_find?_eq_some he

theorem contains_eq_isSome (t : Table κ α) (k : κ) : t.contains k = (t.get? k).isSome := by
  rw [Bool.eq_iff_iff]
  simp [contains, get?]

end Table

def Bindings.Balanced (b : Bindings) : Prop :=
  ∀ k v, b.get? k = some (some v) → StyleExpansion.Balanced v

/-- What holds of all arguments and defaults holds of every value that is bound. -/
theorem bind_forall {P : Text → Prop} {params : List Parameter} {args : List Text}
    (defaults : ∀ p ∈ params, ∀ v, p.default? = some v → P v) (given : ∀ a ∈ args, P a) :
    ∀ k v, (Parameter.bind params args).get? k = some (some v) → P v := by
  intro k v bound
  have mem := Table.mem_of_get?_ofList bound
  clear bound
  induction params generalizing args with
  | nil => simp [Parameter.pairUp] at mem
  | cons p params ih =>
    have later := fun q hq => defaults q (List.mem_cons_of_mem p hq)
    cases args with
    | nil =>
      rcases List.mem_cons.1 mem with same | mem
      · exact defaults p (by simp) v (congrArg Prod.snd same).symm
      · exact ih later (by simp) mem
    | cons arg args =>
      rcases List.mem_cons.1 mem with same | mem
      · obtain rfl : v = arg := Option.some.inj (congrArg Prod.snd same)
        exact given v (by simp)
      · exact ih later (fun a ha => given a (List.mem_cons_of_mem arg ha)) mem

theorem bind_balanced {params : List Parameter} {args : List Text}
    (defaults : ∀ p ∈ params, ∀ v, p.default? = some v → Balanced v)
    (given : ∀ a ∈ args, Balanced a) : (Parameter.bind params args).Balanced :=
  bind_forall defaults given

/-- The parts of what stands between the brackets of a reference. -/
theorem Reference.parse?_parts {interior : Text} {ref : Reference} (h : parse? interior = some ref) :
    ∃ lead gap, interior = lead ++ ref.name ++ gap ++ ref.fallback?.elim [] (',' :: ·) ∧
      (∀ c ∈ lead, isBlank c) ∧ IsName ref.name ∧ ∀ c ∈ gap, isBlank c := by
  unfold parse? at h
  split at h
  · cases h
  · rename_i r read
    have name := (isName_of_readName? read).1
    have whole : interior =
        Text.blanks interior ++ r.value ++ Text.blanks r.rest ++ Text.afterBlanks r.rest := by
      rw [List.append_assoc, Text.blanks_append_afterBlanks, List.append_assoc,
        (readName?_append read).2, (readName?_append read).1, Text.blanks_append_afterBlanks]
    have blank (s : Text) : ∀ c ∈ Text.blanks s, isBlank c := fun c hc => List.mem_takeWhile_imp hc
    split at h
    · rename_i nothing
      obtain rfl := Option.some.inj h
      rw [nothing] at whole
      exact ⟨_, _, whole, blank _, name, blank _⟩
    · rename_i c fallback next
      split at h
      · rename_i comma
        obtain rfl := Option.some.inj h
        rw [next, comma] at whole
        exact ⟨_, _, whole, blank _, name, blank _⟩
      · cases h

theorem Reference.fallback_balanced {interior fallback : Text} {ref : Reference}
    (balanced : Balanced interior) (parsed : parse? interior = some ref)
    (given : ref.fallback? = some fallback) : Balanced fallback := by
  obtain ⟨lead, gap, rfl, blank, name, blank'⟩ := parse?_parts parsed
  rw [given, Option.elim_some, List.append_cons] at balanced
  have lead_balanced := balanced_of_plain fun c hc => isPlain_of_isBlank (blank c hc)
  have gap_balanced := balanced_of_plain fun c hc => isPlain_of_isBlank (blank' c hc)
  have comma : Balanced [','] := by decide
  exact balanced.of_append_left
    (((lead_balanced.append name.balanced).append gap_balanced).append comma)

theorem Reference.lexeme_of_find? {function s : Text} {o : Occurrence Unit}
    (h : (opener function).find? s = some o) : o.lexeme = function ++ ['('] := by
  obtain ⟨rest, _, same⟩ := Option.map_eq_some_iff.1 (Reader.read?_of_find? h)
  exact (congrArg Reading.lexeme same).symm

/-- Putting balanced values in place of references does no harm to the brackets around them. -/
theorem tracks_substitute {function : Text} (plain : ∀ c ∈ function, isPlain c)
    (boundOnly : Bool) {bindings : Bindings} (bound : bindings.Balanced) (s : Text) :
    Tracks s (substitute function boundOnly bindings s) := by
  fun_induction substitute function boundOnly bindings s with
  | case1 s found => exact Tracks.refl s
  | case2 s o found _ ih | case3 s o found _ _ _ ih =>
    have whole := (Tracks.refl (o.before ++ o.lexeme)).append ih
    rwa [Reader.find?_append found] at whole
  | case4 s o found block closed ref parsed value? ihf ih =>
    obtain ⟨cut, closer, inside⟩ := enclosed?_eq_some_iff.1 closed
    have lexeme := Reference.lexeme_of_find? found
    -- The whole reference is balanced, and so is whatever stands in for it.
    have reference : Balanced (o.lexeme ++ block.closed) := by
      have := (balanced_of_plain plain).append (inside.bracketed (o := '(') rfl closer)
      simpa [lexeme, Block.closed] using this
    have value : Balanced (value?.getD (o.lexeme ++ block.closed)) := by
      simp only [value?]
      split
      · rename_i v lookedUp
        exact bound ref.name v (Option.join_eq_some_iff.1 lookedUp)
      · rename_i fallback _ given
        split
        · have inner := (Reference.fallback_balanced inside parsed given).strip
          exact (ihf fallback given).balanced inner
        · exact reference
      · exact reference
    have whole := ((Tracks.refl o.before).append (Tracks.of_balanced reference value)).append ih
    have parts : o.before ++ (o.lexeme ++ block.closed) ++ block.rest = s := by
      rw [← Reader.find?_append found]
      simp [Block.closed, ← cut]
    rwa [parts] at whole

/-- What is put in place of a reference, if anything. -/
def Reference.replacement? (function : Text) (boundOnly : Bool) (bindings : Bindings)
    (ref : Reference) : Option Text :=
  match (bindings.get? ref.name).join, ref.fallback? with
  | some value, _ => some value
  | none, some fallback =>
    if bindings.contains ref.name || !boundOnly then
      some (substitute function boundOnly bindings (Text.strip fallback))
    else none
  | none, none => none

section
variable {function : Text} {boundOnly : Bool} {bindings : Bindings}

theorem substitute_eq (s : Text) :
    substitute function boundOnly bindings s =
      match (Reference.opener function).find? s with
      | none => s
      | some o =>
        match (enclosed? o.rest).bind fun block =>
            (Reference.parse? block.interior).map (block, ·) with
        | none => o.before ++ o.lexeme ++ substitute function boundOnly bindings o.rest
        | some (block, ref) =>
          o.before ++ (ref.replacement? function boundOnly bindings).getD
            (o.lexeme ++ block.closed) ++ substitute function boundOnly bindings block.rest := by
  rw [substitute]
  split
  · rename_i none_found
    rw [none_found]
  · rename_i o found
    rw [found]
    simp only
    split
    · rename_i unclosed
      rw [unclosed]
      rfl
    · rename_i block closed
      rw [closed, Option.bind_some]
      split
      · rename_i unparsed
        rw [unparsed]
        rfl
      · rename_i ref parsed
        rw [parsed, Option.map_some]
        congr 2
        simp only [Reference.replacement?]
        congr 1
        split <;> simp [*]

theorem substitute_behind {x s : Text}
    (h : (Reference.opener function).find? (x ++ s) =
      ((Reference.opener function).find? s).map (Occurrence.shift x)) :
    substitute function boundOnly bindings (x ++ s) =
      x ++ substitute function boundOnly bindings s := by
  rw [substitute_eq, substitute_eq s, h]
  cases (Reference.opener function).find? s with
  | none => rfl
  | some o =>
    have rest : (o.shift x).rest = o.rest := rfl
    simp only [Option.map_some, rest]
    split <;> simp [Occurrence.shift]

theorem substitute_bound {s : Text} {o : Occurrence Unit} {block : Block} {ref : Reference}
    {value : Text} (found : (Reference.opener function).find? s = some o)
    (closed : enclosed? o.rest = some block) (parsed : Reference.parse? block.interior = some ref)
    (bound : bindings.get? ref.name = some (some value)) :
    substitute function boundOnly bindings s =
      o.before ++ value ++ substitute function boundOnly bindings block.rest := by
  rw [substitute_eq, found]
  simp [closed, parsed, Reference.replacement?, bound]

end

/-- A group that was read, with its brackets, or none. -/
theorem Group.read_cases {opener : Char} {offset : Nat} {s : Text} {g : Group}
    (h : read opener offset s = .ok g) :
    (∃ inner closer, s = opener :: inner ++ closer :: g.rest ∧ Balanced inner ∧ isClosing closer ∧
      g.interior? = some inner ∧ g.width = inner.length + 2) ∨
    s.head? ≠ some opener ∧ g = ⟨none, 0, s⟩ := by
  unfold read at h
  split at h
  · rename_i starts
    obtain ⟨t, rfl⟩ : ∃ t, s = opener :: t := by
      cases s with
      | nil => simp at starts
      | cons c t => exact ⟨t, by simpa using starts⟩
    split at h
    · rename_i b closed
      obtain rfl := Except.ok.inj h
      obtain ⟨cut, closer, inside⟩ := enclosed?_eq_some_iff.1 closed
      rw [List.tail_cons] at cut
      exact .inl ⟨b.interior, b.closer, by simp [← cut], inside, closer, rfl, rfl⟩
    · cases h
  · rename_i other
    exact .inr ⟨other, (Except.ok.inj h).symm⟩

theorem Group.read_error {opener : Char} {offset : Nat} {s : Text} {e : Error}
    (opens : isOpening opener) (h : read opener offset s = .error e) :
    e = .unmatched (offset + 1) ∧ OpenAt s 1 := by
  unfold read at h
  split at h
  · rename_i starts
    split at h
    · cases h
    · rename_i unclosed
      refine ⟨(Except.error.inj h).symm, ?_⟩
      cases s with
      | nil => simp at starts
      | cons c t =>
        obtain rfl : c = opener := by simpa using starts
        exact openAt_of_enclosed? [] opens unclosed
  · cases h

theorem Group.read_balanced {opener : Char} {offset : Nat} {s : Text} {g : Group}
    (opens : isOpening opener) (h : read opener offset s = .ok g) :
    Balanced (g.interior?.getD []) ∧
      ∃ x, s = x ++ g.rest ∧ x.length = g.width ∧ Balanced x := by
  obtain ⟨inner, closer, cut, inside, closes, interior, width⟩ | ⟨-, rfl⟩ := read_cases h
  · rw [interior, width]
    refine ⟨inside, opener :: inner ++ [closer], ?_, by simp, inside.bracketed opens closes⟩
    rw [cut]
    simp
  · exact ⟨balanced_nil, [], rfl, rfl, balanced_nil⟩

theorem Group.read_ok (opener : Char) (offset : Nat) {s : Text} (opens : isOpening opener)
    (h : Sealed 0 s) : ∃ g, read opener offset s = .ok g := by
  cases outcome : read opener offset s with
  | ok g => exact ⟨g, rfl⟩
  | error e => exact absurd (read_error opens outcome).2 (not_openAt_of_sealed h 1)

theorem afterBlanks_suffix (s : Text) : Text.afterBlanks s <:+ s := List.dropWhile_suffix _

theorem afterTrailer_cut (s : Text) : ∃ x, s = x ++ afterTrailer s ∧ Balanced x := by
  have cut := Text.blanks_append_afterBlanks s
  have lead : Balanced (Text.blanks s) :=
    balanced_of_plain fun c hc => isPlain_of_isBlank (List.mem_takeWhile_imp hc)
  unfold afterTrailer
  split
  · rename_i ended
    rw [ended, List.append_nil] at cut
    exact ⟨s, by simp, cut ▸ lead⟩
  · rename_i c rest next
    rw [next] at cut
    split
    · rename_i semicolon
      subst semicolon
      refine ⟨Text.blanks s ++ [';'], by simp [cut], lead.append (by decide)⟩
    · exact ⟨Text.blanks s, cut.symm, lead⟩

namespace Placeholder

theorem lexeme_plain {s : Text} {o : Occurrence Unit} (h : marker.find? s = some o) :
    Balanced o.lexeme := by
  have read : readMarker? (o.lexeme ++ o.rest) = some o.toReading := Reader.read?_of_find? h
  unfold readMarker? at read
  split at read
  · simp at read
  · rename_i tail _
    split at read
    · simp at read
    · have same := congrArg Reading.lexeme (Option.some.inj read)
      rw [← same]
      have marker : Balanced contentsMarker := by decide
      refine marker.append (balanced_of_plain fun c hc => ?_)
      exact isPlain_of_isBlank (List.mem_takeWhile_imp hc)

theorem tracks_fillFrom {contents? : Option Text} (given : ∀ t, contents? = some t → Balanced t)
    {offset : Nat} {s t : Text} (h : fillFrom contents? offset s = .ok t) : Tracks s t := by
  fun_induction fillFrom contents? offset s generalizing t with
  | case1 => cases h; exact Tracks.refl _
  | case2 => cases h
  | case3 => cases h
  | case4 offset s o found block closed filler rest filled recursive =>
    rename_i ih
    obtain rfl := Except.ok.inj h
    obtain ⟨inside, x, cut, -, group⟩ := Group.read_balanced rfl closed
    obtain ⟨y, trail, trailer⟩ := afterTrailer_cut block.rest
    have filling : Balanced filler := by
      cases hc : contents? with
      | none => simpa [filler, hc] using inside
      | some c => simpa [filler, hc] using (given c hc).strip
    have place : Balanced (o.lexeme ++ x ++ y) :=
      ((lexeme_plain found).append group).append trailer
    have whole := ((Tracks.refl o.before).append (Tracks.of_balanced place filling)).append
      (ih recursive)
    have parts : o.before ++ (o.lexeme ++ x ++ y) ++ rest = s := by
      rw [← Reader.find?_append found, cut, trail]
      simp [rest]
    rwa [parts] at whole

theorem fillFrom_ok (contents? : Option Text) (offset : Nat) {s : Text} (h : Sealed 0 s) :
    ∃ t, fillFrom contents? offset s = .ok t := by
  fun_induction fillFrom contents? offset s with
  | case1 => exact ⟨_, rfl⟩
  | case2 offset s o found e failed =>
    obtain ⟨g, hg⟩ := Group.read_ok '{' (o.stop offset) rfl
      (h.suffix ⟨_, Reader.find?_append found⟩)
    simp [failed] at hg
  | case3 offset s o found block closed rest e failed ih =>
    obtain ⟨x, cut, _⟩ := (Group.read_balanced rfl closed).2
    obtain ⟨y, trail, _⟩ := afterTrailer_cut block.rest
    have inner := h.suffix ⟨_, Reader.find?_append found⟩
    rw [cut, trail] at inner
    obtain ⟨t, ht⟩ := ih (inner.suffix ⟨x ++ y, by simp [rest]⟩)
    simp [failed] at ht
  | case4 => exact ⟨_, rfl⟩

theorem fill_balanced {contents? : Option Text} (given : ∀ t, contents? = some t → Balanced t)
    {body : Text} (h : Balanced body) : ∃ t, fill contents? body = .ok t ∧ Balanced t := by
  obtain ⟨t, ht⟩ := fillFrom_ok contents? 0 (h.sealed (Int.le_refl 0))
  exact ⟨t, ht, (tracks_fillFrom given ht).balanced h⟩

end Placeholder

theorem evaluate_balanced {d : Definition} {args : List Text} {t : Text}
    (defaults : ∀ p ∈ d.params, ∀ v, p.default? = some v → Balanced v)
    (results : ∀ r, ResultClause.extract d.name d.body = .ok r → Balanced r)
    (given : ∀ a ∈ args, Balanced a) (h : Calls.evaluate d args = .ok t) : Balanced t := by
  unfold Calls.evaluate at h
  split at h
  · cases h
  · rename_i result extracted
    obtain rfl := Except.ok.inj h
    have plain : ∀ c ∈ Calls.parameterFunction, isPlain c := List.all_eq_true.1 rfl
    exact (tracks_substitute plain true (bind_balanced defaults given) result).balanced
      (results result extracted)

theorem evaluate_error {d : Definition} {args : List Text} {e : Error}
    (h : Calls.evaluate d args = .error e) : e = .missingResult d.name := by
  unfold Calls.evaluate at h
  split at h
  · rename_i cause missing
    obtain rfl := Except.error.inj h
    unfold ResultClause.extract at missing
    split at missing
    · cases missing
    · exact (Except.error.inj missing).symm
  · cases h

theorem instantiate_balanced {d : Definition} {site : ApplySite}
    (defaults : ∀ p ∈ d.params, ∀ v, p.default? = some v → Balanced v) (body : Balanced d.body)
    (given : ∀ a ∈ site.args, Balanced a) (contents : ∀ t, site.contents? = some t → Balanced t) :
    ∃ t, Applications.instantiate d site = .ok t ∧ Balanced t := by
  have plain : ∀ c ∈ Applications.parameterFunction, isPlain c :=
    List.all_eq_true.1 rfl
  have replaced := (tracks_substitute plain false (bind_balanced defaults given) d.body).balanced
    body
  unfold Applications.instantiate
  simp only
  split
  · exact Placeholder.fill_balanced contents replaced
  · exact ⟨_, rfl, replaced⟩

end StyleExpansion
