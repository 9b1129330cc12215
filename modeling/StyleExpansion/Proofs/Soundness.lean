import StyleExpansion.Context
import StyleExpansion.Proofs.Replacement

namespace StyleExpansion

/-- A value with the property `P`, or a failure that is not an unmatched bracket. -/
def Sound {α : Type} (P : α → Prop) : Except Error α → Prop
  | .ok a => P a
  | .error e => ∀ offset, e ≠ .unmatched offset

section
variable {α β : Type} {P : α → Prop} {Q : β → Prop}

theorem Sound.mono {P' : α → Prop} {x : Except Error α} (hx : Sound P x)
    (h : ∀ a, P a → P' a) : Sound P' x := by
  cases x with
  | ok a => exact h a hx
  | error e => exact hx

theorem Sound.and {P' : α → Prop} {x : Except Error α} (hx : Sound P x)
    (h : ∀ a, x = .ok a → P' a) : Sound (fun a => P a ∧ P' a) x := by
  cases x with
  | ok a => exact ⟨hx, h a rfl⟩
  | error e => exact hx

theorem Sound.bind {x : Traced Error α} {f : α → Traced Error β} (hx : Sound P x.result)
    (hf : ∀ a, P a → Sound Q (f a).result) : Sound Q (x >>= f).result := by
  obtain ⟨log, result⟩ := x
  cases result with
  | ok a => exact hf a hx
  | error e => exact hx

theorem Sound.map {f : α → β} {x : Except Error α} (hx : Sound P x) (hf : ∀ a, P a → Q (f a)) :
    Sound Q (x.map f) := by
  cases x with
  | ok a => exact hf a hx
  | error e => exact hx

theorem exists_of_map_eq_ok {ε : Type} {x : Except ε α} {f : α → β} {b : β}
    (h : x.map f = .ok b) : ∃ a, x = .ok a ∧ f a = b := by
  cases x with
  | ok a => exact ⟨a, rfl, Except.ok.inj h⟩
  | error e => cases h

theorem sound_missingResult (name : Text) : Sound P (.error (.missingResult name)) :=
  fun _ same => by cases same

end

theorem settle_sound {P : Text → Prop} {pass : Text → Traced Error Text}
    (step : ∀ s, P s → Sound P (pass s).result) (n : Nat) {s : Text} (hs : P s) :
    Sound (fun r => P r.text) (settle pass n s).result := by
  induction n generalizing s with
  | zero => exact hs
  | succ n ih =>
    rw [settle]
    refine (step s hs).bind fun t ht => ?_
    split
    · exact hs
    · exact ih ht

namespace Context

theorem conclude_sound {P : Text → Prop} (c : Context) (kind : Kind) {r : Settled}
    (hr : P r.text) : Sound P (c.conclude kind r).result := by
  cases r with
  | atRest s => exact hr
  | atCeiling s =>
    simp only [conclude]
    split
    · exact hr
    · split
      · exact fun offset same => by cases same
      · exact hr

theorem resolve_sound {P : Text → Prop} (c : Context) (kind : Kind)
    (step : ∀ s, P s → Sound P (c.pass kind s).result) {s : Text} (hs : P s) :
    Sound P (c.resolve kind s).result :=
  (settle_sound step _ hs).bind fun _ hr => c.conclude_sound kind hr

/-- The apply sites come first: a property that the passes over them keep has to imply the one that
the passes over calls keep. -/
theorem expand_sound {P Q : Text → Prop} (c : Context)
    (sites : ∀ s, P s → Sound P (c.pass .mixin s).result) (between : ∀ s, P s → Q s)
    (calls : ∀ s, Q s → Sound Q (c.pass .function s).result) {s : Text} (hs : P s) :
    Sound Q (c.expand s).result :=
  (c.resolve_sound .mixin sites hs).bind fun t ht =>
    c.resolve_sound .function calls (between t ht)

/-- All that an expansion can put into a text is balanced. The bodies of functions are not asked
for: of a function only the result is put in. -/
structure BalancedDefinitions (c : Context) : Prop where
  bodies : ∀ d ∈ c.mixins.values, Balanced d.body
  results : ∀ d ∈ c.functions.values, ∀ r,
    ResultClause.extract d.name d.body = .ok r → Balanced r
  defaults : ∀ kind, ∀ d ∈ (c.registry kind).values, ∀ p ∈ d.params, ∀ v,
    p.default? = some v → Balanced v

end Context

theorem mem_values_of_get? {r : Registry} {name : Text} {d : Definition}
    (h : r.get? name = some d) : d ∈ r.values :=
  List.mem_map.2 ⟨(name, d), Table.mem_of_get? h, rfl⟩

theorem Calls.readHead?_parts {s : Text} {r : Reading Text} (h : readHead? s = some r) :
    IsName r.value ∧ r.lexeme = r.value ++ ['('] := by
  unfold readHead? at h
  split at h
  · cases h
  · rename_i name read
    split at h
    · obtain rfl := Option.some.inj h
      exact ⟨(isName_of_readName? read).1, by simp [(readName?_append read).2]⟩
    · cases h

theorem Calls.lexeme_of_find? {s : Text} {o : Occurrence Text} (h : head.find? s = some o) :
    IsName o.value ∧ o.lexeme = o.value ++ ['('] :=
  readHead?_parts (Reader.read?_of_find? h)

theorem Calls.tracks_passFrom {c : Context} (ok : c.BalancedDefinitions) {offset : Nat}
    {s t : Text} (h : passFrom c.functions offset s = .ok t) : Tracks s t := by
  fun_induction passFrom c.functions offset s generalizing t with
  | case1 => cases h; exact Tracks.refl _
  | case2 => cases h
  | case3 offset s o found _ rest recursive =>
    rename_i ih
    obtain rfl := Except.ok.inj h
    have whole := (Tracks.refl (o.before ++ o.lexeme)).append (ih recursive)
    rwa [Reader.find?_append found] at whole
  | case4 => cases h
  | case5 => cases h
  | case6 => cases h
  | case7 offset s o found d known block closed value evaluated rest recursive =>
    rename_i ih
    obtain rfl := Except.ok.inj h
    obtain ⟨cut, closer, inside⟩ := enclosed?_eq_some_iff.1 closed
    obtain ⟨name, lexeme⟩ := lexeme_of_find? found
    have mem := mem_values_of_get? known
    have call : Balanced (o.lexeme ++ block.closed) := by
      have := name.balanced.append (inside.bracketed (o := '(') rfl closer)
      simpa [lexeme, Block.closed] using this
    have value_balanced : Balanced value :=
      evaluate_balanced (ok.defaults .function d mem) (ok.results d mem)
        (fun a ha => balanced_of_mem_splitArguments inside ha) evaluated
    have whole := ((Tracks.refl o.before).append (Tracks.of_balanced call value_balanced)).append
      (ih recursive)
    have parts : o.before ++ (o.lexeme ++ block.closed) ++ block.rest = s := by
      rw [← Reader.find?_append found]
      simp [Block.closed, ← cut]
    rwa [parts] at whole

theorem Calls.error_of_passFrom {functions : Registry} {offset : Nat} {s : Text} {e : Error}
    (sealing : Sealed 0 s) (h : passFrom functions offset s = .error e) :
    ∃ name, e = .missingResult name := by
  fun_induction passFrom functions offset s with
  | case1 => cases h
  | case2 offset s o found _ _ recursive ih =>
    obtain rfl := Except.error.inj h
    exact ih (sealing.suffix ⟨_, Reader.find?_append found⟩) recursive
  | case3 => cases h
  | case4 offset s o found d _ unclosed =>
    have whole := Reader.find?_append found
    rw [(lexeme_of_find? found).2] at whole
    exact absurd unclosed
      (enclosed?_ne_none (o := '(') sealing ⟨o.before ++ o.value, by simpa using whole⟩ rfl)
  | case5 offset s o found d _ block _ cause evaluated =>
    obtain rfl := Except.error.inj h
    exact ⟨d.name, evaluate_error evaluated⟩
  | case6 offset s o found d _ block closed _ _ _ recursive ih =>
    obtain rfl := Except.error.inj h
    have whole := Reader.find?_append found
    rw [(enclosed?_eq_some_iff.1 closed).1] at whole
    exact ih (sealing.suffix ⟨o.before ++ o.lexeme ++ block.interior ++ [block.closer],
      by simpa using whole⟩) recursive
  | case7 => cases h

namespace ApplySite

/-- The arguments and the block of a site are balanced, and so is the text that it takes. -/
theorem readTail_balanced {offset : Nat} {s : Text} {tail : Tail}
    (h : readTail offset s = .ok (some tail)) :
    (∀ a ∈ tail.args, Balanced a) ∧ (∀ t, tail.contents? = some t → Balanced t) ∧
      ∃ x, s = x ++ tail.rest ∧ Balanced x := by
  unfold readTail at h
  have lead (t : Text) : Balanced (Text.blanks t) :=
    balanced_of_plain fun c hc => isPlain_of_isBlank (List.mem_takeWhile_imp hc)
  simp only at h
  split at h
  · cases h
  · rename_i list listed
    obtain ⟨inside, x, cut, -, group⟩ := Group.read_balanced rfl listed
    have args : ∀ a ∈ splitArguments (list.interior?.getD []), Balanced a :=
      fun a ha => balanced_of_mem_splitArguments inside ha
    have front : s = Text.blanks s ++ x ++ Text.blanks list.rest ++ Text.afterBlanks list.rest := by
      conv_lhs => rw [← Text.blanks_append_afterBlanks s, cut,
        ← Text.blanks_append_afterBlanks list.rest]
      simp
    have front_balanced := ((lead s).append group).append (lead list.rest)
    split at h
    · cases h
    · rename_i contents _ rest blocked
      obtain rfl : _ = tail := Option.some.inj (Except.ok.inj h)
      obtain ⟨held, y, cut', -, block⟩ := Group.read_balanced rfl blocked
      obtain ⟨z, trail, trailer⟩ := afterTrailer_cut rest
      refine ⟨args, ?_, Text.blanks s ++ x ++ Text.blanks list.rest ++ y ++ z, ?_,
        (front_balanced.append block).append trailer⟩
      · intro t ht
        obtain rfl : contents = t := Option.some.inj ht
        exact held
      · conv_lhs => rw [front, cut', trail]
        simp
    · rename_i _ rest blocked
      obtain ⟨_, y, cut', -, block⟩ := Group.read_balanced rfl blocked
      split at h
      · rename_i semicolon
        obtain rfl : _ = tail := Option.some.inj (Except.ok.inj h)
        refine ⟨args, by simp, Text.blanks s ++ x ++ Text.blanks list.rest ++ y ++ [';'], ?_,
          (front_balanced.append block).append (by decide)⟩
        have ended : rest = ';' :: rest.tail := by
          cases rest with
          | nil => simp at semicolon
          | cons c rest => simpa using semicolon
        conv_lhs => rw [front, cut', ended]
        simp
      · cases Except.ok.inj h

theorem readTail_ok (offset : Nat) {s : Text} (h : Sealed 0 s) :
    ∃ t, readTail offset s = .ok t := by
  unfold readTail
  simp only
  obtain ⟨list, listed⟩ := Group.read_ok '(' (offset + (Text.blanks s).length) rfl
    (h.suffix (afterBlanks_suffix s))
  obtain ⟨x, cut, _⟩ := (Group.read_balanced rfl listed).2
  have after : list.rest <:+ Text.afterBlanks s := ⟨x, cut.symm⟩
  have later : Sealed 0 (Text.afterBlanks list.rest) :=
    h.suffix ((afterBlanks_suffix _).trans (after.trans (afterBlanks_suffix s)))
  obtain ⟨block, blocked⟩ := Group.read_ok '{'
    (offset + (Text.blanks s).length + list.width + (Text.blanks list.rest).length) rfl later
  simp only [listed, blocked]
  obtain ⟨interior?, width, rest⟩ := block
  cases interior? with
  | some contents => exact ⟨_, rfl⟩
  | none =>
    simp only
    split
    · exact ⟨_, rfl⟩
    · exact ⟨_, rfl⟩

theorem next?_ok (offset : Nat) {s : Text} (h : Sealed 0 s) : ∃ o, next? offset s = .ok o := by
  unfold next?
  split
  · exact ⟨_, rfl⟩
  · rename_i o found
    obtain ⟨t, ht⟩ := readTail_ok (o.stop offset) (h.suffix ⟨_, Reader.find?_append found⟩)
    cases t with
    | none => simp [ht]
    | some tail => simp [ht]

/-- What a scan for apply sites finds: the text it took is balanced, and so is what the site
holds. -/
theorem next?_balanced {offset : Nat} {s : Text} {o : Occurrence (Option ApplySite)}
    (h : next? offset s = .ok (some o)) :
    o.before ++ o.lexeme ++ o.rest = s ∧ Balanced o.lexeme ∧ ∀ site, o.value = some site →
      IsName site.name ∧ (∀ a ∈ site.args, Balanced a) ∧
        ∀ t, site.contents? = some t → Balanced t := by
  unfold next? at h
  split at h
  · cases Except.ok.inj h
  · rename_i start found
    have whole := Reader.find?_append found
    obtain ⟨gap, spelled, _, blank, name, _⟩ := readAtRule?_parts (Reader.read?_of_find? found)
    have lexeme : Balanced start.lexeme := by
      have word : Balanced keyword := by decide
      have space : Balanced gap := balanced_of_plain fun c hc => isPlain_of_isBlank (blank c hc)
      rw [spelled]
      exact (word.append space).append name.balanced
    split at h
    · cases h
    · obtain rfl : _ = o := Option.some.inj (Except.ok.inj h)
      exact ⟨whole, lexeme, fun site none_here => by cases none_here⟩
    · rename_i tail read
      obtain rfl : _ = o := Option.some.inj (Except.ok.inj h)
      obtain ⟨args, contents, x, cut, taken⟩ := readTail_balanced read
      have width : start.rest.take (start.rest.length - tail.rest.length) = x := by
        rw [cut]
        simp
      refine ⟨?_, ?_, ?_⟩
      · rw [← whole, width, cut]
        simp
      · rw [width]
        exact lexeme.append taken
      · intro site same
        obtain rfl : _ = site := Option.some.inj same
        exact ⟨name, args, contents⟩

end ApplySite

theorem Applications.replace_sound {c : Context} (ok : c.BalancedDefinitions) {site : ApplySite}
    (name : IsName site.name) (args : ∀ a ∈ site.args, Balanced a)
    (contents : ∀ t, site.contents? = some t → Balanced t) :
    Sound Balanced (replace c.mixins site).result := by
  unfold replace
  split
  · have opening : Balanced "/* Unknown mixin: ".toList := by decide
    have closing : Balanced " */".toList := by decide
    exact (opening.append name.balanced).append closing
  · rename_i d known
    have mem := mem_values_of_get? known
    obtain ⟨t, ht, balanced⟩ := instantiate_balanced (ok.defaults .mixin d mem)
      (ok.bodies d mem) args contents
    rw [ht]
    exact balanced

theorem Applications.passFrom_sound {c : Context} (ok : c.BalancedDefinitions) (offset : Nat)
    {s : Text} (sealing : Sealed 0 s) :
    Sound (Tracks s) (passFrom c.mixins offset s).result := by
  fun_induction passFrom c.mixins offset s with
  | case1 offset s e failed =>
    obtain ⟨o, found⟩ := ApplySite.next?_ok offset sealing
    simp [failed] at found
  | case2 offset s => exact Tracks.refl s
  | case3 offset s o found _ ih =>
    obtain ⟨whole, _, _⟩ := ApplySite.next?_balanced found
    refine (ih (sealing.suffix ⟨_, whole⟩)).bind fun t ht => ?_
    have := (Tracks.refl (o.before ++ o.lexeme)).append ht
    rwa [whole] at this
  | case4 offset s o found site given ih =>
    obtain ⟨whole, lexeme, held⟩ := ApplySite.next?_balanced found
    obtain ⟨name, args, contents⟩ := held site given
    refine (replace_sound ok name args contents).bind fun value hv => ?_
    refine (ih (sealing.suffix ⟨_, whole⟩)).bind fun t ht => ?_
    have := ((Tracks.refl o.before).append (Tracks.of_balanced lexeme hv)).append ht
    rwa [whole] at this

namespace Context

/-- On a text that leaves nothing open, a pass does no harm to the brackets. -/
theorem pass_tracks {c : Context} (ok : c.BalancedDefinitions) (kind : Kind) {s : Text}
    (sealing : Sealed 0 s) : Sound (Tracks s) (c.pass kind s).result := by
  cases kind with
  | mixin => exact Applications.passFrom_sound ok 0 sealing
  | function =>
    simp only [pass, Calls.pass]
    cases h : Calls.passFrom c.functions 0 s with
    | ok t => exact Calls.tracks_passFrom ok h
    | error e =>
      obtain ⟨name, rfl⟩ := Calls.error_of_passFrom sealing h
      exact sound_missingResult name

theorem pass_balanced {c : Context} (ok : c.BalancedDefinitions) (kind : Kind) {s : Text}
    (balanced : Balanced s) : Sound Balanced (c.pass kind s).result :=
  (pass_tracks ok kind (balanced.sealed (Int.le_refl 0))).mono fun _ ht => ht.balanced balanced

/-- **Expansion keeps balance.** On a balanced text no pass, no repetition of passes up to any
ceiling and no whole expansion fails for want of a closing bracket, and what they give is
balanced. -/
theorem expansion_keeps_balance (c : Context) (ok : c.BalancedDefinitions) (s : Text)
    (balanced : Balanced s) :
    (∀ kind, Sound Balanced (c.pass kind s).result) ∧
    (∀ kind, Sound Balanced (c.resolve kind s).result) ∧
    Sound Balanced (c.expand s).result :=
  ⟨fun kind => pass_balanced ok kind balanced,
    fun kind => c.resolve_sound kind (fun _ => pass_balanced ok kind) balanced,
    c.expand_sound (fun _ => pass_balanced ok .mixin) (fun _ => id)
      (fun _ => pass_balanced ok .function) balanced⟩

def bracketed : Context where
  functions := Registry.registerAll .empty
    [⟨.function, "--f".toList, [⟨"--a".toList, some "(1)".toList⟩],
      "x: \x7b\x7d; result: [var(--a)];".toList⟩]
  mixins := Registry.registerAll .empty
    [⟨.mixin true, "--m".toList, [⟨"--b".toList, some "(1)".toList⟩],
      "a \x7b b: --f(env(--b)); @contents; \x7d".toList⟩]

theorem bracketed_keeps_balance :
    let s : Text := "@apply --m(\x7b2\x7d) \x7b c: --f((3, 4)); \x7d".toList
    Balanced s ∧ (∀ kind, Sound Balanced (bracketed.pass kind s).result) ∧
      (∀ kind, Sound Balanced (bracketed.resolve kind s).result) ∧
      Sound Balanced (bracketed.expand s).result := by
  intro s
  have results : ∀ d ∈ bracketed.functions.values,
      ResultClause.extract d.name d.body = .ok "[var(--a)]".toList := by decide +kernel
  have defaults : ∀ kind ∈ [Kind.function, .mixin], ∀ d ∈ (bracketed.registry kind).values,
      ∀ p ∈ d.params, p.default? = some "(1)".toList := by decide +kernel
  have balanced : Balanced s := by decide +kernel
  refine ⟨balanced, expansion_keeps_balance bracketed ⟨by decide +kernel, ?_, ?_⟩ s balanced⟩
  · intro d hd r hr
    obtain rfl : "[var(--a)]".toList = r := Except.ok.inj ((results d hd).symm.trans hr)
    decide
  · intro kind d hd p hp v hv
    have given := defaults kind (by cases kind <;> simp) d hd p hp
    obtain rfl : "(1)".toList = v := Option.some.inj (given.symm.trans hv)
    decide

end Context

end StyleExpansion
