import StyleExpansion.Context
import StyleExpansion.Proofs.Access
import StyleExpansion.Proofs.Ceiling
import StyleExpansion.Proofs.Inert
import StyleExpansion.Proofs.Locality

/-!
A text with its declarations blanked and the rest expanded declares nothing, as long as no
declaration is brought back from a body. Only the definitions that are used count: those whose names
a pass meets in the texts that the passes run through.

* `inert_pass`: a pass keeps a text inert if the definitions that the text uses are;
* `inert_expand`: so does a whole expansion;
* `compile_declares_nothing`: the stripped output of a text with inert pieces of code;
  `compile_brings_back`: a declaration in the body of a mixin comes back.
-/

namespace StyleExpansion

/-! ## Definitions in use -/

def Kind.parameterFunction : Kind → Text
  | .function => Calls.parameterFunction
  | .mixin => Applications.parameterFunction

namespace Definition

/-- What a use of the definition puts into a text, before parameters are replaced: the body of a
mixin and the result of a function. -/
def template? (kind : Kind) (d : Definition) : Option Text :=
  match kind with
  | .function => (ResultClause.extract d.name d.body).toOption
  | .mixin => some d.body

/-- A use of the definition puts no declaration into a text. -/
structure Inert (kind : Kind) (d : Definition) : Prop where
  template : ∀ t, d.template? kind = some t → InertTemplate kind.parameterFunction t
  defaults : ∀ p ∈ d.params, ∀ v, p.default? = some v → StyleExpansion.Inert v

end Definition

namespace Calls

section
variable {s : Text} {o : Occurrence Text}

/-- The text before a call of an inert text. -/
theorem inert_before (h : Inert s) (found : head.find? s = some o) : Inert o.before := by
  have whole := Reader.find?_append found
  obtain ⟨⟨run, value, -⟩, lexeme⟩ := lexeme_of_find? found
  have parts : o.before ++ (o.lexeme ++ o.rest) = s := by rw [← List.append_assoc, whole]
  rw [← parts] at h
  refine h.cut_name ?_ ?_
  · intro c hc
    have free := Reader.mayFollow_of_search found c hc
    simpa [head] using free
  · intro last
    obtain ⟨front, same⟩ := List.getLast?_eq_some_iff.1 last
    have attached : '@' :: (o.lexeme ++ o.rest) <:+ o.before ++ (o.lexeme ++ o.rest) :=
      ⟨front, by rw [same]; simp⟩
    have departed := h _ attached sigil (by simp [declaringWords])
    rw [lexeme, value, List.append_assoc, List.append_assoc, departs_self] at departed
    cases departed

theorem inert_lexeme (found : head.find? s = some o) : Inert o.lexeme := by
  obtain ⟨name, lexeme⟩ := lexeme_of_find? found
  refine inert_of_notMem ?_
  rw [lexeme]
  simp [name.notMem (show isNameChar '@' = false by decide)]

end

theorem inert_evaluate {d : Definition} {args : List Text} {t : Text} (ok : d.Inert .function)
    (given : ∀ a ∈ args, Inert a) (h : evaluate d args = .ok t) : Inert t := by
  unfold evaluate at h
  split at h
  · cases h
  · rename_i result extracted
    obtain rfl := Except.ok.inj h
    have template := ok.template result (by simp [Definition.template?, extracted, Except.toOption])
    exact inert_substitute (by decide) true (bind_forall ok.defaults given) template

theorem inert_passFrom {functions : Registry} {offset : Nat} {s t : Text}
    (used : ∀ name ∈ head.findAll s, ∀ d, functions.get? name = some d → d.Inert .function)
    (h : Inert s) (passed : passFrom functions offset s = .ok t) : Inert t := by
  fun_induction passFrom functions offset s generalizing t with
  | case1 =>
    obtain rfl := Except.ok.inj passed
    exact h
  | case2 => cases passed
  | case3 offset s o found _ rest recursive =>
    rename_i ih
    obtain rfl := Except.ok.inj passed
    rw [Reader.findAll_of_find? found] at used
    have later := ih (fun name mem => used name (List.mem_cons_of_mem _ mem))
      (h.suffix ⟨_, Reader.find?_append found⟩) recursive
    exact ((inert_before h found).append (inert_lexeme found)).append later
  | case4 => cases passed
  | case5 => cases passed
  | case6 => cases passed
  | case7 offset s o found d known block closed value evaluated rest recursive =>
    rename_i ih
    obtain rfl := Except.ok.inj passed
    have whole := Reader.find?_append found
    obtain ⟨cut, closer, -⟩ := enclosed?_eq_some_iff.1 closed
    obtain ⟨interior, -, behind⟩ := (h.suffix ⟨_, whole⟩).block closed
    have parts : o.before ++ o.lexeme ++ block.interior ++ [block.closer] ++ block.rest = s := by
      rw [← whole, cut]
      simp
    have free : ∀ c ∈ (o.before ++ o.lexeme ++ block.interior ++ [block.closer]).getLast?,
        head.mayFollow c = true := by
      intro c hc
      obtain rfl : block.closer = c := by simpa using hc
      have notName : isNameChar block.closer = false := by
        rw [Bool.eq_false_iff]
        intro name
        simpa [isPlain, closer] using isPlain_of_isNameChar name
      simp [head, notName]
    have ok : d.Inert .function := by
      refine used o.value ?_ d known
      rw [Reader.findAll_of_find? found]
      exact List.mem_cons_self
    have later := ih (fun name mem => used name
      (parts ▸ Reader.mem_findAll_append head_separate free mem)) behind recursive
    have given := inert_evaluate ok (fun a ha => inert_of_mem_splitArguments interior ha) evaluated
    exact ((inert_before h found).append given).append later

end Calls

namespace ApplySite

theorem inert_readTail {offset : Nat} {s : Text} {tail : Tail} (h : Inert s)
    (read : readTail offset s = .ok (some tail)) :
    (∀ a ∈ tail.args, Inert a) ∧ ∀ t, tail.contents? = some t → Inert t := by
  unfold readTail at read
  simp only at read
  split at read
  · cases read
  · rename_i list listed
    obtain ⟨inside, behind⟩ := h.afterBlanks.group listed
    have args : ∀ a ∈ splitArguments (list.interior?.getD []), Inert a :=
      fun a ha => inert_of_mem_splitArguments inside ha
    split at read
    · cases read
    · rename_i contents _ rest blocked
      obtain rfl := Option.some.inj (Except.ok.inj read)
      refine ⟨args, ?_⟩
      intro t ht
      obtain rfl := Option.some.inj ht
      exact (behind.afterBlanks.group blocked).1
    · split at read
      · obtain rfl := Option.some.inj (Except.ok.inj read)
        exact ⟨args, nofun⟩
      · cases Except.ok.inj read

/-- The next apply site of an inert text: the text before it, the head that was found and what
follows, and what the site holds. -/
theorem inert_next? {offset : Nat} {s : Text} {o : Occurrence (Option ApplySite)} (h : Inert s)
    (next : next? offset s = .ok (some o)) :
    ∃ found, head.find? s = some found ∧ Inert o.before ∧ o.rest <:+ found.rest ∧
      (o.value = none → o.lexeme = found.lexeme) ∧
      ∀ site, o.value = some site → site.name = found.value ∧ (∀ a ∈ site.args, Inert a) ∧
        ∀ t, site.contents? = some t → Inert t := by
  unfold next? at next
  split at next
  · cases Except.ok.inj next
  · rename_i found hf
    have whole := Reader.find?_append hf
    have before : Inert found.before := by
      obtain ⟨t, lexeme, -⟩ := lexeme_of_read? (Reader.read?_of_find? hf)
      rw [← whole, List.append_assoc] at h
      refine h.cut ?_
      intro c hc
      rw [lexeme] at hc
      rw [← Option.some.inj hc]
      rfl
    refine ⟨found, hf, ?_⟩
    split at next
    · cases next
    · obtain rfl := Option.some.inj (Except.ok.inj next)
      exact ⟨before, List.suffix_refl _, fun _ => rfl, nofun⟩
    · rename_i tail read
      obtain rfl := Option.some.inj (Except.ok.inj next)
      obtain ⟨x, cut, -⟩ := (readTail_balanced read).2.2
      obtain ⟨args, contents⟩ := inert_readTail (h.suffix ⟨_, whole⟩) read
      refine ⟨before, ⟨x, cut.symm⟩, nofun, ?_⟩
      intro site same
      obtain rfl := Option.some.inj same
      exact ⟨rfl, args, contents⟩

theorem inert_lexeme {s : Text} {o : Occurrence Text} (found : head.find? s = some o) :
    Inert o.lexeme := by
  obtain ⟨t, lexeme, notAt⟩ := lexeme_of_read? (Reader.read?_of_find? found)
  rw [lexeme]
  refine inert_cons.2 ⟨?_, inert_cons.2 ⟨nofun, inert_of_notMem notAt⟩⟩
  intro _ word hw
  simp only [declaringWords, List.mem_cons, List.not_mem_nil, or_false] at hw
  rcases hw with rfl | rfl | rfl <;> rfl

end ApplySite

namespace Applications

theorem inert_instantiate {d : Definition} {site : ApplySite} {t : Text} (ok : d.Inert .mixin)
    (args : ∀ a ∈ site.args, Inert a) (contents : ∀ t, site.contents? = some t → Inert t)
    (h : instantiate d site = .ok t) : Inert t := by
  have body : Inert (substitute parameterFunction false (d.bind site.args) d.body) :=
    inert_substitute (by decide) false (bind_forall ok.defaults args) (ok.template d.body rfl)
  unfold instantiate at h
  simp only at h
  split at h
  · exact inert_fillFrom contents body h
  · obtain rfl := Except.ok.inj h
    exact body

theorem inert_replace {mixins : Registry} {site : ApplySite} {t : Text} (name : IsName site.name)
    (ok : ∀ d, mixins.get? site.name = some d → d.Inert .mixin)
    (args : ∀ a ∈ site.args, Inert a) (contents : ∀ t, site.contents? = some t → Inert t)
    (h : (replace mixins site).result = .ok t) : Inert t := by
  unfold replace at h
  split at h
  · obtain rfl : unknownComment site.name = t := Except.ok.inj h
    have opening : Inert "/* Unknown mixin: ".toList := by decide
    have closing : Inert " */".toList := by decide
    have named : Inert site.name := inert_of_notMem (name.notMem (by decide))
    exact (opening.append named).append closing
  · rename_i d known
    exact inert_instantiate (ok d known) args contents h

theorem used_of_suffix {mixins : Registry} {s t : Text}
    (used : ∀ name ∈ ApplySite.head.findAll s, ∀ d, mixins.get? name = some d → d.Inert .mixin)
    (h : t <:+ s) :
    ∀ name ∈ ApplySite.head.findAll t, ∀ d, mixins.get? name = some d → d.Inert .mixin := by
  obtain ⟨x, rfl⟩ := h
  intro name mem
  exact used name (Reader.mem_findAll_append ApplySite.head_separate (fun _ _ => rfl) mem)

theorem inert_passFrom {mixins : Registry} {offset : Nat} {s t : Text}
    (used : ∀ name ∈ ApplySite.head.findAll s, ∀ d, mixins.get? name = some d → d.Inert .mixin)
    (h : Inert s) (passed : (passFrom mixins offset s).result = .ok t) : Inert t := by
  fun_induction passFrom mixins offset s generalizing t with
  | case1 => cases passed
  | case2 =>
    obtain rfl := Except.ok.inj passed
    exact h
  | case3 offset s o next given ih =>
    obtain ⟨found, hf, before, rest, lexeme, -⟩ := ApplySite.inert_next? h next
    obtain ⟨u, passed', ended⟩ := Traced.result_bind_eq_ok passed
    obtain rfl := Except.ok.inj ended
    have suffix : o.rest <:+ s := rest.trans ⟨_, Reader.find?_append hf⟩
    have later := ih (used_of_suffix used suffix) (h.suffix suffix) passed'
    rw [lexeme given]
    exact (before.append (ApplySite.inert_lexeme hf)).append later
  | case4 offset s o next site given ih =>
    obtain ⟨found, hf, before, rest, -, held⟩ := ApplySite.inert_next? h next
    obtain ⟨name, args, contents⟩ := held site given
    obtain ⟨value, replaced, continued⟩ := Traced.result_bind_eq_ok passed
    obtain ⟨u, passed', ended⟩ := Traced.result_bind_eq_ok continued
    obtain rfl := Except.ok.inj ended
    have suffix : o.rest <:+ s := rest.trans ⟨_, Reader.find?_append hf⟩
    have later := ih (used_of_suffix used suffix) (h.suffix suffix) passed'
    have mem : site.name ∈ ApplySite.head.findAll s := by
      rw [Reader.findAll_of_find? hf, name]
      exact List.mem_cons_self
    have isName : IsName site.name := by
      rw [name]
      exact (readAtRule?_parts (Reader.read?_of_find? hf)).choose_spec.2.2.2.1
    have given := inert_replace isName (used site.name mem) args contents replaced
    exact (before.append given).append later

end Applications

/-! ## Expansion -/

section
variable {ε : Type} {pass : Text → Traced ε Text}

theorem Leads.exists_last {n : Nat} {s u : Text} (h : Leads pass (n + 1) s u) :
    ∃ t, Leads pass n s t ∧ (pass t).result = .ok u := by
  induction n generalizing s with
  | zero =>
    cases h with
    | step first others =>
      cases others
      exact ⟨s, .refl s, first⟩
  | succ n ih =>
    cases h with
    | step first others =>
      obtain ⟨t, leads, last⟩ := ih others
      exact ⟨t, .step first leads, last⟩

/-- What every pass keeps holds of all texts that the passes run through. -/
theorem Leads.keeps {P : Text → Prop} {n : Nat} {s t : Text} (start : P s)
    (step : ∀ k < n, ∀ t u, Leads pass k s t → P t → (pass t).result = .ok u → P u)
    (h : Leads pass n s t) : P t := by
  induction n generalizing t with
  | zero =>
    cases h
    exact start
  | succ n ih =>
    obtain ⟨u, leads, last⟩ := h.exists_last
    have earlier : P u := ih (fun k below => step k (by omega)) leads
    exact step n (by omega) u t leads earlier last

end

namespace Context

theorem mem_residual {r : Registry} {names : List Text} {name : Text} {d : Definition}
    (known : r.get? name = some d) (mem : name ∈ names) :
    name ∈ Text.sortedSet (names.filter r.contains) := by
  have present : r.contains name = true :=
    List.any_eq_true.2 ⟨(name, d), Table.mem_of_get? known, by simp⟩
  rw [Text.sortedSet, List.mem_mergeSort, List.mem_eraseDups]
  exact List.mem_filter.2 ⟨mem, present⟩

/-- A pass keeps a text inert if the definitions that the text uses are. -/
theorem inert_pass {c : Context} {kind : Kind} {s t : Text}
    (used : ∀ name ∈ c.residual kind s, ∀ d, (c.registry kind).get? name = some d → d.Inert kind)
    (h : Inert s) (passed : (c.pass kind s).result = .ok t) : Inert t := by
  cases kind with
  | function =>
    refine Calls.inert_passFrom ?_ h passed
    intro name mem d known
    exact used name (mem_residual known mem) d known
  | mixin =>
    refine Applications.inert_passFrom ?_ h passed
    intro name mem d known
    exact used name (mem_residual known mem) d known

def Uses (c : Context) (kind : Kind) (s : Text) (d : Definition) : Prop :=
  ∃ n < c.maxDepth.toNat, ∃ t, Leads (c.pass kind) n s t ∧
    ∃ name ∈ c.residual kind t, (c.registry kind).get? name = some d

theorem inert_resolve {c : Context} {kind : Kind} {s r : Text}
    (used : ∀ d, c.Uses kind s d → d.Inert kind) (h : Inert s)
    (resolved : (c.resolve kind s).result = .ok r) : Inert r := by
  have step : ∀ k < c.maxDepth.toNat, ∀ t u, Leads (c.pass kind) k s t → Inert t →
      (c.pass kind t).result = .ok u → Inert u := by
    intro k below t u leads inert passed
    refine inert_pass ?_ inert passed
    intro name mem d known
    exact used d ⟨k, below, t, leads, name, mem, known⟩
  rcases resolve_cases resolved with ⟨k, below, leads, _⟩ | ⟨out, _⟩
  · exact leads.keeps h fun j hj => step j (by omega)
  · exact out.leads.keeps h step

structure InertUses (c : Context) (s : Text) : Prop where
  mixins : ∀ d, c.Uses .mixin s d → d.Inert .mixin
  functions : ∀ t, (c.resolve .mixin s).result = .ok t →
    ∀ d, c.Uses .function t d → d.Inert .function

theorem inert_expand {c : Context} {s r : Text} (used : c.InertUses s) (h : Inert s)
    (expanded : (c.expand s).result = .ok r) : Inert r := by
  obtain ⟨t, mixins, functions⟩ := Traced.result_bind_eq_ok expanded
  exact inert_resolve (used.functions t mixins) (inert_resolve used.mixins h mixins) functions

end Context

theorem Written.inert_ofSegments {c : Context} {segments : List Segment}
    (pieces : ∀ g, .code g ∈ segments → Inert g ∧ c.InertUses g)
    (complete : (ofSegments (some c) true segments).failure? = none) :
    Inert (ofSegments (some c) true segments).text := by
  induction segments with
  | nil => exact inert_nil
  | cons piece segments ih =>
    rw [ofSegments] at complete ⊢
    rcases rendered : piece.render (some c) true with ⟨log, e | t⟩
    · rw [rendered] at complete
      cases complete
    · rw [rendered] at complete
      have later := ih (fun g mem => pieces g (List.mem_cons_of_mem _ mem)) complete
      refine Inert.append ?_ later
      have written : (piece.render (some c) true).result = .ok t := by rw [rendered]
      cases piece with
      | code g =>
        obtain ⟨inert, used⟩ := pieces g List.mem_cons_self
        exact Context.inert_expand used inert written
      | declaration s =>
        obtain rfl : Text.newlines s = t := Except.ok.inj written
        refine inert_of_notMem ?_
        simp [Text.newlines]

namespace Context

/-- **Stripped output declares nothing.** The declarations of a text are blanked and the pieces of
code between them expanded. If every piece is inert and uses inert definitions only, what comes out
declares nothing. -/
theorem compile_declares_nothing (c : Context) (text out : Text)
    (pieces : ∀ spans, Declaration.spans text = .ok spans →
      ∀ g, .code g ∈ Segment.split text spans → Inert g ∧ (extract text c).1.InertUses g)
    (returned : (compile text true c).2.result = .ok out) : Declaration.spans out = .ok [] := by
  have spansOf := result_extract text c
  rcases extracted : extract text c with ⟨c', log, e | spans⟩
  · simp only [compile, bind, Act.bind, extracted] at returned
    cases returned
  · rw [extracted] at spansOf pieces
    have inert := Written.inert_ofSegments (pieces spans spansOf.symm)
    simp only [compile, bind, Act.bind, extracted, render, write, Written.toTraced] at returned
    cases failed : (Written.ofSegments (some c') true (Segment.split text spans)).failure? with
    | some e =>
      simp only [failed] at returned
      cases returned
    | none =>
      simp only [failed] at returned
      rw [← Except.ok.inj returned]
      exact spans_of_inert (inert failed)

/-- The uses that passes meet which come to rest after at most one of them. -/
theorem uses_of_rest {c : Context} {kind : Kind} {s t : Text} {d : Definition}
    (first : (c.pass kind s).result = .ok t) (rest : (c.pass kind t).result = .ok t)
    (h : c.Uses kind s d) :
    ∃ name ∈ c.residual kind s ++ c.residual kind t, (c.registry kind).get? name = some d := by
  obtain ⟨n, _, u, leads, name, mem, known⟩ := h
  refine ⟨name, ?_, known⟩
  cases leads with
  | refl => exact List.mem_append_left _ mem
  | step first' others =>
    obtain rfl := Except.ok.inj (first.symm.trans first')
    rw [others.eq_of_rest rest] at mem
    exact List.mem_append_right _ mem

/-- Declarations in a mixin that is not applied and in the body of a function that is called. -/
def layeredText : Text :=
  "@mixin --n\x7b@mixin --x\x7b\x7d\x7d@function --f()\x7bresult:2;@mixin --y\x7b\x7d\x7d".toList ++
    "@mixin --m\x7ba:--f()\x7d\n@media\x7b@apply --m;\x7d\n".toList

def layered : Context := (extract layeredText {}).1

theorem inertUses_layered : layered.InertUses "\n@media\x7b@apply --m;\x7d\n".toList := by
  have mixin : ∀ d, (layered.registry .mixin).get? "--m".toList = some d → d.Inert .mixin := by
    intro d known
    have same : (layered.registry .mixin).get? "--m".toList =
        some ⟨.mixin false, "--m".toList, [], "a:--f()".toList⟩ := by decide +kernel
    obtain rfl := Option.some.inj (same.symm.trans known)
    refine ⟨?_, nofun⟩
    intro t ht
    obtain rfl := Option.some.inj ht
    exact ⟨by decide, by decide⟩
  have function : ∀ d, (layered.registry .function).get? "--f".toList = some d →
      d.Inert .function := by
    intro d known
    have same : ((layered.registry .function).get? "--f".toList).map
        (fun d => (d.params, d.template? .function)) = some ([], some "2".toList) := by
      decide +kernel
    rw [known] at same
    obtain ⟨params, template⟩ := Prod.mk.inj (Option.some.inj same)
    constructor
    · intro t ht
      obtain rfl := Option.some.inj (template.symm.trans ht)
      exact ⟨by decide, by decide⟩
    · rw [params]
      nofun
  -- The passes of each kind come to rest after one of them, and meet one name.
  constructor
  · intro d used
    obtain ⟨name, mem, known⟩ := uses_of_rest (t := "\n@media\x7ba:--f()\x7d\n".toList)
      (by decide +kernel) (by decide +kernel) used
    have names : layered.residual .mixin "\n@media\x7b@apply --m;\x7d\n".toList ++
        layered.residual .mixin "\n@media\x7ba:--f()\x7d\n".toList = ["--m".toList] := by
      decide +kernel
    rw [names, List.mem_singleton] at mem
    exact mixin d (mem ▸ known)
  · intro t resolved d used
    have same : (layered.resolve .mixin "\n@media\x7b@apply --m;\x7d\n".toList).result =
        .ok "\n@media\x7ba:--f()\x7d\n".toList := by decide +kernel
    obtain rfl := Except.ok.inj (same.symm.trans resolved)
    obtain ⟨name, mem, known⟩ := uses_of_rest (t := "\n@media\x7ba:2\x7d\n".toList)
      (by decide +kernel) (by decide +kernel) used
    have names : layered.residual .function "\n@media\x7ba:--f()\x7d\n".toList ++
        layered.residual .function "\n@media\x7ba:2\x7d\n".toList = ["--f".toList] := by
      decide +kernel
    rw [names, List.mem_singleton] at mem
    exact function d (mem ▸ known)

theorem inertUses_layered_nil : layered.InertUses [] := by
  have nothing : ∀ kind ∈ [Kind.function, .mixin], (layered.pass kind []).result = .ok [] ∧
      layered.residual kind [] = [] := by decide +kernel
  have unused : ∀ kind d, ¬ layered.Uses kind [] d := by
    intro kind d used
    obtain ⟨kept, names⟩ := nothing kind (by cases kind <;> simp)
    obtain ⟨name, mem, _⟩ := uses_of_rest kept kept used
    rw [names] at mem
    cases mem
  constructor
  · intro d used
    exact absurd used (unused .mixin d)
  · intro t resolved d used
    have same : (layered.resolve .mixin []).result = .ok [] := by decide +kernel
    obtain rfl := Except.ok.inj (same.symm.trans resolved)
    exact absurd used (unused .function d)

set_option maxRecDepth 10000 in
theorem compile_layeredText :
    (compile layeredText true {}).2.result = .ok "\n@media\x7ba:2\x7d\n".toList ∧
      Declaration.spans "\n@media\x7ba:2\x7d\n".toList = .ok [] := by
  have returned : (compile layeredText true {}).2.result = .ok "\n@media\x7ba:2\x7d\n".toList := by
    cbv
  have spans : Declaration.spans layeredText =
      .ok [⟨24, 62⟩, ⟨0, 24⟩, ⟨11, 23⟩, ⟨49, 61⟩, ⟨62, 81⟩] := by decide +kernel
  have cut : Segment.split layeredText [⟨24, 62⟩, ⟨0, 24⟩, ⟨11, 23⟩, ⟨49, 61⟩, ⟨62, 81⟩] =
      [.code [], .declaration (layeredText.take 81),
        .code "\n@media\x7b@apply --m;\x7d\n".toList] := by
    simp only [Segment.split, Span.merge]
    cbv
  refine ⟨returned, compile_declares_nothing {} layeredText _ ?_ returned⟩
  intro found hs g mem
  obtain rfl := Except.ok.inj (spans.symm.trans hs)
  rw [cut] at mem
  have piece : g = [] ∨ g = "\n@media\x7b@apply --m;\x7d\n".toList := by
    simpa using mem
  rcases piece with rfl | rfl
  · exact ⟨inert_nil, inertUses_layered_nil⟩
  · exact ⟨by decide, inertUses_layered⟩

set_option maxRecDepth 10000 in
/-- The body of a mixin is put in as it is, with the declarations in it. -/
theorem compile_brings_back :
    let text : Text := "@mixin --m\x7b@mixin --n\x7b\x7d\x7d\n@apply --m;\n".toList
    Declaration.spans text = .ok [⟨0, 24⟩, ⟨11, 23⟩] ∧
      Segment.split text [⟨0, 24⟩, ⟨11, 23⟩] =
        [.code [], .declaration "@mixin --m\x7b@mixin --n\x7b\x7d\x7d".toList,
          .code "\n@apply --m;\n".toList] ∧
      (compile text true {}).2.result = .ok "\n@mixin --n\x7b\x7d\n".toList ∧
      Declaration.spans "\n@mixin --n\x7b\x7d\n".toList = .ok [⟨1, 13⟩] := by
  refine ⟨by decide +kernel, ?_, ?_, by decide +kernel⟩
  · simp only [Segment.split, Span.merge]
    cbv
  · cbv

-- Code that holds no keyword can still become a declaration, and so it has to be inert.
set_option maxRecDepth 10000 in
example : (compile "@mixin --e\x7b\x7d\n@mi@apply --e;xin --n \x7b\x7d\n".toList true {}).2.result =
    .ok "\n@mixin --n \x7b\x7d\n".toList := by cbv

end Context

end StyleExpansion
