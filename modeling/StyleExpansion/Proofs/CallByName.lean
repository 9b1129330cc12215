import StyleExpansion.Proofs.Clauses
import StyleExpansion.Proofs.Expression
import StyleExpansion.Proofs.Locality

/-!
Expansion of texts against evaluation of trees. A pass over the text of a closed expression writes
the text of the expression after one step (`pass_render`): the leftmost search finds exactly the
outermost calls, the bracket after a call is closed by its own, the comma list comes apart into the
arguments, and the references of a template are replaced where they stand.

With `Library.halts` this gives `resolve_evaluates`: for every ceiling that is high enough, repeated
passes end, without a notice, with the text of the value.
-/

namespace StyleExpansion

/-- A text that comes back from a comma list and from a result clause as it is. -/
structure IsArgument (t : Text) : Prop where
  balanced : Balanced t
  comma : NoTopComma t
  semicolon : ';' ∉ t
  head : ∃ c s, t = c :: s ∧ isBlank c = false
  last : ∃ s c, t = s ++ [c] ∧ isBlank c = false

theorem IsArgument.strip {t : Text} (h : IsArgument t) : Text.strip t = t := by
  obtain ⟨c, s, rfl, first⟩ := h.head
  obtain ⟨s', d, same, last⟩ := h.last
  rw [Text.strip, Text.stripBy, List.dropWhile_cons_of_neg (by simp [first]), same,
    List.reverse_concat, List.dropWhile_cons_of_neg (by simp [last]), ← List.reverse_concat,
    List.reverse_reverse]

theorem Balanced.noTopComma_bracketed {s : Text} (h : Balanced s) :
    NoTopComma ('(' :: s ++ [')']) := by
  intro p q same
  cases p with
  | nil => simp at same
  | cons c p =>
    obtain ⟨rfl, rest⟩ := List.cons.inj same
    -- The prefix ends before the closing bracket, so the bracket opened first is still open.
    have ends : p <+: s := by
      rcases List.append_eq_append_iff.1 (rest : s ++ [')'] = p ++ ',' :: q) with
        ⟨m, rfl, tail⟩ | ⟨m, rfl, tail⟩
      · cases m with
        | nil => simp at tail
        | cons d m => simp at tail
      · exact ⟨m, rfl⟩
    have inside := h.2 p ends
    have weight : bracketWeight '(' = 1 := rfl
    rw [bracketDepth_cons, weight]
    omega

theorem isArgument_group {front inner : Text} (some_front : front ≠ [])
    (name : ∀ c ∈ front, isNameChar c) (balanced : Balanced inner) (semicolon : ';' ∉ inner) :
    IsArgument (front ++ '(' :: inner ++ [')']) where
  balanced := by
    rw [List.append_assoc]
    exact (balanced_of_plain fun c hc => isPlain_of_isNameChar (name c hc)).append
      (balanced.bracketed rfl rfl)
  comma := by
    rw [List.append_assoc]
    have front_comma : ',' ∉ front := fun hc => absurd (name _ hc) (by decide)
    have depth := (balanced_of_plain fun c hc => isPlain_of_isNameChar (name c hc)).depth
    exact (noTopComma_of_notMem front_comma).append depth balanced.noTopComma_bracketed
  semicolon := by
    have : ';' ∉ front := fun hc => absurd (name _ hc) (by decide)
    simp [this, semicolon]
  head := by
    cases front with
    | nil => exact absurd rfl some_front
    | cons c front => exact ⟨c, _, rfl, not_isBlank_of_isNameChar (name c List.mem_cons_self)⟩
  last := ⟨_, ')', rfl, by decide⟩

theorem isArgument_word {w : Text} (h : IsPlainWord w) : IsArgument w where
  balanced := balanced_of_plain fun c hc => (h.2 c hc).1
  comma := noTopComma_of_notMem fun hc => (h.2 _ hc).2.2.1 rfl
  semicolon hc := (h.2 _ hc).2.2.2.1 rfl
  head := by
    obtain ⟨some_left, all⟩ := h
    cases w with
    | nil => exact absurd rfl some_left
    | cons c w => exact ⟨c, w, rfl, (all c List.mem_cons_self).2.1⟩
  last := by
    obtain ⟨some_left, all⟩ := h
    have split := List.dropLast_append_getLast some_left
    exact ⟨_, _, split.symm, (all _ (List.getLast_mem some_left)).2.1⟩

theorem IsArgument.seq {s t : Text} (hs : IsArgument s) (ht : IsArgument t) :
    IsArgument (s ++ ' ' :: t) where
  balanced := by
    have space : Balanced [' '] := by decide
    exact hs.balanced.append (space.append ht.balanced)
  comma := by
    have space : NoTopComma [' '] := noTopComma_of_notMem (by decide)
    exact hs.comma.append hs.balanced.depth (space.append rfl ht.comma)
  semicolon := by simp [hs.semicolon, ht.semicolon]
  head := by
    obtain ⟨c, s, rfl, first⟩ := hs.head
    exact ⟨c, _, rfl, first⟩
  last := by
    obtain ⟨t, c, rfl, last⟩ := ht.last
    exact ⟨s ++ ' ' :: t, c, by simp, last⟩

theorem splitArguments_items {l : List Text} (h : ∀ t ∈ l, IsArgument t) :
    splitArguments (Text.commaList l) = l := by
  have kept : ∀ t ∈ l, bracketDepth t = 0 ∧ NoTopComma t ∧ Text.strip t ≠ [] := by
    intro t ht
    refine ⟨(h t ht).balanced.depth, (h t ht).comma, ?_⟩
    obtain ⟨c, s, rfl, -⟩ := (h t ht).head
    rw [(h _ ht).strip]
    simp
  rw [splitArguments_commaList kept, List.map_congr_left fun t ht => (h t ht).strip, List.map_id']

namespace Expr

variable {calls params : Text → Prop} {e : Expr}

theorem Over.isArgument_render (h : e.Over calls params) (names : ∀ g, calls g → IsName g)
    (param_names : ∀ p, params p → IsName p) : IsArgument e.render := by
  induction h with
  | word plain =>
    rw [render]
    exact isArgument_word plain
  | @ref p known =>
    rw [render]
    have name := (param_names p known)
    exact isArgument_group (by decide) (List.all_eq_true.1 rfl) name.balanced
      (name.notMem (by decide))
  | @call g args known _ ih =>
    rw [render]
    have items : ∀ t ∈ args.map render, IsArgument t := by
      intro t ht
      obtain ⟨a, ha, rfl⟩ := List.mem_map.1 ht
      exact ih a ha
    have balanced : Balanced (Text.commaList (args.map render)) :=
      balanced_commaList fun t ht => (items t ht).balanced
    have semicolon : ';' ∉ Text.commaList (args.map render) := by
      intro mem
      rcases mem_commaList mem with same | same | ⟨t, ht, mem⟩
      · exact absurd same (by decide)
      · exact absurd same (by decide)
      · exact (items t ht).semicolon mem
    have name := names g known
    exact isArgument_group name.ne_nil name.isNameChar balanced semicolon
  | seq _ _ left right =>
    rw [render]
    exact left.seq right

end Expr

/-- The text is empty, or starts with a character that ends an expression. -/
def EndsExpr (s : Text) : Prop := ∀ c ∈ s.head?, c = ' ' ∨ c = ',' ∨ c = ')'

theorem endsExpr_cons {c : Char} (s : Text) (h : c = ' ' ∨ c = ',' ∨ c = ')') :
    EndsExpr (c :: s) := by
  intro d hd
  obtain rfl : c = d := by simpa using hd
  exact h

namespace Reference

abbrev parameterOpener : Reader Unit := opener Calls.parameterFunction

theorem read?_eq_none_of_head {c : Char} (h : c ≠ 'v') (s : Text) :
    parameterOpener.read? (c :: s) = none := by
  have : 'v' ≠ c := Ne.symm h
  simp [parameterOpener, opener, readOpener?, Calls.parameterFunction, Text.after?, this]

theorem read?_eq_none_of_endsExpr {s : Text} (h : EndsExpr s) :
    parameterOpener.read? s = none := by
  cases s with
  | nil => rfl
  | cons c s =>
    refine read?_eq_none_of_head ?_ s
    rintro rfl
    exact absurd (h 'v' rfl) (by decide)

/-- No reference starts in a word, or in a word and what follows it. -/
theorem passes_word {w s : Text} (plain : IsPlainWord w) (ends : EndsExpr s) :
    parameterOpener.Passes w s := by
  intro z hz some_left
  have no_bracket : '(' ∉ z := fun hc => absurd (plain.2 _ (hz.subset hc)).1 (by decide)
  have none_here : Text.after? (Calls.parameterFunction ++ ['(']) z = none := by
    rw [Option.eq_none_iff_forall_ne_some]
    intro rest hr
    rw [← Text.append_of_after? hr] at no_bracket
    simp at no_bracket
  show readOpener? Calls.parameterFunction (z ++ s) = none
  cases s with
  | nil => simp [readOpener?, none_here]
  | cons c s =>
    have stop : c ∉ Calls.parameterFunction ++ ['('] := by
      rcases ends c rfl with rfl | rfl | rfl <;> decide
    simp [readOpener?, Text.after?_append_stop stop, none_here]

theorem find?_word {w s : Text} (plain : IsPlainWord w) (ends : EndsExpr s) :
    parameterOpener.find? (w ++ s) = (parameterOpener.find? s).map (Occurrence.shift w) :=
  Reader.find?_append_of_none (passes_word plain ends) fun _ => read?_eq_none_of_endsExpr ends

/-- No reference starts in the name of a call. -/
theorem find?_callHead {g : Text} (name : IsName g) (s : Text) :
    parameterOpener.find? (g ++ ['('] ++ s) =
      (parameterOpener.find? s).map (Occurrence.shift (g ++ ['('])) := by
  have closed : ∀ c ∈ g, parameterOpener.mayFollow c = false := by
    intro c hc
    simp [parameterOpener, opener, name.isNameChar c hc]
  obtain ⟨run, rfl, -⟩ := name
  rw [List.append_assoc]
  exact Reader.find?_run closed (read?_eq_none_of_head (by decide) _) (by decide)

theorem find?_parameter {p : Text} (s : Text) :
    parameterOpener.find? (Calls.parameterFunction ++ '(' :: p ++ [')'] ++ s) =
      some ⟨⟨(), Calls.parameterFunction ++ ['('], p ++ ')' :: s⟩, []⟩ := by
  have read : parameterOpener.read? (Calls.parameterFunction ++ '(' :: p ++ [')'] ++ s) =
      some ⟨(), Calls.parameterFunction ++ ['('], p ++ ')' :: s⟩ := by
    simp [parameterOpener, opener, readOpener?, Calls.parameterFunction, Text.after?]
  exact Reader.find?_eq_of_read? read

theorem parse?_name {p : Text} (name : IsName p) : parse? p = some ⟨p, none⟩ := by
  have lead : Text.afterBlanks p = p := by
    obtain ⟨run, rfl, -⟩ := name
    rfl
  have read : readName? (p ++ []) = some ⟨p, p, []⟩ := readName?_name name (by simp [EndsName])
  rw [List.append_nil] at read
  rw [parse?, lead, read]
  rfl

end Reference

theorem substitute_skip {bindings : Bindings} {c : Char} (h : c = ' ' ∨ c = ',' ∨ c = ')')
    (s : Text) : substitute Calls.parameterFunction true bindings (c :: s) =
      c :: substitute Calls.parameterFunction true bindings s := by
  refine substitute_behind (x := [c]) (Reader.find?_cons_of_none ?_ ?_)
  · exact Reference.read?_eq_none_of_endsExpr (endsExpr_cons s h)
  · rcases h with rfl | rfl | rfl <;> decide

namespace Expr

variable {calls params : Text → Prop} {e : Expr} {σ : Text → Expr} {bindings : Bindings}

/-- Replacing goes through a comma list item by item. -/
theorem substitute_commaList {args : List Expr} (s : Text)
    (h : ∀ a ∈ args, ∀ s, EndsExpr s →
      substitute Calls.parameterFunction true bindings (a.render ++ s) =
        (a.subst σ).render ++ substitute Calls.parameterFunction true bindings s) :
    substitute Calls.parameterFunction true bindings
        (Text.commaList (args.map render) ++ ')' :: s) =
      Text.commaList ((args.map (subst σ)).map render) ++
        ')' :: substitute Calls.parameterFunction true bindings s := by
  induction args with
  | nil => exact substitute_skip (by simp) s
  | cons a args ih =>
    have first := h a List.mem_cons_self
    cases args with
    | nil =>
      have := first (')' :: s) (endsExpr_cons s (by simp))
      rw [substitute_skip (by simp)] at this
      simpa using this
    | cons b args =>
      have others := ih fun a ha => h a (List.mem_cons_of_mem _ ha)
      simp only [List.map_cons] at others ⊢
      rw [commaList_cons_cons, commaList_cons_cons, List.append_assoc, List.cons_append,
        List.cons_append, first _ (endsExpr_cons _ (by simp)), substitute_skip (by simp),
        substitute_skip (by simp), others]
      simp

/-- Replacing the references in the text of a template gives the text of the template with
expressions in their place. -/
theorem Over.substitute_render (h : e.Over calls params) (names : ∀ g, calls g → IsName g)
    (param_names : ∀ p, params p → IsName p)
    (bound : ∀ p, params p → bindings.get? p = some (some (σ p).render)) {s : Text}
    (ends : EndsExpr s) :
    substitute Calls.parameterFunction true bindings (e.render ++ s) =
      (e.subst σ).render ++ substitute Calls.parameterFunction true bindings s := by
  induction h generalizing s with
  | word plain =>
    rw [Expr.subst, render]
    exact substitute_behind (Reference.find?_word plain ends)
  | @ref p known =>
    have name := param_names p known
    have closed : enclosed? (p ++ ')' :: s) = some ⟨p, ')', s⟩ :=
      enclosed?_balanced name.balanced rfl
    rw [Expr.subst, render]
    exact substitute_bound (Reference.find?_parameter s) closed (Reference.parse?_name name)
      (bound p known)
  | @call g args known _ ih =>
    have head := Reference.find?_callHead (names g known)
      (Text.commaList (args.map render) ++ ')' :: s)
    have list := substitute_commaList s fun a ha s ends => ih a ha ends
    have skipped : substitute Calls.parameterFunction true bindings
        (g ++ ['('] ++ (Text.commaList (args.map render) ++ ')' :: s)) = _ := substitute_behind head
    rw [list] at skipped
    rw [Expr.subst, render, render]
    simpa using skipped
  | @seq a b _ _ left right =>
    rw [Expr.subst, render, render, List.append_assoc, List.cons_append,
      left (endsExpr_cons _ (by simp)), substitute_skip (by simp), right ends]
    simp

end Expr

/-! ## Calls -/

theorem ResultClause.extract_result (name : Text) {t : Text} (item : IsArgument t) :
    extract name ("result: ".toList ++ t ++ [';']) = .ok t := by
  have all : ∀ c ∈ ' ' :: t, (c != ';') = true := by
    intro c hc
    rcases List.mem_cons.1 hc with rfl | hc
    · decide
    · exact bne_iff_ne.2 fun same => item.semicolon (same ▸ hc)
  have stops : ∀ c ∈ ([';'] : Text).head?, (c != ';') = false := by simp
  obtain ⟨taken, left⟩ := takeWhile_append_of_head all stops
  have read : reader.read? ("result: ".toList ++ t ++ [';']) =
      some ⟨' ' :: t, "result:".toList ++ ' ' :: t, [';']⟩ := by
    have clause : ResultClause.read? (resultWord ++ [] ++ ':' :: (' ' :: t ++ [';'])) = _ :=
      read?_clause nofun rfl
    rw [taken, left] at clause
    exact clause
  have space : isBlank ' ' = true := by decide
  rw [extract, Reader.find?_eq_of_read? read]
  simp only
  rw [strip_blank_cons t space, item.strip]

/-- Of pairs with distinct keys each can be looked up. -/
theorem Table.get?_ofList_of_mem {κ α : Type} [DecidableEq κ] {es : List (κ × α)}
    (nodup : (es.map Prod.fst).Nodup) {e : κ × α} (h : e ∈ es) :
    (ofList es).get? e.1 = some e.2 := by
  rw [get?_ofList]
  cases found : es.reverse.find? fun d => d.1 = e.1 with
  | none => simpa using List.find?_eq_none.1 found e (List.mem_reverse.2 h)
  | some d =>
    have key : d.1 = e.1 := by simpa using List.find?_some found
    have mem := List.mem_reverse.1 (List.mem_of_find?_eq_some found)
    rw [List.inj_on_of_nodup_map nodup mem h key]
    rfl

theorem Rule.pairUp_render (ps : List (Text × Expr)) (args : List Expr) :
    Parameter.pairUp (ps.map fun p => ⟨p.1, some p.2.render⟩) (args.map Expr.render) =
      (pairs ps args).map fun q => (q.1, some q.2.render) := by
  induction ps generalizing args with
  | nil => rfl
  | cons p ps ih =>
    cases args with
    | nil => simpa [Parameter.pairUp, pairs] using ih []
    | cons a args => simpa [Parameter.pairUp, pairs] using ih args

namespace Library

variable {L : Library} {e : Expr}

theorem get?_registry {r : Rule} (hr : r ∈ L.rules) :
    L.registry.get? r.name = some r.definition := by
  have table : L.registry = Table.ofList (L.rules.map fun r => (r.name, r.definition)) := by
    simp only [registry, Registry.registerAll, Table.ofList, List.foldl_map]
    rfl
  have nodup : ((L.rules.map fun r => (r.name, r.definition)).map Prod.fst).Nodup := by
    simpa [Function.comp_def] using L.nodup
  rw [table]
  exact Table.get?_ofList_of_mem nodup (List.mem_map_of_mem hr)

theorem get?_bind {r : Rule} (hr : r ∈ L.rules) (args : List Expr) {p : Text}
    (hp : p ∈ r.params.map Prod.fst) :
    (r.definition.bind (args.map Expr.render)).get? p = some (some (r.binding args p).render) := by
  have keys : (((Rule.pairs r.params args).map fun q => (q.1, some q.2.render)).map
      Prod.fst).Nodup := by
    simpa [Function.comp_def, ← Rule.keys_pairs r.params args] using L.params_nodup r hr
  simp only [Definition.bind, Parameter.bind, Rule.definition, Rule.pairUp_render]
  exact Table.get?_ofList_of_mem keys
    (List.mem_map_of_mem (f := fun q : Text × Expr => (q.1, some q.2.render))
      (r.binding_mem args hp))

theorem evaluate_render {r : Rule} (hr : r ∈ L.rules) (args : List Expr) :
    Calls.evaluate r.definition (args.map Expr.render) = .ok (r.instantiate args).render := by
  have formed := L.result_over r hr
  have names : ∀ g, (∃ s ∈ L.rules, s.name = g ∧ L.rank g < L.rank r.name) → IsName g := by
    rintro g ⟨s, hs, rfl, -⟩
    exact L.isName s hs
  have param_names : ∀ p, p ∈ r.params.map Prod.fst → IsName p := by
    intro p hp
    obtain ⟨q, hq, rfl⟩ := List.mem_map.1 hp
    exact L.params_isName r hr q hq
  have replaced := formed.substitute_render names param_names
    (fun p hp => get?_bind hr args hp) (s := []) (by simp [EndsExpr])
  have nothing : substitute Calls.parameterFunction true
      (r.definition.bind (args.map Expr.render)) [] = [] := by
    rw [substitute_eq]
    rfl
  have result : ResultClause.extract r.definition.name r.definition.body = .ok r.result.render :=
    ResultClause.extract_result r.name (formed.isArgument_render names param_names)
  rw [nothing, List.append_nil, List.append_nil] at replaced
  rw [Calls.evaluate, result]
  simp only [replaced]
  rfl

end Library

theorem Calls.read?_eq_none_of_head {s : Text} (h : s.head? ≠ some '-') : head.read? s = none := by
  show readHead? s = none
  rw [readHead?, readName?_eq_none_of_head h]

theorem Calls.read?_eq_none_of_endsExpr {s : Text} (h : EndsExpr s) : head.read? s = none := by
  refine read?_eq_none_of_head fun hyphen => ?_
  exact absurd (h '-' hyphen) (by decide)

/-- No call starts in a word. -/
theorem Calls.find?_word {w s : Text} (plain : IsPlainWord w) (ends : EndsExpr s) :
    head.find? (w ++ s) = (head.find? s).map (Occurrence.shift w) := by
  refine Reader.find?_append_of_none ?_ fun _ => read?_eq_none_of_endsExpr ends
  intro z hz some_left
  cases z with
  | nil => exact absurd rfl some_left
  | cons c z =>
    refine read?_eq_none_of_head fun hyphen => ?_
    exact (plain.2 c (hz.subset List.mem_cons_self)).2.2.2.2 (Option.some.inj hyphen)

theorem Calls.find?_call {g : Text} (name : IsName g) (inner s : Text) :
    head.find? (g ++ '(' :: inner ++ [')'] ++ s) =
      some ⟨⟨g, g ++ ['('], inner ++ ')' :: s⟩, []⟩ := by
  have read := readName?_name name (endsName_cons (c := '(') (by decide) (inner ++ ')' :: s))
  have call : head.read? (g ++ '(' :: inner ++ [')'] ++ s) =
      some ⟨g, g ++ ['('], inner ++ ')' :: s⟩ := by
    show readHead? (g ++ '(' :: inner ++ [')'] ++ s) = _
    simp [readHead?, read]
  exact Reader.find?_eq_of_read? call

namespace Library

variable {L : Library} {e : Expr}

theorem Closed.isArgument_render (closed : L.Closed e) : IsArgument e.render := by
  refine Expr.Over.isArgument_render closed ?_ fun _ => False.elim
  rintro g ⟨r, hr, rfl⟩
  exact L.isName r hr

/-- A pass goes over the text of a closed expression as a step goes over its tree. -/
theorem Closed.passFrom_render (closed : L.Closed e) {s t : Text} (ends : EndsExpr s)
    (rest : ∀ offset, Calls.passFrom L.registry offset s = .ok t) (offset : Nat) :
    Calls.passFrom L.registry offset (e.render ++ s) = .ok ((L.step e).render ++ t) := by
  induction closed generalizing s t offset with
  | word plain =>
    rw [Library.step, Expr.render, Calls.passFrom_behind _ (Calls.find?_word plain ends), rest]
    rfl
  | ref known => exact known.elim
  | @call g args known each _ =>
    obtain ⟨r, hr, rfl⟩ := known
    have items : ∀ t ∈ args.map Expr.render, IsArgument t := by
      intro t ht
      obtain ⟨a, ha, rfl⟩ := List.mem_map.1 ht
      exact Closed.isArgument_render (each a ha)
    have closes : enclosed? (Text.commaList (args.map Expr.render) ++ ')' :: s) =
        some ⟨Text.commaList (args.map Expr.render), ')', s⟩ :=
      enclosed?_balanced (balanced_commaList fun t ht => (items t ht).balanced) rfl
    rw [step_call hr, Expr.render, Calls.passFrom_eq, Calls.find?_call (L.isName r hr)]
    simp only [get?_registry hr, closes, splitArguments_items items, evaluate_render hr, rest]
    rfl
  | @seq a b _ _ left right =>
    have space (offset : Nat) : Calls.passFrom L.registry offset (' ' :: (b.render ++ s)) =
        .ok (' ' :: ((L.step b).render ++ t)) := by
      have found := Reader.find?_cons_of_none (r := Calls.head) (c := ' ')
        (Calls.read?_eq_none_of_endsExpr (endsExpr_cons (b.render ++ s) (by simp))) (by decide)
      have passed := Calls.passFrom_behind L.registry (y := [' ']) (s := b.render ++ s) found offset
      rw [right ends rest] at passed
      exact passed
    have whole := left (endsExpr_cons _ (by simp)) space offset
    rw [Library.step, Expr.render, Expr.render]
    simpa using whole

theorem Closed.pass_render (closed : L.Closed e) :
    Calls.pass L.registry e.render = .ok (L.step e).render := by
  have nothing (offset : Nat) : Calls.passFrom L.registry offset [] = .ok [] := by
    rw [Calls.passFrom_eq]
    rfl
  have whole := closed.passFrom_render (s := []) (by simp [EndsExpr]) nothing 0
  rwa [List.append_nil, List.append_nil] at whole

end Library

/-! ## Repeated passes -/

/-- Passes that run through a sequence of texts come to rest where the sequence does. -/
theorem settle_of_run {ε : Type} {pass : Text → Traced ε Text} {t : Nat → Text}
    (run : ∀ k, pass (t k) = pure (t (k + 1))) {n m : Nat} (rest : t (n + 1) = t n) (le : n < m) :
    settle pass m (t 0) = pure (.atRest (t n)) := by
  induction n generalizing t m with
  | zero =>
    obtain ⟨m, rfl⟩ := Nat.exists_eq_succ_of_ne_zero (Nat.ne_of_gt le)
    rw [settle, run]
    simp [rest]
  | succ n ih =>
    obtain ⟨m, rfl⟩ := Nat.exists_eq_succ_of_ne_zero (Nat.ne_of_gt (Nat.zero_lt_of_lt le))
    rw [settle, run, pure_bind]
    split
    · -- A text that its pass keeps is kept for ever.
      rename_i same
      have kept : ∀ k, t k = t 0 := by
        intro k
        induction k with
        | zero => rfl
        | succ k hk =>
          have next : (pure (t (k + 1)) : Traced ε Text) = pure (t (0 + 1)) := by
            rw [← run, ← run, hk]
          have := congrArg Traced.result next
          rw [← same]
          exact Except.ok.inj this
      rw [kept (n + 1)]
    · exact ih (t := fun k => t (k + 1)) (fun k => run (k + 1)) rest (Nat.lt_of_succ_lt_succ le)

namespace Library

/-- **Expansion agrees with call by name.** A closed expression over stratified functions has
exactly one value, and there is a number of passes from which on every ceiling, strict or not, lets
its text expand, without a failure and without a notice, to the text of that value. -/
theorem resolve_evaluates (L : Library) (e : Expr) (closed : L.Closed e) :
    ∃ v, L.Evaluates e v ∧ (∀ w, L.Evaluates e w → w = v) ∧
      ∃ n : Nat, ∀ c : Context, c.functions = L.registry → (n : Int) ≤ c.maxDepth →
        c.resolve .function e.render = pure v.render := by
  obtain ⟨n, v, reached, hv⟩ := halts closed
  refine ⟨v, hv, fun w hw => hw.unique hv, n + 1, ?_⟩
  intro c functions ceiling
  have closed_after : ∀ k, L.Closed (L.step^[k] e) := by
    intro k
    induction k with
    | zero => exact closed
    | succ k ih =>
      rw [Function.iterate_succ_apply']
      exact ih.step
  have run : ∀ k, c.pass .function (L.step^[k] e).render = pure (L.step^[k + 1] e).render := by
    intro k
    rw [Function.iterate_succ_apply', Context.pass, functions, (closed_after k).pass_render]
    rfl
  have rest : (L.step^[n + 1] e).render = (L.step^[n] e).render := by
    rw [Function.iterate_succ_apply', reached, hv.step_value]
  have settled := settle_of_run (t := fun k => (L.step^[k] e).render) run rest
    (m := c.maxDepth.toNat) (by omega)
  simp only [Function.iterate_zero, id_eq, reached] at settled
  rw [Context.resolve, settled, pure_bind]
  rfl

/-- `--twice(--x: 1)` with the result `var(--x) var(--x)`. -/
def twiceRule : Rule where
  name := "--twice".toList
  params := [("--x".toList, .word "1".toList)]
  result := .seq (.ref "--x".toList) (.ref "--x".toList)

/-- `--quad(--x: --twice())` with the result `--twice(--twice(var(--x)))`. -/
def quadRule : Rule where
  name := "--quad".toList
  params := [("--x".toList, .call "--twice".toList [])]
  result := .call "--twice".toList [.call "--twice".toList [.ref "--x".toList]]

def twiceQuad : Library where
  rules := [twiceRule, quadRule]
  rank g := if g = quadRule.name then 1 else 0
  isName := by decide
  nodup := by decide
  params_isName := by decide
  params_nodup := by decide
  result_over := by
    intro r hr
    rcases List.mem_pair.1 hr with rfl | rfl
    · exact .seq (.ref (by decide)) (.ref (by decide))
    · refine .call ⟨twiceRule, List.mem_cons_self, rfl, by decide⟩ fun a ha => ?_
      obtain rfl := List.mem_singleton.1 ha
      refine .call ⟨twiceRule, List.mem_cons_self, rfl, by decide⟩ fun a ha => ?_
      obtain rfl := List.mem_singleton.1 ha
      exact .ref (by decide)
  default_over := by
    intro r hr p hp
    rcases List.mem_pair.1 hr with rfl | rfl
    · obtain rfl := List.mem_singleton.1 hp
      exact .word (by decide)
    · obtain rfl := List.mem_singleton.1 hp
      exact .call ⟨twiceRule, List.mem_cons_self, rfl, by decide⟩ fun a ha => by cases ha

/-- One argument too many, then one too few. -/
def quadCalls : Expr :=
  .seq (.call "--quad".toList [.word "a".toList, .word "b".toList]) (.call "--quad".toList [])

theorem resolve_quadCalls : quadCalls.render = "--quad(a, b) --quad()".toList ∧
    twiceQuad.Closed quadCalls ∧
    ∃ v, twiceQuad.Evaluates quadCalls v ∧ (∀ w, twiceQuad.Evaluates quadCalls w → w = v) ∧
      ∃ n : Nat, ∀ c : Context, c.functions = twiceQuad.registry → (n : Int) ≤ c.maxDepth →
        c.resolve .function quadCalls.render = pure v.render := by
  have quad : ∃ r ∈ twiceQuad.rules, r.name = "--quad".toList :=
    ⟨quadRule, List.mem_cons_of_mem _ List.mem_cons_self, rfl⟩
  have closed : twiceQuad.Closed quadCalls := by
    refine .seq (.call quad fun a ha => ?_) (.call quad fun a ha => by cases ha)
    rcases List.mem_pair.1 ha with rfl | rfl
    · exact .word (by decide)
    · exact .word (by decide)
  have text : quadCalls.render = "--quad(a, b) --quad()".toList := by
    simp [quadCalls, Expr.render, Text.commaList]
  exact ⟨text, closed, resolve_evaluates twiceQuad quadCalls closed⟩

end Library

end StyleExpansion
