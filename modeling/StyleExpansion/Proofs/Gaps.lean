import StyleExpansion.Context
import StyleExpansion.Proofs.ApplySites
import StyleExpansion.Proofs.Extraction

/-!
The pieces of code between declarations are expanded one by one, so a bracket that one piece opens
may be closed in another. That does no harm as long as no apply site and no call can come to own
such a bracket: `Guarded` says so of a piece.
-/

namespace StyleExpansion

/-- A text behind which no call is open, whatever follows: it ends in characters that no call has
outside of its brackets, behind text that leaves none open, or in opening brackets with no call
before them. -/
inductive Parted : Text → Prop
  | stop {x : Text} {c : Char} (sealing : Sealed 0 x) (name : isNameChar c = false)
      (opens : c ≠ '(') : Parted (x ++ [c])
  | opening {x : Text} {o : Char} (opening : isOpening o)
      (no_call : Calls.head.find? (x ++ [o]) = none) : Parted (x ++ [o])
  | append {x y : Text} (front : Parted x) (behind : Parted y) : Parted (x ++ y)

/-- A text that can be cut, at dividers and at brackets that neither an apply site nor a call can
own, into pieces of which the others leave no bracket open. An at sign is a divider only where no
`@apply` can arise from what follows it. -/
inductive Guarded : Text → Prop
  | closed {s : Text} (sealing : Sealed 0 s) : Guarded s
  | divided {x : Text} {c : Char} {s : Text} (sealing : Sealed 0 x) (divider : isDivider c)
      (at_sign : c = '@' → ∃ d, s.head? = some d ∧ d ≠ 'a' ∧ d ≠ '@')
      (behind : Guarded s) : Guarded (x ++ c :: s)
  | opened {x : Text} {o : Char} {s : Text} (opening : isOpening o)
      (no_site : ApplySite.head.find? x = none) (parted : Parted (x ++ [o]))
      (behind : Guarded s) : Guarded (x ++ o :: s)

/-- What a guarded text keeps when its apply sites are done with. -/
inductive CallGuarded : Text → Prop
  | closed {s : Text} (sealing : Sealed 0 s) : CallGuarded s
  | parted {x s : Text} (front : Parted x) (behind : CallGuarded s) : CallGuarded (x ++ s)

theorem Guarded.calls {s : Text} (h : Guarded s) : CallGuarded s := by
  induction h with
  | closed sealing => exact .closed sealing
  | @divided x c s sealing divider _ _ ih =>
    obtain ⟨name, _, _, opens, _⟩ := isDivider_iff.1 divider
    rw [List.append_cons]
    exact .parted (.stop sealing name opens) ih
  | @opened x o s _ _ parted _ ih =>
    rw [List.append_cons]
    exact .parted parted ih

theorem not_isNameChar_of_isOpening {c : Char} (h : isOpening c) : isNameChar c = false := by
  simp only [isOpening, Bool.or_eq_true, beq_iff_eq] at h
  rcases h with (rfl | rfl) | rfl <;> decide

theorem not_isBlank_of_isOpening {c : Char} (h : isOpening c) : isBlank c = false := by
  simp only [isOpening, Bool.or_eq_true, beq_iff_eq] at h
  rcases h with (rfl | rfl) | rfl <;> decide

theorem head?_of_before {x : Text} {c d : Char} {l s : Text} (h : (x ++ c :: l).head? = some d)
    (other : d ≠ c) : (x ++ s).head? = some d := by
  cases x with
  | nil => exact absurd (Option.some.inj h).symm other
  | cons a x => exact h

theorem ApplySite.lexeme_of_next? {offset : Nat} {s : Text} {o : Occurrence (Option ApplySite)}
    (h : next? offset s = .ok (some o)) : ∃ l, o.lexeme = '@' :: l := by
  obtain ⟨found, searched, -, rest, lexeme⟩ := exists_header_of_next? h
  obtain ⟨gap, spelled, -⟩ := readAtRule?_parts (Reader.read?_of_find? searched)
  rw [← lexeme, spelled]
  exact ⟨_, rfl⟩

theorem Applications.head?_of_passFrom {mixins : Registry} {offset : Nat} {s t : Text} {d : Char}
    (h : (passFrom mixins offset s).result = .ok t) (first : s.head? = some d) (other : d ≠ '@') :
    t.head? = some d := by
  rw [passFrom_eq] at h
  split at h
  · cases h
  · rw [← Except.ok.inj h]
    exact first
  · rename_i o found
    obtain ⟨l, lexeme⟩ := ApplySite.lexeme_of_next? found
    have whole := (ApplySite.next?_balanced found).1
    rw [← whole, lexeme, List.append_assoc, List.cons_append] at first
    split at h
    · obtain ⟨u, _, hu⟩ := Traced.result_bind_eq_ok h
      rw [← Except.ok.inj hu, List.append_assoc]
      exact head?_of_before first other
    · obtain ⟨v, _, hv⟩ := Traced.result_bind_eq_ok h
      obtain ⟨u, _, hu⟩ := Traced.result_bind_eq_ok hv
      rw [← Except.ok.inj hu, List.append_assoc]
      exact head?_of_before first other

theorem ApplySite.read?_head_eq_none {c : Char} {s : Text}
    (at_sign : c = '@' → ∃ d, s.head? = some d ∧ d ≠ 'a' ∧ d ≠ '@') :
    head.read? (c :: s) = none := by
  show readAtRule? keyword (c :: s) = none
  by_cases starts : c = '@'
  · obtain ⟨d, first, other, _⟩ := at_sign starts
    cases s with
    | nil => simp at first
    | cons a s =>
      obtain rfl : a = d := Option.some.inj first
      have : 'a' ≠ a := Ne.symm other
      simp [readAtRule?, keyword, Text.after?, this]
  · have : '@' ≠ c := Ne.symm starts
    simp [readAtRule?, keyword, Text.after?, this]

theorem Applications.passFrom_guarded {c : Context} (ok : c.BalancedDefinitions) {s : Text}
    (h : Guarded s) (offset : Nat) : Sound Guarded (passFrom c.mixins offset s).result := by
  induction h generalizing offset with
  | @closed s sealing =>
    exact (passFrom_sound ok offset sealing).mono fun t ht => .closed (ht.sealed 0 sealing)
  | @divided x d s sealing divider at_sign _ ih =>
    have behind (offset : Nat) : Sound (fun t => Guarded t ∧
        ∀ e, s.head? = some e → e ≠ '@' → t.head? = some e) (passFrom c.mixins offset s).result :=
      (ih offset).and fun t ht e first other => head?_of_passFrom ht first other
    refine (passFrom_divided ok divider (ApplySite.read?_head_eq_none at_sign) behind offset
      sealing).mono ?_
    rintro _ ⟨x', t, rfl, tracks, guarded, first⟩
    refine .divided (tracks.sealed 0 sealing) divider ?_ guarded
    intro sign
    obtain ⟨e, he, others⟩ := at_sign sign
    exact ⟨e, first e he others.2, others⟩
  | @opened x o s opening no_site parted _ ih =>
    have name := not_isNameChar_of_isOpening opening
    have blank := not_isBlank_of_isOpening opening
    have sign : o ≠ '@' := fun same => by simp [same, isOpening] at opening
    have next := ApplySite.next?_behind name blank offset
      (ApplySite.read?_head_eq_none (s := s) fun same => absurd same sign) no_site
    have pass := passFrom_behind c.mixins (y := x ++ [o]) (s := s) (by simpa using next)
    rw [List.append_assoc, List.singleton_append] at pass
    rw [pass]
    refine Sound.bind (ih _) fun t ht => ?_
    show Guarded (x ++ [o] ++ t)
    rw [List.append_assoc, List.singleton_append]
    exact Guarded.opened opening no_site parted ht

theorem Calls.find?_behind {x : Text} {o : Char} (opening : isOpening o)
    (no_call : head.find? (x ++ [o]) = none) (s : Text) :
    head.find? (x ++ [o] ++ s) = (head.find? s).map (Occurrence.shift (x ++ [o])) := by
  have name := not_isNameChar_of_isOpening opening
  have loc : ∀ z, z <:+ x ++ [o] → z ≠ [] →
      head.read? (z ++ s) = (head.read? z).map (·.extend s) := by
    intro z hz some_left
    -- A suffix that is not empty ends with the bracket.
    rcases List.suffix_concat_iff.1 hz with rfl | ⟨y, rfl, _⟩
    · exact absurd rfl some_left
    · exact readHead?_append_after name y s
  have free : head.freeAfter true (x ++ [o]) = true := by
    simp [Reader.freeAfter, head, name]
  have search := Reader.search_append_of_local loc true
  rw [free] at search
  have none_found : head.search true (x ++ [o]) = none := no_call
  rw [none_found, Option.map_none, Option.none_or] at search
  exact search

/-- A pass keeps the places where a text was parted, and goes on behind it as if the text started
there. -/
theorem Calls.passFrom_parted {c : Context} (ok : c.BalancedDefinitions) {x : Text} (h : Parted x)
    {s : Text} {P : Text → Prop} (behind : ∀ offset, Sound P (passFrom c.functions offset s))
    (offset : Nat) :
    Sound (fun t => ∃ x' t', t = x' ++ t' ∧ Parted x' ∧ P t')
      (passFrom c.functions offset (x ++ s)) := by
  induction h generalizing s P offset with
  | @stop x d sealing name opens =>
    rw [List.append_assoc, List.singleton_append]
    refine (passFrom_divided ok name opens behind offset sealing).mono ?_
    rintro _ ⟨x', t, rfl, tracks, ht⟩
    exact ⟨x' ++ [d], t, List.append_cons .., .stop (tracks.sealed 0 sealing) name opens, ht⟩
  | @opening x o opening no_call =>
    rw [passFrom_behind c.functions (find?_behind opening no_call s) offset]
    exact (behind _).map fun t ht => ⟨x ++ [o], t, rfl, .opening opening no_call, ht⟩
  | @append x y _ _ front later =>
    rw [List.append_assoc]
    refine (front (fun offset => later behind offset) offset).mono ?_
    rintro _ ⟨x', _, rfl, hx, y', t, rfl, hy, ht⟩
    exact ⟨x' ++ y', t, (List.append_assoc ..).symm, .append hx hy, ht⟩

theorem Calls.passFrom_guarded {c : Context} (ok : c.BalancedDefinitions) {s : Text}
    (h : CallGuarded s) (offset : Nat) : Sound CallGuarded (passFrom c.functions offset s) := by
  induction h generalizing offset with
  | @closed s sealing =>
    cases pass : passFrom c.functions offset s with
    | ok t => exact .closed ((tracks_passFrom ok pass).sealed 0 sealing)
    | error e =>
      obtain ⟨name, rfl⟩ := error_of_passFrom sealing pass
      exact sound_missingResult name
  | @parted x s front _ ih =>
    refine (passFrom_parted ok front ih offset).mono ?_
    rintro _ ⟨x', t, rfl, parted, guarded⟩
    exact .parted parted guarded

theorem Segment.render_sound {c : Context} (ok : c.BalancedDefinitions) (blank : Bool)
    {piece : Segment} (h : ∀ s, piece = .code s → Guarded s) :
    Sound (fun _ => True) (piece.render (some c) blank).result := by
  cases piece with
  | code s =>
    have sites (s : Text) (hs : Guarded s) : Sound Guarded (c.pass .mixin s).result :=
      Applications.passFrom_guarded ok hs 0
    have calls (s : Text) (hs : CallGuarded s) : Sound CallGuarded (c.pass .function s).result :=
      Calls.passFrom_guarded ok hs 0
    exact (c.expand_sound sites (fun _ => Guarded.calls) calls (h s rfl)).mono fun _ _ => trivial
  | declaration s => exact trivial

theorem Written.ofSegments_sound {c : Context} (ok : c.BalancedDefinitions) (blank : Bool)
    {pieces : List Segment} (h : ∀ s, .code s ∈ pieces → Guarded s) :
    Sound (fun _ => True) (ofSegments (some c) blank pieces).toTraced.result := by
  induction pieces with
  | nil => exact trivial
  | cons piece pieces ih =>
    have first : Sound (fun _ => True) (piece.render (some c) blank).result :=
      Segment.render_sound ok blank fun s hs => h s (hs ▸ List.mem_cons_self)
    have others := ih fun s hs => h s (List.mem_cons_of_mem piece hs)
    rw [ofSegments]
    split
    · rename_i log e failed
      rw [failed] at first
      exact first
    · simp only [toTraced] at others ⊢
      cases failure : (ofSegments (some c) blank pieces).failure? with
      | none => exact trivial
      | some e =>
        rw [failure] at others
        exact others

namespace Context

/-- The declarations of a balanced text only add definitions that an expansion can put in without
harm, when their defaults and results are balanced. -/
theorem register_balanced {c : Context} (ok : c.BalancedDefinitions) {text : Text}
    (results : ∀ d ∈ (Declaration.scan .function text).items, ∀ r,
      ResultClause.extract d.name d.body = .ok r → Balanced r)
    (defaults : ∀ kind, ∀ d ∈ (Declaration.scan kind text).items, ∀ p ∈ d.definition.params,
      ∀ v, p.default? = some v → Balanced v) :
    ((c.register .function ((Declaration.scan .function text).items.map
      Declaration.definition)).register .mixin ((Declaration.scan .mixin text).items.map
        Declaration.definition)).BalancedDefinitions where
  bodies := by
    intro d hd
    rcases mem_values_registerAll hd with old | new
    · exact ok.bodies d old
    · obtain ⟨declared, found, rfl⟩ := List.mem_map.1 new
      exact (Declaration.body_balanced_of_mem found).1
  results := by
    intro d hd
    rcases mem_values_registerAll hd with old | new
    · exact ok.results d old
    · obtain ⟨declared, found, rfl⟩ := List.mem_map.1 new
      exact results declared found
  defaults := by
    intro kind d hd
    cases kind with
    | function =>
      rcases mem_values_registerAll hd with old | new
      · exact ok.defaults .function d old
      · obtain ⟨declared, found, rfl⟩ := List.mem_map.1 new
        exact defaults .function declared found
    | mixin =>
      rcases mem_values_registerAll hd with old | new
      · exact ok.defaults .mixin d old
      · obtain ⟨declared, found, rfl⟩ := List.mem_map.1 new
        exact defaults .mixin declared found

/-- **Compiling reports an unmatched bracket only when there is one**, as long as no apply site and
no call can come to own a bracket that another piece of code closes. -/
theorem compile_sound (c : Context) (ok : c.BalancedDefinitions) (text : Text) (blank : Bool)
    (balanced : Balanced text)
    (results : ∀ d ∈ (Declaration.scan .function text).items, ∀ r,
      ResultClause.extract d.name d.body = .ok r → Balanced r)
    (defaults : ∀ kind, ∀ d ∈ (Declaration.scan kind text).items, ∀ p ∈ d.definition.params,
      ∀ v, p.default? = some v → Balanced v)
    (guarded : ∀ spans, Declaration.spans text = .ok spans →
      ∀ s, .code s ∈ Segment.split text spans → Guarded s) :
    Sound (fun _ => True) (compile text blank c).2.result := by
  have complete (kind : Kind) : Declaration.scan kind text =
      ⟨(Declaration.scan kind text).items, none⟩ := by
    have none_failed := Declaration.scanFrom_complete kind 0 (balanced.sealed (Int.le_refl 0))
    rw [← none_failed]
    rfl
  have spans : Declaration.spans text = .ok ((Declaration.scan .function text).items.map
      Declaration.span ++ (Declaration.scan .mixin text).items.map Declaration.span) := by
    rw [Declaration.spans, complete .function, complete .mixin]
    rfl
  have extracted := extract_of_scans c (complete .function) (complete .mixin)
  have written := Written.ofSegments_sound (register_balanced ok results defaults) blank
    (guarded _ spans)
  simp only [compile, bind, Act.bind, extracted]
  exact written

theorem balancedDefinitions_empty : ({} : Context).BalancedDefinitions where
  bodies d hd := by cases hd
  results d hd := by cases hd
  defaults kind d hd := by cases kind <;> cases hd

/-- A declaration in nested rules, with a call that is closed before the inner rule and one that
follows the outer brace. -/
def ruledText : Text :=
  "@function --f(--a: 1) \x7bresult: [2];\x7d".toList ++
    ".a \x7b w: --f(1); b \x7b c: --f(); @mixin --n \x7b\x7d \x7d \x7d".toList

theorem compile_ruledText :
    Balanced ruledText ∧ Sound (fun _ => True) (compile ruledText true {}).2.result := by
  have balanced : Balanced ruledText := by decide +kernel
  have results : ∀ d ∈ (Declaration.scan .function ruledText).items,
      ResultClause.extract d.name d.body = .ok "[2]".toList := by decide +kernel
  have defaults : ∀ kind ∈ [Kind.function, .mixin],
      ∀ d ∈ (Declaration.scan kind ruledText).items, ∀ p ∈ d.definition.params,
        p.default? = some "1".toList := by decide +kernel
  have spans : Declaration.spans ruledText = .ok [⟨0, 36⟩, ⟨66, 79⟩] := by decide +kernel
  have pieces : Segment.split ruledText [⟨0, 36⟩, ⟨66, 79⟩] =
      [.code [], .declaration "@function --f(--a: 1) \x7bresult: [2];\x7d".toList,
        .code ".a \x7b w: --f(1); b \x7b c: --f(); ".toList,
        .declaration "@mixin --n \x7b\x7d".toList, .code " \x7d \x7d".toList] := by
    simp only [Segment.split, Span.merge]
    cbv
  have sealing {s : Text} (h : Balanced s) : Sealed 0 s := h.sealed (Int.le_refl 0)
  refine ⟨balanced, compile_sound {} balancedDefinitions_empty ruledText true balanced ?_ ?_ ?_⟩
  · intro d hd r hr
    obtain rfl : "[2]".toList = r := Except.ok.inj ((results d hd).symm.trans hr)
    decide
  · intro kind d hd p hp v hv
    have given := defaults kind (by cases kind <;> simp) d hd p hp
    obtain rfl : "1".toList = v := Option.some.inj (given.symm.trans hv)
    decide
  · intro found hs s mem
    obtain rfl := Except.ok.inj (spans.symm.trans hs)
    rw [pieces] at mem
    simp only [List.mem_cons, Segment.code.injEq, reduceCtorEq, List.not_mem_nil, false_or,
      or_false] at mem
    rcases mem with rfl | rfl | rfl
    · exact .closed (sealing balanced_nil)
    · -- No call stands before the outer brace, and the call before the inner one is closed.
      refine .opened (x := ".a ".toList) (o := '{') rfl (by decide) (.opening rfl (by decide)) ?_
      refine .opened (x := " w: --f(1); b ".toList) (o := '{') rfl (by decide)
        (.stop (sealing (by decide)) (by decide) (by decide)) ?_
      exact .closed (sealing (s := " c: --f(); ".toList) (by decide))
    · have blank : Sealed 0 " ".toList := sealing (by decide)
      refine .divided (c := '}') blank (by decide) (by simp) ?_
      exact .divided (c := '}') blank (by decide) (by simp) (.closed (sealing balanced_nil))

/-- A declaration in the block of an apply site. -/
def straddledText : Text :=
  "@mixin --m \x7b a: b; \x7d@apply --m \x7b @mixin --n \x7b\x7d \x7d;".toList

set_option maxRecDepth 10000 in
/-- A declaration in the block of an apply site parts the block, so that the piece of code before it
has an apply site with a block that is never closed. -/
theorem compile_straddled :
    Balanced straddledText ∧
    (∀ d ∈ (Declaration.scan .function straddledText).items, ∀ r,
      ResultClause.extract d.name d.body = .ok r → Balanced r) ∧
    (∀ kind, ∀ d ∈ (Declaration.scan kind straddledText).items, ∀ p ∈ d.definition.params,
      ∀ v, p.default? = some v → Balanced v) ∧
    (compile straddledText true {}).2.result = .error (.unmatched 12) := by
  have functions : (Declaration.scan .function straddledText).items = [] := by decide +kernel
  have mixins : ∀ d ∈ (Declaration.scan .mixin straddledText).items,
      d.definition.params = [] := by decide +kernel
  refine ⟨by decide +kernel, by simp [functions], ?_, ?_⟩
  · intro kind d hd p hp
    cases kind with
    | function => simp [functions] at hd
    | mixin => simp [mixins d hd] at hp
  · cbv

end Context

end StyleExpansion
