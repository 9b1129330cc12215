import StyleExpansion.Proofs.Substitution

/-!
Substitution against templates as trees. A template is literal text and references one after the
other, and a reference may have a fallback that is a template itself. Substituting in the printed
template comes to filling every reference at once:

* `find?_literal`: no reference is met in literal text, nor across the end of it;
* `substitute_reference`: the bracket that closes a printed reference is its own;
* `substitute_print`: what is put in place of a reference is not looked at again, and a fallback
  that is used is filled as a template of its own.
-/

namespace StyleExpansion

/-- Literal text and references one after the other. -/
inductive Template where
  | nil
  | literal (s : Text) (behind : Template)
  | reference (name : Text) (behind : Template)
  | fallback (name : Text) (instead behind : Template)
deriving DecidableEq, Repr

namespace Template

def print (function : Text) : Template → Text
  | nil => []
  | literal s behind => s ++ behind.print function
  | reference name behind => function ++ '(' :: name ++ ')' :: behind.print function
  | fallback name instead behind =>
    function ++ '(' :: (name ++ ',' :: ' ' :: instead.print function) ++
      ')' :: behind.print function

/-- The template with a value in place of each reference whose name has one. Without a value a
reference is replaced by its fallback, if it has one and the name is bound or need not be; any other
reference stays as it is written. -/
def fill (function : Text) (boundOnly : Bool) (bindings : Bindings) : Template → Text
  | nil => []
  | literal s behind => s ++ behind.fill function boundOnly bindings
  | reference name behind =>
    (bindings.get? name).join.getD (function ++ '(' :: name ++ [')']) ++
      behind.fill function boundOnly bindings
  | fallback name instead behind =>
    (bindings.get? name).join.getD
      (if bindings.contains name || !boundOnly then instead.fill function boundOnly bindings
        else function ++ '(' :: (name ++ ',' :: ' ' :: instead.print function) ++ [')']) ++
      behind.fill function boundOnly bindings

/-- The template can stand right behind the literal text: it is no literal itself, and a reference
does not go on with a name that the text ends in. -/
def Follows (s : Text) : Template → Prop
  | nil => True
  | literal _ _ => False
  | reference _ _ | fallback _ _ _ => StartsName s

def Printable (function : Text) : Template → Prop
  | nil => True
  | literal s behind =>
    ¬ function ++ ['('] <:+: s ∧ behind.Follows s ∧ behind.Printable function
  | reference name behind => IsName name ∧ behind.Printable function
  | fallback name instead behind =>
    IsName name ∧ Balanced (instead.print function) ∧
      Text.strip (instead.print function) = instead.print function ∧
        instead.Printable function ∧ behind.Printable function

instance (s : Text) : (t : Template) → Decidable (t.Follows s)
  | nil => .isTrue trivial
  | literal _ _ => .isFalse id
  | reference _ _ | fallback _ _ _ => inferInstanceAs (Decidable (StartsName s))

instance (function : Text) : (t : Template) → Decidable (t.Printable function)
  | nil => .isTrue trivial
  | literal s behind =>
    have : Decidable (behind.Printable function) := instDecidablePrintable function behind
    inferInstanceAs (Decidable (¬ function ++ ['('] <:+: s ∧ behind.Follows s ∧ _))
  | reference name behind =>
    have : Decidable (behind.Printable function) := instDecidablePrintable function behind
    inferInstanceAs (Decidable (IsName name ∧ _))
  | fallback name instead behind =>
    have : Decidable (instead.Printable function) := instDecidablePrintable function instead
    have : Decidable (behind.Printable function) := instDecidablePrintable function behind
    inferInstanceAs (Decidable (IsName name ∧ Balanced (instead.print function) ∧
      Text.strip (instead.print function) = instead.print function ∧ _ ∧ _))

end Template

section
variable {function : Text}

/-- No reference starts in a text without an opening, or in such a text and what follows it, when a
name does not go on from one into the other. -/
theorem Reference.passes_literal (word : IsWord function) {s t : Text}
    (clear : ¬ function ++ ['('] <:+: s) (next : t = [] ∨ StartsName s) :
    (opener function).Passes s t := by
  intro z suffix some_left
  rw [Option.eq_none_iff_forall_ne_some]
  intro r read
  obtain ⟨rest, opened, -⟩ := Option.map_eq_some_iff.1 read
  have cut := Text.append_of_after? opened
  rcases List.append_eq_append_iff.1 cut with ⟨m, within, -⟩ | ⟨m, opening, behind⟩
  · -- The opening would be a part of the literal text.
    exact clear (List.IsInfix.trans ⟨[], m, by simpa using within.symm⟩ suffix.isInfix)
  · cases m with
    | nil =>
      rw [List.append_nil] at opening
      exact clear (opening ▸ suffix.isInfix)
    | cons c m =>
      -- The opening would go on behind the literal text, which then ends in a name character.
      have part : z <+: function := by
        rcases List.prefix_concat_iff.1 (⟨c :: m, opening.symm⟩ : z <+: function ++ ['('])
          with whole | part
        · rw [whole] at opening
          simp at opening
        · exact part
      rcases next with nothing | starts
      · rw [nothing] at behind
        cases behind
      · obtain ⟨x, rfl⟩ := suffix
        exact some_left (starts.of_append.eq_nil fun d hd => word.isNameChar d (part.subset hd))

/-- The search for a reference goes over literal text. -/
theorem Reference.find?_literal (word : IsWord function) {s t : Text}
    (clear : ¬ function ++ ['('] <:+: s) (next : t = [] ∨ StartsName s) :
    (opener function).find? (s ++ t) = ((opener function).find? t).map (Occurrence.shift s) := by
  refine Reader.find?_append_of_none (passes_literal word clear next) fun closed => ?_
  rcases next with rfl | starts
  · cases function with
    | nil => exact absurd rfl word.ne_nil
    | cons c function => rfl
  · have free : (opener function).freeAfter true s = true := by
      unfold Reader.freeAfter
      cases last : s.getLast? with
      | none => rfl
      | some c => simp [opener, starts c last]
    rw [free] at closed
    cases closed

namespace Template

theorem Follows.next {s : Text} {t : Template} (h : t.Follows s) (function : Text) :
    t.print function = [] ∨ StartsName s := by
  cases t with
  | nil => exact .inl rfl
  | literal u behind => exact h.elim
  | reference name behind => exact .inr h
  | fallback name instead behind => exact .inr h

/-- **Substitution on templates.** Substituting in a printed template fills its references all at
once: values are put in as they are, and a fallback that is used is filled in its turn. -/
theorem substitute_print (word : IsWord function) (boundOnly : Bool) (bindings : Bindings)
    {t : Template} (h : t.Printable function) :
    substitute function boundOnly bindings (t.print function) =
      t.fill function boundOnly bindings := by
  induction t with
  | nil => exact substitute_nil function boundOnly bindings
  | literal s behind ih =>
    obtain ⟨clear, follows, rest⟩ := h
    have skipped := Reference.find?_literal word clear (follows.next function)
    rw [print, fill, substitute_behind skipped, ih rest]
  | reference name behind ih =>
    obtain ⟨is_name, rest⟩ := h
    rw [print, fill, substitute_reference is_name.balanced (Reference.parse?_name is_name), ih rest]
    congr 2
    cases value : (bindings.get? name).join <;> simp [Reference.replacement?, value]
  | fallback name instead behind ihf ih =>
    obtain ⟨is_name, balanced, stripped, inner, rest⟩ := h
    have lead : Balanced [',', ' '] := by decide
    have interior : Balanced (name ++ ',' :: ' ' :: instead.print function) :=
      is_name.balanced.append (lead.append balanced)
    have text : Text.strip (' ' :: instead.print function) = instead.print function := by
      rw [strip_blank_cons _ (by decide), stripped]
    rw [print, fill, substitute_reference interior (Reference.parse?_fallback is_name _), ih rest]
    congr 1
    cases value : (bindings.get? name).join with
    | some v => simp [Reference.replacement?, value]
    | none =>
      simp only [Reference.replacement?, value, text, ihf inner, Option.getD_none]
      split
      · rfl
      · rfl

/-- Text with a bracket that nothing closes, a name that is bound, one that is bound to nothing,
with a fallback that has a fallback, and one that is not bound. -/
def nested : Template :=
  .literal "calc( ".toList <|
  .reference "--v".toList <|
  .literal " ".toList <|
  .fallback "--n".toList
    (.literal "0 ".toList <|
      .fallback "--m".toList (.literal "(1)".toList <| .reference "--v".toList .nil) .nil) <|
  .fallback "--u".toList (.reference "--v".toList .nil) <|
  .reference "--n".toList .nil

theorem substitute_print_nested :
    let function := "var".toList
    let bindings : Bindings := Table.ofList
      [("--v".toList, some "var(--w)".toList), ("--w".toList, some "2".toList),
        ("--n".toList, none), ("--m".toList, none)]
    IsWord function ∧ nested.Printable function ∧
      nested.print function = ("calc( var(--v) var(--n, 0 var(--m, (1)var(--v)))" ++
        "var(--u, var(--v))var(--n)").toList ∧
      substitute function true bindings (nested.print function) =
        "calc( var(--w) 0 (1)var(--w)var(--u, var(--v))var(--n)".toList := by
  intro function bindings
  have word : IsWord function := ⟨by decide, List.all_eq_true.1 rfl⟩
  have printable : nested.Printable function := by decide +kernel
  have filled := substitute_print word true bindings printable
  have computed : nested.fill function true bindings =
      "calc( var(--w) 0 (1)var(--w)var(--u, var(--v))var(--n)".toList := by decide +kernel
  exact ⟨word, printable, by decide +kernel, filled.trans computed⟩

end Template

end

end StyleExpansion
