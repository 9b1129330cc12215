import StyleExpansion.Proofs.ApplySites
import StyleExpansion.Proofs.NestedResults
import StyleExpansion.Proofs.Outermost
import StyleExpansion.Proofs.Registration

namespace StyleExpansion

namespace Context

/-- No apply site and no call of a registered function starts in the text. -/
structure MacroFree (c : Context) (s : Text) : Prop where
  no_site : ∀ t, t <:+ s → ¬ ApplySite.Starts t
  no_call : Calls.NoCall c.functions [] s []

variable {c : Context} {s : Text}

/-- Both conditions, as searches that end without a result. -/
theorem macroFree_iff :
    c.MacroFree s ↔ ApplySite.head.find? s = none ∧ c.residual .function s = [] := by
  rw [ApplySite.find?_eq_none_iff, residual, Calls.residual_eq_nil_iff]
  exact ⟨fun h => ⟨h.no_site, h.no_call⟩, fun h => ⟨h.1, h.2⟩⟩

instance (c : Context) (s : Text) : Decidable (c.MacroFree s) :=
  decidable_of_iff _ macroFree_iff.symm

/-- A text that a pass keeps and in which no registered name is left is given back, without a
failure and without a notice, however many passes are allowed. -/
theorem resolve_of_kept {kind : Kind} (kept : c.pass kind s = pure s)
    (none_left : c.residual kind s = []) : c.resolve kind s = pure s := by
  rw [resolve]
  cases c.maxDepth.toNat with
  | zero => simp [settle, conclude, none_left]
  | succ n => simp [settle, kept, conclude]

/-- The passes of either kind keep a text without macros and leave no name in it. -/
theorem MacroFree.kept (free : c.MacroFree s) (kind : Kind) :
    c.pass kind s = pure s ∧ c.residual kind s = [] := by
  obtain ⟨none_found, none_left⟩ := macroFree_iff.1 free
  cases kind with
  | function =>
    have passed : Calls.pass c.functions s = .ok s :=
      Calls.passFrom_of_rewrites 0 startsName_nil (.rest free.no_call)
    exact ⟨by rw [pass, passed]; rfl, none_left⟩
  | mixin =>
    constructor
    · rw [pass, Applications.pass, Applications.passFrom_eq, ApplySite.next?, none_found]
    · rw [residual, Applications.residual, Reader.findAll_of_none none_found]
      simp [Text.sortedSet]

/-- A text without macros is expanded into itself. -/
theorem expand_macroFree (free : c.MacroFree s) : c.expand s = pure s := by
  have resolved (kind : Kind) : c.resolve kind s = pure s :=
    resolve_of_kept (free.kept kind).1 (free.kept kind).2
  rw [expand, resolved, pure_bind, resolved]

/-- **Text without macros is left alone.** Where the declarations of a text can be told and no code
between them has a macro, the text is given back as it is, with neither a failure nor a notice. This
holds of every context, whatever its ceiling and strict or not. -/
theorem expandOutside_macroFree (c : Context) {text : Text} {spans : List Span}
    (found : Declaration.spans text = .ok spans)
    (free : ∀ s, .code s ∈ Segment.split text spans → c.MacroFree s) :
    c.expandOutside text none = ⟨[], .ok text⟩ := by
  have ordered : ∀ s ∈ spans, 0 ≤ s.start ∧ s.start ≤ s.stop := fun s mem => by
    have declared := Declaration.declared_of_mem_spans found mem
    exact ⟨declared.nonneg, declared.ordered.le⟩
  have written : write (some c) false text spans = { text := text } := by
    rw [write, Written.ofSegments_of_shown, Segment.source_split ordered]
    intro piece mem
    cases piece with
    | code s => exact expand_macroFree (free s mem)
    | declaration s => rfl
  rw [expandOutside_of_spans c found, render, written]
  rfl

def shut : Context where
  functions := Registry.registerAll .empty
    [⟨.function, "--f".toList, [⟨"--p".toList, none⟩], "result: var(--p);".toList⟩]
  mixins := Registry.registerAll .empty [⟨.mixin false, "--m".toList, [], "a: 1;".toList⟩]
  maxDepth := -3
  strict := true

/-- Two declarations that use macros, and around them brackets that do not match, calls that are not
of registered functions, references, and `@apply` without a name. -/
def plainText : Text :=
  ("a) \x7b @apply ;\n@function --f(--p) \x7b result: --f(var(--p)) \x7d" ++
    " --g(x--f(--f (1 var(--p] @mixin --m \x7b @apply --m; \x7d env(--m, 2 @apply--m; (").toList

theorem expandOutside_macroFree_plainText :
    ∃ spans, Declaration.spans plainText = .ok spans ∧ spans.length = 2 ∧
      (∀ s, .code s ∈ Segment.split plainText spans → shut.MacroFree s) ∧
      shut.expandOutside plainText none = ⟨[], .ok plainText⟩ := by
  have found : Declaration.spans plainText = .ok [⟨14, 58⟩, ⟨84, 110⟩] := by decide +kernel
  have pieces : Segment.split plainText [⟨14, 58⟩, ⟨84, 110⟩] =
      [.code "a) \x7b @apply ;\n".toList,
        .declaration "@function --f(--p) \x7b result: --f(var(--p)) \x7d".toList,
        .code " --g(x--f(--f (1 var(--p] ".toList,
        .declaration "@mixin --m \x7b @apply --m; \x7d".toList,
        .code " env(--m, 2 @apply--m; (".toList] := by
    simp only [Segment.split, Span.merge]
    cbv
  have free : ∀ s, .code s ∈ Segment.split plainText [⟨14, 58⟩, ⟨84, 110⟩] → shut.MacroFree s := by
    intro s mem
    rw [pieces] at mem
    simp only [List.mem_cons, Segment.code.injEq, reduceCtorEq, List.not_mem_nil, or_false,
      false_or] at mem
    rcases mem with rfl | rfl | rfl
    · decide +kernel
    · decide +kernel
    · decide +kernel
  exact ⟨_, found, rfl, free, expandOutside_macroFree shut found free⟩

end Context

end StyleExpansion
