import StyleExpansion.Proofs.Ceiling
import StyleExpansion.Proofs.Replacement

namespace StyleExpansion

/-- Why a pass fails: a bracket is never closed, or a function that is called has no result
clause. -/
def Error.OfPass (e : Error) : Prop :=
  (∃ offset, e = .unmatched offset) ∨ ∃ name, e = .missingResult name

theorem Calls.ofPass_of_passFrom {functions : Registry} {offset : Nat} {s : Text} {e : Error}
    (h : passFrom functions offset s = .error e) : e.OfPass := by
  fun_induction passFrom functions offset s with
  | case1 => cases h
  | case2 offset s o found _ cause recursive ih =>
    obtain rfl := Except.error.inj h
    exact ih recursive
  | case3 => cases h
  | case4 => exact .inl ⟨_, (Except.error.inj h).symm⟩
  | case5 offset s o found d _ block _ cause evaluated =>
    obtain rfl := Except.error.inj h
    exact .inr ⟨d.name, evaluate_error evaluated⟩
  | case6 offset s o found d _ block _ _ _ cause recursive ih =>
    obtain rfl := Except.error.inj h
    exact ih recursive
  | case7 => cases h

theorem ApplySite.unmatched_of_readTail {offset : Nat} {s : Text} {e : Error}
    (h : readTail offset s = .error e) : ∃ n, e = .unmatched n := by
  unfold readTail at h
  simp only at h
  split at h
  · rename_i failed
    obtain rfl := Except.error.inj h
    exact ⟨_, (Group.read_error rfl failed).1⟩
  · split at h
    · rename_i failed
      obtain rfl := Except.error.inj h
      exact ⟨_, (Group.read_error rfl failed).1⟩
    · cases h
    · split at h
      · cases h
      · cases h

theorem ApplySite.unmatched_of_next? {offset : Nat} {s : Text} {e : Error}
    (h : next? offset s = .error e) : ∃ n, e = .unmatched n := by
  unfold next? at h
  split at h
  · cases h
  · split at h
    · rename_i failed
      obtain rfl := Except.error.inj h
      exact unmatched_of_readTail failed
    · cases h
    · cases h

theorem Placeholder.unmatched_of_fillFrom {contents? : Option Text} {offset : Nat} {s : Text}
    {e : Error} (h : fillFrom contents? offset s = .error e) : ∃ n, e = .unmatched n := by
  fun_induction fillFrom contents? offset s with
  | case1 => cases h
  | case2 offset s o found cause failed =>
    obtain rfl := Except.error.inj h
    exact ⟨_, (Group.read_error rfl failed).1⟩
  | case3 offset s o found block _ rest cause recursive ih =>
    obtain rfl := Except.error.inj h
    exact ih recursive
  | case4 => cases h

namespace Applications

theorem unmatched_of_replace {mixins : Registry} {site : ApplySite} {e : Error}
    (h : (replace mixins site).result = .error e) : ∃ n, e = .unmatched n := by
  unfold replace at h
  split at h
  · cases h
  · rename_i d known
    simp only [instantiate] at h
    split at h
    · exact Placeholder.unmatched_of_fillFrom h
    · cases h

theorem unmatched_of_passFrom {mixins : Registry} {offset : Nat} {s : Text} {e : Error}
    (h : (passFrom mixins offset s).result = .error e) : ∃ n, e = .unmatched n := by
  fun_induction passFrom mixins offset s with
  | case1 offset s cause failed =>
    obtain rfl := Except.error.inj h
    exact ApplySite.unmatched_of_next? failed
  | case2 => cases h
  | case3 offset s o found _ ih =>
    obtain recursive | ⟨t, -, last⟩ := Traced.result_bind_eq_error h
    · exact ih recursive
    · cases last
  | case4 offset s o found site _ ih =>
    obtain failed | ⟨value, -, later⟩ := Traced.result_bind_eq_error h
    · exact unmatched_of_replace failed
    · obtain recursive | ⟨t, -, last⟩ := Traced.result_bind_eq_error later
      · exact ih recursive
      · cases last

end Applications

namespace Context

theorem ofPass_of_pass {c : Context} {kind : Kind} {s : Text} {e : Error}
    (h : (c.pass kind s).result = .error e) : e.OfPass := by
  cases kind with
  | function => exact Calls.ofPass_of_passFrom h
  | mixin => exact .inl (Applications.unmatched_of_passFrom h)

def upTo (c : Context) (n : Nat) : Context := { c with maxDepth := n }

theorem result_resolve_upTo {c : Context} (lenient : c.strict = false) (kind : Kind) (n : Nat)
    (s : Text) : ((c.upTo n).resolve kind s).result = passes (c.pass kind) n s :=
  result_resolve (c := c.upTo n) lenient kind s

/-- **The ceiling is additive.** Outside of strict mode, `m + k` passes allowed at once come to the
same text as `m` passes and `k` passes after them, or fail alike, and they fail only as a pass does.
Once the text that they come to is one that a pass keeps, every higher ceiling gives the same. -/
theorem resolve_add (c : Context) (lenient : c.strict = false) (kind : Kind) (s : Text)
    (m k : Nat) :
    ((c.upTo (m + k)).resolve kind s).result =
      ((c.upTo m).resolve kind s >>= (c.upTo k).resolve kind).result ∧
    (∀ e, ((c.upTo (m + k)).resolve kind s).result = .error e → e.OfPass) ∧
    ∀ r, ((c.upTo m).resolve kind s).result = .ok r → (c.pass kind r).result = .ok r →
      ∀ n, m ≤ n → ((c.upTo n).resolve kind s).result = .ok r := by
  have later : (fun t => ((c.upTo k).resolve kind t).result) = passes (c.pass kind) k :=
    funext fun t => result_resolve_upTo lenient kind k t
  refine ⟨?_, fun e failed => ?_, fun r reached kept n le => ?_⟩
  · rw [Traced.result_bind, later, result_resolve_upTo lenient, result_resolve_upTo lenient,
      passes_add]
  · rw [result_resolve_upTo lenient] at failed
    obtain ⟨t, failed⟩ := exists_error_of_passes failed
    exact ofPass_of_pass failed
  · obtain ⟨d, rfl⟩ := Nat.exists_eq_add_of_le le
    rw [result_resolve_upTo lenient] at reached ⊢
    rw [passes_add, reached]
    exact passes_of_rest kept d

def identityCalls : Context where
  functions := Registry.registerAll .empty
    [⟨.function, "--a".toList, [⟨"--x".toList, none⟩], "result: var(--x);".toList⟩,
      ⟨.function, "--b".toList, [], "color: red;".toList⟩]

theorem resolve_add_identityCalls :
    identityCalls.strict = false ∧
    ((identityCalls.upTo 1).resolve .function "w: --a(--a(--a(1)));".toList).result =
      .ok "w: --a(--a(1));".toList ∧
    ((identityCalls.upTo (1 + 2)).resolve .function "w: --a(--a(--a(1)));".toList).result =
      ((identityCalls.upTo 2).resolve .function "w: --a(--a(1));".toList).result ∧
    (∀ n, 3 ≤ n →
      ((identityCalls.upTo n).resolve .function "w: --a(--a(--a(1)));".toList).result =
        .ok "w: 1;".toList) ∧
    ((identityCalls.upTo (1 + 1)).resolve .function "w: --a(--b());".toList).result =
      .error (.missingResult "--b".toList) ∧
    (Error.missingResult "--b".toList).OfPass := by
  have first : ((identityCalls.upTo 1).resolve .function "w: --a(--a(--a(1)));".toList).result =
      .ok "w: --a(--a(1));".toList := by decide +kernel
  have reached : ((identityCalls.upTo 3).resolve .function "w: --a(--a(--a(1)));".toList).result =
      .ok "w: 1;".toList := by decide +kernel
  have kept : (identityCalls.pass .function "w: 1;".toList).result = .ok "w: 1;".toList := by
    decide +kernel
  have failed : ((identityCalls.upTo (1 + 1)).resolve .function "w: --a(--b());".toList).result =
      .error (.missingResult "--b".toList) := by decide +kernel
  obtain ⟨together, -, -⟩ :=
    resolve_add identityCalls rfl .function "w: --a(--a(--a(1)));".toList 1 2
  obtain ⟨-, -, rest⟩ := resolve_add identityCalls rfl .function "w: --a(--a(--a(1)));".toList 3 0
  obtain ⟨-, cause, -⟩ := resolve_add identityCalls rfl .function "w: --a(--b());".toList 1 1
  rw [Traced.result_bind_of_ok first] at together
  exact ⟨rfl, first, together, rest _ reached kept, failed, cause _ failed⟩

end Context

end StyleExpansion
