import StyleExpansion.Proofs.Ceiling
import StyleExpansion.Proofs.Outermost

namespace StyleExpansion

namespace Calls

/-- Where a text stands matters to the failures of a pass only. -/
theorem passFrom_anywhere {functions : Registry} {offset : Nat} {s t : Text}
    (h : passFrom functions offset s = .ok t) (other : Nat) : passFrom functions other s = .ok t := by
  obtain ⟨calls, rewrites⟩ := rewrites_of_passFrom startsName_nil h
  exact passFrom_of_rewrites other startsName_nil rewrites

/-- A pass over a balanced line and over what follows it, taken together. -/
theorem pass_lines {c : Context} (ok : c.BalancedDefinitions) {u v t s : Text} (balanced : Balanced u)
    (line : pass c.functions (u ++ ['\n']) = .ok t) (behind : pass c.functions v = .ok s) :
    ∃ u', t = u' ++ ['\n'] ∧ Balanced u' ∧ pass c.functions (u ++ '\n' :: v) = .ok (t ++ s) := by
  have split (v : Text) := passFrom_stop c.functions (d := '\n') (by decide) (by decide) v 0
    (balanced.sealed (Int.le_refl 0))
  unfold pass at line behind ⊢
  rw [split] at line
  cases before : passFrom c.functions 0 u with
  | error e =>
    rw [before] at line
    cases line
  | ok u' =>
    have ending : passFrom c.functions (0 + u.length + 1) [] = .ok [] :=
      passFrom_of_rewrites _ startsName_nil (.rest (by rintro x y h; simp_all))
    rw [before, ending] at line
    obtain rfl := Except.ok.inj line
    refine ⟨u', rfl, (tracks_passFrom ok before).balanced balanced, ?_⟩
    rw [split, before, Except.bind, passFrom_anywhere behind]
    simp [Except.map]

end Calls

/-- So many passes over a balanced line and over what follows it, taken together. -/
theorem Leads.lines {c : Context} (ok : c.BalancedDefinitions) {n : Nat} {u v t s : Text}
    (balanced : Balanced u) (line : Leads (c.pass .function) n (u ++ ['\n']) t)
    (behind : Leads (c.pass .function) n v s) :
    Leads (c.pass .function) n (u ++ '\n' :: v) (t ++ s) := by
  induction n generalizing u v with
  | zero =>
    cases line
    cases behind
    rw [List.append_assoc, List.singleton_append]
    exact .refl _
  | succ n ih =>
    cases line with
    | step first later =>
      cases behind with
      | @step _ _ w _ first' later' =>
        obtain ⟨u', rfl, balanced', both⟩ := Calls.pass_lines ok balanced first first'
        refine .step (t := u' ++ '\n' :: w) ?_ (ih balanced' later later')
        rw [List.append_assoc, List.singleton_append] at both
        exact both

namespace Context

/-- **Lines expand apart.** Outside of strict mode, the expansion of the calls in a balanced line
and that of the text behind it, one after the other, are the expansion of both together. -/
theorem resolve_lines (c : Context) (lenient : c.strict = false)
    (results : ∀ d ∈ c.functions.values, ∀ r,
      ResultClause.extract d.name d.body = .ok r → Balanced r)
    (defaults : ∀ d ∈ c.functions.values, ∀ p ∈ d.params, ∀ v, p.default? = some v → Balanced v)
    (u v r s : Text) (balanced : Balanced u)
    (line : (c.resolve .function (u ++ ['\n'])).result = .ok r)
    (behind : (c.resolve .function v).result = .ok s) :
    (c.resolve .function (u ++ ['\n'] ++ v)).result = .ok (r ++ s) := by
  -- Mixins have no part in it.
  let functionsOnly : Context := { c with mixins := .empty }
  have ok : functionsOnly.BalancedDefinitions := by
    refine ⟨nofun, results, fun kind => ?_⟩
    cases kind with
    | function => exact defaults
    | mixin => nofun
  rw [resolve_lenient_iff lenient] at line behind ⊢
  rw [List.append_assoc, List.singleton_append]
  exact Leads.lines ok balanced line behind

/-- A function whose result calls another one, so that its calls come to rest one pass later. -/
def chained : Context where
  functions := Registry.registerAll .empty
    [⟨.function, "--a".toList, [⟨"--x".toList, some "(1)".toList⟩],
        "result: --b(var(--x));".toList⟩,
      ⟨.function, "--b".toList, [⟨"--y".toList, none⟩], "result: [var(--y)];".toList⟩]

theorem resolve_lines_chained :
    chained.strict = false ∧ Balanced "p: --a()".toList ∧
    (chained.resolve .function ("p: --a()".toList ++ ['\n'])).result = .ok "p: [(1)]\n".toList ∧
    (chained.resolve .function "--b(2) \x7d".toList).result = .ok "[2] \x7d".toList ∧
    (chained.resolve .function ("p: --a()".toList ++ ['\n'] ++ "--b(2) \x7d".toList)).result =
      .ok ("p: [(1)]\n".toList ++ "[2] \x7d".toList) := by
  have results : ∀ d ∈ chained.functions.values, ∀ r ∈ (ResultClause.extract d.name d.body).toOption,
      Balanced r := by decide +kernel
  have defaults : ∀ d ∈ chained.functions.values, ∀ p ∈ d.params, ∀ v ∈ p.default?, Balanced v := by
    decide +kernel
  have balanced : Balanced "p: --a()".toList := by decide
  have line : (chained.resolve .function ("p: --a()".toList ++ ['\n'])).result =
      .ok "p: [(1)]\n".toList := by decide +kernel
  have behind : (chained.resolve .function "--b(2) \x7d".toList).result =
      .ok "[2] \x7d".toList := by decide +kernel
  refine ⟨rfl, balanced, line, behind, ?_⟩
  refine resolve_lines chained rfl ?_ defaults _ _ _ _ balanced line behind
  intro d mem r extracted
  exact results d mem r (by rw [extracted]; rfl)

end Context

end StyleExpansion
