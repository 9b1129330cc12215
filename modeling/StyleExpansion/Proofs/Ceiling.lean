import StyleExpansion.Context
import Mathlib

/-!
Passes up to a ceiling. `Leads` follows the texts that passes run through, and settling is described
by it alone:

* `settle_eq_atRest_iff`: settling comes to rest at a text that a pass below the ceiling keeps;
* `settle_eq_atCeiling_iff`: it runs into the ceiling when the last pass still changed the text;
* `text_settle`: either way its outcome is that of all the allowed passes;
* `resolve_strict`: in strict mode registered names are left only in a text at rest, and running
  into the ceiling with such names is the failure that names them;
* `resolve_selfCall`: a call that gives back itself is at rest, which is no failure.
-/

namespace StyleExpansion

section
variable {ε : Type} {pass : Text → Traced ε Text}

/-- So many passes lead from one text to another. -/
inductive Leads (pass : Text → Traced ε Text) : Nat → Text → Text → Prop
  | refl (s : Text) : Leads pass 0 s s
  | step {n : Nat} {s t u : Text} (first : (pass s).result = .ok t) (others : Leads pass n t u) :
      Leads pass (n + 1) s u

/-- So many passes lead from one text to another, and the last of them, if there is one, changes
the text. -/
def RunsOut (pass : Text → Traced ε Text) : Nat → Text → Text → Prop
  | 0, s, t => s = t
  | n + 1, s, t => ∃ u, Leads pass n s u ∧ (pass u).result = .ok t ∧ t ≠ u

theorem Leads.last {n : Nat} {s t u : Text} (h : Leads pass n s t)
    (last : (pass t).result = .ok u) : Leads pass (n + 1) s u := by
  induction h with
  | refl s => exact .step last (.refl u)
  | step first _ ih => exact .step first (ih last)

theorem RunsOut.leads {n : Nat} {s t : Text} (h : RunsOut pass n s t) : Leads pass n s t := by
  cases n with
  | zero =>
    obtain rfl : s = t := h
    exact .refl s
  | succ n =>
    obtain ⟨u, leads, last, _⟩ := h
    exact leads.last last

/-- A text that a pass keeps is kept by all passes. -/
theorem Leads.eq_of_rest {n : Nat} {s t : Text} (h : Leads pass n s t)
    (rest : (pass s).result = .ok s) : t = s := by
  induction h with
  | refl s => rfl
  | step first _ ih =>
    obtain rfl := Except.ok.inj (first.symm.trans rest)
    exact ih rest

theorem settle_of_keep (n : Nat) {s : Text} (h : (pass s).result = .ok s) :
    (settle pass (n + 1) s).result = .ok (.atRest s) := by
  rw [settle, Traced.result_bind_of_ok h, if_pos rfl]
  rfl

theorem settle_of_change (n : Nat) {s t : Text} (h : (pass s).result = .ok t) (changed : t ≠ s) :
    (settle pass (n + 1) s).result = (settle pass n t).result := by
  rw [settle, Traced.result_bind_of_ok h, if_neg changed]

/-- The first pass of settling: it keeps the text, or settling goes on with what it gives. -/
theorem settle_cases {n : Nat} {s : Text} {r : Settled}
    (h : (settle pass (n + 1) s).result = .ok r) :
    ((pass s).result = .ok s ∧ r = .atRest s) ∨
      ∃ t, (pass s).result = .ok t ∧ t ≠ s ∧ (settle pass n t).result = .ok r := by
  rw [settle] at h
  obtain ⟨t, passed, later⟩ := Traced.result_bind_eq_ok h
  by_cases same : t = s
  · rw [if_pos same] at later
    subst same
    exact Or.inl ⟨passed, (Except.ok.inj later).symm⟩
  · rw [if_neg same] at later
    exact Or.inr ⟨t, passed, same, later⟩

theorem settle_eq_atRest_iff {n : Nat} {s t : Text} :
    (settle pass n s).result = .ok (.atRest t) ↔
      ∃ k < n, Leads pass k s t ∧ (pass t).result = .ok t := by
  induction n generalizing s with
  | zero =>
    constructor
    · intro h
      cases Except.ok.inj h
    · rintro ⟨k, below, -⟩
      omega
  | succ n ih =>
    constructor
    · intro h
      rcases settle_cases h with ⟨kept, same⟩ | ⟨u, passed, _, later⟩
      · obtain rfl := Settled.atRest.inj same
        exact ⟨0, by omega, .refl t, kept⟩
      · obtain ⟨k, below, leads, rest⟩ := ih.1 later
        exact ⟨k + 1, by omega, .step passed leads, rest⟩
    · rintro ⟨k, below, leads, rest⟩
      cases leads with
      | refl => exact settle_of_keep n rest
      | @step k _ u _ first others =>
        by_cases same : u = s
        · -- The passes rested before they came to `t`, so they never left the text.
          subst same
          rw [others.eq_of_rest first]
          exact settle_of_keep n first
        · rw [settle_of_change n first same]
          exact ih.2 ⟨k, by omega, others, rest⟩

theorem settle_eq_atCeiling_iff {n : Nat} {s t : Text} :
    (settle pass n s).result = .ok (.atCeiling t) ↔ RunsOut pass n s t := by
  induction n generalizing s with
  | zero =>
    constructor
    · intro h
      exact Settled.atCeiling.inj (Except.ok.inj h)
    · rintro rfl
      rfl
  | succ n ih =>
    constructor
    · intro h
      rcases settle_cases h with ⟨_, same⟩ | ⟨u, passed, changed, later⟩
      · cases same
      · have out := ih.1 later
        cases n with
        | zero =>
          obtain rfl : u = t := out
          exact ⟨s, .refl s, passed, changed⟩
        | succ n =>
          obtain ⟨v, leads, last, differs⟩ := out
          exact ⟨v, .step passed leads, last, differs⟩
    · rintro ⟨u, leads, last, differs⟩
      cases leads with
      | refl =>
        rw [settle_of_change 0 last differs]
        rfl
      | @step n _ v _ first others =>
        by_cases same : v = s
        · -- Had the first pass kept the text, the last one would have kept it, too.
          subst same
          rw [others.eq_of_rest first] at last differs
          exact absurd (Except.ok.inj (last.symm.trans first)) differs
        · rw [settle_of_change (n + 1) first same]
          exact ih.2 ⟨u, others, last, differs⟩

def passes (pass : Text → Traced ε Text) : Nat → Text → Except ε Text
  | 0, s => pure s
  | n + 1, s => (pass s).result >>= passes pass n

theorem passes_add (m n : Nat) (s : Text) :
    passes pass (m + n) s = passes pass m s >>= passes pass n := by
  induction m generalizing s with
  | zero => rw [Nat.zero_add, passes, pure_bind]
  | succ m ih =>
    rw [Nat.succ_add, passes, passes, bind_assoc]
    exact bind_congr ih

theorem passes_of_rest {s : Text} (rest : (pass s).result = .ok s) (n : Nat) :
    passes pass n s = .ok s := by
  induction n with
  | zero => rfl
  | succ n ih =>
    rw [passes, rest]
    exact ih

theorem leads_iff {n : Nat} {s t : Text} : Leads pass n s t ↔ passes pass n s = .ok t := by
  constructor
  · intro h
    induction h with
    | refl s => rfl
    | step first _ ih =>
      rw [passes, first]
      exact ih
  · intro h
    induction n generalizing s with
    | zero =>
      obtain rfl := Except.ok.inj h
      exact .refl s
    | succ n ih =>
      rw [passes] at h
      cases first : (pass s).result with
      | error e =>
        rw [first] at h
        cases h
      | ok u =>
        rw [first] at h
        exact .step first (ih h)

/-- Failures of passes are failures of one of them. -/
theorem exists_error_of_passes {n : Nat} {s : Text} {e : ε} (h : passes pass n s = .error e) :
    ∃ t, (pass t).result = .error e := by
  induction n generalizing s with
  | zero => cases h
  | succ n ih =>
    rw [passes] at h
    cases first : (pass s).result with
    | error d =>
      rw [first] at h
      exact ⟨s, first.trans h⟩
    | ok t =>
      rw [first] at h
      exact ih h

/-- Leaving early makes no difference to the outcome: settling gives the text that all the allowed
passes give, or fails as they do. -/
theorem text_settle (n : Nat) (s : Text) :
    Settled.text <$> (settle pass n s).result = passes pass n s := by
  induction n generalizing s with
  | zero => rfl
  | succ n ih =>
    cases first : (pass s).result with
    | error e => rw [settle, passes, Traced.result_bind, first]; rfl
    | ok t =>
      rw [passes, first]
      by_cases same : t = s
      · subst same
        rw [settle_of_keep n first]
        exact (passes_of_rest first n).symm
      · rw [settle_of_change n first same]
        exact ih t

end

namespace Context

theorem conclude_atCeiling {c : Context} {kind : Kind} {s t : Text}
    (h : (c.conclude kind (.atCeiling s)).result = .ok t) :
    s = t ∧ (c.residual kind s = [] ∨ c.strict = false) := by
  simp only [conclude] at h
  split at h
  · rename_i none_left
    exact ⟨Except.ok.inj h, Or.inl (List.isEmpty_iff.1 none_left)⟩
  · split at h
    · cases h
    · rename_i lenient
      exact ⟨Except.ok.inj h, Or.inr (Bool.eq_false_iff.2 lenient)⟩

/-- A text that repeated passes give back: a pass below the ceiling kept it, or the passes ran out
there with no registered name left or outside of strict mode. -/
theorem resolve_cases {c : Context} {kind : Kind} {s r : Text}
    (h : (c.resolve kind s).result = .ok r) :
    (∃ k < c.maxDepth.toNat, Leads (c.pass kind) k s r ∧ (c.pass kind r).result = .ok r) ∨
      RunsOut (c.pass kind) c.maxDepth.toNat s r ∧
        (c.residual kind r = [] ∨ c.strict = false) := by
  obtain ⟨settled, reached, concluded⟩ := Traced.result_bind_eq_ok h
  cases settled with
  | atRest t =>
    obtain rfl : t = r := Except.ok.inj concluded
    exact Or.inl (settle_eq_atRest_iff.1 reached)
  | atCeiling t =>
    obtain ⟨rfl, left⟩ := conclude_atCeiling concluded
    exact Or.inr ⟨settle_eq_atCeiling_iff.1 reached, left⟩

theorem conclude_lenient {c : Context} (lenient : c.strict = false) (kind : Kind) (r : Settled) :
    (c.conclude kind r).result = .ok r.text := by
  cases r with
  | atRest s => rfl
  | atCeiling s =>
    simp only [conclude, lenient]
    split
    · rfl
    · rfl

/-- Outside of strict mode, an expansion is as many passes as are allowed. -/
theorem result_resolve {c : Context} (lenient : c.strict = false) (kind : Kind) (s : Text) :
    (c.resolve kind s).result = passes (c.pass kind) c.maxDepth.toNat s := by
  rw [resolve, Traced.result_bind, ← text_settle]
  cases (settle (c.pass kind) c.maxDepth.toNat s).result with
  | error e => rfl
  | ok r => exact conclude_lenient lenient kind r

/-- Outside of strict mode, an expansion gives what as many passes as allowed lead to. -/
theorem resolve_lenient_iff {c : Context} (lenient : c.strict = false) {kind : Kind} {s r : Text} :
    (c.resolve kind s).result = .ok r ↔ Leads (c.pass kind) c.maxDepth.toNat s r := by
  rw [result_resolve lenient, leads_iff]

/-- **Strict mode and what is left.** A strict expansion that gives back a text with registered
names in it has come to rest there: a pass below the ceiling kept the text. When the passes run out
with registered names left, it fails and names them. -/
theorem resolve_strict (c : Context) (strict : c.strict = true) (kind : Kind) (s : Text) :
    (∀ r, (c.resolve kind s).result = .ok r → c.residual kind r = [] ∨
      ∃ k < c.maxDepth.toNat, Leads (c.pass kind) k s r ∧ (c.pass kind r).result = .ok r) ∧
    (∀ t, RunsOut (c.pass kind) c.maxDepth.toNat s t → c.residual kind t ≠ [] →
      (c.resolve kind s).result =
        .error (.unsettled kind.label (c.residual kind t) c.maxDepth)) := by
  constructor
  · intro r h
    rcases resolve_cases h with rest | ⟨_, none_left | lenient⟩
    · exact Or.inr rest
    · exact Or.inl none_left
    · rw [strict] at lenient
      cases lenient
  · intro t out left
    have some_left : (c.residual kind t).isEmpty = false := by simpa using left
    rw [resolve, Traced.result_bind_of_ok (settle_eq_atCeiling_iff.2 out)]
    simp only [conclude, some_left, strict, Bool.false_eq_true, if_false, if_true]
    rfl

def mutualCalls : Context where
  functions := Registry.registerAll .empty
    [⟨.function, "--a".toList, [], "result: --b();".toList⟩,
      ⟨.function, "--b".toList, [], "result: --a();".toList⟩]
  maxDepth := 1
  strict := true

theorem resolve_mutualCalls :
    mutualCalls.strict = true ∧
    (mutualCalls.resolve .function "w: --a();".toList).result =
      .error (.unsettled "function".toList ["--b".toList] 1) := by
  have passed : (mutualCalls.pass .function "w: --a();".toList).result =
      .ok "w: --b();".toList := by decide +kernel
  have left : mutualCalls.residual .function "w: --b();".toList = ["--b".toList] := by
    decide +kernel
  have out : RunsOut (mutualCalls.pass .function) mutualCalls.maxDepth.toNat "w: --a();".toList
      "w: --b();".toList := ⟨_, .refl _, passed, by decide⟩
  have failed := (resolve_strict mutualCalls rfl .function _).2 _ out (by rw [left]; simp)
  rw [left] at failed
  exact ⟨rfl, failed⟩

def selfCall : Context where
  functions := Registry.registerAll .empty
    [⟨.function, "--a".toList, [], "result: --a();".toList⟩]
  strict := true

/-- A pass over a call that gives back itself changes nothing, so the expansion is at rest at once
and gives the call back, strict as it is. -/
theorem resolve_selfCall :
    selfCall.strict = true ∧
    (selfCall.resolve .function "w: --a();".toList).result = .ok "w: --a();".toList ∧
    selfCall.residual .function "w: --a();".toList = ["--a".toList] := by
  decide +kernel

end Context

end StyleExpansion
