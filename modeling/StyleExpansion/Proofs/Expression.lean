import StyleExpansion.Pass
import StyleExpansion.Proofs.Search

/-!
Expressions over stratified functions, and what they evaluate to. An expression is a sequence of
words, references and calls; a function is a template over its parameters, each with a default, that
calls functions of smaller rank only. `Library.Evaluates` is call by name, on the trees: a call
evaluates to what its template evaluates to when the arguments stand in it as they are.

`Library.step` is what one pass does to a tree: all outermost calls are unfolded at once. The result
here is `Library.halts`: the steps reach the value of every closed expression. A step copies
arguments that are not evaluated, so neither the size nor the number of calls goes down; the proof
is by reducibility, first over the rank of functions and then over templates.
-/

namespace StyleExpansion

/-- A sequence of words, references and calls. -/
inductive Expr where
  | word (w : Text)
  | ref (p : Text)
  | call (g : Text) (args : List Expr)
  | seq (a b : Expr)

/-- A text with a character in it, but no blank, bracket, comma, semicolon or hyphen. -/
def IsPlainWord (w : Text) : Prop :=
  w ≠ [] ∧ ∀ c ∈ w, isPlain c ∧ isBlank c = false ∧ c ≠ ',' ∧ c ≠ ';' ∧ c ≠ '-'

theorem isPlainWord_iff {w : Text} : IsPlainWord w ↔ w ≠ [] ∧
    w.all fun c => isPlain c && !isBlank c && c != ',' && c != ';' && c != '-' := by
  simp [IsPlainWord, and_assoc]

instance (w : Text) : Decidable (IsPlainWord w) := decidable_of_iff _ isPlainWord_iff.symm

namespace Expr

/-- The expression as written, with spaces in sequences and commas between arguments. -/
def render : Expr → Text
  | word w => w
  | ref p => Calls.parameterFunction ++ '(' :: p ++ [')']
  | call g args => g ++ '(' :: Text.commaList (args.map render) ++ [')']
  | seq a b => render a ++ ' ' :: render b

def subst (σ : Text → Expr) : Expr → Expr
  | word w => word w
  | ref p => σ p
  | call g args => call g (args.map (subst σ))
  | seq a b => seq (subst σ a) (subst σ b)

/-- The words are plain, and all names come from what is given. -/
inductive Over (calls params : Text → Prop) : Expr → Prop
  | word {w : Text} (plain : IsPlainWord w) : Over calls params (word w)
  | ref {p : Text} (known : params p) : Over calls params (ref p)
  | call {g : Text} {args : List Expr} (known : calls g) (each : ∀ a ∈ args, Over calls params a) :
    Over calls params (call g args)
  | seq {a b : Expr} (left : Over calls params a) (right : Over calls params b) :
    Over calls params (seq a b)

variable {calls calls' params params' : Text → Prop} {e : Expr} {σ : Text → Expr}

theorem Over.subst (h : e.Over calls params) (more : ∀ g, calls g → calls' g)
    (hσ : ∀ p, params p → (σ p).Over calls' params') : (e.subst σ).Over calls' params' := by
  induction h with
  | word plain => simpa only [Expr.subst] using Over.word plain
  | ref known => simpa only [Expr.subst] using hσ _ known
  | call known _ ih =>
    rw [Expr.subst]
    refine .call (more _ known) fun a ha => ?_
    obtain ⟨b, hb, rfl⟩ := List.mem_map.1 ha
    exact ih b hb
  | seq _ _ left right =>
    rw [Expr.subst]
    exact .seq left right

/-- An expression without references stays what it is. -/
theorem Over.subst_eq (h : e.Over calls fun _ => False) (σ : Text → Expr) : e.subst σ = e := by
  induction h with
  | word plain => rw [Expr.subst]
  | ref known => exact known.elim
  | call known _ ih => rw [Expr.subst, List.map_congr_left ih, List.map_id']
  | seq _ _ left right => rw [Expr.subst, left, right]

end Expr

/-- A function: parameters, each with a default, and the template of its result. -/
structure Rule where
  name : Text
  params : List (Text × Expr)
  result : Expr

namespace Rule

/-- Each parameter with the argument at its place, else with its default. -/
def pairs : List (Text × Expr) → List Expr → List (Text × Expr)
  | [], _ => []
  | p :: ps, [] => p :: pairs ps []
  | p :: ps, a :: as => (p.1, a) :: pairs ps as

def binding (r : Rule) (args : List Expr) (p : Text) : Expr :=
  ((pairs r.params args).lookup p).getD (.ref p)

/-- The template with the arguments, as they are, in place of the parameters. -/
def instantiate (r : Rule) (args : List Expr) : Expr := r.result.subst (r.binding args)

def definition (r : Rule) : Definition where
  form := .function
  name := r.name
  params := r.params.map fun p => ⟨p.1, some p.2.render⟩
  body := "result: ".toList ++ r.result.render ++ [';']

theorem keys_pairs (ps : List (Text × Expr)) (args : List Expr) :
    (pairs ps args).map Prod.fst = ps.map Prod.fst := by
  induction ps generalizing args with
  | nil => rfl
  | cons p ps ih => cases args <;> simp [pairs, ih]

theorem mem_pairs {ps : List (Text × Expr)} {args : List Expr} {q : Text × Expr}
    (h : q ∈ pairs ps args) : q.2 ∈ args ∨ q ∈ ps := by
  induction ps generalizing args with
  | nil => cases h
  | cons p ps ih =>
    cases args with
    | nil =>
      rcases List.mem_cons.1 h with rfl | h
      · exact Or.inr List.mem_cons_self
      · exact Or.inr (List.mem_cons_of_mem p ((ih h).resolve_left List.not_mem_nil))
    | cons a args =>
      rcases List.mem_cons.1 h with rfl | h
      · exact Or.inl List.mem_cons_self
      · exact (ih h).imp (List.mem_cons_of_mem a) (List.mem_cons_of_mem p)

theorem binding_mem (r : Rule) (args : List Expr) {p : Text} (h : p ∈ r.params.map Prod.fst) :
    (p, r.binding args p) ∈ pairs r.params args := by
  rw [← keys_pairs r.params args] at h
  have found : ((pairs r.params args).lookup p).isSome := by
    simpa [List.lookup_isSome_iff] using h
  obtain ⟨e, he⟩ := Option.isSome_iff_exists.1 found
  have same : r.binding args p = e := by simp [binding, he]
  obtain ⟨l, m, split, -⟩ := List.lookup_eq_some_iff.1 he
  rw [same, split]
  simp

end Rule

/-- Functions under distinct names, each calling functions of smaller rank only. -/
structure Library where
  rules : List Rule
  rank : Text → Nat
  isName : ∀ r ∈ rules, IsName r.name
  nodup : (rules.map Rule.name).Nodup
  params_isName : ∀ r ∈ rules, ∀ p ∈ r.params, IsName p.1
  params_nodup : ∀ r ∈ rules, (r.params.map Prod.fst).Nodup
  result_over : ∀ r ∈ rules, r.result.Over
    (fun g => ∃ s ∈ rules, s.name = g ∧ rank g < rank r.name) (· ∈ r.params.map Prod.fst)
  default_over : ∀ r ∈ rules, ∀ p ∈ r.params, p.2.Over
    (fun g => ∃ s ∈ rules, s.name = g ∧ rank g < rank r.name) fun _ => False

namespace Library

def registry (L : Library) : Registry :=
  Registry.registerAll .empty (L.rules.map Rule.definition)

def Closed (L : Library) (e : Expr) : Prop :=
  e.Over (fun g => ∃ r ∈ L.rules, r.name = g) fun _ => False

/-- Call by name: a call has the value of its template with the arguments put in as they are. -/
inductive Evaluates (L : Library) : Expr → Expr → Prop
  | word (w : Text) : Evaluates L (.word w) (.word w)
  | seq {a b v w : Expr} (left : Evaluates L a v) (right : Evaluates L b w) :
    Evaluates L (.seq a b) (.seq v w)
  | call {r : Rule} {args : List Expr} {v : Expr} (known : r ∈ L.rules)
    (unfolded : Evaluates L (r.instantiate args) v) : Evaluates L (.call r.name args) v

/-- The outermost calls unfolded, all at once. -/
def step (L : Library) : Expr → Expr
  | .word w => .word w
  | .ref p => .ref p
  | .call g args =>
    match L.rules.find? fun r => r.name = g with
    | some r => r.instantiate args
    | none => .call g args
  | .seq a b => .seq (step L a) (step L b)

variable {L : Library} {e : Expr}

theorem rule_unique {r s : Rule} (hr : r ∈ L.rules) (hs : s ∈ L.rules) (h : r.name = s.name) :
    r = s :=
  List.inj_on_of_nodup_map L.nodup hr hs h

theorem step_call {r : Rule} (hr : r ∈ L.rules) (args : List Expr) :
    L.step (.call r.name args) = r.instantiate args := by
  have found : (L.rules.find? fun s => s.name = r.name) = some r := by
    cases h : L.rules.find? fun s => s.name = r.name with
    | none => simpa using List.find?_eq_none.1 h r hr
    | some s =>
      have same : s.name = r.name := by simpa using List.find?_some h
      rw [rule_unique (List.mem_of_find?_eq_some h) hr same]
  simp only [step, found]

theorem Evaluates.unique {v w : Expr} (hv : L.Evaluates e v) (hw : L.Evaluates e w) : v = w := by
  induction hv generalizing w with
  | word => cases hw; rfl
  | seq _ _ left right =>
    cases hw with
    | seq left' right' => rw [left left', right right']
  | @call r args v known _ ih =>
    generalize same : Expr.call r.name args = e at hw
    cases hw with
    | word => cases same
    | seq => cases same
    | call known' unfolded =>
      obtain ⟨name, rfl⟩ := Expr.call.inj same
      obtain rfl := rule_unique known known' name
      exact ih unfolded

/-- A value has no call to unfold. -/
theorem Evaluates.step_value {v : Expr} (h : L.Evaluates e v) : L.step v = v := by
  induction h with
  | word => rw [step]
  | seq _ _ left right => rw [step, left, right]
  | call _ _ ih => exact ih

theorem Closed.instantiate {r : Rule} (hr : r ∈ L.rules) {args : List Expr}
    (closed : ∀ a ∈ args, L.Closed a) : L.Closed (r.instantiate args) := by
  have registered : ∀ g, (∃ s ∈ L.rules, s.name = g ∧ L.rank g < L.rank r.name) →
      ∃ s ∈ L.rules, s.name = g := fun g ⟨s, hs, name, _⟩ => ⟨s, hs, name⟩
  refine (L.result_over r hr).subst registered fun p hp => ?_
  rcases Rule.mem_pairs (r.binding_mem args hp) with given | default
  · exact closed _ given
  · have formed := L.default_over r hr _ default
    have : L.Closed ((r.binding args p).subst .ref) := formed.subst registered fun _ => False.elim
    rwa [formed.subst_eq] at this

theorem Closed.step (h : L.Closed e) : L.Closed (L.step e) := by
  induction h with
  | word plain => rw [Library.step]; exact .word plain
  | ref known => exact known.elim
  | call known each _ =>
    obtain ⟨r, hr, rfl⟩ := known
    rw [step_call hr]
    exact Closed.instantiate hr each
  | seq _ _ left right => rw [Library.step]; exact .seq left right

def Halts (L : Library) (e : Expr) : Prop := ∃ n v, L.step^[n] e = v ∧ L.Evaluates e v

theorem iterate_seq (n : Nat) (a b : Expr) :
    L.step^[n] (.seq a b) = .seq (L.step^[n] a) (L.step^[n] b) := by
  induction n generalizing a b with
  | zero => rfl
  | succ n ih => simp only [Function.iterate_succ_apply, step, ih]

theorem iterate_of_value {v : Expr} {n : Nat} (reached : L.step^[n] e = v) (value : L.step v = v)
    (m : Nat) : L.step^[m + n] e = v := by
  rw [Function.iterate_add_apply, reached, Function.iterate_fixed value]

theorem halts_seq {a b : Expr} (ha : L.Halts a) (hb : L.Halts b) : L.Halts (.seq a b) := by
  obtain ⟨n, v, reached_v, hv⟩ := ha
  obtain ⟨m, w, reached_w, hw⟩ := hb
  refine ⟨m + n, .seq v w, ?_, .seq hv hw⟩
  rw [iterate_seq, iterate_of_value reached_v hv.step_value, Nat.add_comm,
    iterate_of_value reached_w hw.step_value]

theorem halts_call {r : Rule} (hr : r ∈ L.rules) {args : List Expr}
    (h : L.Halts (r.instantiate args)) : L.Halts (.call r.name args) := by
  obtain ⟨n, v, reached, hv⟩ := h
  refine ⟨n + 1, v, ?_, .call hr hv⟩
  rw [Function.iterate_succ_apply, step_call hr, reached]

/-- A template halts for values of its parameters that halt, when calls of its functions do. -/
theorem halts_subst {calls params : Text → Prop} {σ : Text → Expr} (h : e.Over calls params)
    (heads : ∀ g, calls g → ∀ args, (∀ a ∈ args, L.Halts a) → L.Halts (.call g args))
    (hσ : ∀ p, params p → L.Halts (σ p)) : L.Halts (e.subst σ) := by
  induction h with
  | @word w plain =>
    rw [Expr.subst]
    exact ⟨0, .word w, rfl, .word w⟩
  | ref known =>
    rw [Expr.subst]
    exact hσ _ known
  | call known _ ih =>
    rw [Expr.subst]
    refine heads _ known _ fun a ha => ?_
    obtain ⟨b, hb, rfl⟩ := List.mem_map.1 ha
    exact ih b hb
  | seq _ _ left right =>
    rw [Expr.subst]
    exact halts_seq left right

theorem halts_of_args {r : Rule} (hr : r ∈ L.rules) {args : List Expr}
    (halting : ∀ a ∈ args, L.Halts a) : L.Halts (.call r.name args) := by
  -- The functions that the template and the defaults call have smaller rank.
  induction rank : L.rank r.name using Nat.strongRecOn generalizing r args with
  | _ n ih =>
    have heads : ∀ g, (∃ s ∈ L.rules, s.name = g ∧ L.rank g < L.rank r.name) →
        ∀ args, (∀ a ∈ args, L.Halts a) → L.Halts (.call g args) := by
      rintro g ⟨s, hs, rfl, below⟩ args halting
      exact ih _ (rank ▸ below) hs halting rfl
    refine halts_call hr (halts_subst (L.result_over r hr) heads fun p hp => ?_)
    rcases Rule.mem_pairs (r.binding_mem args hp) with given | default
    · exact halting _ given
    · have formed := L.default_over r hr _ default
      have := halts_subst (σ := .ref) formed heads fun _ => False.elim
      rwa [formed.subst_eq] at this

/-- **The steps reach the value** of every closed expression. -/
theorem halts (closed : L.Closed e) : L.Halts e := by
  have heads : ∀ g, (∃ r ∈ L.rules, r.name = g) →
      ∀ args, (∀ a ∈ args, L.Halts a) → L.Halts (.call g args) := by
    rintro g ⟨r, hr, rfl⟩ args halting
    exact halts_of_args hr halting
  have := halts_subst (σ := .ref) closed heads fun _ => False.elim
  rwa [closed.subst_eq] at this

end Library

end StyleExpansion
