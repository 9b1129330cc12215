import StyleExpansion.Definition

namespace StyleExpansion

/-- The causes of a failed extraction or expansion. -/
inductive Error where
  /-- The text cannot be read, at an offset if one is known. -/
  | malformed (what : Text) (offset? : Option Int)
  /-- A function is called whose body has no result clause. -/
  | missingResult (name : Text)
  /-- The expansion of a kind did not come to rest and left these names. -/
  | unsettled (kind : Text) (names : List Text) (depth : Int)
deriving DecidableEq, Repr

namespace Error

/-- The bracket opened right before the offset is never closed. -/
def unmatched (offset : Nat) : Error := .malformed "Unmatched brace".toList (some offset)

/-- The names with commas between them, or a question mark when that is empty. -/
def nameList (names : List Text) : Text :=
  let list := Text.commaList names
  if list.isEmpty then ['?'] else list

def message : Error → Text
  | malformed what none => what
  | malformed what (some offset) => what ++ " at position ".toList ++ (toString offset).toList
  | missingResult name =>
    "Missing \"result:\" in function body of `".toList ++ name ++ "`".toList
  | unsettled kind names depth =>
    kind ++ " expansion did not settle after ".toList ++ (toString depth).toList ++
      " iterations, residual: ".toList ++ nameList names

end Error

inductive Level where
  | debug
  | warning
  | error
deriving DecidableEq, Repr

namespace Level

def label : Level → Text
  | debug => "DEBUG".toList
  | warning => "WARNING".toList
  | error => "ERROR".toList

end Level

/-- Something worth telling. -/
inductive Notice where
  /-- A text was read to its end and declared this many functions and mixins. -/
  | extracted (functions mixins : Nat)
  /-- A mixin is applied that no one declared. -/
  | unknownMixin (name : Text)
  /-- The passes ran out with these names still to expand. -/
  | ceilingReached (kind : Kind) (depth : Int) (names : List Text)
  /-- A root of a scan does not exist. -/
  | skippedRoot (path : Text)
  /-- A root of the command line does not exist; `required` when it is to be expanded. -/
  | missingRoot (path : Text) (required : Bool)
  /-- The declarations of a file cannot be read. -/
  | unreadableDeclarations (path : Text) (cause : Error)
  /-- A file cannot be expanded. -/
  | failedExpansion (path : Text) (cause : Error)
deriving DecidableEq, Repr

namespace Notice

def level : Notice → Level
  | extracted .. => .debug
  | unknownMixin _ => .warning
  | ceilingReached .. => .warning
  | skippedRoot _ => .warning
  | missingRoot _ required => if required then .error else .warning
  | unreadableDeclarations .. => .error
  | failedExpansion .. => .error

def message : Notice → Text
  | extracted functions mixins =>
    "Extracted ".toList ++ (toString functions).toList ++ " function(s) and ".toList ++
      (toString mixins).toList ++ " mixin(s)".toList
  | unknownMixin name => "Unknown mixin: ".toList ++ name
  | ceilingReached kind depth names =>
    kind.title ++ " expansion stopped after ".toList ++ (toString depth).toList ++
      " iterations, leaving: ".toList ++ Text.commaList names
  | skippedRoot path => "Cannot find path: ".toList ++ path
  | missingRoot path _ => "Could not find path: ".toList ++ path
  | unreadableDeclarations path cause =>
    "Could not extract definitions from `".toList ++ path ++ "`: ".toList ++ cause.message
  | failedExpansion path cause =>
    "Could not expand `".toList ++ path ++ "`: ".toList ++ cause.message

end Notice

/-- The outcome of a computation and the notices it gave, in order. -/
structure Traced (ε α : Type) where
  log : List Notice
  result : Except ε α

namespace Traced

variable {ε δ α β : Type}

/-- Goes on with the value, and adds to the log; a failure stays what it is. -/
def bind (x : Traced ε α) (f : α → Traced ε β) : Traced ε β :=
  match x with
  | ⟨log, .error e⟩ => ⟨log, .error e⟩
  | ⟨log, .ok a⟩ =>
    match f a with
    | ⟨more, result⟩ => ⟨log ++ more, result⟩

instance : Monad (Traced ε) where
  pure a := ⟨[], .ok a⟩
  bind := bind

instance : MonadLift (Except ε) (Traced ε) where
  monadLift x := ⟨[], x⟩

def fail (e : ε) : Traced ε α := ⟨[], .error e⟩

def note (n : Notice) : Traced ε Unit := ⟨[n], .ok ()⟩

def mapError (f : ε → δ) (x : Traced ε α) : Traced δ α := ⟨x.log, x.result.mapError f⟩

@[simp] theorem log_pure (a : α) : (pure a : Traced ε α).log = [] := rfl

@[simp] theorem result_pure (a : α) : (pure a : Traced ε α).result = .ok a := rfl

theorem result_bind (x : Traced ε α) (f : α → Traced ε β) :
    (x >>= f).result = x.result >>= fun a => (f a).result := by
  obtain ⟨log, _ | a⟩ := x
  · rfl
  · rfl

theorem result_bind_of_ok {x : Traced ε α} {f : α → Traced ε β} {a : α} (h : x.result = .ok a) :
    (x >>= f).result = (f a).result := by
  obtain ⟨log, result⟩ := x
  cases h
  rfl

theorem result_bind_eq_ok {x : Traced ε α} {f : α → Traced ε β} {b : β}
    (h : (x >>= f).result = .ok b) : ∃ a, x.result = .ok a ∧ (f a).result = .ok b := by
  obtain ⟨log, result⟩ := x
  cases result with
  | ok a => exact ⟨a, rfl, h⟩
  | error e => cases h

theorem result_bind_eq_error {x : Traced ε α} {f : α → Traced ε β} {e : ε}
    (h : (x >>= f).result = .error e) :
    x.result = .error e ∨ ∃ a, x.result = .ok a ∧ (f a).result = .error e := by
  obtain ⟨log, result⟩ := x
  cases result with
  | error d => exact .inl (congrArg _ (Except.error.inj h))
  | ok a => exact .inr ⟨a, rfl, h⟩

theorem ext {x y : Traced ε α} (log : x.log = y.log) (result : x.result = y.result) : x = y := by
  cases x; cases y; simp_all

instance : LawfulMonad (Traced ε) := LawfulMonad.mk' (Traced ε)
  (fun x => by rcases x with ⟨log, _ | a⟩ <;> simp [Functor.map, bind])
  (fun a f => by simp [Bind.bind, bind, pure])
  (fun x f g => by
    rcases x with ⟨log, e | a⟩
    · rfl
    · rcases h : f a with ⟨more, e | b⟩ <;> simp [Bind.bind, bind, h])

end Traced

/-- What a scan found, and the failure it ended with, if any. -/
structure Scan (α : Type) where
  items : List α := []
  failure? : Option Error := none
deriving DecidableEq, Repr

namespace Scan

variable {α β : Type}

def push (a : α) (s : Scan α) : Scan α := { s with items := a :: s.items }

def failed (e : Error) : Scan α := { failure? := some e }

def map (f : α → β) (s : Scan α) : Scan β := ⟨s.items.map f, s.failure?⟩

/-- All items, or the failure. -/
def toExcept (s : Scan α) : Except Error (List α) :=
  match s.failure? with
  | some e => .error e
  | none => .ok s.items

end Scan

/-- A step on a state: the state it leaves, also when it fails, and its outcome. -/
def Act (σ ε α : Type) : Type := σ → σ × Traced ε α

namespace Act

variable {σ τ ε α β : Type}

/-- Goes on with the state and the value; a failure keeps the state it left. -/
def bind (x : Act σ ε α) (f : α → Act σ ε β) : Act σ ε β := fun s =>
  match x s with
  | (t, ⟨log, .error e⟩) => (t, ⟨log, .error e⟩)
  | (t, ⟨log, .ok a⟩) =>
    match f a t with
    | (u, ⟨more, result⟩) => (u, ⟨log ++ more, result⟩)

instance : Monad (Act σ ε) where
  pure a := fun s => (s, pure a)
  bind := bind

instance : LawfulMonad (Act σ ε) := LawfulMonad.mk' (Act σ ε)
  (fun x => by
    funext s
    show bind x (fun a t => (t, pure a)) s = x s
    rcases h : x s with ⟨t, log, e | a⟩ <;> simp [bind, h])
  (fun a f => by
    funext s
    simp [Bind.bind, bind, pure])
  (fun x f g => by
    funext s
    rcases hx : x s with ⟨t, log, e | a⟩
    · simp [Bind.bind, bind, hx]
    · rcases hf : f a t with ⟨u, log', e | b⟩ <;> simp [Bind.bind, bind, hx, hf])

theorem bind_of_error {x : Act σ ε α} {s t : σ} {log : List Notice} {e : ε}
    (h : x s = (t, ⟨log, .error e⟩)) (f : α → Act σ ε β) :
    (x >>= f) s = (t, ⟨log, .error e⟩) := by
  simp only [Bind.bind, bind, h]

theorem bind_of_ok {x : Act σ ε α} {s t : σ} {log : List Notice} {a : α}
    (h : x s = (t, ⟨log, .ok a⟩)) (f : α → Act σ ε β) :
    (x >>= f) s = ((f a t).1, ⟨log ++ (f a t).2.log, (f a t).2.result⟩) := by
  simp only [Bind.bind, bind, h]

theorem bind_of_quiet {x : Act σ ε α} {s t : σ} {a : α} (h : x s = (t, ⟨[], .ok a⟩))
    (f : α → Act σ ε β) : (x >>= f) s = f a t :=
  bind_of_ok h f

def get : Act σ ε σ := fun s => (s, pure s)

def modify (f : σ → σ) : Act σ ε Unit := fun s => (f s, pure ())

def note (n : Notice) : Act σ ε Unit := fun s => (s, .note n)

def fail (e : ε) : Act σ ε α := fun s => (s, .fail e)

/-- Runs a step on a part of the state. -/
def zoom (get : σ → τ) (set : τ → σ → σ) (x : Act τ ε α) : Act σ ε α := fun s =>
  match x (get s) with
  | (t, outcome) => (set t s, outcome)

def mapError {δ : Type} (f : ε → δ) (x : Act σ ε α) : Act σ δ α := fun s =>
  match x s with
  | (t, outcome) => (t, outcome.mapError f)

/-- Runs a step on each item from first to last and gives the answers. -/
def each (f : α → Act σ ε β) : List α → Act σ ε (List β)
  | [] => return []
  | a :: as => do
    let b ← f a
    let bs ← each f as
    return b :: bs

end Act

end StyleExpansion
