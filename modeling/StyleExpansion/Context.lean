import StyleExpansion.Pass

/-!
Contexts: the registered functions and mixins, and how far an expansion may go. Expanding only
reads a context. A text is cut at the spans of its declarations: declarations are copied or blanked,
and each piece of code between two of them is expanded on its own.
-/

namespace StyleExpansion

/-- The text that repeated passes came to, and whether the last of them changed nothing. -/
inductive Settled where
  | atRest (s : Text)
  | atCeiling (s : Text)
deriving DecidableEq, Repr

namespace Settled

def text : Settled → Text
  | atRest s => s
  | atCeiling s => s

end Settled

def defaultCeiling : Int := 10

/-- Runs the pass at most `n` times. -/
def settle {ε : Type} (pass : Text → Traced ε Text) : Nat → Text → Traced ε Settled
  | 0, s => pure (.atCeiling s)
  | n + 1, s => do
    let t ← pass s
    if t = s then return .atRest s else settle pass n t

/-- The registries, the ceiling on passes, and whether running into the ceiling is a failure. -/
structure Context where
  functions : Registry := .empty
  mixins : Registry := .empty
  maxDepth : Int := defaultCeiling
  strict : Bool := false

namespace Context

def registry (c : Context) : Kind → Registry
  | .function => c.functions
  | .mixin => c.mixins

def register (c : Context) (kind : Kind) (ds : List Definition) : Context :=
  match kind with
  | .function => { c with functions := c.functions.registerAll ds }
  | .mixin => { c with mixins := c.mixins.registerAll ds }

def pass (c : Context) (kind : Kind) (s : Text) : Traced Error Text :=
  match kind with
  | .function => ⟨[], Calls.pass c.functions s⟩
  | .mixin => Applications.pass c.mixins s

/-- The registered names of a kind that the text still uses, in code point order. -/
def residual (c : Context) (kind : Kind) (s : Text) : List Text :=
  match kind with
  | .function => Calls.residual c.functions s
  | .mixin => Applications.residual c.mixins s

/-- What comes of passes that ran into the ceiling: a failure in strict mode, else a notice, when
registered names are left. A ceiling reached with no such name is no matter. -/
def conclude (c : Context) (kind : Kind) : Settled → Traced Error Text
  | .atRest s => pure s
  | .atCeiling s =>
    let names := c.residual kind s
    if names.isEmpty then pure s
    else if c.strict then .fail (.unsettled kind.label names c.maxDepth)
    else ⟨[.ceilingReached kind c.maxDepth names], .ok s⟩

/-- Runs the passes of a kind until they change nothing or the ceiling is reached. -/
def resolve (c : Context) (kind : Kind) (s : Text) : Traced Error Text := do
  let settled ← settle (c.pass kind) c.maxDepth.toNat s
  c.conclude kind settled

/-- Expands a text: mixins first, functions after them. -/
def expand (c : Context) (s : Text) : Traced Error Text := do
  let t ← c.resolve .mixin s
  c.resolve .function t

def describe (c : Context) (title : Text) : Text :=
  '<' :: title ++ [':'] ++ (toString c.functions.size).toList ++ " functions, ".toList ++
    (toString c.mixins.size).toList ++ " mixins>".toList

/-- Registers the declarations of one kind and gives their spans. -/
def extractKind (kind : Kind) (text : Text) : Act Context Error (List Span) := fun c =>
  let scan := Declaration.scan kind text
  (c.register kind (scan.items.map Declaration.definition),
    ⟨[], (scan.map Declaration.span).toExcept⟩)

/-- Registers the declarations of a text and gives their spans, those of functions first. -/
def extract (text : Text) : Act Context Error (List Span) := do
  let functions ← extractKind .function text
  let mixins ← extractKind .mixin text
  if functions.isEmpty && mixins.isEmpty then return []
  else
    Act.note (.extracted functions.length mixins.length)
    return functions ++ mixins

end Context

inductive Segment where
  | code (s : Text)
  | declaration (s : Text)
deriving DecidableEq, Repr

namespace Segment

/-- The pieces of the text from `offset` on, where `spans` are the declarations after it. -/
def walk (text : Text) (offset : Int) : List Span → List Segment
  | [] => [.code (text.drop offset.toNat)]
  | s :: ss =>
    .code (Span.cut ⟨offset, s.start⟩ text) :: .declaration (s.cut text) :: walk text s.stop ss

def split (text : Text) (spans : List Span) : List Segment := walk text 0 (Span.merge spans)

def needsExpansion : Segment → Bool
  | .code s => !s.isEmpty
  | .declaration _ => false

/-- What is written for a piece: code expanded in the context, if there is one, and declarations
blanked, if asked for. -/
def render (context? : Option Context) (blank : Bool) : Segment → Traced Error Text
  | .code s =>
    match context? with
    | some c => c.expand s
    | none => pure s
  | .declaration s => pure (if blank then Text.newlines s else s)

end Segment

/-- What was written, and the failure that ended it, if any. -/
structure Written where
  text : Text := []
  log : List Notice := []
  failure? : Option Error := none

namespace Written

/-- Writes one piece after the other up to the first that fails. -/
def ofSegments (context? : Option Context) (blank : Bool) : List Segment → Written
  | [] => {}
  | s :: ss =>
    match s.render context? blank with
    | ⟨log, .error e⟩ => { log := log, failure? := some e }
    | ⟨log, .ok t⟩ =>
      let w := ofSegments context? blank ss
      ⟨t ++ w.text, log ++ w.log, w.failure?⟩

def toTraced (w : Written) : Traced Error Text :=
  match w.failure? with
  | some e => ⟨w.log, .error e⟩
  | none => ⟨w.log, .ok w.text⟩

end Written

def write (context? : Option Context) (blank : Bool) (text : Text) (spans : List Span) : Written :=
  Written.ofSegments context? blank (Segment.split text spans)

/-- The text with the given spans blanked and nothing expanded. -/
def blankSpans (text : Text) (spans : List Span) : Text := (write none true text spans).text

namespace Context

/-- Writes the text and gives all of it or the failure. -/
def render (c : Context) (blank : Bool) (text : Text) (spans : List Span) : Traced Error Text :=
  (write (some c) blank text spans).toTraced

/-- Expands the text outside of its declarations, which are kept. The declarations are found by a
scan of the text unless their spans are given. -/
def expandOutside (c : Context) (text : Text) (spans? : Option (List Span)) :
    Traced Error Text := do
  let spans ← (spans?.elim (Declaration.spans text) .ok : Except Error (List Span))
  c.render false text spans

/-- Registers the declarations of the text and expands it. -/
def compile (text : Text) (blank : Bool) : Act Context Error Text := do
  let spans ← extract text
  fun c => (c, c.render blank text spans)

end Context

end StyleExpansion
