import StyleExpansion.Context

/-!
The command line. A flag is written in full, by a part of its long name that fits no other flag, or
by its letter. A value stands after an equals sign, right after a letter, or in the next argument.
Letters can be joined, and all of them have to be flags. The arguments that are no flags are the
files, and they stand together: `--` ends the flags.
-/

namespace StyleExpansion

/-- What a command line asks for. A flag that is written without the value it needs leaves a gap in
the place of the value. -/
structure Options where
  files : List Text := []
  includes : List (Option Text) := []
  dependencies : List (Option Text) := []
  output? : Option Text := none
  verbose : Bool := false
  keepDefinitions : Bool := false
  maxDepth? : Option Int := some defaultCeiling
  strict : Bool := false
deriving DecidableEq, Repr

/-- Why a command line is not run: help was asked for, or it cannot be understood. -/
inductive Stop where
  | help
  | refused
deriving DecidableEq, Repr

def Stop.status : Stop → Nat
  | help => 0
  | refused => 2

inductive Flag where
  | help
  | inclusion
  | dependency
  | output
  | verbose
  | keepDefinitions
  | maxDepth
  | strict
deriving DecidableEq, Repr

namespace Flag

def all : List Flag :=
  [help, inclusion, dependency, output, verbose, keepDefinitions, maxDepth, strict]

def long : Flag → Text
  | help => "--help".toList
  | inclusion => "--include".toList
  | dependency => "--dep".toList
  | output => "--output".toList
  | verbose => "--verbose".toList
  | keepDefinitions => "--keep-definitions".toList
  | maxDepth => "--max-depth".toList
  | strict => "--strict".toList

def letter? : Flag → Option Char
  | help => some 'h'
  | inclusion => some 'I'
  | dependency => some 'd'
  | output => some 'o'
  | verbose => some 'v'
  | _ => none

def takesValue : Flag → Bool
  | inclusion | dependency | output | maxDepth => true
  | _ => false

def ofLetter? (c : Char) : Option Flag := all.find? fun f => f.letter? = some c

/-- The flag of a name in full, and whether the name is a letter. -/
def ofName? (s : Text) : Option (Flag × Bool) :=
  match s with
  | ['-', c] => (ofLetter? c).map (·, true)
  | _ => (all.find? fun f => f.long = s).map (·, false)

/-- What the flag does to the options. Inclusions and dependencies add up; of the other values the
last one holds. -/
def take (f : Flag) (value? : Option Text) (o : Options) : Except Stop Options :=
  match f with
  | help => .error .help
  | inclusion => .ok { o with includes := o.includes ++ [value?] }
  | dependency => .ok { o with dependencies := o.dependencies ++ [value?] }
  | output => .ok { o with output? := value? }
  | verbose => .ok { o with verbose := true }
  | keepDefinitions => .ok { o with keepDefinitions := true }
  | strict => .ok { o with strict := true }
  | maxDepth =>
    match value?.map Text.toInt? with
    | some none => .error .refused
    | some (some n) => .ok { o with maxDepth? := some n }
    | none => .ok { o with maxDepth? := none }

end Flag

inductive Argument where
  /-- A flag, with what is written after it in the same argument. -/
  | flag (f : Flag) (byLetter : Bool) (attached? : Option Text)
  /-- It looks like a flag, and there is none of this name. -/
  | unknown
  | plain (s : Text)
  /-- The end of the flags. -/
  | divider

namespace Argument

def dividerText : Text := ['-', '-']

/-- Whether the text is a negative number: digits after a minus, with a point before the last run
of them or without. A newline may follow. -/
def isNegativeNumber (s : Text) : Bool :=
  match s with
  | '-' :: t =>
    let body := if t.getLast? = some '\n' then t.dropLast else t
    let rest := body.dropWhile isDecimal
    if rest.isEmpty then !body.isEmpty
    else rest.head? == some '.' && !rest.tail.isEmpty && rest.tail.all isDecimal
  | _ => false

/-- What a text is that starts with a hyphen and is no flag. -/
def unmatched (s : Text) : Argument :=
  if isNegativeNumber s || s.contains ' ' then .plain s else .unknown

/-- What an argument before the divider is. -/
def classify (s : Text) : Except Stop Argument :=
  if s.head? ≠ some '-' then .ok (.plain s)
  else
    match Flag.ofName? s with
    | some (f, byLetter) => .ok (.flag f byLetter none)
    | none =>
      if s.length = 1 then .ok (.plain s)
      else
        let name := s.takeWhile (· ≠ '=')
        let attached? : Option Text :=
          if s.contains '=' then some (s.dropWhile (· ≠ '=')).tail else none
        match attached?, Flag.ofName? name with
        | some attached, some (f, byLetter) => .ok (.flag f byLetter (some attached))
        | _, _ =>
          if dividerText.isPrefixOf s then
            match Flag.all.filter fun f => name.isPrefixOf f.long with
            | [] => .ok (unmatched s)
            | [f] => .ok (.flag f false attached?)
            | _ => .error .refused
          else
            match s.tail.head?.bind Flag.ofLetter? with
            | some f => .ok (.flag f true (some (s.drop 2)))
            | none => .ok (unmatched s)

/-- What the arguments are. All arguments after the divider are plain. -/
def classifyAll : List Text → Except Stop (List Argument)
  | [] => .ok []
  | s :: ss =>
    if s = dividerText then .ok (.divider :: ss.map .plain)
    else
      match classify s with
      | .error e => .error e
      | .ok a => (classifyAll ss).map (a :: ·)

def text? : Argument → Option Text
  | plain s => some s
  | divider => some dividerText
  | _ => none

end Argument

/-- The flags that one argument stands for, each with its value. -/
structure Joined where
  taken : List (Flag × Option Text) := []
  /-- Whether the value of the last flag is the next argument. -/
  usesNext : Bool := false

namespace Joined

/-- The value that is written in the argument of its flag. The divider stands for no value, as in
option readers up to release 3.11.7; later ones take it for the value. -/
def value? (s : Text) : Option Text := if s = Argument.dividerText then none else some s

/-- Takes the letters of an argument apart, from the flag `f` on. `attached` says whether something
is written after the flag, be it empty, and `next?` is the next argument if it can be a value. A
letter after a flag without a value is a flag again. -/
def read (next? : Option Text) (f : Flag) (byLetter attached : Bool) : Text → Except Stop Joined
  | [] =>
    if f.takesValue then
      if attached then .ok { taken := [(f, some [])] }
      else
        match next? with
        | some value => .ok { taken := [(f, some value)], usesNext := true }
        | none => .error .refused
    else if attached then .error .refused
    else .ok { taken := [(f, none)] }
  | c :: rest =>
    if f.takesValue then .ok { taken := [(f, value? (c :: rest))] }
    else if !byLetter then .error .refused
    else
      match Flag.ofLetter? c with
      | none => .error .refused
      | some g =>
        (read next? g true false rest).map fun j => { j with taken := (f, none) :: j.taken }

end Joined

namespace Options

/-- The options so far, whether the files were met, and whether something was left over. -/
structure Progress where
  options : Options := {}
  filesMet : Bool := false
  leftover : Bool := false

def takeAll (o : Options) (taken : List (Flag × Option Text)) : Except Stop Options :=
  taken.foldlM (fun o p => p.1.take p.2 o) o

def advance (p : Progress) : List Argument → Except Stop Progress
  | [] => .ok p
  | .unknown :: rest => advance { p with leftover := true } rest
  | .flag f byLetter attached? :: rest => do
    let next? := rest.head?.bind fun
      | .plain s => some s
      | _ => none
    let joined ← Joined.read next? f byLetter attached?.isSome (attached?.getD [])
    let options ← takeAll p.options joined.taken
    advance { p with options := options } (if joined.usesNext then rest.tail else rest)
  | a :: rest =>
    let group := (a :: rest).map Argument.text? |>.takeWhile Option.isSome |>.filterMap id
    let after := rest.drop (group.length - 1)
    if p.filesMet then advance { p with leftover := true } after
    else
      advance { p with
        options := { p.options with files := group.erase Argument.dividerText }
        filesMet := true } after
termination_by as => as.length
decreasing_by
  · simp
  · split <;> simp only [List.length_tail, List.length_cons] <;> omega
  · simp only [List.length_drop, List.length_cons]; omega
  · simp only [List.length_drop, List.length_cons]; omega

def parse (args : List Text) : Except Stop Options := do
  let classified ← Argument.classifyAll args
  let p ← advance {} classified
  if p.leftover then .error .refused else .ok p.options

end Options

end StyleExpansion
