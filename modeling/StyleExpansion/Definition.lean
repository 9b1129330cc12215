import StyleExpansion.Text

namespace StyleExpansion

/-- Values under distinct keys, in the order in which the keys first came. Inserting under a key
that is present replaces the value and keeps its place. -/
structure Table (κ α : Type) where
  entries : List (κ × α) := []
  nodup_keys : (entries.map Prod.fst).Nodup := by simp

namespace Table

variable {κ α : Type}

def keys (t : Table κ α) : List κ := t.entries.map Prod.fst

def values (t : Table κ α) : List α := t.entries.map Prod.snd

def size (t : Table κ α) : Nat := t.entries.length

def empty : Table κ α where

instance : Inhabited (Table κ α) := ⟨empty⟩

@[ext] theorem ext {s t : Table κ α} (h : s.entries = t.entries) : s = t := by
  cases s; cases t; simp_all

variable [DecidableEq κ]

def get? (t : Table κ α) (k : κ) : Option α :=
  (t.entries.find? fun e => e.1 = k).map Prod.snd

def contains (t : Table κ α) (k : κ) : Bool := t.entries.any fun e => e.1 = k

/-- Replaces the value under a key in its place, or puts a new key last. -/
def insertEntry (k : κ) (a : α) : List (κ × α) → List (κ × α)
  | [] => [(k, a)]
  | e :: es => if e.1 = k then (k, a) :: es else e :: insertEntry k a es

theorem keys_insertEntry (k : κ) (a : α) (es : List (κ × α)) :
    (insertEntry k a es).map Prod.fst =
      if k ∈ es.map Prod.fst then es.map Prod.fst else es.map Prod.fst ++ [k] := by
  induction es with
  | nil => simp [insertEntry]
  | cons e es ih =>
    by_cases h : e.1 = k
    · simp [insertEntry, h]
    · have h' : k ≠ e.1 := fun x => h x.symm
      by_cases m : k ∈ es.map Prod.fst <;> simp_all [insertEntry]

def insert (t : Table κ α) (k : κ) (a : α) : Table κ α where
  entries := insertEntry k a t.entries
  nodup_keys := by
    rw [keys_insertEntry]
    split
    · exact t.nodup_keys
    · rename_i new
      refine List.nodup_append.2 ⟨t.nodup_keys, by simp, ?_⟩
      intro x hx y hy
      simp only [List.mem_singleton] at hy
      exact fun same => new (hy ▸ same ▸ hx)

theorem keys_insert (t : Table κ α) (k : κ) (a : α) :
    (t.insert k a).keys = if k ∈ t.keys then t.keys else t.keys ++ [k] :=
  keys_insertEntry k a t.entries

theorem find?_insertEntry (k l : κ) (a : α) (es : List (κ × α)) :
    ((insertEntry k a es).find? fun e => e.1 = l).map Prod.snd =
      if l = k then some a else (es.find? fun e => e.1 = l).map Prod.snd := by
  induction es with
  | nil => by_cases h : l = k <;> simp [insertEntry, h, eq_comm]
  | cons e es ih =>
    by_cases he : e.1 = k
    · by_cases h : l = k
      · simp [insertEntry, he, h]
      · have hk : k ≠ l := fun x => h x.symm
        simp [insertEntry, he, h, hk]
    · by_cases hl : e.1 = l
      · have h : l ≠ k := fun x => he (hl.trans x)
        simp [insertEntry, hl, h]
      · simpa [insertEntry, he, List.find?_cons, hl] using ih

theorem get?_insert (t : Table κ α) (k l : κ) (a : α) :
    (t.insert k a).get? l = if l = k then some a else t.get? l :=
  find?_insertEntry k l a t.entries

/-- The table of the pairs, inserted from first to last. -/
def ofList (es : List (κ × α)) : Table κ α := es.foldl (fun t e => t.insert e.1 e.2) empty

end Table

structure Parameter where
  name : Text
  default? : Option Text := none
deriving DecidableEq, Repr

/-- What the references in a body stand for. A name that is bound to nothing is still bound. -/
abbrev Bindings := Table Text (Option Text)

namespace Parameter

def describe (p : Parameter) : Text :=
  "<Parameter:".toList ++ p.name ++ (p.default?.elim [] ('=' :: ·)) ++ ">".toList

/-- Each parameter with the argument at its place, else with its default. Arguments beyond the
last parameter are dropped. -/
def pairUp : List Parameter → List Text → List (Text × Option Text)
  | [], _ => []
  | p :: ps, [] => (p.name, p.default?) :: pairUp ps []
  | p :: ps, arg :: args => (p.name, some arg) :: pairUp ps args

/-- The bindings of a call. Of two parameters of one name the last gives the value. -/
def bind (ps : List Parameter) (args : List Text) : Bindings := Table.ofList (pairUp ps args)

end Parameter

inductive Kind where
  | function
  | mixin
deriving DecidableEq, Repr

namespace Kind

/-- The kind in the middle of a sentence. -/
def label : Kind → Text
  | function => ['f', 'u', 'n', 'c', 't', 'i', 'o', 'n']
  | mixin => ['m', 'i', 'x', 'i', 'n']

/-- The kind at the start of a sentence. -/
def title : Kind → Text
  | function => ['F', 'u', 'n', 'c', 't', 'i', 'o', 'n']
  | mixin => ['M', 'i', 'x', 'i', 'n']

def keyword (k : Kind) : Text := '@' :: k.label

end Kind

/-- What a definition is, and of a mixin whether it declares contents. -/
inductive Form where
  | function
  | mixin (takesContents : Bool)
deriving DecidableEq, Repr

structure Definition where
  form : Form
  name : Text
  params : List Parameter
  body : Text
deriving DecidableEq, Repr

namespace Definition

def kind (d : Definition) : Kind :=
  match d.form with
  | .function => .function
  | .mixin _ => .mixin

def takesContents (d : Definition) : Bool :=
  match d.form with
  | .function => false
  | .mixin takes => takes

def bind (d : Definition) (args : List Text) : Bindings := Parameter.bind d.params args

def describe (d : Definition) : Text :=
  '<' :: d.kind.title ++ "Definition:".toList ++ d.name ++
    '(' :: Text.commaList (d.params.map Parameter.name) ++ ")>".toList

end Definition

/-- Definitions under their names, in the order in which the names first came. -/
abbrev Registry := Table Text Definition

namespace Registry

/-- Registering a name again replaces its definition and keeps its place. -/
def register (r : Registry) (d : Definition) : Registry := r.insert d.name d

def registerAll (r : Registry) (ds : List Definition) : Registry := ds.foldl register r

def describe (r : Registry) : Text :=
  "<Registry:".toList ++ Text.commaList r.keys ++ ">".toList

end Registry

end StyleExpansion
