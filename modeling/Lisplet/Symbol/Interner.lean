/-!
Interning: a table hands out one handle per name, so that names can be told apart by their handles
alone. A handle is the position of its name, and names are only ever added at the end.
-/

namespace Lisplet

/-- What stands for an interned name. Comparing handles does not look at names. -/
structure Handle where
  index : Nat
  deriving DecidableEq

/-- The names interned so far, in the order in which they came. -/
structure Interner where
  names : List String

namespace Interner

def empty : Interner := ⟨[]⟩

/-- The handle of `name`, new when the table does not hold the name yet. -/
def intern (t : Interner) (name : String) : Handle × Interner :=
  match t.names.idxOf? name with
  | some i => (⟨i⟩, t)
  | none => (⟨t.names.length⟩, ⟨t.names ++ [name]⟩)

/-- Interns names one after the other. -/
def internAll (t : Interner) : List String → List Handle × Interner
  | [] => ([], t)
  | name :: names =>
    let (h, t) := t.intern name
    let (hs, t) := t.internAll names
    (h :: hs, t)

def name? (t : Interner) (h : Handle) : Option String := t.names[h.index]?

/-- The positions of a list of names, those of one handle together, in the order in which the
handles were handed out by a new table. -/
def groups (names : List String) : List (List Nat) :=
  let (handles, t) := empty.internAll names
  (List.range t.names.length).map fun k =>
    handles.zipIdx.filterMap fun (h, i) => if h = ⟨k⟩ then some i else none

end Interner

end Lisplet
