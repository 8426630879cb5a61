/-!
Finite maps as lists of entries with distinct keys. Main statements: `get?_insert_self` and
`get?_insert_of_ne` say that a key has the value written last.
-/

namespace Lisplet

/-- A finite map, its entries in the order in which the keys were first written. -/
structure Bindings (κ : Type u) (α : Type v) where
  entries : List (κ × α)

namespace Bindings

variable {κ : Type u} {α : Type v} [DecidableEq κ]

def empty : Bindings κ α := ⟨[]⟩

/-- The value of the first entry for `k`. -/
def read (k : κ) : List (κ × α) → Option α
  | [] => none
  | e :: es => if k = e.1 then some e.2 else read k es

def get? (b : Bindings κ α) (k : κ) : Option α := read k b.entries

def contains (b : Bindings κ α) (k : κ) : Bool := (b.get? k).isSome

/-- The entries with the value of `k` overwritten, or with `k` added at the end. -/
def write (k : κ) (a : α) : List (κ × α) → List (κ × α)
  | [] => [(k, a)]
  | e :: es => if k = e.1 then (k, a) :: es else e :: write k a es

def insert (b : Bindings κ α) (k : κ) (a : α) : Bindings κ α := ⟨write k a b.entries⟩

def ofList (es : List (κ × α)) : Bindings κ α := es.foldl (fun b e => b.insert e.1 e.2) empty

@[simp] theorem get?_empty (k : κ) : (empty : Bindings κ α).get? k = none := rfl

@[simp] theorem get?_insert_self (b : Bindings κ α) (k : κ) (a : α) :
    (b.insert k a).get? k = some a := by
  obtain ⟨es⟩ := b
  simp only [get?, insert]
  induction es with
  | nil => simp [write, read]
  | cons e es ih => by_cases h : k = e.1 <;> simp [write, read, h, ih]

theorem get?_insert_of_ne (b : Bindings κ α) {k l : κ} (a : α) (h : l ≠ k) :
    (b.insert k a).get? l = b.get? l := by
  obtain ⟨es⟩ := b
  simp only [get?, insert]
  induction es with
  | nil => simp [write, read, h]
  | cons e es ih =>
    by_cases hk : k = e.1
    · subst hk
      simp [write, read, h]
    · simp [write, read, hk, ih]

/-- Only the last value written for a key counts. -/
@[simp] theorem insert_insert (b : Bindings κ α) (k : κ) (a a' : α) :
    (b.insert k a).insert k a' = b.insert k a' := by
  obtain ⟨es⟩ := b
  simp only [insert, mk.injEq]
  induction es with
  | nil => simp [write]
  | cons e es ih => by_cases h : k = e.1 <;> simp [write, h, ih]

/-- What a map holds was in the list it was made of. -/
theorem exists_of_get?_ofList {es : List (κ × α)} {k : κ} {a : α}
    (h : (ofList es).get? k = some a) : ∃ e ∈ es, e.2 = a := by
  suffices hb : ∀ b : Bindings κ α, (es.foldl (fun b e => b.insert e.1 e.2) b).get? k = some a →
      b.get? k = some a ∨ ∃ e ∈ es, e.2 = a from (hb _ h).resolve_left nofun
  clear h
  induction es with
  | nil => exact fun b h => .inl h
  | cons e es ih =>
    intro b h
    rcases ih _ h with h | ⟨e', he', h⟩
    · by_cases hk : k = e.1
      · rw [hk, get?_insert_self] at h
        exact .inr ⟨e, List.mem_cons_self, Option.some.inj h⟩
      · rw [get?_insert_of_ne b e.2 hk] at h
        exact .inl h
    · exact .inr ⟨e', List.mem_cons_of_mem _ he', h⟩

end Bindings

end Lisplet
