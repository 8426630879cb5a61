import Mathlib
import Lisplet.Bindings
import Lisplet.Symbol.Basic
import Lisplet.Symbol.Interner

/-!
What handles stand for. A table holds each name once and never gives one up, so that a handle has
the same name for good, and two handles are the same exactly when their names are. A hash map whose
keys are handles therefore holds what bindings of symbols would. Main statement:
`interning_identifies_names`.
-/

namespace Lisplet

namespace Interner

/-! ## One name -/

/-- A name that the table holds keeps its place, any other name is added at the end. -/
theorem intern_cases (t : Interner) (name : String) :
    (∃ i, t.names[i]? = some name ∧ t.intern name = (⟨i⟩, t)) ∨
      name ∉ t.names ∧ t.intern name = (⟨t.names.length⟩, ⟨t.names ++ [name]⟩) := by
  unfold intern
  cases h : t.names.idxOf? name with
  | some i =>
    obtain ⟨hi, hname, -⟩ := List.idxOf?_eq_some_iff.mp h
    exact .inl ⟨i, by rw [List.getElem?_eq_getElem hi, hname], rfl⟩
  | none => exact .inr ⟨List.idxOf?_eq_none_iff.mp h, rfl⟩

theorem prefix_intern (t : Interner) (name : String) : t.names <+: (t.intern name).2.names := by
  rcases intern_cases t name with ⟨i, -, h⟩ | ⟨-, h⟩ <;> rw [h]
  exact List.prefix_append ..

theorem nodup_intern {t : Interner} (ht : t.names.Nodup) (name : String) :
    (t.intern name).2.names.Nodup := by
  rcases intern_cases t name with ⟨i, -, h⟩ | ⟨hname, h⟩ <;> rw [h]
  · exact ht
  · exact ht.append (List.nodup_singleton name) (List.disjoint_singleton.mpr hname)

theorem name?_intern (t : Interner) (name : String) :
    (t.intern name).2.name? (t.intern name).1 = some name := by
  rcases intern_cases t name with ⟨i, hi, h⟩ | ⟨-, h⟩ <;> rw [h]
  · exact hi
  · exact List.getElem?_concat_length

/-- A handle keeps its name when names are added. -/
theorem name?_mono {t t' : Interner} (h : t.names <+: t'.names)
    (hname : t.name? handle = some name) : t'.name? handle = some name := by
  obtain ⟨added, hadded⟩ := h
  rw [name?] at hname
  rw [name?, ← hadded, List.getElem?_append_left (List.getElem?_eq_some_iff.mp hname).1, hname]

/-- In a table without repetitions a name has one handle. -/
theorem handle_eq {t : Interner} (ht : t.names.Nodup) (h : t.name? handle = some name)
    (h' : t.name? handle' = some name) : handle = handle' := by
  obtain ⟨i⟩ := handle
  obtain ⟨j⟩ := handle'
  have hi : i < t.names.length := (List.getElem?_eq_some_iff.mp h).1
  exact congrArg Handle.mk ((List.getElem?_inj hi ht).mp (h.trans h'.symm))

/-! ## Names one after the other -/

theorem nodup_empty : empty.names.Nodup := List.nodup_nil

theorem prefix_internAll (t : Interner) (names : List String) :
    t.names <+: (t.internAll names).2.names := by
  induction names generalizing t with
  | nil => exact List.prefix_rfl
  | cons name names ih => exact (prefix_intern t name).trans (ih _)

theorem nodup_internAll {t : Interner} (ht : t.names.Nodup) (names : List String) :
    (t.internAll names).2.names.Nodup := by
  induction names generalizing t with
  | nil => exact ht
  | cons name names ih => exact ih (nodup_intern ht name)

/-- Each name gets a handle, which stands for it from then on. -/
theorem map_name?_internAll (t : Interner) (names : List String) :
    (t.internAll names).1.map (t.internAll names).2.name? = names.map some := by
  induction names generalizing t with
  | nil => rfl
  | cons name names ih =>
    rw [internAll, List.map_cons, List.map_cons, ih]
    exact congrArg (· :: _) (name?_mono (prefix_internAll _ names) (name?_intern t name))

theorem getElem?_internAll (t : Interner) (names : List String) (i : Nat) :
    (t.internAll names).1[i]?.map (t.internAll names).2.name? = names[i]?.map some := by
  rw [← List.getElem?_map, map_name?_internAll, List.getElem?_map]

/-- Handles of names that are interned one after the other are the same where the names are. -/
theorem internAll_inj {t : Interner} (ht : t.names.Nodup) (names : List String) (i j : Nat) :
    (t.internAll names).1[i]? = (t.internAll names).1[j]? ↔ names[i]? = names[j]? := by
  have hi := getElem?_internAll t names i
  have hj := getElem?_internAll t names j
  constructor
  · intro h
    rw [h, hj] at hi
    exact (Option.map_injective (Option.some_injective String) hi).symm
  · intro h
    rw [← h] at hj
    cases hname : names[i]? with
    | none =>
      rw [hname, Option.map_none, Option.map_eq_none_iff] at hi hj
      rw [hi, hj]
    | some name =>
      rw [hname, Option.map_some, Option.map_eq_some_iff] at hi hj
      obtain ⟨a, hi, ha⟩ := hi
      obtain ⟨b, hj, hb⟩ := hj
      rw [hi, hj, handle_eq (nodup_internAll ht names) ha hb]

theorem mem_group_iff {handles : List Handle} {k : Nat} :
    i ∈ handles.zipIdx.filterMap (fun (h, i) => if h = ⟨k⟩ then some i else none) ↔
      handles[i]? = some ⟨k⟩ := by
  rw [List.mem_filterMap]
  constructor
  · rintro ⟨⟨h, j⟩, hmem, hj⟩
    rw [Option.ite_none_right_eq_some, Option.some.injEq] at hj
    obtain ⟨rfl, rfl⟩ := hj
    exact List.mem_zipIdx_iff_getElem?.mp hmem
  · exact fun h => ⟨(⟨k⟩, i), List.mem_zipIdx_iff_getElem?.mpr h, if_pos rfl⟩

/-- Each position is in a group, and with it just those at which the same name stands. -/
theorem exists_group (names : List String) (h : i < names.length) :
    ∃ g ∈ groups names, ∀ j, j ∈ g ↔ names[j]? = names[i]? := by
  have hplace := getElem?_internAll empty names i
  rw [List.getElem?_eq_getElem h, Option.map_some, Option.map_eq_some_iff] at hplace
  obtain ⟨⟨k⟩, hk, hname⟩ := hplace
  have hlt := (List.getElem?_eq_some_iff.mp hname).1
  refine ⟨_, List.mem_map_of_mem (List.mem_range.mpr hlt), fun j => ?_⟩
  rw [mem_group_iff, ← hk]
  exact internAll_inj nodup_empty names j i

end Interner

/-! ## Scopes with handles for keys -/

/-- A name as it is spelled somewhere, with what it is bound to there, if anything. -/
structure Use (α : Type u) where
  name : String
  value? : Option α

namespace Use

variable {α : Type u}

/-- What a use does to bindings of symbols. -/
def bind (b : Bindings Symbol α) (u : Use α) : Bindings Symbol α :=
  match u.value? with
  | some a => b.insert ⟨u.name⟩ a
  | none => b

/-- The value in the last of the uses that bind `name`. -/
def last? (us : List (Use α)) (name : String) : Option α :=
  ((us.filter (·.name = name)).filterMap (·.value?)).getLast?

theorem last?_concat_of_some (us : List (Use α)) {u : Use α} (h : u.value? = some a) :
    last? (us ++ [u]) u.name = some a := by
  simp [last?, h]

theorem last?_concat_of_none (us : List (Use α)) {u : Use α} (h : u.value? = none)
    (name : String) : last? (us ++ [u]) name = last? us name := by
  by_cases hname : u.name = name <;> simp [last?, h, hname]

theorem last?_concat_of_ne (us : List (Use α)) {u : Use α} {name : String} (h : u.name ≠ name) :
    last? (us ++ [u]) name = last? us name := by
  simp [last?, h]

theorem get?_foldl_bind (us : List (Use α)) (name : String) :
    (us.foldl bind .empty).get? ⟨name⟩ = last? us name := by
  induction us using List.reverseRecOn with
  | nil => rfl
  | append_singleton us u ih =>
    rw [List.foldl_concat, bind]
    cases h : u.value? with
    | none => rw [last?_concat_of_none us h, ← ih]
    | some a =>
      by_cases hname : u.name = name
      · rw [← hname, last?_concat_of_some us h]
        exact Bindings.get?_insert_self ..
      · rw [last?_concat_of_ne us hname, ← ih]
        exact Bindings.get?_insert_of_ne _ a fun h => hname (congrArg Symbol.name h).symm

end Use

/-- A table, a hash map whose keys are handles, and bindings of symbols are about the same names. -/
structure Mirrors [Hashable Handle] (t : Interner) (scope : Std.HashMap Handle α)
    (b : Bindings Symbol α) : Prop where
  nodup : t.names.Nodup
  lookup (h : Handle) : scope[h]? = (t.name? h).bind fun name => b.get? ⟨name⟩
  spelled (name : String) : name ∉ t.names → b.get? ⟨name⟩ = none

section

variable [Hashable Handle] {scope : Std.HashMap Handle α}

theorem mirrors_empty : Mirrors Interner.empty (∅ : Std.HashMap Handle α) .empty where
  nodup := Interner.nodup_empty
  lookup _ := Std.HashMap.getElem?_empty
  spelled _ _ := rfl

namespace Mirrors

/-- A handle that is new by then is no key, and the name it is for is bound nowhere. -/
theorem extend (m : Mirrors t scope b) (hle : t.names <+: t'.names) (ht' : t'.names.Nodup) :
    Mirrors t' scope b where
  nodup := ht'
  lookup h := by
    rw [m.lookup h]
    cases hname : t.name? h with
    | some name => rw [Interner.name?_mono hle hname]
    | none =>
      cases hname' : t'.name? h with
      | none => rfl
      | some name =>
        refine (m.spelled name fun hmem => ?_).symm
        obtain ⟨i, hi⟩ := List.mem_iff_getElem?.mp hmem
        have hi' : t'.name? ⟨i⟩ = some name := Interner.name?_mono hle hi
        rw [Interner.handle_eq ht' hname' hi', Interner.name?, hi] at hname
        cases hname
  spelled name hname := m.spelled name fun hmem => hname (hle.subset hmem)

theorem insert (m : Mirrors t scope b) (hname : t.name? h = some name) (a : α) :
    Mirrors t (scope.insert h a) (b.insert ⟨name⟩ a) where
  nodup := m.nodup
  lookup h' := by
    rw [Std.HashMap.getElem?_insert]
    by_cases heq : h = h'
    · rw [← heq, hname, Option.bind_some, Bindings.get?_insert_self]
      simp
    · rw [if_neg (by simpa using heq), m.lookup h']
      cases hname' : t.name? h' with
      | none => rfl
      | some name' =>
        have hne : name' ≠ name := by
          rintro rfl
          exact heq (Interner.handle_eq m.nodup hname hname')
        exact (Bindings.get?_insert_of_ne b a fun h => hne (congrArg Symbol.name h)).symm
  spelled name' hname' := by
    have hne : name' ≠ name := by
      rintro rfl
      exact hname' (List.mem_of_getElem? hname)
    rw [Bindings.get?_insert_of_ne b a fun h => hne (congrArg Symbol.name h)]
    exact m.spelled name' hname'

theorem intern (m : Mirrors t scope b) (name : String) : Mirrors (t.intern name).2 scope b :=
  m.extend (Interner.prefix_intern t name) (Interner.nodup_intern m.nodup name)

theorem internAll (m : Mirrors t scope b) (names : List String) :
    Mirrors (t.internAll names).2 scope b :=
  m.extend (Interner.prefix_internAll t names) (Interner.nodup_internAll m.nodup names)

/-- Spelling a name finds the binding of its symbol. -/
theorem getElem?_intern (m : Mirrors t scope b) (name : String) :
    scope[(t.intern name).1]? = b.get? ⟨name⟩ := by
  rw [(m.intern name).lookup, Interner.name?_intern, Option.bind_some]

end Mirrors

namespace Use

/-- What a use does where names are interned: a value is kept under the handle of its name. -/
def intern (st : Interner × Std.HashMap Handle α) (u : Use α) :
    Interner × Std.HashMap Handle α :=
  let (h, t) := st.1.intern u.name
  match u.value? with
  | some a => (t, st.2.insert h a)
  | none => (t, st.2)

theorem mirrors_intern (m : Mirrors t scope b) (u : Use α) :
    Mirrors (intern (t, scope) u).1 (intern (t, scope) u).2 (u.bind b) := by
  unfold intern Use.bind
  cases u.value? with
  | none => exact m.intern u.name
  | some a => exact (m.intern u.name).insert (Interner.name?_intern t u.name) a

theorem mirrors_foldl_intern (m : Mirrors t scope b) (us : List (Use α)) :
    Mirrors (us.foldl intern (t, scope)).1 (us.foldl intern (t, scope)).2 (us.foldl bind b) := by
  induction us generalizing t scope b with
  | nil => exact m
  | cons u us ih => exact ih (mirrors_intern m u)

end Use

end

/-- Whatever names are interned, the table holds each once, and its handles are told apart as their
names are. A handle stands for the same name however many names come later. What uses of names bind
in a hash map of handles, whatever their hash, is found again when a name is spelled later: it is
the value that was bound last under that name, which bindings of symbols hold, too. -/
theorem interning_identifies_names [Hashable Handle] (names later : List String)
    (us : List (Use α)) (name : String) :
    let run := Interner.empty.internAll names
    let st := us.foldl Use.intern (.empty, ∅)
    run.2.names.Nodup ∧ run.1.map run.2.name? = names.map some ∧
      (∀ i j : Nat, run.1[i]? = run.1[j]? ↔ names[i]? = names[j]?) ∧
      (∀ h x, run.2.name? h = some x → (run.2.internAll later).2.name? h = some x) ∧
      st.2[((st.1.internAll later).2.intern name).1]? = Use.last? us name ∧
      (us.foldl Use.bind .empty).get? ⟨name⟩ = Use.last? us name := by
  have hst := (Use.mirrors_foldl_intern mirrors_empty us).internAll later
  refine ⟨Interner.nodup_internAll Interner.nodup_empty names, Interner.map_name?_internAll _ names,
    Interner.internAll_inj Interner.nodup_empty names, fun h x hname => ?_, ?_,
    Use.get?_foldl_bind us name⟩
  · exact Interner.name?_mono (Interner.prefix_internAll _ later) hname
  · rw [hst.getElem?_intern, Use.get?_foldl_bind]

/-- The empty name is a name like any other, and so is a part of a name. -/
example : (Interner.empty.internAll ["ab", "", "a", "ab", ""]).1 = [⟨0⟩, ⟨1⟩, ⟨2⟩, ⟨0⟩, ⟨1⟩] := by
  decide

end Lisplet
