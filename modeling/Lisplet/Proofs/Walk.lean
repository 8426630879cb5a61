import Lisplet.Value.Realize

/-!
Walks through a sequence. Whatever a cursor answers, to realize it, to pull an iterator to its end
and to follow the cursors by hand come to the same elements: the first ones of the cursors in a row,
up to the first cursor that is empty or missing. Main statement: `all_walks_agree`.
-/

namespace Lisplet

namespace Iter

variable {σ : Type u} {α : Type v} [Cursor σ α]

/-! ## Elements by their place -/

/-- The first element of the cursor `n` steps further, if it is there and not empty. -/
def item? (it : Iter σ) (n : Nat) : Option α :=
  (it.cursor?.bind (Cursor.advance n)).bind Cursor.first?

/-- The elements at the first places, up to the first place at which there is none. -/
def AllItems (it : Iter σ) (xs : List α) : Prop := ∀ j ≤ xs.length, it.item? j = xs[j]?

/-- The elements at the first `k` places, or up to the first place at which there is none. -/
structure FirstItems (it : Iter σ) (k : Nat) (xs : List α) : Prop where
  length_le : xs.length ≤ k
  item (j : Nat) : j < xs.length → it.item? j = xs[j]?
  stop : xs.length < k → it.item? xs.length = none

/-- The elements that an iterator hands out until it has no more. -/
inductive Collects : Iter σ → List α → Prop
  | done : it.step? = none → Collects it []
  | step : it.step? = some (a, it') → Collects it' as → Collects it (a :: as)

theorem item?_zero (it : Iter σ) : it.item? 0 = it.step?.map Prod.fst := by
  rw [item?, step?]
  cases it.cursor? with
  | none => rfl
  | some c =>
    rw [Option.bind_some, Option.bind_some, Cursor.advance, Option.bind_some]
    cases Cursor.first? c <;> rfl

/-- Behind the first element the places are those of the iterator that is left. -/
theorem item?_succ {it : Iter σ} (h : it.step? = some (a, it')) (n : Nat) :
    it.item? (n + 1) = it'.item? n := by
  obtain ⟨c, hc, hstep⟩ := Option.bind_eq_some_iff.mp h
  obtain ⟨b, -, heq⟩ := Option.map_eq_some_iff.mp hstep
  cases heq
  rw [item?, hc]
  rfl

theorem allItems_nil_iff {it : Iter σ} : it.AllItems [] ↔ it.step? = none := by
  have hzero : it.item? 0 = none ↔ it.step? = none := by rw [item?_zero, Option.map_eq_none_iff]
  constructor
  · intro h
    exact hzero.mp (h 0 (Nat.le_refl 0))
  · intro h j hj
    rw [Nat.le_zero.mp hj]
    exact hzero.mpr h

theorem allItems_cons_iff {it : Iter σ} : it.AllItems (a :: as) ↔
    ∃ it', it.step? = some (a, it') ∧ it'.AllItems as := by
  constructor
  · intro h
    have hzero := h 0 (Nat.zero_le _)
    rw [item?_zero] at hzero
    obtain ⟨⟨b, it'⟩, hstep, rfl⟩ := Option.map_eq_some_iff.mp hzero
    refine ⟨it', hstep, fun j hj => ?_⟩
    rw [← item?_succ hstep]
    exact h (j + 1) (Nat.succ_le_succ hj)
  · rintro ⟨it', hstep, h⟩ j hj
    cases j with
    | zero => rw [item?_zero, hstep]; rfl
    | succ j =>
      rw [item?_succ hstep, List.getElem?_cons_succ]
      exact h j (Nat.le_of_succ_le_succ hj)

/-! ## Iterators pulled to their end -/

theorem collects_iff_allItems {it : Iter σ} : it.Collects xs ↔ it.AllItems xs := by
  constructor
  · intro h
    induction h with
    | done hstep => exact allItems_nil_iff.mpr hstep
    | step hstep _ ih => exact allItems_cons_iff.mpr ⟨_, hstep, ih⟩
  · intro h
    induction xs generalizing it with
    | nil => exact .done (allItems_nil_iff.mp h)
    | cons a as ih =>
      obtain ⟨it', hstep, h⟩ := allItems_cons_iff.mp h
      exact .step hstep (ih h)

theorem AllItems.eq {it : Iter σ} (h : it.AllItems xs) (h' : it.AllItems ys) : xs = ys := by
  induction xs generalizing it ys with
  | nil =>
    cases ys with
    | nil => rfl
    | cons b bs =>
      obtain ⟨it', hstep, -⟩ := allItems_cons_iff.mp h'
      rw [allItems_nil_iff.mp h] at hstep
      cases hstep
  | cons a as ih =>
    obtain ⟨it', hstep, has⟩ := allItems_cons_iff.mp h
    cases ys with
    | nil =>
      rw [allItems_nil_iff.mp h'] at hstep
      cases hstep
    | cons b bs =>
      obtain ⟨it'', hstep', hbs⟩ := allItems_cons_iff.mp h'
      cases hstep.symm.trans hstep'
      rw [ih has hbs]

/-- An iterator with an empty or missing cursor somewhere comes to an end. -/
theorem exists_allItems {it : Iter σ} (h : it.item? n = none) : ∃ xs, it.AllItems xs := by
  induction n generalizing it with
  | zero =>
    rw [item?_zero, Option.map_eq_none_iff] at h
    exact ⟨[], allItems_nil_iff.mpr h⟩
  | succ n ih =>
    rcases hstep : it.step? with _ | ⟨a, it'⟩
    · exact ⟨[], allItems_nil_iff.mpr hstep⟩
    · rw [item?_succ hstep] at h
      obtain ⟨xs, hxs⟩ := ih h
      exact ⟨a :: xs, allItems_cons_iff.mpr ⟨it', hstep, hxs⟩⟩

/-! ## Iterators pulled a number of times -/

theorem FirstItems.cons {it : Iter σ} (hstep : it.step? = some (a, it'))
    (h : it'.FirstItems k as) : it.FirstItems (k + 1) (a :: as) where
  length_le := Nat.succ_le_succ h.length_le
  item j hj := by
    cases j with
    | zero =>
      rw [item?_zero, hstep]
      rfl
    | succ j =>
      rw [item?_succ hstep, List.getElem?_cons_succ]
      exact h.item j (Nat.lt_of_succ_lt_succ hj)
  stop hlt := by
    rw [List.length_cons, item?_succ hstep]
    exact h.stop (Nat.lt_of_succ_lt_succ hlt)

theorem firstItems_take (it : Iter σ) (k : Nat) : it.FirstItems k (it.take k) := by
  induction k generalizing it with
  | zero =>
    exact ⟨Nat.le_refl 0, fun j hj => absurd hj (Nat.not_lt_zero j),
      fun h => absurd h (Nat.lt_irrefl 0)⟩
  | succ k ih =>
    rw [take]
    rcases hstep : it.step? with _ | ⟨a, it'⟩
    · refine ⟨Nat.zero_le _, fun j hj => absurd hj (Nat.not_lt_zero j), fun _ => ?_⟩
      exact allItems_nil_iff.mpr hstep 0 (Nat.le_refl 0)
    · exact (ih it').cons hstep

end Iter

/-! ## Cursors walked to their end -/

namespace Cursor

variable {σ : Type u} {α : Type v} [Cursor σ α]

theorem allItems_nil_iff {c : σ} : (Iter.ofCursor c).AllItems [] ↔ first? c = none := by
  rw [Iter.allItems_nil_iff, Iter.step?, Iter.ofCursor, Option.bind_some, Option.map_eq_none_iff]

theorem allItems_cons_iff {c : σ} : (Iter.ofCursor c).AllItems (a :: as) ↔
    first? c = some a ∧ (⟨next? c⟩ : Iter σ).AllItems as := by
  rw [Iter.allItems_cons_iff, Iter.step?, Iter.ofCursor, Option.bind_some]
  cases first? c <;> simp [and_assoc]

/-- Behind a missing cursor there is nothing. -/
theorem allItems_missing_iff : (⟨none⟩ : Iter σ).AllItems as ↔ as = [] := by
  have hnil : (⟨none⟩ : Iter σ).AllItems [] := Iter.allItems_nil_iff.mpr rfl
  constructor
  · exact fun h => h.eq hnil
  · rintro rfl
    exact hnil

theorem allItems_of_realize? {c : σ} (h : realize? budget c = some xs) :
    (Iter.ofCursor c).AllItems xs := by
  induction budget generalizing c xs with
  | zero => cases h
  | succ n ih =>
    rw [realize?] at h
    cases hfirst : first? c with
    | none =>
      simp only [hfirst, Option.some.injEq] at h
      exact h ▸ allItems_nil_iff.mpr hfirst
    | some a =>
      cases hnext : next? c with
      | none =>
        simp only [hfirst, hnext, Option.some.injEq] at h
        rw [← h, allItems_cons_iff, hnext]
        exact ⟨hfirst, allItems_missing_iff.mpr rfl⟩
      | some d =>
        simp only [hfirst, hnext, Option.map_eq_some_iff] at h
        obtain ⟨as, has, rfl⟩ := h
        rw [allItems_cons_iff, hnext]
        exact ⟨hfirst, ih has⟩

/-- One cursor more than there are elements is the most that has to be looked at. -/
theorem realize?_of_allItems {c : σ} (h : (Iter.ofCursor c).AllItems xs)
    (hbudget : xs.length < budget) : realize? budget c = some xs := by
  induction budget generalizing c xs with
  | zero => cases hbudget
  | succ n ih =>
    rw [realize?]
    cases xs with
    | nil => simp only [allItems_nil_iff.mp h]
    | cons a as =>
      obtain ⟨hfirst, has⟩ := allItems_cons_iff.mp h
      cases hnext : next? c with
      | none =>
        rw [hnext, allItems_missing_iff] at has
        simp only [hfirst, has]
      | some d =>
        rw [hnext] at has
        simp only [hfirst, ih has (Nat.lt_of_succ_lt_succ hbudget), Option.map_some]

end Cursor

/-! ## Values that can be walked -/

namespace Sequence

/-- Behind every place of an endless sequence there is another one. -/
theorem item?_orbit (item : Nat → α) (position n : Nat) :
    (Iter.ofCursor (orbit item position none)).item? n = some (item (position + n)) := by
  induction n generalizing position with
  | zero => rfl
  | succ n ih =>
    have hstep : (Iter.ofCursor (orbit item position none)).step? =
      some (item position, Iter.ofCursor (orbit item (position + 1) none)) := rfl
    rw [Iter.item?_succ hstep, ih, Nat.add_right_comm, Nat.add_assoc]

theorem realize?_eq_some_iff {s : Sequence α} :
    s.realize? = some xs ↔ (Iter.ofCursor s).AllItems xs := by
  have hsound {ys : List α} (h : s.realize? = some ys) : (Iter.ofCursor s).AllItems ys := by
    obtain ⟨n, -, hn⟩ := Option.bind_eq_some_iff.mp h
    exact Cursor.allItems_of_realize? hn
  refine ⟨hsound, fun h => ?_⟩
  cases s with
  | items ys =>
    rw [realize?_items, h.eq (hsound (realize?_items ys))]
  | orbit item position left =>
    cases left with
    | none =>
      have hend := h xs.length (Nat.le_refl _)
      rw [item?_orbit, List.getElem?_eq_none (Nat.le_refl _)] at hend
      cases hend
    | some n =>
      obtain ⟨ys, hys, -⟩ := realize?_orbit item position n
      rw [hys, h.eq (hsound hys)]

/-- A cursor of elements that are all there goes on as far as there are any, and it starts out even
if there are none. -/
theorem advance_items (xs : List α) (j : Nat) : Cursor.advance j (items xs) =
    if j = 0 ∨ j < xs.length then some (items (xs.drop j)) else none := by
  induction j generalizing xs with
  | zero => rfl
  | succ j ih =>
    rcases xs with _ | ⟨x, _ | ⟨y, ys⟩⟩
    · rfl
    · rw [if_neg (by simp)]
      rfl
    · change Cursor.advance j (items (y :: ys)) = _
      rw [ih, List.drop_succ_cons]
      have hiff : (j = 0 ∨ j < (y :: ys).length) ↔
          (j + 1 = 0 ∨ j + 1 < (x :: y :: ys).length) := by
        simp only [List.length_cons]
        omega
      simp only [hiff]

end Sequence

namespace Value

theorem realize_eq_ok_iff_allItems {v : Value} (h : v.asSeq? = some s) (name : String) :
    v.realize name = .ok xs ↔ (Iter.ofCursor s).AllItems xs := by
  rw [realize_eq_ok, h, ← Sequence.realize?_eq_some_iff]
  simp

/-- What stands behind the elements of a list or a vector that have been passed. -/
theorem walk_items {v : Value} (h : v.payload = list xs ∨ v.payload = vector xs) :
    (∀ name, v.realize name = .ok xs) ∧ ∃ s, v.asSeq? = some s ∧
      ∀ j, ((Cursor.advance j s).isSome ↔ j = 0 ∨ j < xs.length) ∧
        ∀ d, Cursor.advance j s = some d → ∀ i name, (seq i d).realize name = .ok (xs.drop j) := by
  have hseq : v.asSeq? = some (.items xs) :=
    asSeq?_eq_some.mpr (.inr ⟨xs, rfl, .inr h⟩)
  refine ⟨fun name => realize_eq_ok.mpr ⟨_, hseq, Sequence.realize?_items xs⟩, _, hseq, ?_⟩
  intro j
  rw [Sequence.advance_items]
  split
  case isTrue hj =>
    refine ⟨iff_of_true rfl hj, fun d hd i name => ?_⟩
    obtain rfl := Option.some.inj hd
    exact realize_eq_ok.mpr ⟨_, rfl, Sequence.realize?_items _⟩
  case isFalse hj => exact ⟨iff_of_false Bool.false_ne_true hj, fun d hd => nomatch hd⟩

end Value

/-- Every cursor that leads to an empty or missing one is realized, and its iterator pulled to the
end, with the same elements: the first ones of the cursors before. A number of pulls gives as many
of them as there are, also when there is no end. A value is realized with the elements of its
cursor. Of a list or a vector these are its items; its cursor goes as far as they do, and is itself
a sequence of those that are left. -/
theorem all_walks_agree {σ : Type u} {α : Type v} [Cursor σ α] (c : σ) :
    (∀ n, (Iter.ofCursor c).item? n = none → ∃ xs, (Iter.ofCursor c).AllItems xs ∧
      (∀ budget, xs.length < budget → Cursor.realize? budget c = some xs) ∧
      (∀ budget ys, Cursor.realize? budget c = some ys → ys = xs) ∧
      ∀ ys, (Iter.ofCursor c).Collects ys ↔ ys = xs) ∧
    (∀ k, (Iter.ofCursor c).FirstItems k ((Iter.ofCursor c).take k)) ∧
    (∀ (v : Value) s, v.asSeq? = some s → ∀ name xs,
      v.realize name = .ok xs ↔ (Iter.ofCursor s).AllItems xs) ∧
    ∀ (v : Value) xs, v.payload = .list xs ∨ v.payload = .vector xs →
      (∀ name, v.realize name = .ok xs) ∧ ∃ s, v.asSeq? = some s ∧
        ∀ j, ((Cursor.advance j s).isSome ↔ j = 0 ∨ j < xs.length) ∧
          ∀ d, Cursor.advance j s = some d →
            ∀ i name, (Value.seq i d).realize name = .ok (xs.drop j) := by
  refine ⟨fun n hn => ?_, ?_, ?_, ?_⟩
  · obtain ⟨xs, hxs⟩ := Iter.exists_allItems hn
    refine ⟨xs, hxs, ?_, ?_, ?_⟩
    · exact fun budget hbudget => Cursor.realize?_of_allItems hxs hbudget
    · exact fun budget ys hys => (Cursor.allItems_of_realize? hys).eq hxs
    · intro ys
      rw [Iter.collects_iff_allItems]
      exact ⟨fun hys => hys.eq hxs, fun heq => heq ▸ hxs⟩
  · exact Iter.firstItems_take (Iter.ofCursor c)
  · exact fun v s hs name xs => Value.realize_eq_ok_iff_allItems hs name
  · exact fun v xs hv => Value.walk_items hv

/-- An empty cursor ends a walk also when there are others behind it; nil and a marked false do not.
The cursor behind the only item of a list is missing. -/
theorem all_walks_agree_up_to_gap :
    let places : List (Option Value) :=
      [some .nil, some (.resolved (.bool false)), none, some (.int 7)]
    let _ : Cursor Nat Value := ⟨fun n => places[n]?.join, fun n => some (n + 1)⟩
    let it : Iter Nat := .ofCursor 0
    let xs : List Value := [.nil, .resolved (.bool false)]
    (it.item? 2 = none ∧ it.item? 3 = some (.int 7)) ∧
      (Cursor.realize? 3 (0 : Nat) = some xs ∧ it.Collects xs) ∧
      it.FirstItems 5 xs ∧
      ∃ s, (Value.list [.int 7]).asSeq? = some s ∧ (Cursor.advance 1 s).isSome = false := by
  intro places _ it xs
  obtain ⟨hall, hfirst, -, hitems⟩ := all_walks_agree (0 : Nat)
  have hgap : it.item? 2 = none := rfl
  obtain ⟨ys, -, -, hrealize, hcollects⟩ := hall 2 hgap
  have hxs : Cursor.realize? 3 (0 : Nat) = some xs := rfl
  obtain ⟨-, s, hs, hcursors⟩ := hitems (.list [.int 7]) [.int 7] (.inl rfl)
  refine ⟨⟨hgap, rfl⟩, ⟨hxs, (hcollects xs).mpr (hrealize 3 xs hxs)⟩, hfirst 5, s, hs, ?_⟩
  exact Bool.eq_false_iff.mpr fun h => by simpa using (hcursors 1).1.mp h

end Lisplet
