import Lisplet.Value.Text

/-!
The text of a collection under a print length. It has the texts of the elements before the print
length, and an ellipsis when there are others, with single spaces between them. It has a space in
front of the ellipsis also when no element is shown, and it has no ellipsis where elements are
counted no further. Main statement: `collection_text`.
-/

namespace Lisplet

/-! ## Requests -/

namespace Iter

variable [Cursor σ α]

/-- The cursors that are asked for their element when up to `n` elements are pulled. -/
def asked : Nat → Iter σ → List σ
  | 0, _ => []
  | n + 1, it =>
    match it.cursor? with
    | none => []
    | some c =>
      match Cursor.first? c with
      | none => [c]
      | some _ => c :: asked n ⟨Cursor.next? c⟩

theorem length_asked_le (n : Nat) (it : Iter σ) : (it.asked n).length ≤ n := by
  induction n generalizing it with
  | zero => exact Nat.le_refl 0
  | succ n ih =>
    rw [asked]
    split
    · exact Nat.zero_le _
    · split
      · exact Nat.le_add_left 1 n
      · exact Nat.succ_le_succ (ih _)

/-- What is handed out are the answers. -/
theorem take_eq_filterMap_asked (n : Nat) (it : Iter σ) :
    it.take n = (it.asked n).filterMap Cursor.first? := by
  induction n generalizing it with
  | zero => rfl
  | succ n ih =>
    rw [take, step?, asked]
    cases it.cursor? with
    | none => rfl
    | some c =>
      rw [Option.bind_some]
      cases hc : Cursor.first? c with
      | none => simp [hc]
      | some a => simp [hc, ih]

end Iter

/-! ## Elements -/

namespace Sequence

/-- The number of elements; there is none when there is no end. -/
def length? : Sequence α → Option Nat
  | items xs => some xs.length
  | orbit _ _ left => left.map (· + 1)

/-- Whether there are more than `n` elements. -/
def longerThan (n : Nat) (s : Sequence α) : Bool := s.length?.all (n < ·)

/-- The elements before position `n`; all of them when there are no more than `n`. -/
def firstItems (n : Nat) : Sequence α → List α
  | items xs => xs.take n
  | orbit item position left =>
    (List.range (left.elim n (min n <| · + 1))).map fun i => item (position + i)

theorem firstItems_orbit_succ (item : Nat → α) (position : Nat) :
    (List.range (k + 1)).map (fun i => item (position + i)) =
      item position :: (List.range k).map fun i => item (position + 1 + i) := by
  rw [List.range_succ_eq_map, List.map_cons, List.map_map]
  congr 2
  funext i
  exact congrArg item (by simp; omega)

theorem take_none (n : Nat) : Iter.take n (⟨none⟩ : Iter (Sequence α)) = [] := by
  cases n <;> rfl

/-- An iterator hands out the elements in order. -/
theorem take_eq_firstItems (n : Nat) (s : Sequence α) : s.take n = s.firstItems n := by
  induction n generalizing s with
  | zero =>
    cases s with
    | items xs => rfl
    | orbit item position left => cases left <;> simp [take, Iter.take, firstItems]
  | succ n ih =>
    match s with
    | items [] => rfl
    | items [x] =>
      change x :: Iter.take n ⟨none⟩ = x :: List.take n []
      rw [take_none, List.take_nil]
    | items (x :: y :: ys) =>
      change x :: (items (y :: ys)).take n = x :: (items (y :: ys)).firstItems n
      rw [ih]
    | orbit item position none =>
      change item position :: (orbit item (position + 1) none).take n = _
      rw [ih]
      exact (firstItems_orbit_succ item position).symm
    | orbit item position (some 0) =>
      change item position :: Iter.take n ⟨none⟩ = _
      rw [take_none, firstItems, Option.elim_some, Nat.zero_add, Nat.min_eq_right (by omega)]
      rfl
    | orbit item position (some (k + 1)) =>
      change item position :: (orbit item (position + 1) (some k)).take n = _
      rw [ih, firstItems, firstItems, Option.elim_some, Option.elim_some, Nat.add_min_add_right,
        firstItems_orbit_succ]

theorem length_firstItems (n : Nat) (s : Sequence α) :
    (s.firstItems n).length = s.length?.elim n (min n) := by
  match s with
  | items xs => exact List.length_take
  | orbit _ _ none | orbit _ _ (some k) => simp [firstItems, length?]

theorem length_firstItems_le (n : Nat) (s : Sequence α) : (s.firstItems n).length ≤ n := by
  rw [length_firstItems]
  cases s.length? with
  | none => exact Nat.le_refl n
  | some k => exact Nat.min_le_left n k

theorem length_firstItems_of_longerThan {s : Sequence α} (h : s.longerThan n) :
    (s.firstItems n).length = n := by
  rw [length_firstItems]
  rw [longerThan] at h
  cases hlength : s.length? with
  | none => rfl
  | some k =>
    rw [hlength, Option.all_some, decide_eq_true_eq] at h
    exact Nat.min_eq_left (Nat.le_of_lt h)

theorem firstItems_zero (s : Sequence α) : s.firstItems 0 = [] :=
  List.eq_nil_of_length_eq_zero (Nat.eq_zero_of_le_zero (length_firstItems_le 0 s))

theorem take_firstItems (h : m ≤ n) (s : Sequence α) :
    (s.firstItems n).take m = s.firstItems m := by
  match s with
  | items xs => rw [firstItems, firstItems, List.take_take, Nat.min_eq_left h]
  | orbit _ _ none | orbit _ _ (some k) =>
    simp [firstItems, ← List.map_take, List.take_range, ← Nat.min_assoc, Nat.min_eq_left h]

theorem lt_length_firstItems (n : Nat) (s : Sequence α) :
    n < (s.firstItems (n + 1)).length ↔ s.longerThan n := by
  rw [length_firstItems, longerThan]
  cases s.length? with
  | none => exact iff_of_true (Nat.lt_add_one n) rfl
  | some k =>
    rw [Option.elim_some, Option.all_some, decide_eq_true_eq]
    omega

end Sequence

namespace Value

/-! ## Texts of elements -/

theorem take_renderSequence (limit : Option Nat) (n : Nat) (s : Sequence Value) :
    (renderSequence limit s).take n = (s.take n).map (render limit) := by
  rw [Sequence.take_eq_firstItems, Sequence.take_eq_firstItems]
  cases s with
  | items xs => rw [renderSequence, renderAll_eq_map, Sequence.firstItems, Sequence.firstItems,
      List.map_take]
  | orbit item position left =>
    rw [renderSequence, Sequence.firstItems, Sequence.firstItems, List.map_map]
    rfl

/-! ## Collections -/

/-- The elements of a list, a vector or a host sequence. -/
def collection? (v : Value) : Option (Sequence Value) :=
  match v.payload with
  | list xs | vector xs => some (.items xs)
  | seq _ s => some s
  | _ => none

def brackets (v : Value) : String × String :=
  match v.payload with
  | vector _ => ("[", "]")
  | _ => ("(", ")")

/-- How many elements of a collection are shown at most. With no print length all elements of a
list or a vector are. -/
def shownLength (v : Value) (limit : Option Nat) : Nat :=
  match v.payload with
  | list xs | vector xs => limit.getD xs.length
  | _ => limit.getD defaultSeqLength

/-- Parts with one space between two of them, between brackets. -/
def enclosed (brackets : String × String) (parts : List String) : String :=
  brackets.1 ++ " ".intercalate parts ++ brackets.2

/-- The texts of the first `n` elements, and an ellipsis when there are more. -/
def parts (limit : Option Nat) (n : Nat) (s : Sequence Value) : List String :=
  (s.firstItems n).map (render limit) ++ if s.longerThan n then ["..."] else []

/-- The cursors that are asked for their element when at most `n` elements of a host sequence are
shown. -/
def requested (n : Nat) (s : Sequence Value) : List (Sequence Value) :=
  (Iter.ofCursor s).asked (min (n + 1) maxCount)

theorem length_requested_le (n : Nat) (s : Sequence Value) : (requested n s).length ≤ n + 1 :=
  Nat.le_trans (Iter.length_asked_le ..) (Nat.min_le_left _ maxCount)

theorem maxCount_pos : 0 < maxCount := by decide

/-! ## Parts between brackets -/

theorem bracketed_of_pos (hn : 0 < n) (texts : List String) :
    bracketed opening closing (some n) texts =
      enclosed (opening, closing) (texts.take n ++ if n < texts.length then ["..."] else []) := by
  rw [bracketed, enclosed]
  split
  case isTrue h =>
    have htake : texts.take n ≠ [] := by
      rw [ne_eq, List.take_eq_nil_iff, not_or]
      exact ⟨Nat.ne_of_gt hn, List.ne_nil_of_length_pos (Nat.lt_of_le_of_lt (Nat.zero_le n) h)⟩
    rw [String.intercalate_append_of_ne_nil htake (List.cons_ne_nil _ []),
      String.intercalate_singleton]
    simp only [String.append_assoc]
    rfl
  case isFalse => rw [List.append_nil, String.append_empty]

theorem bracketed_zero (h : texts ≠ []) :
    bracketed opening closing (some 0) texts = opening ++ " ..." ++ closing := by
  have hlength : 0 < texts.length := List.length_pos_iff.mpr h
  rw [bracketed, if_pos hlength, List.take_zero, String.intercalate_nil, String.append_empty]

theorem bracketed_none (texts : List String) :
    bracketed opening closing none texts =
      bracketed opening closing (some texts.length) texts := by
  rw [bracketed, bracketed, if_neg (Nat.lt_irrefl _), List.take_length, String.append_empty]

/-- Elements that say as much about a sequence as its text with `n` elements does. -/
def Shows (s : Sequence Value) (n : Nat) (vs : List Value) : Prop :=
  vs.take n = s.firstItems n ∧ (n < vs.length ↔ s.longerThan n)

theorem shows_items (n : Nat) (vs : List Value) : Shows (.items vs) n vs :=
  ⟨rfl, decide_eq_true_iff.symm⟩

theorem shows_firstItems_succ (s : Sequence Value) (n : Nat) :
    Shows s n (s.firstItems (n + 1)) :=
  ⟨Sequence.take_firstItems (Nat.le_succ n) s, Sequence.lt_length_firstItems n s⟩

theorem bracketed_of_shows {limit : Option Nat} (h : Shows s n vs)
    (hn : ¬(n = 0 ∧ s.longerThan 0)) :
    bracketed opening closing (some n) (vs.map (render limit)) =
      enclosed (opening, closing) (parts limit n s) := by
  obtain ⟨htake, hlonger⟩ := h
  rcases Nat.eq_zero_or_pos n with rfl | hpos
  · have hnot : ¬s.longerThan 0 := fun h => hn ⟨rfl, h⟩
    have hvs : vs = [] :=
      List.length_eq_zero_iff.mp (Nat.eq_zero_of_not_pos fun h => hnot (hlonger.mp h))
    subst hvs
    rw [parts, if_neg hnot, ← htake, bracketed, List.map_nil, List.length_nil,
      if_neg (Nat.lt_irrefl 0), String.append_empty]
    rfl
  · rw [bracketed_of_pos hpos, ← List.map_take, htake, List.length_map, parts]
    simp only [hlonger]

/-! ## Texts of collections -/

theorem collection?_eq_some {v : Value} : v.collection? = some s ↔
    (∃ i, v.payload = seq i s) ∨
      ∃ xs, s = .items xs ∧ (v.payload = list xs ∨ v.payload = vector xs) := by
  unfold collection?
  generalize v.payload = w
  cases w <;> simp [eq_comm]

theorem exists_payload_eq_seq {v : Value} (hv : v.collection? = some s) (hseq : v.ty = .seq) :
    ∃ i, v.payload = seq i s := by
  rcases collection?_eq_some.mp hv with h | ⟨xs, -, hp | hp⟩
  · exact h
  · rw [← ty_payload, hp] at hseq
    cases hseq
  · rw [← ty_payload, hp] at hseq
    cases hseq

theorem render_list {v : Value} (h : v.payload = list xs ∨ v.payload = vector xs)
    (limit : Option Nat) : v.render limit = bracketed v.brackets.1 v.brackets.2
      (some (v.shownLength limit)) (xs.map (render limit)) := by
  have hlimit (opening closing : String) : bracketed opening closing limit (renderAll limit xs) =
      bracketed opening closing (some (limit.getD xs.length)) (xs.map (render limit)) := by
    rw [renderAll_eq_map]
    cases limit with
    | none => rw [bracketed_none, List.length_map, Option.getD_none]
    | some n => rfl
  rcases h with hp | hp <;> rw [shownLength, brackets, ← render_payload, hp, render, hlimit]

theorem render_seq {v : Value} (h : v.payload = seq i s) (limit : Option Nat) :
    v.render limit = bracketed v.brackets.1 v.brackets.2 (some (v.shownLength limit))
      ((s.take (min (v.shownLength limit + 1) maxCount)).map (render limit)) := by
  rw [shownLength, brackets, ← render_payload, h, render, take_renderSequence]

theorem shownLength_le {v : Value} (h : v.payload = seq i s) (hlimit : ∀ n ∈ limit, n ≤ maxCount) :
    v.shownLength limit ≤ maxCount := by
  rw [shownLength, h]
  cases limit with
  | none => exact (by decide : defaultSeqLength ≤ maxCount)
  | some n => exact hlimit n rfl

section

variable {v : Value} {limit : Option Nat} (hv : v.collection? = some s)
include hv

/-- The ellipsis has a space in front also when it stands alone. -/
theorem render_of_none_shown (hn : v.shownLength limit = 0) (hlonger : s.longerThan 0) :
    v.render limit = v.brackets.1 ++ " ..." ++ v.brackets.2 := by
  rcases collection?_eq_some.mp hv with ⟨i, hp⟩ | ⟨xs, rfl, hp⟩
  · have hlength : 0 < (s.take 1).length :=
      s.take_eq_firstItems 1 ▸ (Sequence.lt_length_firstItems 0 s).mpr hlonger
    rw [render_seq hp, hn]
    exact bracketed_zero (mt List.map_eq_nil_iff.mp (List.ne_nil_of_length_pos hlength))
  · have hlength : 0 < xs.length := of_decide_eq_true hlonger
    rw [render_list hp, hn]
    exact bracketed_zero (mt List.map_eq_nil_iff.mp (List.ne_nil_of_length_pos hlength))

/-- Where elements are counted no further there is no ellipsis. -/
theorem render_of_not_counted (hseq : v.ty = .seq) (hn : v.shownLength limit = maxCount) :
    v.render limit = enclosed v.brackets ((s.firstItems maxCount).map (render limit)) := by
  obtain ⟨i, hp⟩ := exists_payload_eq_seq hv hseq
  have hle : (s.firstItems maxCount).length ≤ maxCount := Sequence.length_firstItems_le ..
  rw [render_seq hp, hn, Nat.min_eq_right (Nat.le_succ _), Sequence.take_eq_firstItems,
    bracketed_of_pos maxCount_pos, List.length_map, if_neg (Nat.not_lt.mpr hle), List.append_nil,
    ← List.map_take, List.take_of_length_le hle]

theorem render_eq_parts (hlimit : ∀ n ∈ limit, n ≤ maxCount)
    (hnone : ¬(v.shownLength limit = 0 ∧ s.longerThan 0))
    (hcounted : ¬(v.ty = .seq ∧ v.shownLength limit = maxCount ∧ s.longerThan maxCount)) :
    v.render limit = enclosed v.brackets (parts limit (v.shownLength limit) s) := by
  rcases collection?_eq_some.mp hv with ⟨i, hp⟩ | ⟨xs, rfl, hp⟩
  · rcases Nat.lt_or_eq_of_le (shownLength_le hp hlimit) with hlt | heq
    · rw [render_seq hp, Nat.min_eq_left hlt, Sequence.take_eq_firstItems]
      exact bracketed_of_shows (shows_firstItems_succ s _) hnone
    · have hseq : v.ty = .seq := by rw [← ty_payload, hp]; rfl
      have hlonger : ¬s.longerThan maxCount := fun h => hcounted ⟨hseq, heq, h⟩
      rw [render_of_not_counted hv hseq heq, parts, heq, if_neg hlonger, List.append_nil]
  · rw [render_list hp]
    exact bracketed_of_shows (shows_items _ xs) hnone

/-- The answers to the requests for elements are all that the text of a host sequence shows. -/
theorem render_eq_answers (hseq : v.ty = .seq) :
    v.render limit = bracketed v.brackets.1 v.brackets.2 (some (v.shownLength limit))
      (((requested (v.shownLength limit) s).filterMap Sequence.first?).map (render limit)) := by
  obtain ⟨i, hp⟩ := exists_payload_eq_seq hv hseq
  rw [render_seq hp, Sequence.take, Iter.take_eq_filterMap_asked]
  rfl

theorem render_of_firstItems_eq (hseq : v.ty = .seq) (i : Nat) {t : Sequence Value}
    (ht : t.firstItems (v.shownLength limit + 1) = s.firstItems (v.shownLength limit + 1)) :
    (seq i t).render limit = v.render limit := by
  obtain ⟨j, hp⟩ := exists_payload_eq_seq hv hseq
  have hshown : (seq i t).shownLength limit = v.shownLength limit := by
    rw [shownLength, shownLength, hp]
    rfl
  have hbrackets : (seq i t).brackets = v.brackets := by
    rw [brackets, brackets, hp]
    rfl
  have htake : t.take (min (v.shownLength limit + 1) maxCount) =
      s.take (min (v.shownLength limit + 1) maxCount) := by
    rw [Sequence.take_eq_firstItems, Sequence.take_eq_firstItems,
      ← Sequence.take_firstItems (Nat.min_le_left _ maxCount), ht,
      Sequence.take_firstItems (Nat.min_le_left _ maxCount)]
  rw [render_seq (v := seq i t) rfl, render_seq hp, hshown, hbrackets, htake]

end

theorem enclosed_ne_of_none_shown (brackets : String × String) :
    brackets.1 ++ " ..." ++ brackets.2 ≠ enclosed brackets ["..."] := by
  intro h
  have hlength := congrArg String.length h
  simp only [enclosed, String.intercalate_singleton, String.length_append] at hlength
  have hspace : " ...".length = "...".length + 1 := rfl
  omega

theorem enclosed_ne_of_not_counted (brackets : String × String) (h : texts ≠ []) :
    enclosed brackets texts ≠ enclosed brackets (texts ++ ["..."]) := by
  intro heq
  have hlength := congrArg String.length heq
  rw [enclosed, enclosed, String.intercalate_append_of_ne_nil h (List.cons_ne_nil _ [])] at hlength
  simp only [String.length_append] at hlength
  have hspace : " ".length = 1 := rfl
  omega

/-- The text of a collection `v` that has the elements `s` and shows at most `n` of them. -/
structure CollectionText (v : Value) (limit : Option Nat) (s : Sequence Value) (n : Nat) :
    Prop where
  /-- There are the texts of the first `n` elements, and an ellipsis when there are more. That fails
  when no element is shown of some, and where elements are counted no further. -/
  eq_parts_iff : v.render limit = enclosed v.brackets (parts limit n s) ↔
    ¬(n = 0 ∧ s.longerThan 0) ∧ ¬(v.ty = .seq ∧ n = maxCount ∧ s.longerThan maxCount)
  none_shown : n = 0 → s.longerThan 0 →
    v.render limit = v.brackets.1 ++ " ..." ++ v.brackets.2
  not_counted : v.ty = .seq → n = maxCount →
    v.render limit = enclosed v.brackets ((s.firstItems n).map (render limit))
  /-- The text of a host sequence is made from the answers to at most `n + 1` requests. -/
  requests : v.ty = .seq → (requested n s).length ≤ n + 1 ∧
    v.render limit = bracketed v.brackets.1 v.brackets.2 (some n)
      (((requested n s).filterMap Sequence.first?).map (render limit))
  /-- Elements of a host sequence behind the first `n + 1` make no difference. -/
  blind_to_rest : v.ty = .seq → ∀ (i : Nat) (t : Sequence Value),
    t.firstItems (n + 1) = s.firstItems (n + 1) → (seq i t).render limit = v.render limit

end Value

theorem collection_text {v : Value} {s : Sequence Value} {limit : Option Nat}
    (hv : v.collection? = some s) (hlimit : ∀ n ∈ limit, n ≤ Value.maxCount) :
    v.CollectionText limit s (v.shownLength limit) where
  none_shown := Value.render_of_none_shown hv
  not_counted hseq hn := hn ▸ Value.render_of_not_counted hv hseq hn
  requests hseq := ⟨Value.length_requested_le .., Value.render_eq_answers hv hseq⟩
  blind_to_rest hseq i t ht := Value.render_of_firstItems_eq hv hseq i ht
  eq_parts_iff := by
    refine ⟨fun h => ⟨?_, ?_⟩, fun ⟨hnone, hcounted⟩ =>
      Value.render_eq_parts hv hlimit hnone hcounted⟩
    · rintro ⟨hn, hlonger⟩
      rw [Value.render_of_none_shown hv hn hlonger, hn, Value.parts, Sequence.firstItems_zero,
        if_pos hlonger] at h
      exact Value.enclosed_ne_of_none_shown _ h
    · rintro ⟨hseq, hn, hlonger⟩
      rw [Value.render_of_not_counted hv hseq hn, hn, Value.parts, if_pos hlonger] at h
      refine Value.enclosed_ne_of_not_counted _ (List.ne_nil_of_length_pos ?_) h
      rw [List.length_map, Sequence.length_firstItems_of_longerThan hlonger]
      exact Value.maxCount_pos

theorem collection_text_endless :
    let s : Sequence Value := .orbit (fun n => .int (.ofNat n)) 0 none
    (Value.seq 0 s).collection? = some s ∧ (∀ n ∈ some 3, n ≤ Value.maxCount) ∧
      (Value.seq 0 s).render (some 3) = Value.enclosed ("(", ")") ["0", "1", "2", "..."] := by
  intro s
  have hlimit : ∀ n ∈ some 3, n ≤ Value.maxCount := by
    rintro _ ⟨⟩
    decide
  have htext := (collection_text (v := .seq 0 s) rfl hlimit).eq_parts_iff.mpr
    ⟨fun h => absurd h.1 (by decide), fun h => absurd h.2.1 (by decide)⟩
  exact ⟨rfl, hlimit, htext.trans (by decide)⟩

/-- An ellipsis that stands alone has a space between the bracket and it. -/
theorem space_before_ellipsis :
    let v : Value := .list [.int 1]
    v.render (some 0) = "( ...)" ∧
      Value.enclosed v.brackets (Value.parts (some 0) 0 (.items [.int 1])) = "(...)" ∧
      v.render (some 0) ≠ Value.enclosed v.brackets (Value.parts (some 0) 0 (.items [.int 1])) := by
  decide

end Lisplet
