import Mathlib
import Lisplet.Proofs.Equality
import Lisplet.Value.Text

/-!
Unique readability. Words, strings, lists and vectors are written so that the text shows where each
of them ends, whatever stands behind it. So the text in full tells everything about such a value
that equality compares. Main statement: `same_text_iff_equal`.
-/

namespace Lisplet

/-- What is written without brackets and quotes. -/
inductive Word where
  | nil
  | bool (b : Bool)
  | integer (n : Int)

namespace Value

/-- Values that their text tells. Floats, names, types and whatever a host makes are not among
them. -/
inductive Readable : Value → Prop
  | nil : Readable nil
  | bool : Readable (bool b)
  | int : Readable (int n)
  | big : Readable (big n)
  | string : Readable (string s)
  | list : (∀ v ∈ vs, Readable v) → Readable (list vs)
  | vector : (∀ v ∈ vs, Readable v) → Readable (vector vs)
  | resolved : Readable v → Readable (resolved v)

/-- The text of a value in full. -/
def chars (v : Value) : List Char := (v.render none).toList

/-- The word that a value is. -/
def word? (v : Value) : Option Word :=
  match v.payload with
  | nil => some .nil
  | bool b => some (.bool b)
  | int n => some (.integer n.toInt)
  | big n => some (.integer n)
  | _ => none

end Value

/-! ## Words -/

namespace Word

def text : Word → List Char
  | nil => ['n', 'i', 'l']
  | bool true => ['t', 'r', 'u', 'e']
  | bool false => ['f', 'a', 'l', 's', 'e']
  | integer n => n.repr.toList

/-- The characters that words are made of. -/
def isLetter (c : Char) : Bool := c.isAlphanum || c == '-'

theorem isDigit_or_minus {n : Int} (h : c ∈ n.repr.toList) : c.isDigit ∨ c = '-' := by
  have hdigits {m : Nat} (h : c ∈ m.repr.toList) : c.isDigit :=
    Nat.isDigit_of_mem_toDigits (by decide) (by decide) (Nat.toList_repr ▸ h)
  cases n with
  | ofNat m => exact .inl (hdigits h)
  | negSucc m =>
    rw [Int.repr, String.toList_append, List.mem_append] at h
    exact h.symm.imp hdigits List.mem_singleton.mp

theorem isLetter_of_mem : (w : Word) → ∀ c ∈ text w, isLetter c
  | nil | bool true | bool false => List.all_eq_true.mp rfl
  | integer n => fun c hc => by
    rcases isDigit_or_minus hc with hdigit | rfl
    · simp [isLetter, Char.isAlphanum, hdigit]
    · rfl

theorem text_ne_nil (w : Word) : text w ≠ [] := by
  cases w with
  | nil => nofun
  | bool b => cases b <;> nofun
  | integer n => cases n <;> simp [text, Int.repr]

/-- A text with another character in it is not that of an integer. -/
theorem text_ne_integer (hmem : c ∈ cs) (hdigit : ¬c.isDigit) (hminus : c ≠ '-') :
    cs ≠ text (integer n) := by
  rintro rfl
  exact (isDigit_or_minus hmem).elim hdigit hminus

theorem text_inj {w w' : Word} (h : text w = text w') : w = w' := by
  have hnil {n : Int} : text nil ≠ text (integer n) :=
    text_ne_integer (c := 'l') (by simp [text]) nofun nofun
  have hbool {b : Bool} {n : Int} : text (bool b) ≠ text (integer n) :=
    text_ne_integer (c := 'e') (by cases b <;> simp [text]) nofun nofun
  cases w with
  | nil =>
    cases w' with
    | nil => rfl
    | bool b => cases b <;> cases h
    | integer n => exact absurd h hnil
  | bool b =>
    cases w' with
    | nil => cases b <;> cases h
    | bool b' =>
      cases b with
      | true =>
        cases b' with
        | true => rfl
        | false => cases h
      | false =>
        cases b' with
        | true => cases h
        | false => rfl
    | integer n => exact absurd h hbool
  | integer n =>
    cases w' with
    | nil => exact absurd h.symm hnil
    | bool b => exact absurd h.symm hbool
    | integer m => rw [Int.repr_inj.mp (String.toList_inj.mp h)]

/-- What can stand behind a part of a text: nothing, a space or a closing bracket. -/
def Stops (r : List Char) : Prop := ∀ c ∈ r.head?, isLetter c = false

theorem stops_nil : Stops [] := by
  rintro _ ⟨⟩

theorem takeWhile_text (w : Word) (hr : Stops r) : (text w ++ r).takeWhile isLetter = text w := by
  have hstop : r.takeWhile isLetter = [] := by
    cases r with
    | nil => rfl
    | cons c r => rw [List.takeWhile_cons, hr c rfl, if_neg Bool.false_ne_true]
  rw [List.takeWhile_append_of_pos (isLetter_of_mem w), hstop, List.append_nil]

theorem text_append_inj {w w' : Word} (hr : Stops r) (hr' : Stops r')
    (h : text w ++ r = text w' ++ r') : w = w' ∧ r = r' := by
  have htext : text w = text w' := by rw [← takeWhile_text w hr, h, takeWhile_text w' hr']
  rw [htext] at h
  exact ⟨text_inj htext, List.append_cancel_left h⟩

/-- A word is told from what has a bracket or a quote in front. -/
theorem text_append_ne (w : Word) (hc : isLetter c = false) : text w ++ r ≠ c :: x := by
  cases htext : text w with
  | nil => exact absurd htext (text_ne_nil w)
  | cons d ds =>
    have hd : isLetter d := isLetter_of_mem w d (htext ▸ List.mem_cons_self)
    rintro ⟨⟩
    rw [hc] at hd
    cases hd

end Word

/-! ## Strings -/

/-- The character that stands behind a backslash for another one. -/
def unescape : Char → Char
  | 'n' => '\n'
  | 't' => '\t'
  | 'r' => '\r'
  | c => c

theorem escape_cases (c : Char) : Value.escape c = [c] ∧ c ≠ '\\' ∧ c ≠ '"' ∨
    ∃ e, Value.escape c = ['\\', e] ∧ unescape e = c := by
  unfold Value.escape
  split
  case h_6 hbackslash hquote => exact .inl ⟨rfl, hbackslash, hquote⟩
  all_goals exact .inr ⟨_, rfl, rfl⟩

theorem escape_append_inj (h : Value.escape c ++ x = Value.escape d ++ y) : c = d ∧ x = y := by
  rcases escape_cases c with ⟨hc, hc', -⟩ | ⟨e, hc, rfl⟩ <;>
    rcases escape_cases d with ⟨hd, hd', -⟩ | ⟨e', hd, rfl⟩ <;> rw [hc, hd] at h
  · exact List.cons.inj h
  · exact absurd (List.cons.inj h).1 hc'
  · exact absurd (List.cons.inj h).1.symm hd'
  · obtain ⟨rfl, rfl⟩ := List.cons.inj (List.cons.inj h).2
    exact ⟨rfl, rfl⟩

/-- No escaped character begins with the closing quote. -/
theorem escape_append_ne (c : Char) : Value.escape c ++ x ≠ '"' :: y := by
  rcases escape_cases c with ⟨hc, -, hquote⟩ | ⟨e, hc, -⟩ <;> rw [hc]
  · exact fun h => hquote (List.cons.inj h).1
  · exact nofun

theorem escaped_append_inj {cs ds : List Char}
    (h : cs.flatMap Value.escape ++ '"' :: r = ds.flatMap Value.escape ++ '"' :: r') :
    cs = ds ∧ r = r' := by
  induction cs generalizing ds with
  | nil =>
    cases ds with
    | nil => exact ⟨rfl, (List.cons.inj h).2⟩
    | cons d ds =>
      rw [List.flatMap_cons, List.append_assoc] at h
      exact absurd h.symm (escape_append_ne d)
  | cons c cs ih =>
    cases ds with
    | nil =>
      rw [List.flatMap_cons, List.append_assoc] at h
      exact absurd h (escape_append_ne c)
    | cons d ds =>
      rw [List.flatMap_cons, List.flatMap_cons, List.append_assoc, List.append_assoc] at h
      obtain ⟨rfl, hrest⟩ := escape_append_inj h
      obtain ⟨rfl, hr⟩ := ih hrest
      exact ⟨rfl, hr⟩

/-! ## Texts of values -/

namespace Value

theorem word?_eq_nil {v : Value} : v.word? = some .nil ↔ v.payload = nil := by
  unfold word?
  generalize v.payload = u
  cases u <;> simp

theorem word?_eq_bool {v : Value} : v.word? = some (.bool b) ↔ v.payload = bool b := by
  unfold word?
  generalize v.payload = u
  cases u <;> simp

theorem word?_eq_integer {v : Value} :
    v.word? = some (.integer n) ↔ v.payload.integer? = some n := by
  unfold word?
  generalize v.payload = u
  cases u <;> simp [integer?]

theorem chars_payload (v : Value) : v.payload.chars = v.chars := by
  rw [chars, chars, render_payload]

theorem chars_of_word? {v : Value} {w : Word} (h : v.word? = some w) : v.chars = w.text := by
  rw [← chars_payload]
  cases w with
  | nil =>
    rw [word?_eq_nil.mp h]
    rfl
  | bool b =>
    rw [word?_eq_bool.mp h]
    cases b <;> rfl
  | integer n =>
    rcases integer?_eq_some.mp (word?_eq_integer.mp h) with ⟨m, hp, rfl⟩ | hp
    · rw [hp]
      rfl
    · rw [hp]
      rfl

theorem chars_string (s : String) :
    (string s).chars = '"' :: (s.toList.flatMap escape ++ ['"']) := by
  rw [chars, render, quoted, String.toList_append, String.toList_append, String.toList_ofList,
    String.toList_ofList]
  rfl

/-- The texts of values, with a space in front of each. -/
def spaced (vs : List Value) : List Char := vs.flatMap fun v => ' ' :: v.chars

/-- The texts of values, with a space between two of them. -/
def inner : List Value → List Char
  | [] => []
  | v :: vs => v.chars ++ spaced vs

theorem inner_eq_tail (vs : List Value) : inner vs = (spaced vs).tail := by
  cases vs <;> rfl

theorem toList_intercalate_render (vs : List Value) :
    (" ".intercalate (vs.map (render none))).toList = inner vs := by
  cases vs with
  | nil => rfl
  | cons v vs =>
    rw [inner, List.map_cons]
    induction vs generalizing v with
    | nil => simp [spaced, chars]
    | cons u us ih =>
      rw [List.map_cons, String.intercalate_cons_cons, String.toList_append, ih u]
      simp [spaced, chars]

theorem chars_list (vs : List Value) : (list vs).chars = '(' :: (inner vs ++ [')']) := by
  rw [chars, render, bracketed, String.toList_append, String.toList_append, renderAll_eq_map,
    toList_intercalate_render]
  rfl

theorem chars_vector (vs : List Value) : (vector vs).chars = '[' :: (inner vs ++ [']']) := by
  rw [chars, render, bracketed, String.toList_append, String.toList_append, renderAll_eq_map,
    toList_intercalate_render]
  rfl

/-! ## Readable values -/

/-- The four ways in which a readable value is written. -/
inductive Shape (v : Value) : Prop
  | word (w : Word) (h : v.word? = some w) (htext : v.chars = w.text)
  | string (s : String) (h : v.payload = string s)
    (htext : v.chars = '"' :: (s.toList.flatMap escape ++ ['"']))
  | list (vs : List Value) (hvs : ∀ u ∈ vs, u.Readable) (h : v.payload = list vs)
    (htext : v.chars = '(' :: (inner vs ++ [')']))
  | vector (vs : List Value) (hvs : ∀ u ∈ vs, u.Readable) (h : v.payload = vector vs)
    (htext : v.chars = '[' :: (inner vs ++ [']']))

theorem Readable.shape {v : Value} (h : v.Readable) : v.Shape := by
  induction h with
  | nil => exact .word .nil rfl (chars_of_word? rfl)
  | bool => exact .word (.bool _) rfl (chars_of_word? rfl)
  | int | big => exact .word (.integer _) rfl (chars_of_word? rfl)
  | string => exact .string _ rfl (chars_string _)
  | list hvs => exact .list _ hvs rfl (chars_list _)
  | vector hvs => exact .vector _ hvs rfl (chars_vector _)
  | resolved _ ih =>
    cases ih with
    | word w h htext => exact .word w h htext
    | string s h htext => exact .string s h htext
    | list vs hvs h htext => exact .list vs hvs h htext
    | vector vs hvs h htext => exact .vector vs hvs h htext

theorem Readable.payload_ne_float {v : Value} (h : v.Readable) : v.payload ≠ float x := by
  induction h with
  | resolved _ ih => exact ih
  | _ => nofun

/-- The elements of a readable collection are readable. -/
theorem Readable.of_items? {v : Value} (h : v.Readable) (hvs : v.payload.items? = some vs) :
    ∀ u ∈ vs, u.Readable := by
  induction h with
  | list h | vector h =>
    obtain rfl := Option.some.inj hvs
    exact h
  | resolved _ ih => exact ih hvs
  | _ => cases hvs

/-- A word equals the same word, written as an integer of either size. -/
theorem beq_iff_word? {a b : Value} {w : Word} (ha : a.word? = some w) (hb : b.Readable) :
    a.beq b ↔ b.word? = some w := by
  rw [← payload_beq]
  cases w with
  | nil => rw [word?_eq_nil.mp ha, isAtom_beq rfl, word?_eq_nil, eq_comm]
  | bool p => rw [word?_eq_bool.mp ha, isAtom_beq rfl, word?_eq_bool, eq_comm]
  | integer n =>
    have hfloat : ¬∃ x, b.payload = float x ∧ Binary64.ofInteger? n = some x :=
      fun ⟨_, hx, _⟩ => hb.payload_ne_float hx
    rw [integer_beq (word?_eq_integer.mp ha), or_iff_left hfloat, word?_eq_integer]

/-! ## From texts to values -/

/-- Whatever stands behind it, the text of `a` shows where it ends and what `a` equals. -/
def Determined (a : Value) : Prop := ∀ ⦃b r r'⦄, b.Readable → Word.Stops r → Word.Stops r' →
  a.chars ++ r = b.chars ++ r' → a.beq b ∧ r = r'

/-- The brackets that end a list or a vector. -/
def Closes (c : Char) : Prop := c = ')' ∨ c = ']'

theorem Closes.isLetter (h : Closes c) : Word.isLetter c = false := by
  rcases h with rfl | rfl <;> rfl

theorem stops_spaced (vs : List Value) (hc : Closes c) : Word.Stops (spaced vs ++ c :: r) := by
  cases vs with
  | nil =>
    rintro _ ⟨⟩
    exact hc.isLetter
  | cons v vs =>
    rintro _ ⟨⟩
    rfl

/-- No value begins with a closing bracket. -/
theorem Readable.chars_ne {v : Value} (h : v.Readable) (hc : Closes c) :
    v.chars ++ r ≠ c :: x := by
  cases h.shape with
  | word w _ htext => exact htext ▸ w.text_append_ne hc.isLetter
  | string _ _ htext | list _ _ _ htext | vector _ _ _ htext =>
    rw [htext]
    rintro ⟨⟩
    exact hc.elim nofun nofun

section

variable {as bs : List Value} (hc : Closes c) (has : ∀ a ∈ as, Determined a)
  (hbs : ∀ b ∈ bs, b.Readable)
include hc has hbs

theorem spaced_append_inj (h : spaced as ++ c :: r = spaced bs ++ c :: r') :
    beqAll as bs ∧ r = r' := by
  induction as generalizing bs with
  | nil =>
    cases bs with
    | nil => exact ⟨rfl, (List.cons.inj h).2⟩
    | cons b bs =>
      cases h
      exact hc.elim nofun nofun
  | cons a as ih =>
    cases bs with
    | nil =>
      cases h
      exact hc.elim nofun nofun
    | cons b bs =>
      simp only [spaced, List.flatMap_cons, List.cons_append, List.append_assoc,
        List.cons.injEq, true_and] at h
      rw [List.forall_mem_cons] at has hbs
      -- What stands behind `a` and `b` is a space or the bracket, so they end at the same place.
      obtain ⟨hab, hrest⟩ := has.1 hbs.1 (stops_spaced as hc) (stops_spaced bs hc) h
      obtain ⟨hall, hr⟩ := ih has.2 hbs.2 hrest
      exact ⟨by rw [beqAll, hab, hall]; rfl, hr⟩

theorem inner_append_inj (hreadable : ∀ a ∈ as, a.Readable)
    (h : inner as ++ c :: r = inner bs ++ c :: r') : beqAll as bs ∧ r = r' := by
  cases as with
  | nil =>
    cases bs with
    | nil => exact ⟨rfl, (List.cons.inj h).2⟩
    | cons b bs =>
      rw [inner, inner, List.append_assoc] at h
      exact absurd h.symm ((hbs b List.mem_cons_self).chars_ne hc)
  | cons a as =>
    cases bs with
    | nil =>
      rw [inner, inner, List.append_assoc] at h
      exact absurd h ((hreadable a List.mem_cons_self).chars_ne hc)
    | cons b bs =>
      -- With a space in front the first elements are like all others.
      exact spaced_append_inj hc has hbs (congrArg (' ' :: ·) h)

end

/-! ### What a text begins with -/

theorem Readable.of_quote {b : Value} (hb : b.Readable) (h : b.chars ++ r = '"' :: x) :
    ∃ s : String, b.payload = .string s ∧ s.toList.flatMap escape ++ '"' :: r = x := by
  cases hb.shape with
  | word w _ htext => exact absurd (htext ▸ h) (w.text_append_ne rfl)
  | string s hs htext =>
    rw [htext, List.cons_append, List.append_assoc] at h
    exact ⟨s, hs, (List.cons.inj h).2⟩
  | list _ _ _ htext | vector _ _ _ htext =>
    rw [htext] at h
    cases h

theorem Readable.of_opening_list {b : Value} (hb : b.Readable) (h : b.chars ++ r = '(' :: x) :
    ∃ vs, (∀ v ∈ vs, v.Readable) ∧ b.payload = .list vs ∧ inner vs ++ ')' :: r = x := by
  cases hb.shape with
  | word w _ htext => exact absurd (htext ▸ h) (w.text_append_ne rfl)
  | list vs hvs hp htext =>
    rw [htext, List.cons_append, List.append_assoc] at h
    exact ⟨vs, hvs, hp, (List.cons.inj h).2⟩
  | string _ _ htext | vector _ _ _ htext =>
    rw [htext] at h
    cases h

theorem Readable.of_opening_vector {b : Value} (hb : b.Readable) (h : b.chars ++ r = '[' :: x) :
    ∃ vs, (∀ v ∈ vs, v.Readable) ∧ b.payload = .vector vs ∧ inner vs ++ ']' :: r = x := by
  cases hb.shape with
  | word w _ htext => exact absurd (htext ▸ h) (w.text_append_ne rfl)
  | vector vs hvs hp htext =>
    rw [htext, List.cons_append, List.append_assoc] at h
    exact ⟨vs, hvs, hp, (List.cons.inj h).2⟩
  | string _ _ htext | list _ _ _ htext =>
    rw [htext] at h
    cases h

theorem determined_of_word? {a : Value} (ha : a.word? = some w) : a.Determined := by
  intro b r r' hb hr hr' h
  rw [chars_of_word? ha] at h
  cases hb.shape with
  | word w' hw' htext =>
    obtain ⟨rfl, hrest⟩ := Word.text_append_inj hr hr' (htext ▸ h)
    exact ⟨(beq_iff_word? ha hb).mpr hw', hrest⟩
  | string _ _ htext | list _ _ _ htext | vector _ _ _ htext =>
    rw [htext] at h
    exact absurd h (w.text_append_ne rfl)

theorem Readable.determined {a : Value} (h : a.Readable) : a.Determined := by
  induction h with
  | nil => exact determined_of_word? (w := .nil) rfl
  | bool => exact determined_of_word? (w := .bool _) rfl
  | int | big => exact determined_of_word? (w := .integer _) rfl
  | string =>
    intro b r r' hb hr hr' h
    rw [chars_string, List.cons_append, List.append_assoc] at h
    obtain ⟨s, hs, htext⟩ := hb.of_quote h.symm
    obtain ⟨heq, hrest⟩ := escaped_append_inj htext
    rw [isAtom_beq rfl, hs, String.toList_inj.mp heq]
    exact ⟨rfl, hrest.symm⟩
  | list hvs ih =>
    intro b r r' hb hr hr' h
    rw [chars_list, List.cons_append, List.append_assoc] at h
    obtain ⟨bs, hbs, hp, htext⟩ := hb.of_opening_list h.symm
    obtain ⟨hall, hrest⟩ := inner_append_inj (.inl rfl) ih hbs hvs htext.symm
    exact ⟨list_beq.mpr ⟨bs, hp, hall⟩, hrest⟩
  | vector hvs ih =>
    intro b r r' hb hr hr' h
    rw [chars_vector, List.cons_append, List.append_assoc] at h
    obtain ⟨bs, hbs, hp, htext⟩ := hb.of_opening_vector h.symm
    obtain ⟨hall, hrest⟩ := inner_append_inj (.inr rfl) ih hbs hvs htext.symm
    exact ⟨vector_beq.mpr ⟨bs, hp, hall⟩, hrest⟩
  | resolved _ ih => exact ih

/-! ## From values to texts -/

theorem spaced_eq_of_beqAll {as bs : List Value}
    (ih : ∀ a ∈ as, ∀ ⦃b⦄, b.Readable → a.beq b → a.chars = b.chars)
    (hbs : ∀ b ∈ bs, b.Readable) (h : beqAll as bs) : spaced as = spaced bs := by
  induction as generalizing bs with
  | nil =>
    cases bs with
    | nil => rfl
    | cons b bs => cases h
  | cons a as iht =>
    cases bs with
    | nil => cases h
    | cons b bs =>
      rw [beqAll, Bool.and_eq_true] at h
      rw [List.forall_mem_cons] at ih hbs
      have htail : spaced as = spaced bs := iht ih.2 hbs.2 h.2
      rw [spaced, List.flatMap_cons, ih.1 hbs.1 h.1]
      exact congrArg _ htail

theorem inner_eq_of_beqAll {as bs : List Value}
    (ih : ∀ a ∈ as, ∀ ⦃b⦄, b.Readable → a.beq b → a.chars = b.chars)
    (hbs : ∀ b ∈ bs, b.Readable) (h : beqAll as bs) : inner as = inner bs := by
  rw [inner_eq_tail, inner_eq_tail, spaced_eq_of_beqAll ih hbs h]

/-- Equal readable values have one text. An integer and the float that it equals have not. -/
theorem Readable.chars_eq {a : Value} (ha : a.Readable) :
    ∀ ⦃b⦄, b.Readable → a.beq b → a.chars = b.chars := by
  have hword {a b : Value} {w : Word} (ha : a.word? = some w) (hb : b.Readable) (h : a.beq b) :
      a.chars = b.chars := by
    rw [chars_of_word? ha, chars_of_word? ((beq_iff_word? ha hb).mp h)]
  induction ha with
  | nil => exact fun _ => hword (w := .nil) rfl
  | bool => exact fun _ => hword (w := .bool _) rfl
  | int | big => exact fun _ => hword (w := .integer _) rfl
  | string =>
    intro b hb h
    rw [(isAtom_beq rfl).mp h, chars_payload]
  | list hvs ih =>
    intro b hb h
    obtain ⟨bs, hpayload, hall⟩ := list_beq.mp h
    have hbs : ∀ u ∈ bs, u.Readable := hb.of_items? (by rw [hpayload]; rfl)
    rw [← chars_payload b, hpayload, chars_list, chars_list, inner_eq_of_beqAll ih hbs hall]
  | vector hvs ih =>
    intro b hb h
    obtain ⟨bs, hpayload, hall⟩ := vector_beq.mp h
    have hbs : ∀ u ∈ bs, u.Readable := hb.of_items? (by rw [hpayload]; rfl)
    rw [← chars_payload b, hpayload, chars_vector, chars_vector, inner_eq_of_beqAll ih hbs hall]
  | resolved _ ih => exact ih

end Value

/-- Two readable values have the same text in full exactly when they are equal, marks and the two
sizes of integers aside. -/
theorem same_text_iff_equal {a b : Value} (ha : a.Readable) (hb : b.Readable) :
    a.render none = b.render none ↔ a == b := by
  change _ ↔ a.beq b
  refine ⟨fun h => ?_, fun h => String.toList_inj.mp (ha.chars_eq hb h)⟩
  have htext : a.chars ++ [] = b.chars ++ [] := by rw [Value.chars, Value.chars, h]
  exact (ha.determined hb Word.stops_nil Word.stops_nil htext).1

/-- A line break and the two characters that stand for one have different texts. -/
theorem same_text_iff_equal_escaped :
    let a : Value := .list [.resolved (.int 1), .string "\" \\n"]
    let b : Value := .resolved (.list [.big 1, .string "\" \n"])
    a.Readable ∧ b.Readable ∧ a.render none ≠ b.render none :=
  have ha : (Value.list [.resolved (.int 1), .string "\" \\n"]).Readable :=
    .list (List.forall_mem_cons.mpr ⟨.resolved .int, List.forall_mem_singleton.mpr .string⟩)
  have hb : (Value.resolved (.list [.big 1, .string "\" \n"])).Readable :=
    .resolved (.list (List.forall_mem_cons.mpr ⟨.big, List.forall_mem_singleton.mpr .string⟩))
  ⟨ha, hb, (same_text_iff_equal ha hb).not.mpr (by decide)⟩

end Lisplet
