import Lisplet.Function.Call
import Lisplet.Proofs.Readability

/-!
Strings built from values. What a row of values makes is cut wherever the row is, except around a
nil that is alone in its row. A value adds its text, and only two kinds of values have texts that
quotes can be around: strings, which add their contents instead, and symbols. Main statement:
`strings_concatenate`.
-/

namespace Lisplet

namespace Value

/-! ## Rows of values -/

/-- Whether a nil, marked or not, is all there is in a row. -/
def isLoneNil : List Value → Bool
  | [v] => v.isNil
  | _ => false

theorem concat_of_isLoneNil (limit : Option Nat) {vs : List Value} (h : isLoneNil vs) :
    concat limit vs = "" := by
  obtain _ | ⟨v, _ | ⟨w, vs⟩⟩ := vs
  · cases h
  · exact if_pos h
  · cases h

theorem concat_of_not_isLoneNil (limit : Option Nat) {vs : List Value} (h : ¬isLoneNil vs) :
    concat limit vs = String.join (vs.map (piece limit)) := by
  obtain _ | ⟨v, _ | ⟨w, vs⟩⟩ := vs
  · rfl
  · rw [List.map_singleton, String.join_cons, String.join_nil, String.append_empty]
    exact if_neg h
  · rfl

/-- Two rows make a lone nil only when one of them does. -/
theorem not_isLoneNil_append {us vs : List Value} (hus : ¬isLoneNil us) (hvs : ¬isLoneNil vs) :
    ¬isLoneNil (us ++ vs) := by
  obtain _ | ⟨u, us⟩ := us
  · exact hvs
  obtain _ | ⟨v, vs⟩ := vs
  · rwa [List.append_nil]
  · cases us <;> exact Bool.false_ne_true

theorem concat_append (limit : Option Nat) {us vs : List Value} (hus : ¬isLoneNil us)
    (hvs : ¬isLoneNil vs) : concat limit (us ++ vs) = concat limit us ++ concat limit vs := by
  rw [concat_of_not_isLoneNil limit (not_isLoneNil_append hus hvs),
    concat_of_not_isLoneNil limit hus, concat_of_not_isLoneNil limit hvs, List.map_append,
    String.join_append]

theorem not_isLoneNil_flatten {groups : List (List Value)} (h : ∀ vs ∈ groups, ¬isLoneNil vs) :
    ¬isLoneNil groups.flatten := by
  induction groups with
  | nil => exact Bool.false_ne_true
  | cons vs groups ih =>
    obtain ⟨hvs, hgroups⟩ := List.forall_mem_cons.mp h
    exact not_isLoneNil_append hvs (ih hgroups)

/-- Strings are no nils. -/
theorem not_isLoneNil_map_makeString (limit : Option Nat) (groups : List (List Value)) :
    ¬isLoneNil (groups.map (makeString limit)) := by
  obtain _ | ⟨vs, _ | ⟨ws, groups⟩⟩ := groups <;> exact Bool.false_ne_true

/-- A row can be cut into any groups that are no lone nils, and the strings of the groups put
together. -/
theorem concat_map_makeString (limit : Option Nat) {groups : List (List Value)}
    (h : ∀ vs ∈ groups, ¬isLoneNil vs) :
    concat limit (groups.map (makeString limit)) = concat limit groups.flatten := by
  rw [concat_of_not_isLoneNil limit (not_isLoneNil_map_makeString limit groups)]
  induction groups with
  | nil => rfl
  | cons vs groups ih =>
    obtain ⟨hvs, hgroups⟩ := List.forall_mem_cons.mp h
    rw [List.map_cons, List.map_cons, String.join_cons, ih hgroups, List.flatten_cons,
      concat_append limit hvs (not_isLoneNil_flatten hgroups)]
    rfl

/-! ## Quotes around texts -/

/-- A text has a pair of quotes around it, one in front and another one behind. -/
def Quoted (s : String) : Prop :=
  2 ≤ s.length ∧ s.toList.head? = some '"' ∧ s.toList.getLast? = some '"'

theorem quoted_iff {s : String} : Quoted s ↔ ∃ cs, s.toList = '"' :: (cs ++ ['"']) := by
  constructor
  · rintro ⟨hlength, hhead, hlast⟩
    obtain ⟨ds, hds⟩ := List.head?_eq_some_iff.mp hhead
    rw [← String.length_toList, hds] at hlength
    rw [hds] at hlast
    obtain ⟨d, ds, rfl⟩ := List.exists_cons_of_length_pos (Nat.le_of_succ_le_succ hlength)
    rw [List.getLast?_cons_cons] at hlast
    obtain ⟨cs, hcs⟩ := List.getLast?_eq_some_iff.mp hlast
    exact ⟨cs, by rw [hds, hcs]⟩
  · rintro ⟨cs, hcs⟩
    refine ⟨?_, ?_, ?_⟩
    · rw [← String.length_toList, hcs, List.length_cons, List.length_append]
      exact Nat.succ_le_succ (Nat.le_add_left 1 cs.length)
    · rw [hcs, List.head?_cons]
    · rw [hcs, ← List.cons_append, List.getLast?_concat]

theorem unquoted_of_quoted {s : String} (h : Quoted s) : s = "\"" ++ unquoted s ++ "\"" := by
  obtain ⟨cs, hcs⟩ := quoted_iff.mp h
  have hunquoted : unquoted s = String.ofList cs := by
    rw [unquoted, hcs]
    simp
  rw [← String.toList_inj, hunquoted, hcs]
  simp

theorem unquoted_of_not_quoted {s : String} (h : ¬Quoted s) : unquoted s = s := by
  unfold unquoted
  split
  case h_1 cs hcs =>
    refine if_neg fun hlast => h (quoted_iff.mpr ?_)
    obtain ⟨ds, rfl⟩ := List.getLast?_eq_some_iff.mp hlast
    exact ⟨ds, hcs⟩
  case h_2 => rfl

/-! ## What texts begin with -/

/-- A text begins, and not with a quote. -/
def Plain (s : String) : Prop := ∃ c cs, s.toList = c :: cs ∧ c ≠ '"'

theorem Plain.not_quoted {s : String} (h : Plain s) : ¬Quoted s := by
  obtain ⟨c, cs, hcs, hc⟩ := h
  rintro ⟨-, hhead, -⟩
  rw [hcs] at hhead
  exact hc (Option.some.inj hhead)

theorem Plain.append {s : String} (h : Plain s) (t : String) : Plain (s ++ t) := by
  obtain ⟨c, cs, hcs, hc⟩ := h
  exact ⟨c, cs ++ t.toList, by rw [String.toList_append, hcs, List.cons_append], hc⟩

theorem plain_repr (n : Int) : Plain n.repr := by
  cases htext : n.repr.toList with
  | nil => exact absurd htext (Word.integer n).text_ne_nil
  | cons c cs =>
    refine ⟨c, cs, htext, ?_⟩
    rintro rfl
    have hmem : '"' ∈ (Word.integer n).text := List.mem_of_mem_head? (congrArg List.head? htext)
    exact absurd ((Word.integer n).isLetter_of_mem _ hmem) (by decide)

theorem plain_positional (d : Decimal) : Plain d.positional := by
  rw [Decimal.positional]
  split
  case isTrue => exact (plain_repr (.ofNat _)).append _
  case isFalse => exact ((plain_repr (.ofNat _)).append _).append _

theorem plain_float_text (x : Binary64) : Plain x.text := by
  have hmagnitude : Plain (if x.magnitude = 0 then "0.0" else x.shortest.positional) := by
    split
    case isTrue => exact ⟨'0', _, rfl, by decide⟩
    case isFalse => exact plain_positional x.shortest
  rw [Binary64.text]
  split
  case isTrue => exact ⟨'#', _, rfl, by decide⟩
  case isFalse =>
    split
    case isTrue =>
      split
      case isTrue => exact Plain.append ⟨'-', _, rfl, by decide⟩ _
      case isFalse => rwa [String.empty_append]
    case isFalse => split <;> exact ⟨'#', _, rfl, by decide⟩

theorem plain_bracketed (h : Plain opening) (closing : String) (limit : Option Nat)
    (texts : List String) : Plain (bracketed opening closing limit texts) := by
  cases limit with
  | none => exact (h.append _).append _
  | some n => exact ((h.append _).append _).append _

theorem plain_nativeText (n : Native) : Plain (nativeText n) := by
  cases n with
  | fn f => exact (Plain.append ⟨'#', _, rfl, by decide⟩ _).append _
  | special s => exact (Plain.append ⟨'#', _, rfl, by decide⟩ _).append _

theorem plain_ty_name (t : Ty) : Plain t.name := by
  cases t with
  | ref t => exact Plain.append ⟨'&', _, rfl, by decide⟩ _
  | interface i => cases i <;> exact ⟨_, _, rfl, by decide⟩
  | _ => exact ⟨_, _, rfl, by decide⟩

/-- Only strings and symbols have texts that can begin with a quote. -/
theorem plain_render {v : Value} (hstring : ∀ s, v.payload ≠ string s)
    (hsymbol : ∀ x, v.payload ≠ symbol x) (limit : Option Nat) : Plain (v.render limit) := by
  rw [← render_payload]
  cases hp : v.payload with
  | string s => exact absurd hp (hstring s)
  | symbol x => exact absurd hp (hsymbol x)
  | resolved w => exact absurd hp (payload_ne_resolved w v)
  | nil =>
    rw [render]
    exact ⟨'n', _, rfl, by decide⟩
  | bool b =>
    rw [render]
    cases b with
    | true => exact ⟨'t', _, rfl, by decide⟩
    | false => exact ⟨'f', _, rfl, by decide⟩
  | int n => exact plain_repr n.toInt
  | big n => exact plain_repr n
  | float x => exact plain_float_text x
  | keyword x => exact Plain.append ⟨':', _, rfl, by decide⟩ x.name
  | list vs => exact plain_bracketed ⟨'(', _, rfl, by decide⟩ ..
  | vector vs => exact plain_bracketed ⟨'[', _, rfl, by decide⟩ ..
  | seq i s => exact plain_bracketed ⟨'(', _, rfl, by decide⟩ ..
  | native n => exact plain_nativeText n
  | type t => exact plain_ty_name t

/-! ## Pieces -/

theorem piece_string {v : Value} (h : v.payload = string s) (limit : Option Nat) :
    v.piece limit = s := by
  rw [piece, h]

theorem piece_of_ne_string {v : Value} (h : ∀ s, v.payload ≠ string s) (limit : Option Nat) :
    v.piece limit = unquoted (v.render limit) := by
  unfold piece
  split
  case h_1 s hp => exact absurd hp (h s)
  case h_2 => rw [render_payload]

theorem render_symbol {v : Value} (h : v.payload = symbol x) (limit : Option Nat) :
    v.render limit = x.name := by
  rw [← render_payload, h, render]

end Value

open Value

/-- `str` makes a string of the pieces of its arguments, and `throw` raises an error with the same
text; only from a lone nil nothing comes. So the texts of two rows, none of them a lone nil, are
put together to that of both, and so are the strings of any such groups that a row is cut into. The
piece of a string is its contents. That of any other value is its text, which has no quotes around
it except, perhaps, when the value is a symbol: then the piece is the text between them. -/
theorem strings_concatenate (ctx : Context) :
    (∀ vs, ctx.apply .str vs = pure (.string (concat ctx.printLength vs)) ∧
      ctx.apply .throw vs = .raise (.thrown (concat ctx.printLength vs))) ∧
    (∀ vs, concat ctx.printLength vs =
      if isLoneNil vs then "" else String.join (vs.map (piece ctx.printLength))) ∧
    (∀ us vs, ¬isLoneNil us → ¬isLoneNil vs →
      concat ctx.printLength (us ++ vs) =
        concat ctx.printLength us ++ concat ctx.printLength vs) ∧
    (∀ groups : List (List Value), (∀ vs ∈ groups, ¬isLoneNil vs) →
      concat ctx.printLength (groups.map (makeString ctx.printLength)) =
        concat ctx.printLength groups.flatten) ∧
    (∀ (v : Value) s, v.payload = .string s → v.piece ctx.printLength = s) ∧
    (∀ v : Value, (∀ s, v.payload ≠ .string s) → (∀ x, v.payload ≠ .symbol x) →
      ¬Quoted (v.render ctx.printLength) ∧
        v.piece ctx.printLength = v.render ctx.printLength) ∧
    ∀ (v : Value) x, v.payload = .symbol x →
      (Quoted x.name → x.name = "\"" ++ v.piece ctx.printLength ++ "\"") ∧
        (¬Quoted x.name → v.piece ctx.printLength = x.name) := by
  refine ⟨fun vs => ⟨rfl, rfl⟩, fun vs => ?_, ?_, ?_, ?_, ?_, ?_⟩
  · split
    case isTrue h => exact concat_of_isLoneNil _ h
    case isFalse h => exact concat_of_not_isLoneNil _ h
  · exact fun us vs hus hvs => concat_append _ hus hvs
  · exact fun groups h => concat_map_makeString _ h
  · exact fun v s h => piece_string h _
  · intro v hstring hsymbol
    have hquoted := (plain_render hstring hsymbol ctx.printLength).not_quoted
    exact ⟨hquoted, by rw [piece_of_ne_string hstring, unquoted_of_not_quoted hquoted]⟩
  · intro v x h
    have hpiece : v.piece ctx.printLength = unquoted x.name := by
      rw [piece_of_ne_string (by simp [h]), render_symbol h]
    rw [hpiece]
    exact ⟨unquoted_of_quoted, unquoted_of_not_quoted⟩

/-- A row cut behind two nils: one group is empty, one of quotes, and a symbol loses its own. -/
theorem strings_concatenate_quotes :
    let quotes : List Value := [.string "\"", .resolved (.symbol ⟨"\"a\""⟩), .keyword ⟨"\""⟩]
    let groups : List (List Value) := [[.nil, .resolved .nil], [], quotes]
    (∀ vs ∈ groups, ¬isLoneNil vs) ∧
      concat none (groups.map (makeString none)) = concat none groups.flatten ∧
      concat none groups.flatten = "nilnil" ++ concat none quotes ∧
      concat none quotes = "\"a:\"" := by
  intro quotes groups
  obtain ⟨-, -, happend, hgroups, -⟩ := strings_concatenate (Host.plain.context none 0)
  have h : ∀ vs ∈ groups, ¬isLoneNil vs := by simp [groups, quotes, isLoneNil]
  have hnils : concat none [.nil, .resolved .nil] = "nilnil" := rfl
  have hquotes : concat none quotes = "\"a:\"" := rfl
  refine ⟨h, hgroups groups h, ?_, hquotes⟩
  have hcut := happend [.nil, .resolved .nil] quotes Bool.false_ne_true Bool.false_ne_true
  exact hcut.trans (congrArg (· ++ concat none quotes) hnils)

end Lisplet
