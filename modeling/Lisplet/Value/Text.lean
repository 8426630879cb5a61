import Lisplet.Binary64.Shortest
import Lisplet.Value.Basic

/-!
The text of a value. A print length bounds how many elements of a collection are shown; an ellipsis
stands for the others. Marks do not show.
-/

namespace Lisplet.Value

/-- How many elements of a host sequence are shown when no print length is set. Lists and vectors
are shown in full then. -/
def defaultSeqLength : Nat := 32

/-- The most elements that are counted, in 64 bits. -/
def maxCount : Nat := pow2 64 - 1

/-! ## Parts -/

/-- A character inside a quoted string. -/
def escape : Char → List Char
  | '\n' => ['\\', 'n']
  | '\t' => ['\\', 't']
  | '\r' => ['\\', 'r']
  | '\\' => ['\\', '\\']
  | '"' => ['\\', '"']
  | c => [c]

/-- A string between double quotes. -/
def quoted (s : String) : String := "\"" ++ String.ofList (s.toList.flatMap escape) ++ "\""

/-- Texts with one space between them, between brackets. With a limit the texts behind it are left
out, and an ellipsis with a space in front says that there are any. -/
def bracketed (opening closing : String) (limit : Option Nat) (texts : List String) : String :=
  match limit with
  | none => opening ++ " ".intercalate texts ++ closing
  | some n =>
    let rest := if n < texts.length then " ..." else ""
    opening ++ " ".intercalate (texts.take n) ++ rest ++ closing

def nativeText : Native → String
  | .fn f => "#<fn " ++ f.name ++ ">"
  | .special s => "#<special-form " ++ s.name ++ ">"

/-! ## Values -/

mutual

/-- The text of a value under a print length. Of a host sequence at most one element more than are
shown is computed, so far as elements are counted. -/
def render (limit : Option Nat) : Value → String
  | nil => "nil"
  | bool b => if b then "true" else "false"
  | int n => n.toInt.repr
  | big n => n.repr
  | float x => x.text
  | string s => quoted s
  | symbol s => s.name
  | keyword s => ":" ++ s.name
  | list xs => bracketed "(" ")" limit (renderAll limit xs)
  | vector xs => bracketed "[" "]" limit (renderAll limit xs)
  | seq _ s =>
    let n := limit.getD defaultSeqLength
    bracketed "(" ")" (some n) ((renderSequence limit s).take (min (n + 1) maxCount))
  | native n => nativeText n
  | type t => t.name
  | resolved v => render limit v
termination_by structural v => v

/-- The texts of the elements of a list. -/
def renderAll (limit : Option Nat) : List Value → List String
  | [] => []
  | v :: vs => render limit v :: renderAll limit vs
termination_by structural vs => vs

/-- The sequence of the texts of the elements of a sequence. -/
def renderSequence (limit : Option Nat) : Sequence Value → Sequence String
  | .items xs => .items (renderAll limit xs)
  | .orbit item position left => .orbit (fun i => render limit (item i)) position left
termination_by structural s => s

end

theorem renderAll_eq_map (limit : Option Nat) (vs : List Value) :
    renderAll limit vs = vs.map (render limit) := by
  induction vs with
  | nil => rfl
  | cons v vs ih => rw [renderAll, ih, List.map_cons]

@[simp] theorem render_payload (limit : Option Nat) :
    (v : Value) → v.payload.render limit = v.render limit
  | resolved v => render_payload limit v
  | nil | bool _ | int _ | big _ | float _ | string _ | symbol _ | keyword _ | list _ | vector _
  | seq _ _ | native _ | type _ => rfl

end Lisplet.Value
