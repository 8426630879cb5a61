import Lisplet.Eval
import Lisplet.Host
import Lisplet.Proofs.Answer
import Lisplet.Proofs.Equality

/-!
Values that differ only by marks: without their marks, at every depth of lists and vectors, they are
one value. Nothing that is asked of a value can tell them apart, and they are equal. Main statement:
`builtins_blind_to_marks`.
-/

namespace Lisplet

namespace Value

mutual

/-- The value without the marks in it. A host sequence is one object and stays as it is. -/
def bare : Value → Value
  | list vs => list (bareAll vs)
  | vector vs => vector (bareAll vs)
  | resolved v => v.bare
  | nil => nil
  | bool b => bool b
  | int n => int n
  | big n => big n
  | float x => float x
  | string s => string s
  | symbol s => symbol s
  | keyword s => keyword s
  | seq i s => seq i s
  | native n => native n
  | type t => type t
termination_by structural v => v

def bareAll : List Value → List Value
  | [] => []
  | v :: vs => v.bare :: bareAll vs
termination_by structural vs => vs

end

theorem bareAll_eq_map (vs : List Value) : bareAll vs = vs.map bare := by
  induction vs with
  | nil => rfl
  | cons v vs ih => rw [bareAll, ih, List.map_cons]

theorem bare_list (vs : List Value) : (list vs).bare = list (vs.map bare) := by
  rw [bare, bareAll_eq_map]

theorem bare_vector (vs : List Value) : (vector vs).bare = vector (vs.map bare) := by
  rw [bare, bareAll_eq_map]

@[simp] theorem bare_payload : (v : Value) → v.payload.bare = v.bare
  | resolved v => bare_payload v
  | nil | bool _ | int _ | big _ | float _ | string _ | symbol _ | keyword _ | list _ | vector _
  | seq _ _ | native _ | type _ => rfl

@[simp] theorem payload_bare : (v : Value) → v.bare.payload = v.bare
  | resolved v => payload_bare v
  | nil | bool _ | int _ | big _ | float _ | string _ | symbol _ | keyword _ | list _ | vector _
  | seq _ _ | native _ | type _ => rfl

theorem payload_of_bare_eq_list : (v : Value) → v.bare = list ws →
    ∃ vs, v.payload = list vs ∧ vs.map bare = ws
  | resolved v, h => payload_of_bare_eq_list v h
  | list vs, h => ⟨vs, rfl, list.inj ((bare_list vs).symm.trans h)⟩
  | nil, h | bool _, h | int _, h | big _, h | float _, h | string _, h | symbol _, h | keyword _, h
  | vector _, h | seq _ _, h | native _, h | type _, h => nomatch h

theorem payload_of_bare_eq_vector : (v : Value) → v.bare = vector ws →
    ∃ vs, v.payload = vector vs ∧ vs.map bare = ws
  | resolved v, h => payload_of_bare_eq_vector v h
  | vector vs, h => ⟨vs, rfl, vector.inj ((bare_vector vs).symm.trans h)⟩
  | nil, h | bool _, h | int _, h | big _, h | float _, h | string _, h | symbol _, h | keyword _, h
  | list _, h | seq _ _, h | native _, h | type _, h => nomatch h

theorem items?_bare : (v : Value) → v.bare.items? = v.payload.items?.map (List.map bare)
  | resolved v => items?_bare v
  | list vs | vector vs => congrArg some (bareAll_eq_map vs)
  | nil | bool _ | int _ | big _ | float _ | string _ | symbol _ | keyword _ | seq _ _ | native _
  | type _ => rfl

theorem bare_of_items?_eq_none : (v : Value) → v.payload.items? = none → v.bare = v.payload
  | resolved v, h => bare_of_items?_eq_none v h
  | nil, _ | bool _, _ | int _, _ | big _, _ | float _, _ | string _, _ | symbol _, _
  | keyword _, _ | seq _ _, _ | native _, _ | type _, _ => rfl

/-- Below the payload there are marks only in the items of a list or a vector. -/
theorem payload_of_bare_eq {v : Value} (h : v.bare = w) (hw : w.items? = none) :
    v.payload = w := by
  have hitems : v.payload.items? = none := by
    rw [← h, items?_bare] at hw
    exact Option.map_eq_none_iff.mp hw
  exact (bare_of_items?_eq_none v hitems).symm.trans h

/-! ## Equality -/

/-- A value without items equals itself, marks aside. -/
theorem beq_of_payload_eq {a b : Value} (h : b.payload = a) (hitems : a.items? = none) :
    a.beq b := by
  cases a with
  | nil | bool _ | string _ | symbol _ | keyword _ | type _ => exact (isAtom_beq rfl).mpr h.symm
  | int n => exact int_beq.mpr (.inl (by rw [h]; rfl))
  | big n => exact big_beq.mpr (.inl (by rw [h]; rfl))
  | float x => exact float_beq.mpr (.inl h)
  | seq i s => exact seq_beq.mpr ⟨s, h⟩
  | native n => exact native_beq.mpr ⟨n, h, rfl, rfl⟩
  | list vs | vector vs => cases hitems
  | resolved v => exact absurd h (payload_ne_resolved v b)

mutual

/-- Values that differ only by marks are equal. -/
theorem beq_of_bare_eq : (a b : Value) → a.bare = b.bare → a.beq b
  | resolved a, b, h => beq_of_bare_eq a b h
  | list as, b, h => by
    obtain ⟨bs, hb, hbs⟩ := payload_of_bare_eq_list b (h.symm.trans (bare_list as))
    exact list_beq.mpr ⟨bs, hb, beqAll_of_map_bare_eq as bs hbs.symm⟩
  | vector as, b, h => by
    obtain ⟨bs, hb, hbs⟩ := payload_of_bare_eq_vector b (h.symm.trans (bare_vector as))
    exact vector_beq.mpr ⟨bs, hb, beqAll_of_map_bare_eq as bs hbs.symm⟩
  | nil, _, h | bool _, _, h | int _, _, h | big _, _, h | float _, _, h | string _, _, h
  | symbol _, _, h | keyword _, _, h | seq _ _, _, h | native _, _, h | type _, _, h =>
    beq_of_payload_eq (payload_of_bare_eq h.symm rfl) rfl
termination_by structural a => a

theorem beqAll_of_map_bare_eq : (as bs : List Value) → as.map bare = bs.map bare → beqAll as bs
  | [], [], _ => rfl
  | a :: as, b :: bs, h => by
    have hcons := List.cons.inj h
    rw [beqAll, beq_of_bare_eq a b hcons.1, beqAll_of_map_bare_eq as bs hcons.2]
    rfl
  | [], _ :: _, h | _ :: _, [], h => nomatch h
termination_by structural as => as

end

mutual

/-- Marks in a value make no difference to which values it equals. -/
theorem beq_bare : (a c : Value) → a.bare.beq c = a.beq c
  | resolved a, c => beq_bare a c
  | list as, c => by
    rw [bare_list, Bool.eq_iff_iff, list_beq, list_beq]
    simp only [beqAll_map_bare as]
  | vector as, c => by
    rw [bare_vector, Bool.eq_iff_iff, vector_beq, vector_beq]
    simp only [beqAll_map_bare as]
  | nil, _ | bool _, _ | int _, _ | big _, _ | float _, _ | string _, _ | symbol _, _
  | keyword _, _ | seq _ _, _ | native _, _ | type _, _ => rfl
termination_by structural a => a

theorem beqAll_map_bare : (as cs : List Value) → beqAll (as.map bare) cs = beqAll as cs
  | [], _ | _ :: _, [] => rfl
  | a :: as, c :: cs => by
    rw [List.map_cons, beqAll, beqAll, beq_bare a c, beqAll_map_bare as cs]
termination_by structural as => as

end

theorem beq_congr_bare {a b : Value} (h : a.bare = b.bare) (c : Value) : a.beq c = b.beq c := by
  rw [← beq_bare a, h, beq_bare]

/-! ## Types and texts -/

theorem ty_bare : (v : Value) → v.bare.ty = v.ty
  | resolved v => ty_bare v
  | nil | bool _ | int _ | big _ | float _ | string _ | symbol _ | keyword _ | list _ | vector _
  | seq _ _ | native _ | type _ => rfl

theorem typeName_bare : (v : Value) → v.bare.typeName = v.typeName
  | resolved v => typeName_bare v
  | nil | bool _ | int _ | big _ | float _ | string _ | symbol _ | keyword _ | list _ | vector _
  | seq _ _ | native _ | type _ => rfl

theorem isNil_bare : (v : Value) → v.bare.isNil = v.isNil
  | resolved v => isNil_bare v
  | nil | bool _ | int _ | big _ | float _ | string _ | symbol _ | keyword _ | list _ | vector _
  | seq _ _ | native _ | type _ => rfl

mutual

theorem render_bare (limit : Option Nat) : (v : Value) → render limit v.bare = render limit v
  | resolved v => render_bare limit v
  | list vs => by rw [bare_list, render, render, renderAll_bare limit vs]
  | vector vs => by rw [bare_vector, render, render, renderAll_bare limit vs]
  | nil | bool _ | int _ | big _ | float _ | string _ | symbol _ | keyword _ | seq _ _ | native _
  | type _ => rfl
termination_by structural v => v

theorem renderAll_bare (limit : Option Nat) :
    (vs : List Value) → renderAll limit (vs.map bare) = renderAll limit vs
  | [] => rfl
  | v :: vs => by
    rw [List.map_cons, renderAll, renderAll, render_bare limit v, renderAll_bare limit vs]
termination_by structural vs => vs

end

theorem piece_bare (limit : Option Nat) : (v : Value) → piece limit v.bare = piece limit v
  | resolved v => piece_bare limit v
  | list vs => congrArg unquoted (render_bare limit (list vs))
  | vector vs => congrArg unquoted (render_bare limit (vector vs))
  | nil | bool _ | int _ | big _ | float _ | string _ | symbol _ | keyword _ | seq _ _ | native _
  | type _ => rfl

theorem concat_bare (limit : Option Nat) : (vs : List Value) →
    concat limit (vs.map bare) = concat limit vs
  | [] => rfl
  | [v] => by
    simp only [List.map_cons, List.map_nil, concat, isNil_bare, piece_bare]
  | v :: w :: vs => by
    have hpieces : ((v :: w :: vs).map bare).map (piece limit) =
        (v :: w :: vs).map (piece limit) := by
      simp only [List.map_map, List.map_inj_left, Function.comp_apply, piece_bare, implies_true]
    exact congrArg String.join hpieces

/-! ## Conversions -/

theorem requireType_bare (context : String) : (v : Value) →
    v.bare.requireType context = v.requireType context
  | resolved v => requireType_bare context v
  | nil | bool _ | int _ | big _ | float _ | string _ | symbol _ | keyword _ | list _ | vector _
  | seq _ _ | native _ | type _ => rfl

theorem requireInt_bare (context : String) : (v : Value) →
    v.bare.requireInt context = v.requireInt context
  | resolved v => requireInt_bare context v
  | nil | bool _ | int _ | big _ | float _ | string _ | symbol _ | keyword _ | list _ | vector _
  | seq _ _ | native _ | type _ => rfl

theorem implements_bare (v : Value) (t : Ty) : v.bare.implements t = v.implements t := by
  rw [implements, implements, ty_bare]

mutual

theorem bare_bare : (v : Value) → v.bare.bare = v.bare
  | resolved v => bare_bare v
  | list vs => by rw [bare_list, bare_list, map_bare_map_bare vs]
  | vector vs => by rw [bare_vector, bare_vector, map_bare_map_bare vs]
  | nil | bool _ | int _ | big _ | float _ | string _ | symbol _ | keyword _ | seq _ _ | native _
  | type _ => rfl
termination_by structural v => v

theorem map_bare_map_bare : (vs : List Value) → (vs.map bare).map bare = vs.map bare
  | [] => rfl
  | v :: vs => by
    rw [List.map_cons, List.map_cons, bare_bare v, map_bare_map_bare vs]
termination_by structural vs => vs

end

theorem toType_bare (v : Value) (t : Ty) : (v.bare.toType t).map bare = (v.toType t).map bare := by
  cases hitems : v.payload.items? with
  | none => rw [bare_of_items?_eq_none v hitems, toType_payload]
  | some vs =>
    have hbare : v.bare.items? = some (vs.map bare) := by rw [items?_bare, hitems, Option.map_some]
    rw [← toType_payload v, toType_items hitems, toType_items hbare, ty_bare, ty_payload]
    split
    · exact congrArg Except.ok (by rw [bare_bare, bare_payload])
    · split
      · exact congrArg Except.ok (by rw [bare_list, bare_list, map_bare_map_bare])
      · exact congrArg Except.ok (by rw [bare_vector, bare_vector, map_bare_map_bare])
      · rfl

end Value

open Value

/-! ## Expansion -/

/-- A list is a macro call whether or not there are marks in it. -/
theorem Host.expandInc?_map_bare : (vs : List Value) →
    (expandInc? (.list (vs.map bare))).map bare = (expandInc? (.list vs)).map bare
  | [head, target] => by
    have hhead : (head.bare == .symbol ⟨"inc!"⟩) = (head == .symbol ⟨"inc!"⟩) := beq_bare head _
    simp only [List.map_cons, List.map_nil, expandInc?, hhead]
    split
    · simp [bare_list, bare_bare]
    · rfl
  | [] | [_] => rfl
  | _ :: _ :: _ :: vs => by simp [expandInc?]

theorem Host.expandInc?_bare : (form : Value) →
    (expandInc? form.bare).map bare = (expandInc? form.payload).map bare
  | .resolved v => expandInc?_bare v
  | .list vs => by rw [bare_list, expandInc?_map_bare]; rfl
  | .nil | .bool _ | .int _ | .big _ | .float _ | .string _ | .symbol _ | .keyword _ | .vector _
  | .seq _ _ | .native _ | .type _ => rfl

/-! ## Functions -/

namespace Function

theorem applyType_bare : (args : List Value) → applyType (args.map bare) = applyType args
  | [v] => by rw [List.map_cons, List.map_nil, applyType, applyType, ty_bare]
  | [] => rfl
  | _ :: _ :: args => by simp [applyType]

theorem applyImplements_bare : (args : List Value) →
    applyImplements (args.map bare) = applyImplements args
  | [v, t] => by
    simp only [List.map_cons, List.map_nil, applyImplements, requireType_bare, implements_bare]
  | [] | [_] => rfl
  | _ :: _ :: _ :: args => by simp [applyImplements]

theorem applyToType_bare : (args : List Value) →
    (applyToType (args.map bare)).map bare = (applyToType args).map bare
  | [v, t] => by
    simp only [List.map_cons, List.map_nil, applyToType, requireType_bare]
    cases t.requireType "to-type" with
    | ok target => exact toType_bare v target
    | error e => rfl
  | [] | [_] => rfl
  | _ :: _ :: _ :: args => by simp [applyToType]

theorem applyStr_bare (limit : Option Nat) (args : List Value) :
    applyStr limit (args.map bare) = applyStr limit args := by
  rw [applyStr, applyStr, makeString, makeString, concat_bare]

theorem rangeBounds_bare : (args : List Value) → rangeBounds (args.map bare) = rangeBounds args
  | [_] | [_, _] | [_, _, _] => by
    simp only [List.map_cons, List.map_nil, rangeBounds, requireInt_bare]
  | [] => rfl
  | _ :: _ :: _ :: _ :: args => by simp [rangeBounds]

theorem applyRange_bare (args : List Value) : applyRange (args.map bare) = applyRange args := by
  rw [applyRange, applyRange, rangeBounds_bare]

theorem expandOnce_bare (form : Value) :
    (expandOnce Host.expandInc? form.bare).bare = (expandOnce Host.expandInc? form).bare := by
  have hgetD (o : Option Value) (v : Value) : (o.getD v).bare = (o.map bare).getD v.bare := by
    cases o <;> rfl
  rw [expandOnce, expandOnce, payload_bare, hgetD, hgetD, Host.expandInc?_bare, bare_bare,
    bare_payload]

theorem applyMacroexpand_bare : (args : List Value) →
    (applyMacroexpand Host.expandInc? (args.map bare)).map bare =
      (applyMacroexpand Host.expandInc? args).map bare
  | [form] => congrArg Except.ok (expandOnce_bare form)
  | [] => rfl
  | _ :: _ :: args => by simp [applyMacroexpand]

theorem thrownBy_bare (limit : Option Nat) (args : List Value) :
    thrownBy limit (args.map bare) = thrownBy limit args := by
  rw [thrownBy, thrownBy, concat_bare]

end Function

/-! ## Calls -/

/-- What the built-in functions make of their arguments in the reference host. -/
def Function.builtin? (limit : Option Nat) : Function → Option (List Value → Outcome Value)
  | .type => some applyType
  | .implements => some applyImplements
  | .toType => some applyToType
  | .str => some (applyStr limit)
  | .range => some applyRange
  | .macroexpand => some (applyMacroexpand Host.expandInc?)
  | .throw => some fun args => .fail (thrownBy limit args)
  | _ => none

theorem Function.exists_builtin? {f : Function} (h : (Native.fn f).binding ∈ builtinBindings)
    (limit : Option Nat) : ∃ apply, f.builtin? limit = some apply := by
  cases f with
  | type | implements | toType | str | range | macroexpand | throw => exact ⟨_, rfl⟩
  | _ => simp [builtinBindings, Native.binding] at h

theorem Function.builtin?_bare {f : Function} (h : f.builtin? limit = some apply)
    (args : List Value) : (apply (args.map bare)).map bare = (apply args).map bare := by
  cases f with
  | type => cases h; rw [applyType_bare]
  | implements => cases h; rw [applyImplements_bare]
  | toType => cases h; exact applyToType_bare args
  | str => cases h; rw [applyStr_bare]
  | range => cases h; rw [applyRange_bare]
  | macroexpand => cases h; exact applyMacroexpand_bare args
  | throw => cases h; simp only [thrownBy_bare]
  | _ => cases h

theorem Function.builtin?_run {f : Function} (h : f.builtin? limit = some apply) (n : Nat)
    (args : List Value) (s : State) :
    (((Host.reference.context limit n).callFunction f args).run s).1 = apply args := by
  have happly : (Host.reference.context limit n).apply f args = .ofOutcome (apply args) := by
    cases f with
    | type | implements | toType | str | range | macroexpand | throw => cases h; rfl
    | _ => cases h
  rw [Context.callFunction, Action.run_record_bind, happly, Action.run_ofOutcome]

/-- The outcomes are values that are equal and differ only by marks, or the same failure. -/
inductive SameButMarks : Outcome Value → Outcome Value → Prop
  | ok : v.bare = w.bare → v == w → SameButMarks (.ok v) (.ok w)
  | error : SameButMarks (.error e) (.error e)

theorem sameButMarks_of_map_bare_eq {o o' : Outcome Value} (h : o.map bare = o'.map bare) :
    SameButMarks o o' := by
  cases o with
  | ok v =>
    cases o' with
    | ok w => exact .ok (Except.ok.inj h) (beq_of_bare_eq v w (Except.ok.inj h))
    | error e => cases h
  | error e =>
    cases o' with
    | ok w => cases h
    | error e' =>
      cases h
      exact .error

/-- The built-in functions cannot tell a marked value from its payload. Called with arguments that
differ only by marks, in whatever states, they fail alike, or return values that are equal and
differ only by marks. -/
theorem builtins_blind_to_marks {f : Function} (hf : (Native.fn f).binding ∈ builtinBindings)
    (limit : Option Nat) (n n' : Nat) {args args' : List Value}
    (h : args.map bare = args'.map bare) (s s' : State) :
    SameButMarks (((Host.reference.context limit n).callFunction f args).run s).1
      (((Host.reference.context limit n').callFunction f args').run s').1 := by
  obtain ⟨apply, happly⟩ := Function.exists_builtin? hf limit
  rw [Function.builtin?_run happly, Function.builtin?_run happly]
  apply sameButMarks_of_map_bare_eq
  calc (apply args).map bare
    _ = (apply (args.map bare)).map bare := (Function.builtin?_bare happly args).symm
    _ = (apply (args'.map bare)).map bare := by rw [h]
    _ = (apply args').map bare := Function.builtin?_bare happly args'

theorem builtins_blind_to_marks_expansion :
    let args : List Value := [.list [.resolved (.symbol ⟨"inc!"⟩), .resolved (.symbol ⟨"n"⟩)]]
    let args' : List Value := [.resolved (.list [.symbol ⟨"inc!"⟩, .symbol ⟨"n"⟩])]
    let ctx := Host.reference.context none 0
    let s := State.initial .reference
    ((Native.fn .macroexpand).binding ∈ builtinBindings ∧ args.map bare = args'.map bare) ∧
      SameButMarks ((ctx.callFunction .macroexpand args).run s).1
        ((ctx.callFunction .macroexpand args').run s).1 := by
  intro args args' ctx s
  have hf : (Native.fn .macroexpand).binding ∈ builtinBindings := by simp [builtinBindings]
  have hargs : args.map bare = args'.map bare := rfl
  exact ⟨⟨hf, hargs⟩, builtins_blind_to_marks hf none 0 0 hargs s s⟩

end Lisplet
