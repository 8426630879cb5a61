import Lisplet.Proofs.Transparency
import Mathlib.Logic.Relation

/-!
Representations of one value. Marks come and go, and an integer of 64 bits can be kept in either
size; equality, which is reflexive and symmetric, cannot tell. Main statement:
`beq_respects_representation`.
-/

namespace Lisplet

namespace Value

/-- At one place in a value a mark is put on, or an integer is kept in the other size. -/
inductive Recast : Value → Value → Prop
  | mark : Recast v (resolved v)
  | widen : Recast (int n) (big n.toInt)
  | resolved : Recast v w → Recast (resolved v) (resolved w)
  | list : Recast v w → Recast (list (pre ++ v :: post)) (list (pre ++ w :: post))
  | vector : Recast v w → Recast (vector (pre ++ v :: post)) (vector (pre ++ w :: post))

/-- Two values are one but for changes of that kind and back, in any number and at any places. -/
def SameContent : Value → Value → Prop := Relation.EqvGen Recast

/-! ## Symmetry -/

@[simp] theorem beq_resolved (b : Value) : (a : Value) → a.beq (resolved b) = a.beq b
  | resolved a => beq_resolved b a
  | nil | bool _ | int _ | big _ | float _ | string _ | symbol _ | keyword _ | list _ | vector _
  | seq _ _ | native _ | type _ => rfl

theorem integer_beq_symm {a b : Value} (ha : a.integer? = some n) (hp : a.payload = a)
    (h : a.beq b) : b.beq a := by
  have ha' : a.payload.integer? = some n := (congrArg integer? hp).trans ha
  rw [← payload_beq]
  rcases (integer_beq ha).mp h with hb | ⟨x, hb, hx⟩
  · exact (integer_beq hb).mpr (.inl ha')
  · rw [hb]
    exact float_beq.mpr (.inr ⟨n, ha', hx⟩)

theorem float_beq_symm {b : Value} (h : (float x).beq b) : b.beq (float x) := by
  rw [← payload_beq]
  rcases float_beq.mp h with hb | ⟨n, hb, hn⟩
  · rw [hb]
    exact float_beq.mpr (.inl rfl)
  · exact (integer_beq hb).mpr (.inr ⟨x, rfl, hn⟩)

theorem seq_beq_symm {b : Value} (h : (seq i s).beq b) : b.beq (seq i s) := by
  obtain ⟨t, hb⟩ := seq_beq.mp h
  rw [← payload_beq, hb]
  exact seq_beq.mpr ⟨s, rfl⟩

theorem native_beq_symm {b : Value} (h : (native m).beq b) : b.beq (native m) := by
  obtain ⟨n, hb, hname, hspecial⟩ := native_beq.mp h
  rw [← payload_beq, hb]
  exact native_beq.mpr ⟨m, rfl, hname.symm, hspecial.symm⟩

theorem atom_beq_symm {a b : Value} (ha : a.isAtom) (hp : a.payload = a) (h : a.beq b) :
    b.beq a := by
  have hb : b.payload = a := ((isAtom_beq ha).mp h).symm
  rw [← payload_beq, hb]
  exact (isAtom_beq ha).mpr hp.symm

mutual

theorem beq_symm : (a b : Value) → a.beq b → b.beq a
  | resolved a, b, h => by
    rw [beq_resolved]
    exact beq_symm a b h
  | list as, b, h => by
    obtain ⟨bs, hb, hbs⟩ := list_beq.mp h
    rw [← payload_beq, hb]
    exact list_beq.mpr ⟨as, rfl, beqAll_symm as bs hbs⟩
  | vector as, b, h => by
    obtain ⟨bs, hb, hbs⟩ := vector_beq.mp h
    rw [← payload_beq, hb]
    exact vector_beq.mpr ⟨as, rfl, beqAll_symm as bs hbs⟩
  | int _, _, h | big _, _, h => integer_beq_symm rfl rfl h
  | float _, _, h => float_beq_symm h
  | seq _ _, _, h => seq_beq_symm h
  | native _, _, h => native_beq_symm h
  | nil, _, h | bool _, _, h | string _, _, h | symbol _, _, h | keyword _, _, h | type _, _, h =>
    atom_beq_symm rfl rfl h
termination_by structural a => a

theorem beqAll_symm : (as bs : List Value) → beqAll as bs → beqAll bs as
  | [], [], _ => rfl
  | a :: as, b :: bs, h => by
    rw [beqAll, Bool.and_eq_true] at h ⊢
    exact ⟨beq_symm a b h.1, beqAll_symm as bs h.2⟩
  | [], _ :: _, h | _ :: _, [], h => nomatch h
termination_by structural as => as

end

theorem beq_comm (a b : Value) : a.beq b = b.beq a :=
  Bool.eq_iff_iff.mpr ⟨beq_symm a b, beq_symm b a⟩

/-! ## Representations -/

theorem beqAll_append_congr {v w : Value} (h : ∀ c : Value, v.beq c = w.beq c) :
    (pre post cs : List Value) → beqAll (pre ++ v :: post) cs = beqAll (pre ++ w :: post) cs
  | [], post, [] => rfl
  | [], post, c :: cs => by rw [List.nil_append, List.nil_append, beqAll, beqAll, h]
  | a :: pre, post, [] => rfl
  | a :: pre, post, c :: cs => by
    rw [List.cons_append, List.cons_append, beqAll, beqAll, beqAll_append_congr h pre post cs]

/-- A single change makes no difference to what a value equals. -/
theorem Recast.beq_eq (h : Recast a b) (c : Value) : a.beq c = b.beq c := by
  induction h generalizing c with
  | mark => rfl
  | widen => rw [Bool.eq_iff_iff, int_beq, big_beq]
  | resolved _ ih => exact ih c
  | list _ ih | vector _ ih =>
    rw [beq, beq]
    simp only [beqAll_append_congr ih]

theorem SameContent.beq_eq (h : SameContent a b) (c : Value) : a.beq c = b.beq c := by
  induction h with
  | rel _ _ h => exact h.beq_eq c
  | refl => rfl
  | symm _ _ _ ih => exact ih.symm
  | trans _ _ _ _ _ ih ih' => exact ih.trans ih'

end Value

open Value

/-- Equality is reflexive and symmetric, and values of the same content equal the same values. -/
theorem beq_respects_representation :
    (∀ a : Value, a == a) ∧ (∀ a b : Value, a == b ↔ b == a) ∧
    ∀ a a' c c' : Value, SameContent a a' → SameContent c c' → (a' == c' ↔ a == c) := by
  refine ⟨fun a => beq_of_bare_eq a a rfl, fun a b => ⟨beq_symm a b, beq_symm b a⟩, ?_⟩
  intro a a' c c' ha hc
  change a'.beq c' ↔ a.beq c
  rw [← ha.beq_eq, beq_comm, ← hc.beq_eq, beq_comm]

/-- The list `(2 [3])` with a mark inside and with one around it, each integer in the one size and
in the other. -/
theorem beq_respects_representation_nested :
    let a : Value := .list [.int 2, .vector [.resolved (.big 3)]]
    let a' : Value := .resolved (.list [.big 2, .vector [.int 3]])
    let c : Value := .list [.float (.ofInt 2), .vector [.float (.ofInt 3)]]
    SameContent a a' ∧ a == c ∧ a' == c ∧ c == a' := by
  intro a a' c
  have hfirst : Recast a (.list [.big 2, .vector [.resolved (.big 3)]]) :=
    @Recast.list _ _ [] _ .widen
  have hmark : Recast (.list [.big 2, .vector [.big 3]])
      (.list [.big 2, .vector [.resolved (.big 3)]]) :=
    @Recast.list _ _ [.big 2] _ (@Recast.vector _ _ [] _ .mark)
  have hsecond : Recast (.list [.big 2, .vector [.int 3]]) (.list [.big 2, .vector [.big 3]]) :=
    @Recast.list _ _ [.big 2] _ (@Recast.vector _ _ [] _ .widen)
  have hcontent : SameContent a a' :=
    .trans _ _ _ (.rel _ _ hfirst) (.trans _ _ _ (.symm _ _ (.rel _ _ hmark))
      (.trans _ _ _ (.symm _ _ (.rel _ _ hsecond)) (.rel _ _ .mark)))
  have hac : a == c := by decide +kernel
  obtain ⟨-, hsymm, hcongr⟩ := beq_respects_representation
  have hac' : a' == c := (hcongr a a' c c hcontent (.refl c)).mpr hac
  exact ⟨hcontent, hac, hac', (hsymm a' c).mp hac'⟩

end Lisplet
