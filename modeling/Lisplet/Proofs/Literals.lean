import Mathlib.Data.List.Forall2
import Lisplet.Proofs.Clauses
import Lisplet.Proofs.Report
import Lisplet.Proofs.Transparency
import Lisplet.Proofs.Validation

/-!
What is taken literally. The keys of `case`, the target of `set!` and the loop symbol of `doseq` are
never evaluated, and marks in them make no difference, save that `doseq` takes a marked symbol for
no symbol. Main statement: `literals_look_through_marks`.
-/

namespace Lisplet

namespace Value

theorem payload_eq_symbol_iff {v : Value} : v.payload = symbol x ↔ v.bare = symbol x := by
  constructor
  · intro h
    rw [← bare_payload, h, bare]
  · exact fun h => payload_of_bare_eq h rfl

theorem payload_eq_symbol_congr {v w : Value} (h : v.bare = w.bare) (x : Symbol) :
    v.payload = symbol x ↔ w.payload = symbol x := by
  rw [payload_eq_symbol_iff, h, payload_eq_symbol_iff]

theorem eq_symbol_iff {v : Value} : v = symbol x ↔ v.isMarked = false ∧ v.payload = symbol x := by
  constructor
  · rintro rfl
    exact ⟨rfl, rfl⟩
  · rintro ⟨hunmarked, hx⟩
    cases v with
    | resolved v => cases hunmarked
    | _ => exact hx

theorem typeName_congr_bare {v w : Value} (h : v.bare = w.bare) : v.typeName = w.typeName := by
  rw [← typeName_bare v, h, typeName_bare]

end Value

/-! ## Forms with other marks in their literals -/

namespace SpecialForm

/-- Clauses with the same bodies, and with keys that differ by marks only. -/
def SameClauses : List (Value × Value) → List (Value × Value) → Prop :=
  List.Forall₂ fun c c' => c.1.bare = c'.1.bare ∧ c.2 = c'.2

/-- Two rows of forms for a special form are the same but for marks in what it takes literally: the
keys of `case`, the target of `set!`, the loop symbol of `doseq`. -/
inductive SameLiterals : SpecialForm → List Value → List Value → Prop
  | case : SameClauses clauses clauses' → SameLiterals .case
      (subject :: clauseForms clauses default?) (subject :: clauseForms clauses' default?)
  | assign : target.bare = target'.bare → SameLiterals .assign (target :: rest) (target' :: rest)
  | doseq : binding.payload = .vector [v, form] → binding'.payload = .vector [v', form] →
      v.bare = v'.bare → SameLiterals .doseq (binding :: body) (binding' :: body)

/-- A loop whose symbol is marked. -/
inductive MarkedLoop : SpecialForm → List Value → Prop
  | doseq : binding.payload = .vector [.resolved v, form] → v.payload = .symbol x →
      MarkedLoop .doseq (binding :: body)

variable {f : SpecialForm} {forms forms' : List Value}

theorem SameClauses.symm (h : SameClauses clauses clauses') : SameClauses clauses' clauses :=
  List.Forall₂.imp (fun _ _ h => ⟨h.1.symm, h.2.symm⟩) (List.Forall₂.flip h)

theorem SameLiterals.symm (h : SameLiterals f forms forms') : SameLiterals f forms' forms := by
  cases h with
  | case h => exact .case h.symm
  | assign h => exact .assign h.symm
  | doseq hb hb' h => exact .doseq hb' hb h.symm

theorem markedLoop_iff (hb : binding.payload = .vector [v, form]) (body : List Value) :
    MarkedLoop .doseq (binding :: body) ↔ v.isMarked ∧ ∃ x, v.payload = .symbol x := by
  constructor
  · rintro ⟨hb', hx⟩
    cases hb.symm.trans hb'
    exact ⟨rfl, _, hx⟩
  · rintro ⟨hmarked, x, hx⟩
    cases v with
    | resolved v => exact .doseq hb hx
    | _ => cases hmarked

/-- `doseq` asks for a symbol without looking through marks, and names what it finds instead by
looking through them. -/
theorem MarkedLoop.refuses (h : MarkedLoop f forms) :
    f.Refuses forms (.typeIn "doseq" "symbol" "symbol") := by
  cases h with
  | @doseq binding body v form x hb hx =>
    have htype : (Value.resolved v).typeName = "symbol" := by
      rw [← Value.typeName_payload, Value.payload, hx, Value.typeName]
    have hv (y : Symbol) : Value.resolved v ≠ .symbol y := by simp
    have hrefuses : Refuses .doseq (binding :: body) _ := .no_loop_symbol hb hv
    rwa [htype] at hrefuses

end SpecialForm

open SpecialForm

/-! ## Runs -/

theorem chosen?_congr (h : SameClauses clauses clauses') (v : Value) (default? : Option Value) :
    chosen? v (clauseForms clauses default?) = chosen? v (clauseForms clauses' default?) := by
  induction h with
  | nil => rfl
  | @cons c c' _ _ hc _ ih =>
    have hkey : (c.1 == v) = (c'.1 == v) := Value.beq_congr_bare hc.1 v
    rw [clauseForms_cons, clauseForms_cons, chosen?, chosen?, hkey, hc.2, ih]

/-- The two loops find their symbols alike when both or none of them are marked loops. -/
theorem loopBinding_congr (hb : binding.payload = .vector [v, form])
    (hb' : binding'.payload = .vector [v', form]) (h : v.bare = v'.bare)
    (hmarked : (v.isMarked ∧ ∃ x, v.payload = .symbol x) ↔
      v'.isMarked ∧ ∃ x, v'.payload = .symbol x) : loopBinding binding = loopBinding binding' := by
  have hpayload := Value.payload_eq_symbol_congr h
  have hsymbol (x : Symbol) : v = .symbol x ↔ v' = .symbol x := by
    rw [Value.eq_symbol_iff, Value.eq_symbol_iff (v := v'), hpayload]
    refine and_congr_left fun hx => ?_
    have heq : v.isMarked = v'.isMarked := Bool.eq_iff_iff.mpr
      ⟨fun hv => (hmarked.mp ⟨hv, x, (hpayload x).mpr hx⟩).1, fun hv => (hmarked.mpr ⟨hv, x, hx⟩).1⟩
    rw [heq]
  by_cases hx : ∃ x, v = .symbol x
  · obtain ⟨x, rfl⟩ := hx
    rw [(hsymbol x).mp rfl] at hb'
    rw [loopBinding_eq_ok.mpr hb, loopBinding_eq_ok.mpr hb']
  · have hx' (x : Symbol) : v' ≠ .symbol x := fun heq => hx ⟨x, (hsymbol x).mpr heq⟩
    rw [loopBinding_of_ne_symbol hb (not_exists.mp hx), loopBinding_of_ne_symbol hb' hx',
      Value.typeName_congr_bare h]

namespace Context

variable {f : SpecialForm} {forms forms' : List Value}

theorem evalCase_congr (ctx : Context) (h : SameClauses clauses clauses') (subject : Value)
    (default? : Option Value) : ctx.evalCase (subject :: clauseForms clauses default?) =
      ctx.evalCase (subject :: clauseForms clauses' default?) := by
  have hchosen (v : Value) := chosen?_congr h v default?
  cases h with
  | nil => rfl
  | cons =>
    simp only [clauseForms_cons] at hchosen ⊢
    simp only [evalCase, hchosen]

theorem applySpecial_assign_congr (ctx : Context) (h : target.bare = target'.bare)
    (rest : List Value) :
    ctx.applySpecial .assign (target :: rest) = ctx.applySpecial .assign (target' :: rest) := by
  cases rest with
  | nil => rfl
  | cons form rest =>
    have hpayload := Value.payload_eq_symbol_congr h
    by_cases hx : ∃ x, target.payload = .symbol x
    · obtain ⟨x, hx⟩ := hx
      exact (evalAssign_of_target ctx hx form rest).trans
        (evalAssign_of_target ctx ((hpayload x).mp hx) form rest).symm
    · have hx' (x : Symbol) : target'.payload ≠ .symbol x := fun heq => hx ⟨x, (hpayload x).mpr heq⟩
      rw [applySpecial_of_refuses ctx (.no_target (not_exists.mp hx)),
        applySpecial_of_refuses ctx (.no_target hx'), Value.typeName_congr_bare h]

theorem evalDoseq_congr (ctx : Context) (h : loopBinding binding = loopBinding binding')
    (body : List Value) : ctx.evalDoseq (binding :: body) = ctx.evalDoseq (binding' :: body) := by
  rw [evalDoseq, h, evalDoseq]

theorem applySpecial_congr (ctx : Context) (h : SameLiterals f forms forms')
    (hloops : MarkedLoop f forms ↔ MarkedLoop f forms') :
    ctx.applySpecial f forms = ctx.applySpecial f forms' := by
  cases h with
  | case h => exact evalCase_congr ctx h ..
  | assign h => exact applySpecial_assign_congr ctx h _
  | doseq hb hb' h =>
    rw [markedLoop_iff hb, markedLoop_iff hb'] at hloops
    exact evalDoseq_congr ctx (loopBinding_congr hb hb' h hloops) _

/-- Without the mark the loop goes on to its collection form, where an evaluator can give up. -/
theorem markedLoop_of_applySpecial_eq (hloop : MarkedLoop f forms)
    (h : SameLiterals f forms forms')
    (heq : ∀ ctx : Context, ctx.applySpecial f forms = ctx.applySpecial f forms') :
    MarkedLoop f forms' := by
  have hrefuses := hloop.refuses
  cases h with
  | case | assign => cases hloop
  | @doseq binding body binding' v form v' hb hb' h =>
    obtain ⟨-, x, hx⟩ := (markedLoop_iff hb body).mp hloop
    have hx' : v'.payload = .symbol x := (Value.payload_eq_symbol_congr h x).mp hx
    refine (markedLoop_iff hb' body).mpr ⟨?_, x, hx'⟩
    by_contra hmarked
    have hv' : v' = .symbol x := Value.eq_symbol_iff.mpr ⟨Bool.eq_false_iff.mpr hmarked, hx'⟩
    rw [hv'] at hb'
    have htakes : Takes .doseq (binding' :: body) (some form) := .doseq hb'
    obtain ⟨ctx, s, hne⟩ := exists_not_raised_of_takes htakes
    rw [← heq, applySpecial_of_refuses ctx hrefuses] at hne
    exact hne _ rfl

theorem applySpecial_eq_iff (h : SameLiterals f forms forms') :
    (∀ ctx : Context, ctx.applySpecial f forms = ctx.applySpecial f forms') ↔
      (MarkedLoop f forms ↔ MarkedLoop f forms') := by
  constructor
  · intro heq
    exact ⟨fun hloop => markedLoop_of_applySpecial_eq hloop h heq,
      fun hloop => markedLoop_of_applySpecial_eq hloop h.symm fun ctx => (heq ctx).symm⟩
  · exact fun hloops ctx => ctx.applySpecial_congr h hloops

end Context

/-! ## Calls -/

/-- What is on record makes no difference to a special form in the reference host. -/
theorem Host.reference_applySpecial_reports (limit : Option Nat) (n : Nat) (f : SpecialForm)
    (forms : List Value) (scope : Scope) (k : Nat) :
    ∃ r, ((reference.context limit n).applySpecial f forms).Reports scope k r := by
  let L := agreementLaw limit (A := fun _ => True) trivial trivial
  have hnames (v : Value) : v.NamesIn fun _ => True := fun _ _ => trivial
  have hspecial : L.Holds (Value.NamesIn fun _ => True) fun _ =>
      (reference.context limit n).applySpecial f forms := by
    refine L.of_staged (L.staged.applySpecial (fun v _ => hnames v) (fun v _ _ => hnames v) ?_)
    exact fun log g _ _ _ => L.at_stage
      (fun s hs => predicted_evalWith limit n trivial trivial (hnames g) hs) log
  exact (hspecial ⟨scope, k, []⟩ fun _ _ _ _ _ _ => trivial).exists_reports

/-- Calls by name go alike when what the forms do is alike. -/
theorem evalWith_special_congr (limit : Option Nat) (n : Nat) (hx : x ≠ ⟨"inc!"⟩) {s : State}
    (hs : s.scope.resolve? x = some (.native (.special f)))
    (h : ∀ ctx : Context, ctx.applySpecial f forms = ctx.applySpecial f forms') :
    let r := (evalWith .reference limit (n + 2) (.list (.symbol x :: forms))).run s
    let r' := (evalWith .reference limit (n + 2) (.list (.symbol x :: forms'))).run s
    r.1 = r'.1 ∧ r.2.scope = r'.2.scope ∧ r.2.nextIdentity = r'.2.nextIdentity := by
  intro r r'
  obtain ⟨report, hreport⟩ := Host.reference_applySpecial_reports limit (n + 1) f forms s.scope
    s.nextIdentity
  have hreport' := h (Host.reference.context limit (n + 1)) ▸ hreport
  obtain ⟨h₁, h₂, h₃, -⟩ := (evalWith_special_reports rfl hx hs hreport).run_eq
  obtain ⟨h₁', h₂', h₃', -⟩ := (evalWith_special_reports rfl hx hs hreport').run_eq
  exact ⟨h₁.trans h₁'.symm, h₂.trans h₂'.symm, h₃.trans h₃'.symm⟩

/-- Marks in what a special form takes literally make no difference to what it does, whatever the
evaluator, exactly when the loop symbols of `doseq` are both marked or both not; and then calls by
name end alike in the reference host. A loop with a marked symbol does nothing but fail. Wherever
there are marks in a key, it equals the same values and has the same text. -/
theorem literals_look_through_marks {f : SpecialForm} {forms forms' : List Value}
    (h : SameLiterals f forms forms') :
    ((∀ ctx : Context, ctx.applySpecial f forms = ctx.applySpecial f forms') ↔
      (MarkedLoop f forms ↔ MarkedLoop f forms')) ∧
    ((MarkedLoop f forms ↔ MarkedLoop f forms') → ∀ (limit : Option Nat) n x (s : State),
      x ≠ ⟨"inc!"⟩ → s.scope.resolve? x = some (.native (.special f)) →
      let r := (evalWith .reference limit (n + 2) (.list (.symbol x :: forms))).run s
      let r' := (evalWith .reference limit (n + 2) (.list (.symbol x :: forms'))).run s
      r.1 = r'.1 ∧ r.2.scope = r'.2.scope ∧ r.2.nextIdentity = r'.2.nextIdentity) ∧
    (MarkedLoop f forms → ∀ ctx : Context,
      ctx.applySpecial f forms = .raise (.typeIn "doseq" "symbol" "symbol")) ∧
    ∀ key key' : Value, key.bare = key'.bare →
      (∀ v : Value, (key == v) = (key' == v)) ∧
        ∀ limit : Option Nat, key.render limit = key'.render limit := by
  refine ⟨Context.applySpecial_eq_iff h, ?_, ?_, ?_⟩
  · intro hloops limit n x s hx hs
    exact evalWith_special_congr limit n hx hs fun ctx => ctx.applySpecial_congr h hloops
  · exact fun hloop ctx => ctx.applySpecial_of_refuses hloop.refuses
  · intro key key' hbare
    refine ⟨Value.beq_congr_bare hbare, fun limit => ?_⟩
    rw [← Value.render_bare, hbare, Value.render_bare]

/-- A key with marks around it and inside it, and a loop that does not see its symbol. -/
theorem literals_look_through_marks_key :
    let a : Value := .symbol ⟨"a"⟩
    let key : Value := .vector [.int 1, .list [a]]
    let key' : Value := .resolved (.vector [.int 1, .resolved (.list [.resolved (.resolved a)])])
    let subject : Value := .list [.symbol ⟨"quote"⟩, key]
    let forms := subject :: clauseForms [(key, .bool true)] none
    let forms' := subject :: clauseForms [(key', .bool true)] none
    let s := State.initial .reference
    let r := (evalWith .reference none 4 (.list (.symbol ⟨"case"⟩ :: forms))).run s
    let r' := (evalWith .reference none 4 (.list (.symbol ⟨"case"⟩ :: forms'))).run s
    let loop (v : Value) : List Value := [.vector [v, .vector [.int 1]]]
    (SameLiterals .case forms forms' ∧ r.1 = .ok (.bool true) ∧ r'.1 = .ok (.bool true) ∧
      r.2.scope = r'.2.scope ∧ key.render none = "[1 (a)]" ∧ key'.render none = "[1 (a)]") ∧
    SameLiterals .doseq (loop (.resolved a)) (loop a) ∧ MarkedLoop .doseq (loop (.resolved a)) ∧
      ¬∀ ctx : Context, ctx.applySpecial .doseq (loop (.resolved a)) =
        ctx.applySpecial .doseq (loop a) := by
  intro a key key' subject forms forms' s r r' loop
  have hbare : key.bare = key'.bare := rfl
  have hcase : SameLiterals .case forms forms' := .case (.cons ⟨hbare, rfl⟩ .nil)
  obtain ⟨-, hcall, -, hkey⟩ := literals_look_through_marks hcase
  have hloops : MarkedLoop .case forms ↔ MarkedLoop .case forms' :=
    iff_of_false (by rintro ⟨⟩) (by rintro ⟨⟩)
  obtain ⟨houtcome, hscope, -⟩ := hcall hloops none 2 ⟨"case"⟩ s (by decide) rfl
  have hr : r.1 = .ok (.bool true) := rfl
  have htext : key.render none = "[1 (a)]" := rfl
  have hdoseq : SameLiterals .doseq (loop (.resolved a)) (loop a) := .doseq rfl rfl rfl
  have hmarked : MarkedLoop .doseq (loop (.resolved a)) := .doseq rfl rfl
  have hunmarked : ¬MarkedLoop .doseq (loop a) := by
    rw [markedLoop_iff (v := a) rfl]
    rintro ⟨⟨⟩, -⟩
  refine ⟨⟨hcase, hr, houtcome.symm.trans hr, hscope, htext, ?_⟩, hdoseq, hmarked, ?_⟩
  · exact ((hkey key key' hbare).2 none).symm.trans htext
  · rw [(literals_look_through_marks hdoseq).1]
    exact fun hiff => hunmarked (hiff.mp hmarked)

/-- A mark around its symbol keeps a loop from being run. -/
theorem marked_loop_symbol_refused :
    let x : Symbol := ⟨"x"⟩
    let loop (v : Value) : Value := .list [.symbol ⟨"doseq"⟩, .vector [v, .vector [.int 1]]]
    let r := (evalWith .reference none 4 (loop (.symbol x))).run (.initial .reference)
    let r' := (evalWith .reference none 4 (loop (.resolved (.symbol x)))).run (.initial .reference)
    (r.1 = .ok .nil ∧ r.2.scope.resolve? x = some (.int 1)) ∧
      r'.1 = .error (.raised (.typeIn "doseq" "symbol" "symbol")) ∧
      r'.2.scope.resolve? x = none := by
  exact ⟨⟨rfl, rfl⟩, rfl, rfl⟩

end Lisplet
