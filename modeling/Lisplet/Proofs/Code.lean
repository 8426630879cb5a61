import Lisplet.Proofs.Record

/-!
Which forms are evaluated. The code of a form is what its items, its expansions and the splicing of
marked values make of it; what stands in a mark is data. Data becomes code in one way only: `doseq`
takes its binding out of a mark and evaluates the collection form in it. Main statements:
`evaluated_forms_are_code` and `doseq_evaluates_data`.
-/

namespace Lisplet

/-- The least set of forms that has `R` in it and is closed under parts outside of marks, expansion,
and splicing a marked value in. -/
inductive Code (R : Value → Prop) : Value → Prop
  | root : R f → Code R f
  | item : Code R (.list gs) → g ∈ gs → Code R g
  | element : Code R (.vector gs) → g ∈ gs → Code R g
  | expansion : Code R f → Host.expandInc? f = some g → Code R g
  | spliceFirst : Code R (.list (f :: gs)) → Code R (.list (f :: .resolved v :: gs))
  | spliceLast : Code R (.list (f :: gs)) → Code R (.list (f :: (gs ++ [.resolved v])))

namespace Code

theorem of_items (h : Code R f) (hf : f.items? = some gs) (hg : g ∈ gs) : Code R g := by
  rcases Value.items?_eq_some.mp hf with rfl | rfl
  · exact h.item hg
  · exact h.element hg

theorem trans (hg : Code R g) (h : ∀ f, R f → Code R' f) : Code R' g := by
  induction hg with
  | root hr => exact h _ hr
  | item _ hmem ih => exact ih.item hmem
  | element _ hmem ih => exact ih.element hmem
  | expansion _ hexp ih => exact ih.expansion hexp
  | spliceFirst _ ih => exact ih.spliceFirst
  | spliceLast _ ih => exact ih.spliceLast

theorem mono (hg : Code R g) (h : ∀ f, R f → R' f) : Code R' g :=
  hg.trans fun f hf => .root (h f hf)

theorem splice (h : Code R step) (hg : splice? p step v = some g) : Code R g := by
  obtain ⟨w, hw⟩ := v.exists_mark_eq
  obtain ⟨operator, args, rfl, ⟨-, rfl⟩ | ⟨-, rfl⟩⟩ := splice?_eq_some.mp hg
  · rw [hw]
    exact h.spliceFirst
  · rw [hw]
    exact h.spliceLast

end Code

/-! ## Names in code -/

/-- Whether the name `x` stands in a form outside of all marks. -/
inductive Value.Mentions (x : Symbol) : Value → Prop
  | symbol : Mentions x (.symbol x)
  | list : g ∈ gs → Mentions x g → Mentions x (.list gs)
  | vector : g ∈ gs → Mentions x g → Mentions x (.vector gs)

namespace Value.Mentions

theorem not_resolved : ¬Mentions x (resolved v) := nofun

theorem list_iff : Mentions x (.list gs) ↔ ∃ g ∈ gs, Mentions x g :=
  ⟨fun | .list hg h => ⟨_, hg, h⟩, fun ⟨_, hg, h⟩ => .list hg h⟩

theorem symbol_iff : Mentions x (.symbol y) ↔ x = y :=
  ⟨fun | .symbol => rfl, fun h => h ▸ .symbol⟩

end Value.Mentions

/-- No name comes into code but the two that an expansion brings. -/
theorem Code.mentions (h : Code R g) (hx : g.Mentions x) :
    (∃ f, R f ∧ f.Mentions x) ∨ x = ⟨"set!"⟩ ∨ x = ⟨"inc"⟩ := by
  induction h with
  | root hr => exact .inl ⟨_, hr, hx⟩
  | item _ hg ih => exact ih (.list hg hx)
  | element _ hg ih => exact ih (.vector hg hx)
  | expansion _ hg ih =>
    obtain ⟨head, target, rfl, -, rfl⟩ := Host.expandInc?_eq_some.mp hg
    simp only [Value.Mentions.list_iff, Value.Mentions.symbol_iff, List.mem_cons, List.not_mem_nil,
      or_false, exists_eq_or_imp, exists_eq_left] at hx ih
    rcases hx with rfl | hx | rfl | hx
    · exact .inr (.inl rfl)
    · exact ih (.inr hx)
    · exact .inr (.inr rfl)
    · exact ih (.inr hx)
  | spliceFirst _ ih =>
    obtain ⟨g, hg, hm⟩ := Value.Mentions.list_iff.mp hx
    rcases List.mem_cons.mp hg with rfl | hg
    · exact ih (.list List.mem_cons_self hm)
    · rcases List.mem_cons.mp hg with rfl | hg
      · exact absurd hm Value.Mentions.not_resolved
      · exact ih (.list (List.mem_cons_of_mem _ hg) hm)
  | spliceLast _ ih =>
    obtain ⟨g, hg, hm⟩ := Value.Mentions.list_iff.mp hx
    rw [← List.cons_append] at hg
    rcases List.mem_append.mp hg with hg | hg
    · exact ih (.list hg hm)
    · cases List.mem_singleton.mp hg
      exact absurd hm Value.Mentions.not_resolved

/-! ## Evaluated forms -/

/-- `g` was taken out of a mark and evaluated. -/
def Revived (log : List Event) (g : Value) : Prop :=
  .evaluated g ∈ log ∧ ∃ c ∈ log, c.unmarked? = some g

theorem Revived.mono (h : Revived log g) (hsub : ∀ c ∈ log, c ∈ log') : Revived log' g := by
  obtain ⟨hg, c, hc, hu⟩ := h
  exact ⟨hsub _ hg, c, hsub c hc, hu⟩

/-- All that was evaluated is code of `f`, or of forms that were taken out of marks. -/
def EvaluatedCode (f : Value) (log : List Event) : Prop :=
  ∀ g, .evaluated g ∈ log → Code (fun h => h = f ∨ Revived log h) g

namespace EvaluatedCode

theorem mono_of_mem (h : EvaluatedCode f log) (hsub : ∀ c ∈ log, c ∈ log')
    (hg : .evaluated g ∈ log) : Code (fun h => h = f ∨ Revived log' h) g :=
  (h g hg).mono fun _ => Or.imp_right (Revived.mono · hsub)

theorem append (holder : EvaluatedCode f older) (hnewer : EvaluatedCode f newer) :
    EvaluatedCode f (newer ++ older) := by
  intro g hg
  rcases List.mem_append.mp hg with hg | hg
  · exact hnewer.mono_of_mem (fun c => List.mem_append_left _) hg
  · exact holder.mono_of_mem (fun c => List.mem_append_right _) hg

theorem singleton (h : ∀ g, c ≠ .evaluated g) : EvaluatedCode f [c] :=
  fun g hg => absurd (List.mem_singleton.mp hg).symm (h g)

theorem recordProperty (limit : Option Nat) (f : Value) :
    RecordProperty limit fun log _ => EvaluatedCode f log where
  nil := nofun
  append := .append
  bound := .singleton nofun
  enter := .singleton nofun
  call _ := .singleton nofun

theorem error (o : Outcome α) : EvaluatedCode f o.log := by
  rcases o with (e | -) | a
  · exact singleton nofun
  · exact nofun
  · exact nofun

/-- What the evaluation of code of `f` puts on record is right for `f`. -/
theorem of_code (h : EvaluatedCode g log) (hg : Code (· = f) g) : EvaluatedCode f log := by
  intro k hk
  refine (h k hk).trans fun h' hh' => ?_
  rcases hh' with rfl | hr
  · exact hg.mono fun _ => .inl
  · exact .root (.inr hr)

/-- So is what the evaluation of a form puts on record that was taken out of a mark. -/
theorem of_unmarked (h : EvaluatedCode g log) (hg : log = [] ∨ .evaluated g ∈ log)
    (hu : c.unmarked? = some g) : EvaluatedCode f (log ++ [c]) := by
  rcases hg with rfl | hg
  · exact singleton fun k hk => by rw [hk] at hu; cases hu
  · have hr : Revived (log ++ [c]) g := ⟨by simp [hg], c, by simp, hu⟩
    intro k hk
    rcases List.mem_append.mp hk with hk | hk
    · have hcode : Code (fun h => h = g ∨ Revived (log ++ [c]) h) k :=
        h.mono_of_mem (fun c' => List.mem_append_left _) hk
      refine hcode.mono fun h' hh' => ?_
      rcases hh' with rfl | hr'
      · exact .inr hr
      · exact .inr hr'
    · cases List.mem_singleton.mp hk
      cases hu

end EvaluatedCode

/-- Without a mark around a binding, a special form enters code of its call. -/
theorem SpecialForm.Enters.code (h : s.Enters forms g)
    (hu : (Event.called (.special s) forms).unmarked? = none)
    (hf : Code R (.list (head :: forms))) : Code R g := by
  have hitem {k} (hk : k ∈ forms) : Code R k := hf.item (List.mem_cons_of_mem _ hk)
  rcases h.of_unmarked?_eq_none hu with hg | ⟨seed, steps, step, p, v, rfl, hstep, hg⟩ |
    ⟨x, body, rfl⟩
  · exact hitem hg
  · exact (hitem (List.mem_cons_of_mem _ hstep)).splice hg
  · exact (hitem List.mem_cons_self).element (by simp)

/-- The induction is on the budget. A run that has one evaluates `f` itself, which is what makes a
form that came out of a mark a revived one. -/
theorem recorded_evaluatedCode (limit : Option Nat) (n : Nat) (f : Value) (s : State) :
    Recorded (fun log _ => (log = [] ∨ .evaluated f ∈ log) ∧ EvaluatedCode f log) (fun _ => True) s
      ((evalWith .reference limit n f).run s) := by
  induction n generalizing f s with
  | zero => exact ⟨trivial, [], rfl, rfl, .inl rfl, nofun⟩
  | succ n ih =>
    have hT := EvaluatedCode.recordProperty limit f
    have hcode {g} (hg : Code (· = f) g) (s : State) : Recorded (fun log _ => EvaluatedCode f log)
        (fun _ => True) s ((evalWith .reference limit n g).run s) :=
      (ih g s).mono fun log _ h => h.2.of_code hg
    have hform : hT.law.Holds (fun _ => True) fun _ =>
        Context.evalForm ⟨.reference, limit, evalWith .reference limit n⟩ f := by
      refine hT.law.evalForm trivial ?_ ?_ ?_
      · exact fun forms hforms g hg => hcode (Code.of_items (.root rfl) hforms hg)
      · exact fun g hg _ => hcode (Code.expansion (.root rfl) hg)
      · rintro head forms sf rfl
        cases hu : (Event.called (.special sf) forms).unmarked? with
        | none =>
          refine hT.law.callSpecial (fun _ _ => trivial) fun g hg _ => ?_
          exact hcode (hg.code hu (.root rfl))
        | some g =>
          -- `g` need not be code of `f`; but it is on record as taken out of a mark.
          refine hT.law.callUnmarked (fun _ _ => trivial) hu ?_ fun k hk => ?_
          · exact Recorded.after_record (ih g) (fun _ => rfl) fun log _ h => h.2.of_unmarked h.1 hu
          · exact hcode (Code.item (.root rfl) (List.mem_cons_of_mem _ hk))
    refine Recorded.after_record hform (fun _ => rfl) (fun log _ hlog => ?_) s
    refine ⟨.inr (by simp), EvaluatedCode.append (fun g hg => ?_) hlog⟩
    cases List.mem_singleton.mp hg
    exact .root (.inl rfl)

/-- Every form that is evaluated is code of the form the run began with, or of a form that `doseq`
took out of a mark. So data stays data in exactly the runs in which all forms of the latter kind are
code as well. -/
theorem evaluated_forms_are_code (limit : Option Nat) (n : Nat) (form : Value) (s : State) :
    ∃ log, ((evalWith .reference limit n form).run s).2.events = log ++ s.events ∧
      (∀ g, .evaluated g ∈ log → Code (fun f => f = form ∨ Revived log f) g) ∧
      ((∀ g, .evaluated g ∈ log → Code (· = form) g) ↔ ∀ g, Revived log g → Code (· = form) g) := by
  obtain ⟨-, log, hevents, -, -, hlog⟩ := recorded_evaluatedCode limit n form s
  have hall := hlog.append (EvaluatedCode.error ((evalWith .reference limit n form).run s).1)
  refine ⟨_, hevents, hall, fun h g hg => h g hg.1, fun h g hg => (hall g hg).trans ?_⟩
  rintro f (rfl | hf)
  · exact .root rfl
  · exact h f hf

/-- A vector that is bound in the scope is spliced into a call of `doseq`, and a form that stands
in it is evaluated. -/
theorem doseq_evaluates_data :
    let data : Value := .list [.symbol ⟨"set!"⟩, .symbol ⟨"leaked"⟩, .nil]
    let form : Value := .list [.symbol ⟨"->"⟩, .symbol ⟨"v"⟩, .list [.symbol ⟨"doseq"⟩]]
    let scope := Scope.reference.bind ⟨"v"⟩ (.vector [.symbol ⟨"x"⟩, data])
    .evaluated data ∈ ((evalWith .reference none 4 form).run (.initial scope)).2.events ∧
      ¬Code (· = form) data := by
  intro data form scope
  constructor
  · have h : ((evalWith .reference none 4 form).run (.initial scope)).2.events[4]? =
      some (.evaluated data) := rfl
    exact List.mem_of_getElem? h
  · intro h
    have hdata : data.Mentions ⟨"leaked"⟩ := .list (by simp) .symbol
    have hform : ¬form.Mentions ⟨"leaked"⟩ := by
      simp [form, Value.Mentions.list_iff, Value.Mentions.symbol_iff]
    rcases h.mentions hdata with ⟨f, rfl, hf⟩ | h | h
    · exact hform hf
    · simp at h
    · simp at h

end Lisplet
