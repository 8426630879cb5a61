import Lisplet.Proofs.Budget

/-!
Termination. What an evaluation enters weighs less than the form it evaluates, unless `doseq` takes
it out of a mark. So an evaluation over finite values ends exactly if that happens only so many
times. Main statement: `terminates_iff_reentries_bounded`.
-/

namespace Lisplet

/-! ## Finite values -/

/-- Values in which every host sequence has an end. -/
inductive Value.Finite : Value → Prop
  | scalar : v.isScalar → Finite v
  | symbol : Finite (.symbol x)
  | keyword : Finite (.keyword x)
  | native : Finite (.native n)
  | list : (∀ v ∈ vs, Finite v) → Finite (.list vs)
  | vector : (∀ v ∈ vs, Finite v) → Finite (.vector vs)
  | seq : s.realize? = some vs → (∀ v ∈ vs, Finite v) → Finite (.seq i s)
  | resolved : Finite v → Finite (.resolved v)

namespace Value

theorem Finite.countdown : Finite (.countdown i n) := by
  rcases countdown_cases i n with h | ⟨s, vs, h, hvs, hint⟩
  · rw [h]
    exact .list nofun
  · rw [h]
    refine .seq hvs fun v hv => ?_
    obtain ⟨k, rfl⟩ := hint v hv
    exact .scalar rfl

theorem Finite.hereditary : Hereditary Finite where
  scalar := .scalar
  unmark := fun | .resolved h => h
  mark := .resolved
  list := ⟨fun | .list h => h, .list⟩
  vector := ⟨fun | .vector h => h, .vector⟩
  elements h hr := by
    cases h with
    | scalar h => cases h
    | seq hs h => rwa [← Option.some.inj (hs.symm.trans hr)]
  countdown := .countdown
  assignName := .symbol
  incName := .symbol

theorem Finite.not_endless (h : Finite v) : ¬v.Endless := by
  rintro ⟨s, hs, hr⟩
  replace h := Finite.hereditary.payload h
  rcases asSeq?_eq_some.mp hs with ⟨i, hp⟩ | ⟨xs, rfl, -⟩
  · rw [hp] at h
    cases h with
    | scalar h => cases h
    | seq hs' _ => cases hr.symm.trans hs'
  · rw [Sequence.realize?_items] at hr
    cases hr

end Value

theorem Value.Finite.unmarked (hforms : ∀ v ∈ forms, v.Finite)
    (hg : (Event.called (.special s) forms).unmarked? = some g) : g.Finite := by
  obtain ⟨binding, body, x, -, rfl, hb⟩ := Event.exists_of_unmarked? hg
  have hF := Value.Finite.hereditary.forms
  have hsat := hF.loopBinding (E := True) (hforms _ List.mem_cons_self)
  rw [hb] at hsat
  exact hsat.2

/-- All values that are bound in a chain of scopes are finite. -/
def Scope.Finite (s : Scope) : Prop := ∀ x v, s.resolve? x = some v → v.Finite

theorem Scope.Finite.bind (hs : Scope.Finite s) (hv : v.Finite) : Scope.Finite (s.bind x v) := by
  intro y w hw
  rcases resolve?_of_bind hw with ⟨-, rfl⟩ | ⟨-, hw⟩
  · exact hv
  · exact hs y w hw

/-- The scope at the start of the reference host is finite. -/
theorem Scope.reference_finite : Scope.reference.Finite := by
  intro x v h
  rcases Scope.native_or_type_of_reference h with ⟨n, rfl⟩ | ⟨t, rfl⟩
  · exact .native
  · exact .scalar rfl

/-! ## The weight of a form -/

/-- By what the items of a call count: those of a call of the macro as often as its expansion has
them, and more. -/
def Value.factor : List Value → Nat
  | head :: _ => if head == .symbol ⟨"inc!"⟩ then 4 else 1
  | [] => 1

mutual

/-- What a form can still make the evaluator do. -/
def Value.weight : Value → Nat
  | .list gs => 3 + Value.factor gs * Value.weightAll gs
  | .vector gs => 1 + Value.weightAll gs
  | _ => 1
termination_by structural v => v

def Value.weightAll : List Value → Nat
  | [] => 0
  | g :: gs => g.weight + Value.weightAll gs
termination_by structural gs => gs

end

namespace Value

theorem weight_pos (f : Value) : 0 < f.weight := by
  cases f <;> simp only [weight] <;> omega

theorem factor_pos (gs : List Value) : 0 < factor gs := by
  unfold factor
  split
  · split <;> omega
  · omega

theorem factor_le (gs : List Value) : factor gs ≤ 4 := by
  unfold factor
  split
  · split <;> omega
  · omega

theorem weightAll_append (gs hs : List Value) :
    weightAll (gs ++ hs) = weightAll gs + weightAll hs := by
  induction gs with
  | nil => simp [weightAll]
  | cons g gs ih => simp only [List.cons_append, weightAll, ih]; omega

theorem weight_le_of_mem (h : g ∈ gs) : g.weight ≤ weightAll gs := by
  induction gs with
  | nil => cases h
  | cons f gs ih =>
    rw [weightAll]
    rcases List.mem_cons.mp h with rfl | h
    · omega
    · have := ih h
      omega

theorem add_weightAll_le_weight (gs : List Value) : 3 + weightAll gs ≤ (list gs).weight := by
  rw [weight]
  have := Nat.le_mul_of_pos_left (weightAll gs) (factor_pos gs)
  omega

theorem weight_lt_list (h : g ∈ gs) : g.weight < (list gs).weight := by
  have := weight_le_of_mem h
  have := add_weightAll_le_weight gs
  omega

theorem weight_lt_vector (h : g ∈ gs) : g.weight < (vector gs).weight := by
  have := weight_le_of_mem h
  rw [weight]
  omega

theorem weight_lt_of_items {f : Value} (hf : f.items? = some gs) (hg : g ∈ gs) :
    g.weight < f.weight := by
  rcases items?_eq_some.mp hf with rfl | rfl
  · exact weight_lt_list hg
  · exact weight_lt_vector hg

theorem weight_expansion_lt (h : Host.expandInc? f = some g) : g.weight < f.weight := by
  obtain ⟨head, target, rfl, hhead, rfl⟩ := Host.expandInc?_eq_some.mp h
  have := head.weight_pos
  have := target.weight_pos
  have hset : factor [symbol ⟨"set!"⟩, target, list [symbol ⟨"inc"⟩, target]] = 1 := rfl
  have hinc : factor [symbol ⟨"inc"⟩, target] = 1 := rfl
  have hcall : factor [head, target] = 4 := if_pos hhead
  simp only [weight, weightAll, hset, hinc, hcall]
  omega

theorem weight_splice_le (h : splice? p step v = some g) : g.weight ≤ step.weight + 4 := by
  obtain ⟨w, hw⟩ := v.exists_mark_eq
  obtain ⟨operator, args, rfl, hg⟩ := splice?_eq_some.mp h
  have hfactor (gs : List Value) : factor (operator :: gs) = factor [operator] := rfl
  have hle := factor_le [operator]
  rcases hg with ⟨-, rfl⟩ | ⟨-, rfl⟩
  all_goals
    simp only [weight, weightAll, weightAll_append, hw, hfactor, Nat.mul_add, Nat.mul_one,
      Nat.mul_zero]
    omega

end Value

/-- Without a mark around a binding, what a special form enters weighs less than its call. -/
theorem SpecialForm.Enters.weight_lt (h : s.Enters forms g)
    (hu : (Event.called (.special s) forms).unmarked? = none) (head : Value) :
    g.weight < (Value.list (head :: forms)).weight := by
  have hle := Value.add_weightAll_le_weight (head :: forms)
  rcases h.of_unmarked?_eq_none hu with hg | ⟨seed, steps, step, p, v, rfl, hstep, hg⟩ |
    ⟨x, body, rfl⟩
  · exact Value.weight_lt_list (List.mem_cons_of_mem _ hg)
  · have := Value.weight_splice_le hg
    have := Value.weight_le_of_mem hstep
    have := head.weight_pos
    have := seed.weight_pos
    simp only [Value.weightAll] at hle
    omega
  · have hvector : g.weight < (Value.vector [.symbol x, g]).weight :=
      Value.weight_lt_vector (by simp)
    exact Nat.lt_trans hvector (Value.weight_lt_list (by simp))

/-! ## Runs over finite values -/

/-- A run from `s` that leaves all values in the scope finite. -/
structure FiniteRun (P : α → Prop) (s : State) (r : Outcome α × State) : Prop where
  sat : r.1.Sat P True
  scope : r.2.scope.Finite
  suffix : s.events <:+ r.2.events

theorem FiniteRun.bind {P : α → Prop} {Q : β → Prop} {x : Action α} {f : α → Action β}
    (hx : FiniteRun P s (x.run s))
    (hf : ∀ a t, x.run s = (.ok a, t) → FiniteRun Q t ((f a).run t)) :
    FiniteRun Q s ((x >>= f).run s) := by
  rw [Action.run_bind]
  rcases hr : x.run s with ⟨e | a, t⟩ <;> rw [hr] at hx
  · refine ⟨?_, hx.scope, hx.suffix⟩
    cases e <;> trivial
  · have hrun := hf a t hr
    exact ⟨hrun.sat, hrun.scope, hx.suffix.trans hrun.suffix⟩

/-- The law of single runs over finite values. -/
def finiteLaw (limit : Option Nat) : Law Unit limit Value.Finite where
  Holds P a := ∀ s, s.scope.Finite → FiniteRun P s ((a ()).run s)
  hereditary := Value.Finite.hereditary
  pure h s hs := ⟨h, hs, List.suffix_rfl⟩
  bind hx hf s hs := by
    refine (hx s hs).bind fun a t hr => ?_
    have hrun := hx s hs
    rw [hr] at hrun
    exact hf a hrun.sat t hrun.scope
  raise s hs := ⟨trivial, hs, List.suffix_cons ..⟩
  endless hv he := absurd he hv.not_endless
  resolve {x} _ s hs := by
    rw [Action.run_resolve]
    cases hv : s.scope.resolve? x with
    | some v => exact ⟨hs x v hv, hs, List.suffix_rfl⟩
    | none => exact ⟨trivial, hs, List.suffix_cons ..⟩
  bindSymbol _ hv s hs := ⟨trivial, hs.bind hv, List.suffix_cons ..⟩
  enter _ s hs := ⟨trivial, hs, List.suffix_cons ..⟩
  call {f args eval} hargs s hs := by
    obtain ⟨o, m, -, ho, ha⟩ := f.exists_answers limit args s.nextIdentity
    rw [ha.callFunction_run rfl]
    have hsat := ho _ Value.Finite.hereditary.toInherited hargs
    refine ⟨hsat.mono (fun _ => id) fun _ => trivial, hs, ?_⟩
    exact (List.suffix_cons ..).trans (List.suffix_append ..)

theorem finiteRun_evalWith (limit : Option Nat) (n : Nat) {form : Value} (hform : form.Finite)
    {s : State} (hs : s.scope.Finite) :
    FiniteRun Value.Finite s ((evalWith .reference limit n form).run s) := by
  refine (finiteLaw limit).evalWith ?_ ?_ n hform s hs
  · exact fun s hs => ⟨trivial, hs, List.suffix_rfl⟩
  · exact fun form _ s hs => ⟨trivial, hs, List.suffix_cons ..⟩

/-! ## Runs that end -/

/-- How often `doseq` took a form out of a mark. -/
def reentries (log : List Event) : Nat := log.countP (·.unmarked?.isSome)

theorem reentries_mono (h : log <:+ log') : reentries log ≤ reentries log' := h.sublist.countP_le

theorem reentries_cons (h : Event.unmarked? e = some g) :
    reentries (e :: log) = reentries log + 1 :=
  List.countP_cons_of_pos (by simp [h])

/-- With all large budgets the run from `s` is the same, and it ends. -/
def Settled (a : Nat → Action α) (s : State) : Prop :=
  ∃ N r, r.1 ≠ .error .unfinished ∧ ∀ n ≥ N, (a n).run s = r

/-- With all large budgets the record behind the run from `s` has at most `B` re-entries. -/
def Bounded (B : Nat) (a : Nat → Action α) (s : State) : Prop :=
  ∃ N, ∀ n ≥ N, reentries ((a n).run s).2.events ≤ B

theorem Settled.const {x : Action α} (h : (x.run s).1 ≠ .error .unfinished) :
    Settled (fun _ => x) s :=
  ⟨0, x.run s, h, fun _ _ => rfl⟩

theorem settled_bind {x : Nat → Action α} {f : α → Nat → Action β}
    (hbounded : Bounded B (fun n => x n >>= (f · n)) s)
    (hsuffix : ∀ n a t, (x n).run s = (.ok a, t) → t.events <:+ ((f a n).run t).2.events)
    (hx : Bounded B x s → Settled x s)
    (hf : ∀ n a t, (x n).run s = (.ok a, t) → Bounded B (f a) t → Settled (f a) t) :
    Settled (fun n => x n >>= (f · n)) s := by
  obtain ⟨M, hM⟩ := hbounded
  have hxb : Bounded B x s := by
    refine ⟨M, fun n hn => Nat.le_trans (reentries_mono ?_) (hM n hn)⟩
    rw [Action.run_bind]
    rcases hr : (x n).run s with ⟨e | a, t⟩
    · exact List.suffix_rfl
    · exact hsuffix n a t hr
  obtain ⟨N, ⟨e | a, t⟩, hend, hN⟩ := hx hxb
  · refine ⟨N, (.error e, t), fun h => hend ?_, fun n hn => ?_⟩
    · cases h; rfl
    · rw [Action.run_bind, hN n hn]
  · have hrun n (hn : n ≥ N) : (x n >>= (f · n)).run s = (f a n).run t := by
      rw [Action.run_bind, hN n hn]
    have hfb : Bounded B (f a) t := by
      refine ⟨max M N, fun n hn => ?_⟩
      rw [← hrun n (by omega)]
      exact hM n (by omega)
    obtain ⟨K, r, hend, hK⟩ := hf N a t (hN N (Nat.le_refl N)) hfb
    refine ⟨max N K, r, hend, fun n hn => ?_⟩
    rw [hrun n (by omega)]
    exact hK n (by omega)

/-- The law of evaluations that settle if there are at most `B` re-entries, from states with at
least `c` of them. -/
def terminationLaw (limit : Option Nat) (B c : Nat) : Law Nat limit Value.Finite where
  Holds P a := ∀ s, s.scope.Finite → c ≤ reentries s.events →
    (∀ n, FiniteRun P s ((a n).run s)) ∧ (Bounded B a s → Settled a s)
  hereditary := Value.Finite.hereditary
  pure h s hs _ := ⟨fun _ => (finiteLaw limit).pure h s hs, fun _ => .const nofun⟩
  bind {_ _ P Q x f} hx hf s hs hc := by
    obtain ⟨hrun, hsettled⟩ := hx s hs hc
    have hnext n a t (hr : (x n).run s = (.ok a, t)) :
        (∀ n, FiniteRun Q t ((f a n).run t)) ∧ (Bounded B (f a) t → Settled (f a) t) := by
      have hfin := hrun n
      rw [hr] at hfin
      exact hf a hfin.sat t hfin.scope (Nat.le_trans hc (reentries_mono hfin.suffix))
    refine ⟨fun n => (hrun n).bind fun a t hr => (hnext n a t hr).1 n, fun hbounded => ?_⟩
    exact settled_bind hbounded (fun n a t hr => ((hnext n a t hr).1 n).suffix) hsettled
      fun n a t hr => (hnext n a t hr).2
  raise s hs _ := ⟨fun _ => (finiteLaw limit).raise s hs, fun _ => .const nofun⟩
  endless hv he := absurd he hv.not_endless
  resolve {x} hx s hs _ := by
    refine ⟨fun _ => (finiteLaw limit).resolve hx s hs, fun _ => .const ?_⟩
    rw [Action.run_resolve]
    cases s.scope.resolve? x <;> nofun
  bindSymbol hx hv s hs _ :=
    ⟨fun _ => (finiteLaw limit).bindSymbol hx hv s hs, fun _ => .const nofun⟩
  enter hforms s hs _ := ⟨fun _ => (finiteLaw limit).enter hforms s hs, fun _ => .const nofun⟩
  call {f args eval} hargs s hs _ := by
    have hcall n : (finiteLaw limit).Holds Value.Finite fun _ =>
      Context.callFunction ⟨.reference, limit, eval n⟩ f args := (finiteLaw limit).call hargs
    refine ⟨fun n => hcall n s hs, fun _ => ?_⟩
    obtain ⟨o, m, -, ho, ha⟩ := f.exists_answers limit args s.nextIdentity
    refine ⟨0, _, ?_, fun n _ => ha.callFunction_run rfl⟩
    rintro rfl
    obtain ⟨v, hv, he⟩ := ho _ Value.Finite.hereditary.toInherited hargs
    exact (hargs v hv).not_endless he

/-- A family that has nothing to show for an empty budget obeys the law when it does one step on. -/
theorem terminationLaw_of_succ {a : Nat → Action α}
    (hzero : ∀ s, s.scope.Finite → FiniteRun P s ((a 0).run s))
    (h : (terminationLaw limit B c).Holds P fun n => a (n + 1)) :
    (terminationLaw limit B c).Holds P a := by
  intro s hs hc
  obtain ⟨hrun, hsettled⟩ := h s hs hc
  refine ⟨fun n => ?_, fun ⟨M, hM⟩ => ?_⟩
  · cases n with
    | zero => exact hzero s hs
    | succ n => exact hrun n
  · obtain ⟨N, r, hend, hN⟩ := hsettled ⟨M, fun n hn => hM (n + 1) (by omega)⟩
    refine ⟨N + 1, r, hend, fun n hn => ?_⟩
    obtain ⟨m, rfl⟩ : ∃ m, n = m + 1 := ⟨n - 1, by omega⟩
    exact hN m (by omega)

/-- An evaluation settles if those settle that come after one re-entry more. The induction is on the
weight of the form; only what is taken out of a mark need not weigh less. -/
theorem settles_of_reentry
    (h : ∀ g, g.Finite → (terminationLaw limit B (c + 1)).Holds Value.Finite fun n =>
      evalWith .reference limit n g) {form : Value} (hform : form.Finite) :
    (terminationLaw limit B c).Holds Value.Finite fun n => evalWith .reference limit n form := by
  let L := terminationLaw limit B c
  induction hw : form.weight using Nat.strongRecOn generalizing form with
  | ind w ihw =>
    have hlighter {g} (hg : g.Finite) (hlt : g.weight < form.weight) :
        L.Holds Value.Finite fun n => evalWith .reference limit n g :=
      ihw g.weight (hw ▸ hlt) hg rfl
    have hevaluated : L.Holds (fun _ => True) fun _ => .record (.evaluated form) :=
      fun s hs _ => ⟨fun _ => ⟨trivial, hs, List.suffix_cons ..⟩, fun _ => .const nofun⟩
    refine terminationLaw_of_succ (fun s hs => finiteRun_evalWith limit 0 hform hs) ?_
    refine L.bind hevaluated fun _ _ => L.evalForm hform ?_ ?_ ?_
    · intro forms hforms g hg
      exact hlighter (Value.Finite.hereditary.forms.items hform hforms g hg)
        (Value.weight_lt_of_items hforms hg)
    · exact fun g hg hgf => hlighter hgf (Value.weight_expansion_lt hg)
    · rintro head forms s rfl
      have hitems := Value.Finite.hereditary.list.mp hform
      obtain ⟨hhead, hforms⟩ := List.forall_mem_cons.mp hitems
      cases hu : (Event.called (.special s) forms).unmarked? with
      | none => exact L.callSpecial hforms fun g hg hgf => hlighter hgf (hg.weight_lt hu head)
      | some g =>
        have hg := Value.Finite.unmarked hforms hu
        refine L.callUnmarked hforms hu (fun t ht hc => ?_) fun g hg =>
          hlighter (hforms g hg) (Value.weight_lt_list (List.mem_cons_of_mem _ hg))
        simp only [Settled, Bounded, Action.run_record_bind]
        let events := Event.called (.special s) forms :: t.events
        have hc' : c + 1 ≤ reentries events := by
          rw [reentries_cons hu]
          omega
        obtain ⟨hrun, hsettled⟩ := h g hg { t with events } ht hc'
        refine ⟨fun n => ?_, hsettled⟩
        exact ⟨(hrun n).sat, (hrun n).scope, (List.suffix_cons ..).trans (hrun n).suffix⟩

/-- No evaluation stays within `B` re-entries that begins with more. -/
theorem settles_of_lt (h : B < c) {form : Value} (hform : form.Finite) :
    (terminationLaw limit B c).Holds Value.Finite fun n => evalWith .reference limit n form := by
  refine fun s hs hc => ⟨fun n => finiteRun_evalWith limit n hform hs, fun ⟨N, hN⟩ => ?_⟩
  have hmore := reentries_mono (finiteRun_evalWith limit N hform hs).suffix
  have hfew : reentries ((evalWith .reference limit N form).run s).2.events ≤ B :=
    hN N (Nat.le_refl N)
  omega

theorem settles_evalWith (limit : Option Nat) (B k : Nat) {c : Nat} (hk : B < c + k)
    {form : Value} (hform : form.Finite) :
    (terminationLaw limit B c).Holds Value.Finite fun n => evalWith .reference limit n form := by
  induction k generalizing c form with
  | zero => exact settles_of_lt hk hform
  | succ k ih => exact settles_of_reentry (fun g hg => ih (by omega) hg) hform

/-- Over finite values an evaluation ends exactly if there is a bound on how often it takes a form
out of a mark and enters it. -/
theorem terminates_iff_reentries_bounded (limit : Option Nat) {form : Value} (hform : form.Finite)
    {s : State} (hs : s.scope.Finite) :
    (∃ n, ((evalWith .reference limit n form).run s).1 ≠ .error .unfinished) ↔
      ∃ B, ∀ n, reentries ((evalWith .reference limit n form).run s).2.events ≤ B := by
  constructor
  · rintro ⟨n, hend⟩
    refine ⟨reentries ((evalWith .reference limit n form).run s).2.events, fun m => ?_⟩
    rcases Nat.le_total m n with h | h
    · exact reentries_mono (evalWith_extends h limit form s).suffix
    · have heq := (evalWith_extends h limit form s).eq hend
      exact Nat.le_of_eq (congrArg (fun r => reentries r.2.events) heq)
  · rintro ⟨B, hB⟩
    have hsettles := settles_evalWith limit B (B + 1) (c := 0) (by omega) hform s hs (by omega)
    obtain ⟨N, r, hend, hN⟩ := hsettles.2 ⟨0, fun n _ => hB n⟩
    exact ⟨N, by rwa [hN N (Nat.le_refl N)]⟩

theorem terminates_iff_reentries_bounded_quoted :
    let form : Value := .list [.symbol ⟨"->"⟩,
      .list [.symbol ⟨"quote"⟩, .vector [.symbol ⟨"x"⟩, .nil]], .list [.symbol ⟨"doseq"⟩]]
    form.Finite ∧ Scope.reference.Finite ∧ ∃ B, ∀ n,
      reentries ((evalWith .reference none n form).run (.initial .reference)).2.events ≤ B := by
  intro form
  have hform : form.Finite := by
    have hV := Value.Finite.hereditary
    simp [form, hV.list, hV.vector, Value.Finite.symbol, hV.scalar (v := .nil) rfl]
  refine ⟨hform, Scope.reference_finite, ?_⟩
  exact (terminates_iff_reentries_bounded none hform Scope.reference_finite).mp ⟨4, nofun⟩

/-- A form in a vector that splices the vector itself into a loop is entered again and again. -/
theorem evaluation_without_end :
    let form : Value := .list [.symbol ⟨"->"⟩, .symbol ⟨"v"⟩, .list [.symbol ⟨"doseq"⟩]]
    let scope := Scope.reference.bind ⟨"v"⟩ (.vector [.symbol ⟨"x"⟩, form])
    form.Finite ∧ scope.Finite ∧
      ∀ n, ((evalWith .reference none n form).run (.initial scope)).1 = .error .unfinished := by
  intro form scope
  have hV := Value.Finite.hereditary
  have hform : form.Finite := by simp [form, hV.list, Value.Finite.symbol]
  have hvector : (Value.vector [.symbol ⟨"x"⟩, form]).Finite := by
    simp [hV.vector, Value.Finite.symbol, hform]
  refine ⟨hform, Scope.reference_finite.bind hvector, fun n => ?_⟩
  suffices h : ∀ k events, ((evalWith .reference none n form).run ⟨scope, k, events⟩).1 =
    .error .unfinished from h 0 []
  have hthread : scope.resolve? ⟨"->"⟩ = some (.native (.special .threadFirst)) := rfl
  have hdoseq : scope.resolve? ⟨"doseq"⟩ = some (.native (.special .doseq)) := rfl
  have hv : scope.resolve? ⟨"v"⟩ = some (.vector [.symbol ⟨"x"⟩, form]) := rfl
  have hb : loopBinding (.resolved (.vector [.symbol ⟨"x"⟩, form])) = .ok (⟨"x"⟩, form) := rfl
  induction n using Nat.strongRecOn with
  | ind n ih =>
    match n, ih with
    | 0, _ | 1, _ | 2, _ => exact fun k events => rfl
    | n + 3, ih =>
      -- The call of `doseq` has the form two levels further in.
      have hloop k events : ((evalWith .reference none (n + 2) (.list [.symbol ⟨"doseq"⟩,
          .resolved (.vector [.symbol ⟨"x"⟩, form])])).run ⟨scope, k, events⟩).1 =
          .error .unfinished := by
        rw [evalWith_special_run rfl hdoseq]
        simp only [Context.callSpecial, Action.run_record_bind, Context.applySpecial,
          Context.evalDoseq, hb, Action.ofOutcome, pure_bind]
        exact Action.run_bind_unfinished (Action.run_bind_unfinished (ih (n + 1) (by omega) ..))
      intro k events
      rw [evalWith_special_run rfl hthread]
      simp only [Context.callSpecial, Action.run_record_bind, Context.applySpecial,
        Context.evalThread]
      rw [Action.run_bind_ok (evalWith_symbol_run hv)]
      exact Action.run_bind_unfinished (hloop ..)

end Lisplet
