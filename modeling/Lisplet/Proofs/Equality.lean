import Lisplet.Eval
import Lisplet.Host
import Lisplet.Proofs.Rounding

/-!
Equality of values. It is that of payloads, and of numbers that of integers but for floats, which
many integers can equal. So it fails to be transitive at floats between different integers, and only
there. Main statement: `beq_trans_iff_not_clash`.
-/

namespace Lisplet

/-- The float that an integer equals; there is none when it is out of range. -/
def Binary64.ofInteger? (n : Int) : Option Binary64 :=
  if (ofBig n).isFinite then some (ofBig n) else none

theorem Binary64.ofInteger?_eq_some :
    ofInteger? n = some x ↔ x.isFinite ∧ x = ofBig n := by
  unfold ofInteger?
  split
  case isTrue h => exact ⟨fun | rfl => ⟨h, rfl⟩, fun h => h.2 ▸ rfl⟩
  case isFalse h => exact ⟨nofun, fun ⟨hx, heq⟩ => absurd (heq ▸ hx) h⟩

theorem Binary64.ofInteger?_toInt (n : Int64) : ofInteger? n.toInt = some (ofInt n.toInt) := by
  rw [ofInteger?, ofBig_toInt, if_pos (isFinite_ofInt_of_natAbs_lt (natAbs_toInt_lt n))]

namespace Value

/-- The integer that a value is, of either size. -/
def integer? : Value → Option Int
  | int n => some n.toInt
  | big n => some n
  | _ => none

/-- Values that equal only themselves, marks aside. -/
def isAtom : Value → Bool
  | nil | bool _ | string _ | symbol _ | keyword _ | type _ => true
  | _ => false

variable {a b c : Value}

theorem integer?_eq_some : a.integer? = some n ↔
    (∃ m : Int64, a = int m ∧ m.toInt = n) ∨ a = big n := by
  cases a <;> simp [integer?]

/-! ## What a value equals -/

@[simp] theorem payload_beq : (a b : Value) → a.payload.beq b = a.beq b
  | resolved a, b => payload_beq a b
  | nil, _ | bool _, _ | int _, _ | big _, _ | float _, _ | string _, _ | symbol _, _
  | keyword _, _ | list _, _ | vector _, _ | seq _ _, _ | native _, _ | type _, _ => rfl

theorem isAtom_beq (h : a.isAtom) : a.beq b ↔ a = b.payload := by
  cases a <;> cases h <;> unfold beq <;> generalize b.payload = w <;> cases w <;> simp

theorem int_beq : (int n).beq b ↔ b.payload.integer? = some n.toInt ∨
    ∃ x, b.payload = float x ∧ Binary64.ofInteger? n.toInt = some x := by
  rw [Binary64.ofInteger?_toInt]
  rw [beq]
  generalize b.payload = w
  cases w <;> simp [integer?]
  case int m => rw [← Int64.toInt_inj, eq_comm]
  case big m => exact eq_comm

theorem big_beq : (big n).beq b ↔ b.payload.integer? = some n ∨
    ∃ x, b.payload = float x ∧ Binary64.ofInteger? n = some x := by
  rw [beq]
  generalize b.payload = w
  cases w <;> simp [integer?, Binary64.ofInteger?_eq_some]
  case int m => exact eq_comm
  case big m => exact eq_comm
  case float x => exact fun _ => eq_comm

theorem integer_beq (h : a.integer? = some n) : a.beq b ↔ b.payload.integer? = some n ∨
    ∃ x, b.payload = float x ∧ Binary64.ofInteger? n = some x := by
  cases a with
  | int m => cases h; exact int_beq
  | big m => cases h; exact big_beq
  | _ => cases h

theorem float_beq : (float x).beq b ↔ b.payload = float x ∨
    ∃ n, b.payload.integer? = some n ∧ Binary64.ofInteger? n = some x := by
  rw [beq]
  generalize b.payload = w
  cases w <;> simp [integer?]
  case int m => rw [Binary64.ofInteger?_toInt, Option.some.injEq, eq_comm]
  case big m => rw [Binary64.ofInteger?_eq_some]
  case float y => exact eq_comm

theorem seq_beq : (seq i s).beq b ↔ ∃ t, b.payload = seq i t := by
  rw [beq]
  generalize b.payload = w
  cases w <;> simp
  case seq j t => exact eq_comm

theorem native_beq : (native m).beq b ↔
    ∃ n, b.payload = native n ∧ m.name = n.name ∧ m.isSpecial = n.isSpecial := by
  rw [beq]
  generalize b.payload = w
  cases w <;> simp
  case native n =>
    change (m.name == n.name && m.isSpecial == n.isSpecial) ↔ _
    simp

theorem list_beq : (list as).beq b ↔ ∃ bs, b.payload = list bs ∧ beqAll as bs := by
  rw [beq]
  generalize b.payload = w
  cases w <;> simp

theorem vector_beq : (vector as).beq b ↔ ∃ bs, b.payload = vector bs ∧ beqAll as bs := by
  rw [beq]
  generalize b.payload = w
  cases w <;> simp

end Value

/-! ## Transitivity -/

/-- At some position `b` has a float where `a` and `c` have different integers. -/
inductive Clash : Value → Value → Value → Prop
  | numbers : a.payload.integer? = some m → b.payload = .float x → c.payload.integer? = some n →
    m ≠ n → Clash a b c
  | items {i : Nat} : a.payload.items? = some as → b.payload.items? = some bs →
    c.payload.items? = some cs → as[i]? = some a' → bs[i]? = some b' → cs[i]? = some c' →
    Clash a' b' c' → Clash a b c

/-- Somewhere in three lists there are three values that clash. -/
def ClashAny (as bs cs : List Value) : Prop :=
  ∃ (i : Nat) (a b c : Value), as[i]? = some a ∧ bs[i]? = some b ∧ cs[i]? = some c ∧ Clash a b c

theorem not_clashAny_nil : ¬ClashAny [] bs cs := by
  rintro ⟨i, a, b, c, ha, -⟩
  cases ha

theorem clashAny_cons :
    ClashAny (a :: as) (b :: bs) (c :: cs) ↔ Clash a b c ∨ ClashAny as bs cs := by
  constructor
  · rintro ⟨i, x, y, z, hx, hy, hz, h⟩
    cases i with
    | zero => cases hx; cases hy; cases hz; exact .inl h
    | succ i => exact .inr ⟨i, x, y, z, hx, hy, hz, h⟩
  · rintro (h | ⟨i, x, y, z, hx, hy, hz, h⟩)
    · exact ⟨0, a, b, c, rfl, rfl, rfl, h⟩
    · exact ⟨i + 1, x, y, z, hx, hy, hz, h⟩

namespace Clash

theorem resolved_iff : Clash (.resolved a) b c ↔ Clash a b c := by
  constructor
  · rintro (⟨ha, hb, hc, hne⟩ | ⟨ha, hb, hc, hx, hy, hz, h⟩)
    · exact .numbers ha hb hc hne
    · exact .items ha hb hc hx hy hz h
  · rintro (⟨ha, hb, hc, hne⟩ | ⟨ha, hb, hc, hx, hy, hz, h⟩)
    · exact .numbers ha hb hc hne
    · exact .items ha hb hc hx hy hz h

theorem items_iff (ha : a.payload.items? = some as) (hb : b.payload.items? = some bs)
    (hc : c.payload.items? = some cs) : Clash a b c ↔ ClashAny as bs cs := by
  constructor
  · rintro (⟨-, hx, -⟩ | ⟨ha', hb', hc', hx, hy, hz, h⟩)
    · rw [hx] at hb
      cases hb
    · cases ha.symm.trans ha'
      cases hb.symm.trans hb'
      cases hc.symm.trans hc'
      exact ⟨_, _, _, _, hx, hy, hz, h⟩
  · rintro ⟨i, x, y, z, hx, hy, hz, h⟩
    exact .items ha hb hc hx hy hz h

theorem not_of_items?_eq_none (hs : a.payload.items? = none)
    (h : a.payload.integer? = none ∨ (∀ x, b.payload ≠ .float x) ∨ c.payload.integer? = none) :
    ¬Clash a b c := by
  rintro (⟨ha, hb, hc, -⟩ | ⟨ha, -⟩)
  · rcases h with h | h | h
    · cases h.symm.trans ha
    · exact h _ hb
    · cases h.symm.trans hc
  · cases hs.symm.trans ha

theorem integers_iff (ha : a.payload.integer? = some m) (hb : b.payload = .float x)
    (hc : c.payload.integer? = some n) : Clash a b c ↔ m ≠ n := by
  constructor
  · rintro (⟨ha', -, hc', hne⟩ | ⟨-, hb', -⟩)
    · cases ha.symm.trans ha'
      cases hc.symm.trans hc'
      exact hne
    · rw [hb] at hb'
      cases hb'
  · exact fun hne => .numbers ha hb hc hne

end Clash

namespace Value

variable {a b c : Value}

theorem integer_beq_iff_not_clash (ha : a.integer? = some m) (hab : a.beq b) (hbc : b.beq c) :
    a.beq c ↔ ¬Clash a b c := by
  have hp : a.payload = a := by cases a <;> first | rfl | cases ha
  have hs : a.payload.items? = none := by rw [hp]; cases a <;> first | rfl | cases ha
  rw [← payload_beq] at hbc
  rcases (integer_beq ha).mp hab with hb | ⟨x, hb, hm⟩
  · rw [integer_beq hb, ← integer_beq ha] at hbc
    refine iff_of_true hbc (Clash.not_of_items?_eq_none hs (.inr (.inl fun x hx => ?_)))
    rw [hx] at hb
    cases hb
  · rw [hb, float_beq] at hbc
    rcases hbc with hc | ⟨n, hc, hn⟩
    · refine iff_of_true ((integer_beq ha).mpr (.inr ⟨x, hc, hm⟩)) ?_
      exact Clash.not_of_items?_eq_none hs (.inr (.inr (by rw [hc]; rfl)))
    · have hfloat : ¬∃ y, c.payload = float y ∧ Binary64.ofInteger? m = some y := by
        rintro ⟨y, hy, -⟩
        rw [hy] at hc
        cases hc
      rw [Clash.integers_iff (by rw [hp, ha]) hb hc, integer_beq ha, hc, or_iff_left hfloat,
        Option.some.injEq, ne_eq, Decidable.not_not, eq_comm]

theorem float_beq_trans (hab : (float x).beq b) (hbc : b.beq c) : (float x).beq c := by
  rw [← payload_beq] at hbc
  rcases float_beq.mp hab with hb | ⟨n, hb, hn⟩
  · rwa [hb] at hbc
  · rcases (integer_beq hb).mp hbc with hc | ⟨y, hc, hy⟩
    · exact float_beq.mpr (.inr ⟨n, hc, hn⟩)
    · rw [hn] at hy
      cases hy
      exact float_beq.mpr (.inl hc)

theorem native_beq_trans (hab : (native m).beq b) (hbc : b.beq c) : (native m).beq c := by
  obtain ⟨n, hb, hname, hspecial⟩ := native_beq.mp hab
  rw [← payload_beq, hb] at hbc
  obtain ⟨k, hc, hname', hspecial'⟩ := native_beq.mp hbc
  exact native_beq.mpr ⟨k, hc, hname.trans hname', hspecial.trans hspecial'⟩

theorem seq_beq_trans (hab : (seq i s).beq b) (hbc : b.beq c) : (seq i s).beq c := by
  obtain ⟨t, hb⟩ := seq_beq.mp hab
  rw [← payload_beq, hb] at hbc
  exact seq_beq.mpr (seq_beq.mp hbc)

theorem atom_beq_trans (ha : a.isAtom) (hab : a.beq b) (hbc : b.beq c) : a.beq c := by
  rwa [(isAtom_beq ha).mp hab, payload_beq]

end Value

mutual

/-- The places at which equality fails to be transitive. -/
theorem Value.beq_iff_not_clash : (a b c : Value) → a.beq b → b.beq c → (a.beq c ↔ ¬Clash a b c)
  | .resolved a, b, c, hab, hbc => by
    rw [Clash.resolved_iff]
    exact Value.beq_iff_not_clash a b c hab hbc
  | .list as, b, c, hab, hbc => by
    obtain ⟨bs, hb, has⟩ := Value.list_beq.mp hab
    rw [← Value.payload_beq, hb] at hbc
    obtain ⟨cs, hc, hbs⟩ := Value.list_beq.mp hbc
    have hclash : Clash (.list as) b c ↔ ClashAny as bs cs :=
      Clash.items_iff rfl (by rw [hb]; rfl) (by rw [hc]; rfl)
    rw [hclash, ← Value.beqAll_iff_not_clashAny as bs cs has hbs, Value.list_beq, hc]
    exact ⟨fun ⟨_, rfl, h⟩ => h, fun h => ⟨cs, rfl, h⟩⟩
  | .vector as, b, c, hab, hbc => by
    obtain ⟨bs, hb, has⟩ := Value.vector_beq.mp hab
    rw [← Value.payload_beq, hb] at hbc
    obtain ⟨cs, hc, hbs⟩ := Value.vector_beq.mp hbc
    have hclash : Clash (.vector as) b c ↔ ClashAny as bs cs :=
      Clash.items_iff rfl (by rw [hb]; rfl) (by rw [hc]; rfl)
    rw [hclash, ← Value.beqAll_iff_not_clashAny as bs cs has hbs, Value.vector_beq, hc]
    exact ⟨fun ⟨_, rfl, h⟩ => h, fun h => ⟨cs, rfl, h⟩⟩
  | .int _, _, _, hab, hbc | .big _, _, _, hab, hbc => Value.integer_beq_iff_not_clash rfl hab hbc
  | .float _, _, _, hab, hbc =>
    iff_of_true (Value.float_beq_trans hab hbc) (Clash.not_of_items?_eq_none rfl (.inl rfl))
  | .seq _ _, _, _, hab, hbc =>
    iff_of_true (Value.seq_beq_trans hab hbc) (Clash.not_of_items?_eq_none rfl (.inl rfl))
  | .native _, _, _, hab, hbc =>
    iff_of_true (Value.native_beq_trans hab hbc) (Clash.not_of_items?_eq_none rfl (.inl rfl))
  | .nil, _, _, hab, hbc | .bool _, _, _, hab, hbc | .string _, _, _, hab, hbc
  | .symbol _, _, _, hab, hbc | .keyword _, _, _, hab, hbc | .type _, _, _, hab, hbc =>
    iff_of_true (Value.atom_beq_trans rfl hab hbc) (Clash.not_of_items?_eq_none rfl (.inl rfl))
termination_by structural a => a

theorem Value.beqAll_iff_not_clashAny : (as bs cs : List Value) → Value.beqAll as bs →
    Value.beqAll bs cs → (Value.beqAll as cs ↔ ¬ClashAny as bs cs)
  | [], [], [], _, _ => iff_of_true rfl not_clashAny_nil
  | a :: as, b :: bs, c :: cs, hab, hbc => by
    simp only [Value.beqAll, Bool.and_eq_true] at hab hbc ⊢
    rw [Value.beq_iff_not_clash a b c hab.1 hbc.1,
      Value.beqAll_iff_not_clashAny as bs cs hab.2 hbc.2, clashAny_cons, not_or]
  | [], _ :: _, _, hab, _ | _ :: _, [], _, hab, _ => nomatch hab
  | _, [], _ :: _, _, hbc | _, _ :: _, [], _, hbc => nomatch hbc
termination_by structural as => as

end

/-! ## Clauses that cannot be chosen -/

/-- Clauses in front are looked at in the same way, whatever stands behind them. -/
theorem chosen?_append_congr (h : chosen? v xs = chosen? v ys) :
    (pre : List Value) → pre.length % 2 = 0 → chosen? v (pre ++ xs) = chosen? v (pre ++ ys)
  | [], _ => h
  | [_], hpre => nomatch hpre
  | key :: body :: pre, hpre => by
    have hrest : pre.length % 2 = 0 := by
      rw [List.length_cons, List.length_cons] at hpre
      omega
    simp only [List.cons_append, chosen?, chosen?_append_congr h pre hrest]

/-- A clause behind one with an equal key makes no difference, unless they clash with the value. -/
theorem chosen?_later_clause (hmid : mid.length % 2 = 0) (hkeys : key == key')
    (hclash : ¬Clash key key' v) :
    chosen? v (key :: body :: (mid ++ key' :: body' :: post)) =
      chosen? v (key :: body :: (mid ++ post)) := by
  rw [chosen?, chosen?]
  split
  · rfl
  case isFalse hv =>
    have hv' : ¬key' == v := fun h => hv ((Value.beq_iff_not_clash key key' v hkeys h).mpr hclash)
    refine chosen?_append_congr ?_ mid hmid
    rw [chosen?, if_neg hv']

theorem Context.evalCase_run {ctx : Context} (h : (ctx.eval subject).run s = (.ok v, t))
    (hne : clauses ≠ []) : (ctx.evalCase (subject :: clauses)).run s =
      (match chosen? v clauses with
      | some form => ctx.eval form
      | none => .raise (.noMatchingClause (v.render ctx.printLength))).run t := by
  cases clauses with
  | nil => exact absurd rfl hne
  | cons clause clauses => exact Action.run_bind_ok h

/-- Equality is transitive at floats that do not stand between different integers. So, such floats
aside, no clause of `case` is ever chosen whose key equals an earlier one. -/
theorem beq_trans_iff_not_clash :
    (∀ a b c : Value, a == b → b == c → (a == c ↔ ¬Clash a b c)) ∧
    ∀ (ctx : Context) (subject key body key' body' v : Value) (pre mid post : List Value)
      (s t : State), (ctx.eval subject).run s = (.ok v, t) →
      pre.length % 2 = 0 → mid.length % 2 = 0 → key == key' → ¬Clash key key' v →
      (ctx.evalCase (subject :: (pre ++ key :: body :: (mid ++ key' :: body' :: post)))).run s =
        (ctx.evalCase (subject :: (pre ++ key :: body :: (mid ++ post)))).run s := by
  refine ⟨Value.beq_iff_not_clash, ?_⟩
  intro ctx subject key body key' body' v pre mid post s t hsubject hpre hmid hkeys hclash
  rw [Context.evalCase_run hsubject (by simp), Context.evalCase_run hsubject (by simp)]
  rw [chosen?_append_congr (chosen?_later_clause hmid hkeys hclash) pre hpre]

theorem beq_trans_iff_not_clash_two :
    let ctx := Host.context .reference none 1
    let two : Value := .float ⟨0x4000000000000000⟩
    (Value.big 2 == .int 2) ∧ (Value.int 2 == two) ∧ (Value.big 2 == two) ∧
      (ctx.evalCase [.int 2, .big 2, .nil, two, .bool true]).run (.initial .reference) =
        (ctx.evalCase [.int 2, .big 2, .nil]).run (.initial .reference) := by
  intro ctx two
  have hbig : Value.big 2 == .int 2 := by decide +kernel
  have hint : Value.int 2 == two := by decide +kernel
  have hclash : ¬Clash (.big 2) (.int 2) two := by
    refine Clash.not_of_items?_eq_none rfl (.inr (.inr rfl))
  have hbigtwo : Value.big 2 == two :=
    (beq_trans_iff_not_clash.1 _ _ _ hbig hint).mpr hclash
  have hclash' : ¬Clash (.big 2) two (.int 2) := by
    rw [Clash.integers_iff rfl rfl rfl]
    decide
  refine ⟨hbig, hint, hbigtwo, ?_⟩
  exact beq_trans_iff_not_clash.2 ctx (.int 2) (.big 2) .nil two (.bool true) (.int 2) [] [] []
    (.initial .reference) _ rfl rfl rfl hbigtwo hclash'

/-- Two integers that are different equal one float, and a clause with a key that equals the first
one is chosen for the other. -/
theorem beq_not_transitive :
    let a : Value := .int 9007199254740993
    let b : Value := .float ⟨0x4340000000000000⟩
    let c : Value := .int 9007199254740992
    (a == b) ∧ (b == c) ∧ ¬(a == c) ∧ chosen? c [a, .nil, b, .bool true] = some (.bool true) := by
  exact ⟨by decide +kernel, by decide +kernel, by decide +kernel, rfl⟩

end Lisplet
