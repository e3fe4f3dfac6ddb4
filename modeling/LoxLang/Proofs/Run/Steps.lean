import LoxLang.Proofs.Run.Safety

namespace LoxLang
open Scoping

variable {S : Site → Prop} {current : Option ScopeId} {m : Machine}

namespace Store

variable {st : Store} {s a : ScopeId} {name : String} {d : Nat} {v : Value}

theorem readCell_ok {cell : Option Cell} (h : readCell cell = .ok v) : cell = some (some v) := by
  unfold readCell at h
  split at h <;> cases h
  rfl

/-- The holder by a distance is the scope that the distance tells, and has the name. -/
theorem has_of_holderAt (h : st.holderAt s d name = .ok a) : st.ancestor? s d = some a ∧ st.Has a name := by
  unfold holderAt at h
  split at h
  · cases h
  · next b hb =>
    split at h
    · next hh => cases h; exact ⟨hb, hh⟩
    · cases h

theorem holderAt_of_has (ha : st.ancestor? s d = some a) (hh : st.Has a name) : st.holderAt s d name = .ok a := by
  unfold holderAt
  rw [ha]
  exact if_pos hh

theorem has_of_nearest? {chain : List ScopeId} (h : st.nearest? name chain = some a) : st.Has a name := by
  induction chain with
  | nil => cases h
  | cons s outer ih =>
    rw [nearest?] at h
    split at h
    · next hh => cases h; exact hh
    · exact ih h

theorem mem_of_nearest? {chain : List ScopeId} (h : st.nearest? name chain = some a) : a ∈ chain := by
  induction chain with
  | nil => cases h
  | cons s outer ih =>
    rw [nearest?] at h
    split at h
    · cases h
      exact List.mem_cons_self
    · exact List.mem_cons_of_mem s (ih h)

theorem has_of_holder (h : st.holder s name = .ok a) : st.Has a name := by
  unfold holder at h
  split at h
  · next b hb => cases h; exact has_of_nearest? hb
  · cases h

theorem mem_of_holder (h : st.holder s name = .ok a) : a ∈ st.chain s := by
  unfold holder at h
  cases hn : st.nearest? name (st.chain s) with
  | none => rw [hn] at h; cases h
  | some b =>
    rw [hn] at h
    cases h
    exact mem_of_nearest? hn

theorem holder_of_has (h : st.Has s name) : st.holder s name = .ok s := by
  unfold holder chain
  rw [nearest?, if_pos (show (st.cell? s name).isSome = true from h)]

theorem cell_of_getAt (h : st.getAt s d name = .ok v) : ∃ a, st.cell? a name = some (some v) := by
  unfold getAt at h
  cases ha : st.holderAt s d name with
  | error e => rw [ha] at h; cases h
  | ok a => rw [ha] at h; exact ⟨a, readCell_ok h⟩

theorem cell_of_get (h : st.get s name = .ok v) : ∃ a, st.cell? a name = some (some v) := by
  unfold get at h
  cases ha : st.holder s name with
  | error e => rw [ha] at h; cases h
  | ok a => rw [ha] at h; exact ⟨a, readCell_ok h⟩

end Store

namespace Eval

/-- What is read was kept, and what is kept is in order. -/
theorem access_safe {f : Store → Except AccessError Value} {name : Token} (h : m.Ok S)
    (hf : ∀ v, f m.store = .ok v → ∃ a, m.store.cell? a name.lexeme = some (some v)) :
    (access f name m).Safe S current m fun v st => v.Ok S st := by
  unfold access
  cases hv : f m.store with
  | error e => exact .refl h
  | ok v =>
    obtain ⟨a, ha⟩ := hf v hv
    exact ⟨.refl h, h.cells a _ v ha⟩

theorem readName_safe (setting : Setting) (id : OccurrenceId) (name : Token) (h : m.Ok S) :
    (readName setting id name m).Safe S current m fun v st => v.Ok S st := by
  unfold readName
  cases setting.distances[id]? with
  | none => exact access_safe h fun v hv => Store.cell_of_get hv
  | some d => exact access_safe h fun v hv => Store.cell_of_getAt hv

theorem assign_safe {f : Store → Except AccessError ScopeId} {name : Token} {v : Value} (h : m.Ok S)
    (hv : v.Ok S m.store) (hf : ∀ a, f m.store = .ok a → m.store.Has a name.lexeme) :
    (assign f name v m).Safe S current m fun _ _ => True := by
  unfold assign
  cases ha : f m.store with
  | error e => exact .refl h
  | ok a =>
    have hh := hf a ha
    have hg : Store.Grows current m.store (m.store.define a name.lexeme v) := .define_of_has hh v
    exact ⟨⟨h.define hh.lt hg (hv.grows hg), rfl, hg⟩, trivial⟩

/-- Whatever the distances say, an assignment finds a cell or fails. -/
theorem assignName_safe (setting : Setting) (id : OccurrenceId) (name : Token) {v : Value} (h : m.Ok S)
    (hv : v.Ok S m.store) : (assignName setting id name v m).Safe S current m fun _ _ => True := by
  rw [assignName_eq]
  cases setting.distances[id]? with
  | none => exact assign_safe h hv fun a ha => Store.has_of_holder ha
  | some d => exact assign_safe h hv fun a ha => (Store.has_of_holderAt ha).2

/-- A cell that is reached by its distance is filled, and nothing else changes. -/
theorem assignName_of_holderAt {setting : Setting} {id : OccurrenceId} {name : Token} {d : Nat} {a : ScopeId}
    (v : Value) (hd : setting.distances[id]? = some d) (ha : m.store.holderAt m.scope d name.lexeme = .ok a) :
    assignName setting id name v m = .done () { m with store := m.store.define a name.lexeme v } := by
  rw [assignName_eq]
  rw [hd]
  change assign (·.holderAt m.scope d name.lexeme) name v m = _
  simp only [assign, ha]

/-- A step that looks at the machine first. -/
theorem safe_read {α β : Type} {f : Machine → α} {g : α → Eval β} {Q : β → Store → Prop}
    (h : (g (f m) m).Safe S current m Q) : ((read f >>= g) m).Safe S current m Q := h

/-- A declaration in the current scope, which stands for its place with the name declared. -/
theorem define_safe {c : Context} {name : Token} {v : Value} (form : Form) (h : m.Ok S)
    (hc : m.store.Stands m.scope c) (hi : c.initializing = none)
    (hv : v.Ok S (m.store.define m.scope name.lexeme v)) :
    (define m.scope name.lexeme v m).Safe S (some m.scope) m fun _ st => st.Stands m.scope (c.declare name form) :=
  have hg := Store.Grows.define_current hc.lt name.lexeme v
  ⟨⟨h.define hc.lt hg hv, rfl, hg⟩, hc.define hi v form⟩

theorem declare_safe {c : Context} {name : Token} (h : m.Ok S) (hc : m.store.Stands m.scope c)
    (hf : c.Fresh name.lexeme) :
    (declare m.scope name.lexeme m).Safe S (some m.scope) m fun _ st => st = m.store.declare m.scope name.lexeme :=
  ⟨⟨h.declare hc.lt (hc.declare_grows hf), rfl, hc.declare_grows hf⟩, rfl⟩

/-- An assignment to a name of the scope itself. -/
theorem assign_holder_of_has {s : ScopeId} {name : Token} {v : Value} (h : m.store.Has s name.lexeme) :
    assign (·.holder s name.lexeme) name v m = define s name.lexeme v m := by
  simp only [assign, Store.holder_of_has h]
  rfl

theorem childScope_safe {s : ScopeId} (h : m.Ok S) :
    (childScope s m).Safe S none m fun n st => m.store.next ≤ n ∧ n = m.store.next ∧ st = (m.store.child s).2 :=
  ⟨⟨h.child s, rfl, .addScope none m.store _⟩, Nat.le_refl _, rfl, rfl⟩

theorem newObject_safe (h : m.Ok S) : (newObject m).Safe S current m fun _ st => st = m.store :=
  ⟨⟨h.newObject, rfl, .refl _ _⟩, rfl⟩

theorem setField_safe {object : ObjectId} {name : String} {v : Value} (h : m.Ok S) (hv : v.Ok S m.store) :
    (setField object name v m).Safe S current m fun _ st => st = m.store :=
  ⟨⟨h.setField hv, rfl, .refl _ _⟩, rfl⟩

theorem print_safe {line : String} (h : m.Ok S) : (print line m).Safe S current m fun _ st => st = m.store :=
  ⟨⟨⟨h.cells, h.fields, h.globals⟩, rfl, .refl _ _⟩, rfl⟩

theorem readClock_safe (clock : Clock) (h : m.Ok S) : (readClock clock m).Safe S current m fun _ st => st = m.store :=
  ⟨⟨⟨h.cells, h.fields, h.globals⟩, rfl, .refl _ _⟩, rfl⟩

theorem lift_safe {result : Except RuntimeError.Cause Value} {token : Token} (h : m.Ok S)
    (hp : ∀ v, result = .ok v → v.Plain) : (lift result token m).Safe S current m fun v st => v.Ok S st := by
  cases result with
  | error cause => exact .refl h
  | ok v => exact ⟨.refl h, (hp v rfl).ok⟩

/-- Checking a call changes nothing, and where it passes there are as many arguments as there should be. -/
theorem checkCall_safe {arity : Nat} {arguments : List Value} {paren : Token} (h : m.Ok S) :
    (checkCall arity arguments paren m).Safe S current m fun _ st => arguments.length = arity ∧ st = m.store := by
  unfold checkCall
  split
  · exact .refl h
  · next hl =>
    refine safe_bind (Q := fun _ st => st = m.store) ⟨.refl h, rfl⟩ fun depth m' hl' hm' => ?_
    split
    · exact .refl hl'.ok
    · exact ⟨.refl hl'.ok, Decidable.not_not.1 hl, hm'⟩

/-- With its own scope of `this`, a method is a function. -/
theorem bindThis_safe {f : Closure} {object : Value} (h : m.Ok S) (hf : f.MethodOk S m.store)
    (ho : object.Ok S m.store) :
    (bindThis f object m).Safe S none m fun f' st => f'.Ok S st ∧ f'.declaration = f.declaration := by
  obtain ⟨place, c, hi, hr, hk⟩ := hf
  have hg : Store.Grows none m.store (m.store.child f.scope).2 := .addScope none m.store _
  have hrc := hr.child
  have hd := Store.Grows.define_current hrc.lt "this" object
  have hr' : ((m.store.child f.scope).2.define m.store.next "this" object).Realizes m.store.next c.inClass.frames := by
    refine (hrc.grows hd).head ((Store.Holds.nil _ _).append ?_ fun _ => ?_)
    · exact (Store.has_setCell hrc.lt _ _ _ _).2 (.inl ⟨rfl, rfl⟩)
    · exact (Store.filled_define hrc.lt _ _ _ _).2 (.inl ⟨rfl, rfl⟩)
  refine ⟨⟨?_, rfl, hg.inside (Nat.le_refl _) hd⟩, ⟨place, c.inClass, hi, hr', hk⟩, rfl⟩
  exact ((h.child f.scope).define hrc.lt hd (ho.grows (hg.inside (Nat.le_refl _) hd))).newObject

/-- A property is a field, which is in order as all that is kept, or a method with a scope of its own. -/
theorem property_safe {object : ObjectId} {c : Class} {name : Token} (h : m.Ok S) (hc : c.Ok S m.store) :
    (property object c name m).Safe S none m fun v st => v.Ok S st := by
  unfold property
  refine safe_bind (Q := fun r st => st = m.store ∧ ∀ v ∈ r, Value.Ok S st v) ⟨.refl h, rfl, fun v hv => ?_⟩
    fun r m' hl hr => ?_
  · obtain ⟨fields, hf, hv⟩ := Option.bind_eq_some_iff.1 hv
    exact h.fields object fields name.lexeme v hf hv
  obtain ⟨hm, hr⟩ := hr
  cases r with
  | some v => exact ⟨.refl hl.ok, hr v rfl⟩
  | none =>
    dsimp only
    cases hf : c.methods.find? name.lexeme with
    | none => exact .refl hl.ok
    | some f =>
      refine safe_map (bindThis_safe hl.ok (hm ▸ hc name.lexeme f hf) (hm ▸ hc)) fun f' st hf' => hf'.1

/-- The methods of a class are its declared functions, in the scope of the class. -/
theorem closures_safe {s : ScopeId} (fs : List Function) (h : m.Ok S) :
    (closures s fs m).Safe S current m fun es st =>
      st = m.store ∧ ∀ e ∈ es, e.2.declaration ∈ fs ∧ e.2.scope = s := by
  induction fs generalizing m with
  | nil => exact ⟨.refl h, rfl, by simp⟩
  | cons f fs ih =>
    refine safe_bind (newObject_safe h) fun id m' hl hm => safe_bind (ih hl.ok) fun es m'' hl' hes => ?_
    refine ⟨.refl hl'.ok, hes.1.trans hm, fun e he => ?_⟩
    rcases List.mem_cons.1 he with rfl | he
    · exact ⟨List.mem_cons_self, rfl⟩
    · exact ⟨List.mem_cons_of_mem _ (hes.2 e he).1, (hes.2 e he).2⟩

/-- The arguments of a call, bound to the parameters in a scope of the call's own. -/
theorem defineAll_safe {s : ScopeId} {ps : List Token} {vs : List Value} (h : m.Ok S)
    (hl : vs.length = ps.length) (hv : ∀ v ∈ vs, v.Ok S m.store) (hs : s < m.store.next) (hg : s ≠ Machine.globals) :
    (defineAll s ps vs m).Safe S (some s) m fun _ st =>
      (∀ p ∈ ps, st.Filled s p.lexeme) ∧ ∀ x, st.Has s x → x ∈ ps.map Token.lexeme ∨ m.store.Has s x := by
  induction ps generalizing m vs with
  | nil =>
    cases vs with
    | nil => exact ⟨.refl h, by simp, fun x hx => .inr hx⟩
    | cons => cases hl
  | cons p ps ih =>
    cases vs with
    | nil => cases hl
    | cons v vs =>
      have hd := Store.Grows.define_current hs p.lexeme v
      have hv' : ∀ w ∈ vs, w.Ok S (m.store.define s p.lexeme v) :=
        fun w hw => (hv w (List.mem_cons_of_mem _ hw)).grows hd
      have hok := h.define hs hd ((hv v List.mem_cons_self).grows hd)
      have hx : (define s p.lexeme v m).Safe S (some s) m fun _ st => st = m.store.define s p.lexeme v :=
        ⟨⟨hok, rfl, hd⟩, rfl⟩
      refine safe_bind hx fun _ m' hl' hm' => ?_
      have hn : s < m'.store.next := Nat.lt_of_lt_of_le hs hl'.grows.next_le
      refine (ih hl'.ok (Nat.succ.inj hl) (hm' ▸ hv') hn).imp (fun _ hl => hl) ?_
      rintro _ m'' hl'' ⟨hps, hmore⟩
      refine ⟨fun q hq => ?_, fun x hx => ?_⟩
      · rcases List.mem_cons.1 hq with rfl | hq
        · refine hl''.grows.filled s _ hg ?_
          rw [hm']
          exact (Store.filled_define hs _ v _ _).2 (.inl ⟨rfl, rfl⟩)
        · exact hps q hq
      · rcases hmore x hx with hx | hx
        · exact .inl (List.mem_cons_of_mem _ hx)
        · rw [hm'] at hx
          rcases (Store.has_setCell hs _ _ _ _).1 hx with ⟨-, rfl⟩ | hx
          · exact .inl List.mem_cons_self
          · exact .inr hx

/-- An initializer gives its `this`, which was kept in a cell. -/
theorem result_safe {f : Closure} {flow : Flow} (h : m.Ok S) (hf : flow.Ok S m.store) :
    (result f flow m).Safe S current m fun v st => v.Ok S st := by
  unfold result
  split
  · refine ⟨.refl h, ?_⟩
    change Value.Ok S m.store ((m.store.getHere? f.scope "this").getD .nil)
    cases hc : m.store.getHere? f.scope "this" with
    | none => trivial
    | some v => exact h.cells f.scope "this" v (Option.join_eq_some_iff.1 hc)
  · cases flow with
    | «return» v => exact ⟨.refl h, hf⟩
    | _ => exact ⟨.refl h, trivial⟩

end Eval

end LoxLang
