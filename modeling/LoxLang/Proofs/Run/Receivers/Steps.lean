import LoxLang.Proofs.Run.Steps
import LoxLang.Proofs.Run.Receivers.Values

namespace LoxLang

variable {N : Notes} {m m' m'' : Machine}

/-- Where a part of a run may lead, whether it ends with a value or an error. -/
structure Machine.Onward (N : Notes) (m m' : Machine) : Prop where
  proper : m'.Proper N
  scope : m'.scope = m.scope
  keeps : m.store.Keeps m'.store

namespace Machine

theorem Onward.refl (h : m.Proper N) : m.Onward N m := ⟨h, rfl, .refl _⟩

theorem Onward.trans (h : m.Onward N m') (h' : m'.Onward N m'') : m.Onward N m'' :=
  ⟨h'.proper, h'.scope.trans h.scope, h.keeps.trans h'.keeps⟩

/-- A scope around methods has no cell of another name. -/
theorem Proper.not_hidden (h : m.Proper N) {s : ScopeId} {name : String} (hs : m.store.Has s name)
    (hn : name ≠ "this") : ¬m.store.Has s "this" := by
  intro hh
  obtain ⟨id, cls, ho⟩ := h.hidden s hh
  unfold Store.Has at hs
  rw [ho name, if_neg hn] at hs
  cases hs

end Machine

namespace Eval

/-- A computation led on, and its value is as told. -/
def Outcome.Onward {α : Type} (N : Notes) (m : Machine) (Q : α → Machine → Prop) : Outcome α → Prop
  | .done a m' => m.Onward N m' ∧ Q a m'
  | .failed _ m' => m.Onward N m'
  | .exhausted => True

variable {α β : Type} {Q : α → Machine → Prop} {R : β → Machine → Prop}

theorem onward_bind {x : Eval α} {f : α → Eval β} (hx : (x m).Onward N m Q)
    (hf : ∀ a m', m.Onward N m' → Q a m' → (f a m').Onward N m' R) : ((x >>= f) m).Onward N m R := by
  cases h : x m with
  | done a m' =>
    rw [h] at hx
    obtain ⟨hl, hQ⟩ := hx
    have hy := hf a m' hl hQ
    rw [bind_done h]
    cases hfa : f a m' with
    | done b m'' =>
      rw [hfa] at hy
      exact ⟨hl.trans hy.1, hy.2⟩
    | failed e m'' =>
      rw [hfa] at hy
      exact hl.trans hy
    | exhausted => trivial
  | failed e m' =>
    rw [h] at hx
    rw [bind_failed h]
    exact hx
  | exhausted => rw [bind_exhausted h]; trivial

theorem Outcome.Onward.imp {o : Outcome α} {Q' : α → Machine → Prop} (h : o.Onward N m Q)
    (hQ : ∀ a m', m.Onward N m' → Q a m' → Q' a m') : o.Onward N m Q' := by
  cases o with
  | done a m' => exact ⟨h.1, hQ a m' h.1 h.2⟩
  | failed e m' => exact h
  | exhausted => trivial

theorem Outcome.Onward.machine {o : Outcome α} (h : o.Onward N m Q) (hm : m' ∈ o.machine?) : m.Onward N m' := by
  cases o with
  | done a m' => cases hm; exact h.1
  | failed e m' => cases hm; exact h
  | exhausted => cases hm

/-- A step that looks at the machine first. -/
theorem onward_read {f : Machine → α} {g : α → Eval β} (h : (g (f m) m).Onward N m R) :
    ((read f >>= g) m).Onward N m R := h

theorem access_onward {f : Store → Except AccessError Value} {name : Token} {Q : Value → Machine → Prop}
    (h : m.Proper N) (hf : ∀ v, f m.store = .ok v → Q v m) : (access f name m).Onward N m Q := by
  unfold access
  cases hv : f m.store with
  | error e => exact .refl h
  | ok v => exact ⟨.refl h, hf v hv⟩

theorem readName_onward (setting : Setting) (id : OccurrenceId) (name : Token) (h : m.Proper N) :
    (readName setting id name m).Onward N m fun v m' => v.Proper N m'.store := by
  unfold readName
  cases setting.distances[id]? with
  | none =>
    refine access_onward h fun v hv => ?_
    obtain ⟨a, ha⟩ := Store.cell_of_get hv
    exact h.values v (.inl ⟨a, _, ha⟩)
  | some d =>
    refine onward_read (access_onward h fun v hv => ?_)
    obtain ⟨a, ha⟩ := Store.cell_of_getAt hv
    exact h.values v (.inl ⟨a, _, ha⟩)

/-- By the distance of the nearest scope around methods the receiver is read. -/
theorem getAt_of_findIdx? {d : Nat} (h : m.Proper N) (hd : (m.store.shape m.scope).findIdx? (·) = some d) :
    ∃ x, m.store.getAt m.scope d "this" = .ok x ∧ m.store.receiver? m.scope = some x := by
  obtain ⟨t, ht, hh, hreceiver⟩ := Store.receiver?_of_findIdx? hd
  obtain ⟨id, cls, ho⟩ := h.hidden t hh
  refine ⟨.instance id cls, ?_, hreceiver _ ho.getHere?⟩
  unfold Store.getAt
  rw [Store.holderAt_of_has ht hh]
  change Store.readCell (m.store.cell? t "this") = _
  rw [ho "this", if_pos rfl]
  rfl

theorem readName_of_getAt {setting : Setting} {id : OccurrenceId} {name : Token} {d : Nat} {x : Value}
    (hd : setting.distances[id]? = some d) (hx : m.store.getAt m.scope d name.lexeme = .ok x) :
    readName setting id name m = .done x m := by
  unfold readName
  rw [hd]
  change access (·.getAt m.scope d name.lexeme) name m = _
  simp only [access, hx]

/-- An assignment does not reach the cell of `this`: that name cannot be written. -/
theorem assign_onward {f : Store → Except AccessError ScopeId} {name : Token} {v : Value} (h : m.Proper N)
    (hv : v.Proper N m.store) (hn : name.lexeme ≠ "this")
    (hf : ∀ a, f m.store = .ok a → m.store.Has a name.lexeme) :
    (assign f name v m).Onward N m fun _ _ => True := by
  unfold assign
  cases ha : f m.store with
  | error e => exact .refl h
  | ok a =>
    have hh := hf a ha
    have hnot := h.not_hidden hh hn
    refine ⟨⟨h.setCell hh.lt hn hnot ?_, rfl, .setCell hh.lt hn hnot _⟩, trivial⟩
    rintro _ ⟨⟩
    exact hv

theorem assignName_onward (setting : Setting) (id : OccurrenceId) {name : Token} {v : Value} (h : m.Proper N)
    (hv : v.Proper N m.store) (hn : name.lexeme ≠ "this") :
    (assignName setting id name v m).Onward N m fun _ _ => True := by
  rw [assignName_eq]
  cases setting.distances[id]? with
  | none => exact assign_onward h hv hn fun a ha => Store.has_of_holder ha
  | some d => exact onward_read (assign_onward h hv hn fun a ha => (Store.has_of_holderAt ha).2)

variable {s : ScopeId}

/-- A declaration adds a name other than `this`, in a scope that is not around methods. -/
theorem define_onward {name : String} {v : Value} (h : m.Proper N) (hs : s < m.store.next) (hn : name ≠ "this")
    (hh : ¬m.store.Has s "this") (hv : v.Proper N m.store) :
    (define s name v m).Onward N m fun _ m' => m'.store = m.store.define s name v := by
  refine ⟨⟨h.setCell hs hn hh ?_, rfl, .setCell hs hn hh _⟩, rfl⟩
  rintro _ ⟨⟩
  exact hv

theorem declare_onward {name : String} (h : m.Proper N) (hs : s < m.store.next) (hn : name ≠ "this")
    (hh : ¬m.store.Has s "this") :
    (declare s name m).Onward N m fun _ m' => m'.store = m.store.declare s name := by
  refine ⟨⟨h.setCell hs hn hh ?_, rfl, .setCell hs hn hh _⟩, rfl⟩
  rintro _ ⟨⟩

/-- The arguments of a call, bound to the parameters in a scope of the call's own. -/
theorem defineAll_onward {ps : List Token} {vs : List Value} (h : m.Proper N) (hs : s < m.store.next)
    (hp : ∀ p ∈ ps, p.lexeme ≠ "this") (hh : ¬m.store.Has s "this") (hv : ∀ v ∈ vs, v.Proper N m.store) :
    (defineAll s ps vs m).Onward N m fun _ _ => True := by
  induction ps generalizing m vs with
  | nil => exact ⟨.refl h, trivial⟩
  | cons p ps ih =>
    cases vs with
    | nil => exact ⟨.refl h, trivial⟩
    | cons v vs =>
      apply onward_bind (define_onward h hs (hp p List.mem_cons_self) hh (hv v List.mem_cons_self))
      intro _ m' hl _
      apply ih hl.proper (Nat.lt_of_lt_of_le hs hl.keeps.next_le) fun q hq => hp q (List.mem_cons_of_mem p hq)
      · exact hl.keeps.not_has hs hh
      · exact fun w hw => (hv w (List.mem_cons_of_mem v hw)).keeps hl.keeps

theorem childScope_onward (h : m.Proper N) :
    (childScope s m).Onward N m fun n m' => n = m.store.next ∧ m'.store = (m.store.child s).2 :=
  ⟨⟨h.child s, rfl, .addScope m.store _⟩, rfl, rfl⟩

theorem newObject_onward (h : m.Proper N) : (newObject m).Onward N m fun _ m' => m'.store = m.store :=
  ⟨⟨h.newObject, rfl, .refl _⟩, rfl⟩

theorem setField_onward {object : ObjectId} {name : String} {v : Value} (h : m.Proper N) (hv : v.Proper N m.store) :
    (setField object name v m).Onward N m fun _ _ => True :=
  ⟨⟨h.setField hv, rfl, .refl _⟩, trivial⟩

theorem readClock_onward (clock : Clock) (h : m.Proper N) :
    (readClock clock m).Onward N m fun _ m' => m'.store = m.store :=
  ⟨⟨h.of_eq rfl rfl, rfl, .refl _⟩, rfl⟩

theorem print_onward {line : String} (h : m.Proper N) : (print line m).Onward N m fun _ _ => True :=
  ⟨⟨h.of_eq rfl rfl, rfl, .refl _⟩, trivial⟩

theorem lift_onward {result : Except RuntimeError.Cause Value} {token : Token} (h : m.Proper N)
    (hp : ∀ v, result = .ok v → v.Plain) : (lift result token m).Onward N m fun v m' => v.Proper N m'.store := by
  cases result with
  | error cause => exact .refl h
  | ok v => exact ⟨.refl h, (hp v rfl).proper⟩

theorem checkCall_onward {arity : Nat} {arguments : List Value} {paren : Token} (h : m.Proper N) :
    (checkCall arity arguments paren m).Onward N m fun _ _ => True := by
  unfold checkCall
  split
  · exact .refl h
  · refine onward_read ?_
    split
    · exact .refl h
    · exact ⟨.refl h, trivial⟩

/-- A method of the class of an instance, bound to the instance. -/
theorem bindThis_onward {id : ObjectId} {cls : Class} {name : String} {method : Closure} (h : m.Proper N)
    (hc : cls.Proper N m.store) (hm : cls.methods.find? name = some method) :
    (bindThis method (.instance id cls) m).Onward N m fun f m' =>
      f.Proper N m'.store ∧ f.name = name ∧ f.initializes = method.initializes ∧
        m'.store.Hides f.scope (.instance id cls) := by
  obtain ⟨hname, hinit, shape, hs, ha⟩ := hc name method hm
  have hh := m.store.addThis_hides method.scope (.instance id cls)
  have hm' : cls.methods.find? method.name = some method := by
    rw [hname]
    exact hm
  have hk := m.store.keeps_addThis method.scope (.instance id cls)
  refine ⟨⟨(h.addThis hc method.scope).newObject, rfl, hk⟩, ⟨.inr ?_, ?_⟩, hname, rfl, hh⟩
  · exact ⟨hinit, id, cls, method, hh, hm', rfl⟩
  · exact ⟨_, hs.addThis _, ha⟩

/-- A property that is no field is a method bound to the instance. -/
theorem property_onward (id : ObjectId) {cls : Class} (name : Token) (h : m.Proper N) (hc : cls.Proper N m.store) :
    (property id cls name m).Onward N m fun v m' =>
      v.Proper N m'.store ∧
        ((∃ fields, m'.fields[id]? = some fields ∧ fields.find? name.lexeme = some v) ∨
          ∃ f, v = .function f ∧ f.name = name.lexeme ∧ m'.store.Hides f.scope (.instance id cls)) := by
  unfold property
  have hfield : (field? id name.lexeme m).Onward N m fun r m' =>
      m' = m ∧ ∀ v ∈ r, ∃ fields, m.fields[id]? = some fields ∧ fields.find? name.lexeme = some v :=
    ⟨.refl h, rfl, fun v hv => Option.bind_eq_some_iff.1 hv⟩
  apply onward_bind hfield
  rintro r m' - ⟨rfl, hr⟩
  cases r with
  | some v =>
    obtain ⟨fields, hf, hv⟩ := hr v rfl
    exact ⟨.refl h, h.values v (.inr ⟨id, fields, _, hf, hv⟩), .inl ⟨fields, hf, hv⟩⟩
  | none =>
    dsimp only
    cases hm : cls.methods.find? name.lexeme with
    | none => exact .refl h
    | some method =>
      change ((Value.function <$> bindThis method (.instance id cls)) m').Onward N m' _
      rw [map_eq_pure_bind]
      apply onward_bind (bindThis_onward h hc hm)
      intro f m' hl hf
      exact ⟨.refl hl.proper, hf.1, .inr ⟨f, rfl, hf.2.1, hf.2.2.2⟩⟩

/-- The methods of a class, each under its own name, in the scope of the class. -/
theorem closures_onward (fs : List Function) (h : m.Proper N) :
    (closures s fs m).Onward N m fun es m' => m'.store = m.store ∧
      ∀ e ∈ es, e.2.name = e.1 ∧ e.2.declaration ∈ fs ∧ e.2.scope = s ∧
        e.2.initializes = e.2.declaration.isInitializer := by
  induction fs generalizing m with
  | nil => exact ⟨.refl h, rfl, by simp⟩
  | cons f fs ih =>
    apply onward_bind (newObject_onward h)
    intro id m' hl hm
    apply onward_bind (ih hl.proper)
    intro es m'' hl' hes
    refine ⟨.refl hl'.proper, hes.1.trans hm, fun e he => ?_⟩
    rcases List.mem_cons.1 he with rfl | he
    · exact ⟨rfl, List.mem_cons_self, rfl, rfl⟩
    · obtain ⟨hname, hmem, hrest⟩ := hes.2 e he
      exact ⟨hname, List.mem_cons_of_mem f hmem, hrest⟩

/-- An initializer gives the instance that it is bound to, however its body has ended. -/
theorem result_onward {f : Closure} {flow : Flow} (h : m.Proper N) (hf : f.Proper N m.store)
    (hflow : flow.Proper N m.store) :
    (result f flow m).Onward N m fun v m' => v.Proper N m'.store ∧ (f.initializes = true →
      ∃ id cls, v = .instance id cls ∧ m'.store.Hides f.scope v) := by
  unfold result
  split
  · next hi =>
    obtain ⟨-, id, cls, -, hh, -⟩ := hf.bound hi
    have hresult : (m.store.getHere? f.scope "this").getD .nil = .instance id cls := by
      rw [hh.getHere?]
      rfl
    have hread : read (fun m => (m.store.getHere? f.scope "this").getD .nil) m = .done (.instance id cls) m :=
      congrArg (Outcome.done · m) hresult
    rw [hread]
    refine ⟨.refl h, h.values _ (.inl ⟨f.scope, "this", ?_⟩), fun _ => ⟨id, cls, rfl, hh⟩⟩
    rw [hh "this", if_pos rfl]
  · next hi =>
    cases flow with
    | «return» v => exact ⟨.refl h, hflow, fun he => absurd he hi⟩
    | _ => exact ⟨.refl h, trivial, fun he => absurd he hi⟩

variable {setting : Setting} {fuel : Nat} {outer : Shape}

/-- The function of a statement is ordinary, and it is in the current scope under its name. -/
theorem function_onward {f : Function} (h : m.Proper N) (hs : m.store.Shaped m.scope (false :: outer))
    (hf : N.function f) (hn : f.name.lexeme ≠ "this") (ha : f.Aimed N (false :: outer)) :
    (execute setting (fuel + 1) (.function f) m).Onward N m fun flow m' => flow = .normal ∧
      ∃ id, m'.store.cell? m.scope f.name.lexeme = some (some (.function ⟨id, f, m.scope, false⟩)) := by
  refine onward_read (onward_bind (newObject_onward h) fun id m' hl hm => ?_)
  have hproper : Value.Proper N m'.store (.function ⟨id, f, m.scope, false⟩) := by
    rw [hm]
    exact ⟨.inl ⟨hf, rfl, hs.not_has⟩, _, hs, ha⟩
  have hlt : m.scope < m'.store.next := by
    rw [hm]
    exact hs.lt
  apply onward_bind (define_onward hl.proper hlt hn (hm ▸ hs.not_has) hproper)
  intro _ m'' hl' hm'
  refine ⟨.refl hl'.proper, rfl, id, ?_⟩
  rw [hm', Store.define, Store.cell?_setCell hlt, if_pos ⟨rfl, rfl⟩]

/-- The methods of a class are unbound, each under its own name, until they are read from an instance. -/
theorem class_onward {name : Token} {declared : List Function} (h : m.Proper N)
    (hs : m.store.Shaped m.scope (false :: outer)) (hn : name.lexeme ≠ "this")
    (ha : Function.AimedAll N (true :: false :: outer) declared) :
    (execute setting (fuel + 1) (.class name declared) m).Onward N m fun flow _ => flow = .normal := by
  refine onward_read (onward_bind (declare_onward h hs.lt hn hs.not_has) fun _ m₁ hl₁ _ => ?_)
  apply onward_bind (closures_onward declared hl₁.proper)
  intro methods m₂ hl₂ h₂
  apply onward_bind (newObject_onward hl₂.proper)
  intro id m₃ hl₃ _
  have hk := (hl₁.keeps.trans hl₂.keeps).trans hl₃.keeps
  have hclass : Value.Proper N m₃.store (.class ⟨id, name.lexeme, .ofList methods⟩) := by
    intro x f hx
    obtain ⟨hname, hmem, hscope, hinit⟩ := h₂.2 _ (NameMap.mem_of_find?_ofList hx)
    exact ⟨hname, hinit, _, hscope ▸ hs.keeps hk, .of_mem ha hmem⟩
  have hassign := assign_onward (f := (·.holder m.scope name.lexeme)) hl₃.proper hclass hn
    fun a ha => Store.has_of_holder ha
  apply onward_bind hassign
  intro _ m₄ hl₄ _
  exact ⟨.refl hl₄.proper, rfl⟩

end Eval

end LoxLang
