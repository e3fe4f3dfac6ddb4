import LoxLang.Proofs.Run.Frames
import LoxLang.Proofs.Run.Growth.Values
import LoxLang.Proofs.Scope.Surroundings

namespace LoxLang

variable {m m' m'' : Machine} {s : ScopeId}

/-- The names that a part of a run may bind, in scopes that were there before it. -/
abbrev Additions := ScopeId → String → Prop

namespace Additions

def none : Additions := fun _ _ => False

def into (s : ScopeId) (names : List String) : Additions := fun t name => t = s ∧ name ∈ names

/-- All names, in one scope. -/
def within (s : ScopeId) : Additions := fun t _ => t = s

end Additions

variable {A A' : Additions}

/-- Where a part of a run may lead, whether it ends with a value or an error. -/
structure Machine.Extends (A : Additions) (m m' : Machine) : Prop where
  closed : m'.Closed
  scope : m'.scope = m.scope
  older : m.store.Older m'.store
  names : ∀ s name, s < m.store.next → m'.store.Has s name → m.store.Has s name ∨ A s name

namespace Machine.Extends

theorem refl (h : m.Closed) : m.Extends A m := ⟨h, rfl, .refl _, fun _ _ _ hh => .inl hh⟩

/-- The second part may bind in scopes of the first one, since these are no older than those that were there. -/
theorem trans (h : m.Extends A m') (h' : m'.Extends A m'') : m.Extends A m'' where
  closed := h'.closed
  scope := h'.scope.trans h.scope
  older := h.older.trans h'.older
  names := fun s name hs hh =>
    (h'.names s name (Nat.lt_of_lt_of_le hs h.older.next_le) hh).elim (h.names s name hs) .inr

theorem widen (h : m.Extends A m') (hA : ∀ s name, s < m.store.next → A s name → A' s name) : m.Extends A' m' where
  closed := h.closed
  scope := h.scope
  older := h.older
  names := fun s name hs hh => (h.names s name hs hh).imp_right (hA s name hs)

/-- A value over the scopes there were is one over those there are now. -/
theorem rooted {v : Value} (h : m.Extends A m') (hv : v.Rooted m.store.next) : v.Rooted m'.store.next :=
  hv.mono h.older.next_le

end Machine.Extends

/-- A computation leads on, and its value is as told. -/
def Eval.Outcome.Extends {α : Type} (A : Additions) (m : Machine) (Q : α → Machine → Prop) : Outcome α → Prop
  | .done a m' => m.Extends A m' ∧ Q a m'
  | .failed _ m' => m.Extends A m'
  | .exhausted => True

/-- So does the machine it ends in, whether by a value or by an error. -/
theorem Eval.Outcome.Extends.machine {α : Type} {o : Outcome α} {Q : α → Machine → Prop} (h : o.Extends A m Q)
    (hm : m' ∈ o.machine?) : m.Extends A m' := by
  cases o with
  | done a m'' =>
    cases hm
    exact h.1
  | failed e m'' =>
    cases hm
    exact h
  | exhausted => cases hm

/-- A change of a machine that holds on to no more than there is, to such another. -/
structure Step.Fits (t : Step) : Prop where
  closed : t.machine.Closed
  move : t.move.Fits t.machine

theorem Eval.lift_done {α : Type} {result : Except RuntimeError.Cause α} {token : Token} {a : α}
    (h : lift result token m = .done a m') : result = .ok a := by
  cases result with
  | ok b =>
    cases h
    rfl
  | error cause => cases h

theorem Eval.access_done {f : Store → Except AccessError Value} {name : Token} {v : Value}
    (h : access f name m = .done v m') : f m.store = .ok v := by
  unfold access at h
  cases hf : f m.store with
  | ok w =>
    rw [hf] at h
    cases h
    rfl
  | error e =>
    rw [hf] at h
    cases h

/-- What is read is in a cell. -/
theorem Eval.cell_of_readName {setting : Setting} {id : OccurrenceId} {name : Token} {v : Value}
    (h : readName setting id name m = .done v m') : ∃ a, m.store.cell? a name.lexeme = some (some v) := by
  unfold readName at h
  cases hd : setting.distances[id]? with
  | none =>
    rw [hd] at h
    exact Store.cell_of_get (access_done h)
  | some d =>
    rw [hd] at h
    exact Store.cell_of_getAt (access_done h)

namespace Traced

variable {α β : Type} {Q : α → Machine → Prop} {R : β → Machine → Prop}

/-- A computation, started in a machine: all its steps fit, and it leads on. -/
structure Grows (A : Additions) (m : Machine) (x : Traced α) (Q : α → Machine → Prop) : Prop where
  steps : ∀ calls, ∀ t ∈ (x calls m).2, t.Fits
  outcome : ∀ calls, (x calls m).1.Extends A m Q

/-- Its value is over the scopes there are then. -/
abbrev Yields (A : Additions) (m : Machine) (x : Traced Value) : Prop := Grows A m x fun v m' => v.Rooted m'.store.next

/-- The same for a computation that ends as a statement does. -/
abbrev Ends (A : Additions) (m : Machine) (x : Traced Flow) : Prop :=
  Grows A m x fun flow m' => flow.Rooted m'.store.next

namespace Grows

/-- What changes nothing takes no step. -/
theorem silent {y : Eval α} (hy : y.Still) (hm : m.Closed) (hQ : ∀ a, y m = .done a m → Q a m) :
    Grows A m (silent y) Q where
  steps := by rintro calls t ⟨⟩
  outcome := by
    intro calls
    change (y m).Extends A m Q
    cases ho : y m with
    | done a m' =>
      have he : m' = m := hy m m' (by rw [ho]; rfl)
      subst he
      exact ⟨.refl hm, hQ a ho⟩
    | failed e m' =>
      have he : m' = m := hy m m' (by rw [ho]; rfl)
      subst he
      exact .refl hm
    | exhausted => trivial

theorem pure {a : α} (hm : m.Closed) (hQ : Q a m) : Grows A m (Pure.pure a) Q :=
  silent (y := Pure.pure a) (Eval.still_pure a) hm (by rintro _ ⟨⟩; exact hQ)

theorem exhausted : Grows A m (Traced.silent Eval.exhausted) Q := ⟨by rintro calls t ⟨⟩, fun _ => trivial⟩

theorem fail {cause : RuntimeError.Cause} {token : Token} (hm : m.Closed) :
    Grows A m (Traced.silent (Eval.fail cause token)) Q :=
  silent (Eval.still_fail cause token) hm (by rintro _ ⟨⟩)

theorem imp {x : Traced α} {Q' : α → Machine → Prop} (h : Grows A m x Q)
    (hA : ∀ s name, s < m.store.next → A s name → A' s name) (hQ : ∀ a m', m.Extends A m' → Q a m' → Q' a m') :
    Grows A' m x Q' where
  steps := h.steps
  outcome := by
    intro calls
    have ho := h.outcome calls
    cases hx : (x calls m).1 with
    | done a m' =>
      rw [hx] at ho
      exact ⟨ho.1.widen hA, hQ a m' ho.1 ho.2⟩
    | failed e m' =>
      rw [hx] at ho
      exact Machine.Extends.widen ho hA
    | exhausted => trivial

theorem widen {x : Traced α} (h : Grows A m x Q) (hA : ∀ s name, s < m.store.next → A s name → A' s name) :
    Grows A' m x Q := h.imp hA fun _ _ _ => id

theorem of_none {x : Traced α} (h : Grows .none m x Q) : Grows A m x Q := h.widen fun _ _ _ => False.elim

theorem into {x : Traced α} {names names' : List String} (h : Grows (.into s names) m x Q) (hn : names ⊆ names') :
    Grows (.into s names') m x Q := h.widen fun _ _ _ hA => ⟨hA.1, hn hA.2⟩

/-- Names that come only to a scope that was not there count for none. -/
theorem of_new {x : Traced α} (h : Grows (.within m.store.next) m x Q) : Grows A m x Q :=
  h.widen fun _ _ hs he => absurd hs (he ▸ Nat.lt_irrefl _)

/-- What the second computation may bind is told of the scopes before the first one, and it may bind in all later ones.
-/
theorem bind {x : Traced α} {f : α → Traced β} (hx : Grows A m x Q)
    (hf : ∀ a m', m.Extends A m' → Q a m' → Grows A m' (f a) R) : Grows A m (x >>= f) R := by
  constructor
  all_goals
    intro calls
    have hsteps := hx.steps calls
    have ho := hx.outcome calls
    rcases hxm : x calls m with ⟨⟨a, m'⟩ | ⟨e, m'⟩ | _, log⟩
  all_goals rw [hxm] at hsteps ho
  case steps.done =>
    rw [bind_done hxm]
    intro t ht
    exact (List.mem_append.1 ht).elim (hsteps t) ((hf a m' ho.1 ho.2).steps calls t)
  case steps.failed =>
    rw [bind_failed hxm]
    exact hsteps
  case steps.exhausted =>
    rw [bind_exhausted hxm]
    exact hsteps
  case outcome.done =>
    rw [bind_done hxm]
    have ho' := (hf a m' ho.1 ho.2).outcome calls
    cases hfa : (f a calls m').1 with
    | done b m'' =>
      rw [hfa] at ho'
      exact ⟨ho.1.trans ho'.1, ho'.2⟩
    | failed e m'' =>
      rw [hfa] at ho'
      exact ho.1.trans ho'
    | exhausted => trivial
  case outcome.failed =>
    rw [bind_failed hxm]
    exact ho
  case outcome.exhausted =>
    rw [bind_exhausted hxm]
    trivial

/-- A computation whose value does not matter. -/
theorem then_pure {x : Traced α} {b : β} (h : Grows A m x Q) (hR : ∀ m', m.Extends A m' → R b m') :
    Grows A m (x >>= fun _ => Pure.pure b) R :=
  h.bind fun _ m' hl _ => pure hl.closed (hR m' hl)

/-- A computation that looks at the machine first. -/
theorem reading {f : Machine → α} {g : α → Traced β} (h : Grows A m (g (f m)) R) :
    Grows A m (Traced.silent (Eval.read f) >>= g) R := ⟨h.steps, h.outcome⟩

/-- One change that fits. A name that it adds has to be among those told, unless it was there. -/
theorem make (move : Move) (hm : m.Closed) (hf : move.Fits m) (hi : move.Inner)
    (hA : ∀ s name, move.Sets s name → m.store.Has s name ∨ A s name) :
    Grows A m (Traced.make move) fun _ m' => m' = move.apply m where
  steps := by
    intro calls t ht
    rw [List.mem_singleton.1 ht]
    exact ⟨hm, hf⟩
  outcome := by
    intro calls
    refine ⟨⟨hf.closed hm, congrArg Machine.Frame.scope (hi.frame m), hf.older hm, fun s name _ hh => ?_⟩, rfl⟩
    exact (hf.has hm hh).elim .inl (hA s name)

/-- Between two changes that belong together. -/
theorem between {x : Traced α} {Q : α → Store → Prop} {first : Move} {last : Machine → Move}
    {inner : List Token → List Token} (hm : m.Closed) (hfirst : first.Fits m) (hstore : (first.apply m).store = m.store)
    (hlast : ∀ m', m'.scope = (first.apply m).scope → m.store.next ≤ m'.store.next →
      (last m).Fits m' ∧ ((last m).apply m').store = m'.store ∧ ((last m).apply m').scope = m.scope)
    (hx : Grows A (first.apply m) x fun a m' => Q a m'.store) :
    Grows A m (Traced.between first last inner x) fun a m' => Q a m'.store := by
  have back : ∀ m', (first.apply m).Extends A m' → m.Extends A ((last m).apply m') ∧
      ((last m).apply m').store = m'.store ∧ ∀ calls, Step.Fits ⟨calls, last m, m'⟩ := by
    rintro m' ⟨hclosed, hscope, holder, hnames⟩
    rw [hstore] at holder hnames
    obtain ⟨hfits, hs, hc⟩ := hlast m' hscope holder.next_le
    exact ⟨⟨hfits.closed hclosed, hc, hs ▸ holder, hs ▸ hnames⟩, hs, fun _ => ⟨hclosed, hfits⟩⟩
  have hbegin : ∀ calls, Step.Fits ⟨calls, first, m⟩ := fun _ => ⟨hm, hfirst⟩
  constructor
  all_goals
    intro calls
    have hsteps := hx.steps (inner calls)
    have ho := hx.outcome (inner calls)
    rcases hxm : x (inner calls) (first.apply m) with ⟨⟨a, m'⟩ | ⟨e, m'⟩ | _, log⟩
  all_goals
    rw [hxm] at hsteps ho
    simp only [Traced.between, hxm]
  case steps.done =>
    have hend := List.forall_mem_singleton.2 ((back m' ho.1).2.2 (inner calls))
    exact List.forall_mem_cons.2 ⟨hbegin calls, List.forall_mem_append.2 ⟨hsteps, hend⟩⟩
  case steps.failed =>
    have hend := List.forall_mem_singleton.2 ((back m' ho).2.2 (inner calls))
    exact List.forall_mem_cons.2 ⟨hbegin calls, List.forall_mem_append.2 ⟨hsteps, hend⟩⟩
  case steps.exhausted => exact List.forall_mem_cons.2 ⟨hbegin calls, hsteps⟩
  case outcome.done =>
    obtain ⟨hback, hs, -⟩ := back m' ho.1
    exact ⟨hback, show Q a ((last m).apply m').store from hs ▸ ho.2⟩
  case outcome.failed => exact (back m' ho).1
  case outcome.exhausted => trivial

/-- The place of the run is put back, and what was bound on the way stays bound. -/
theorem inScope {x : Traced Flow} (hm : m.Closed) (hs : s < m.store.next)
    (hx : Ends A { m with scope := s } x) : Ends A m (inScope s x) := by
  refine between (Q := fun flow st => Flow.Rooted st.next flow) hm hs rfl (fun m' _ hle => ?_) hx
  exact ⟨Nat.lt_of_lt_of_le hm.scope hle, rfl, rfl⟩

theorem inLoop {x : Traced Flow} (hm : m.Closed) (hx : Ends A { m with loopDepth := m.loopDepth + 1 } x) :
    Ends A m (inLoop x) :=
  between (Q := fun flow st => Flow.Rooted st.next flow) hm trivial rfl (fun _ hs _ => ⟨trivial, rfl, hs⟩) hx

theorem outsideLoops {x : Traced Flow} (hm : m.Closed) (hx : Ends A { m with loopDepth := 0 } x) :
    Ends A m (outsideLoops x) :=
  between (Q := fun flow st => Flow.Rooted st.next flow) hm trivial rfl (fun _ hs _ => ⟨trivial, rfl, hs⟩) hx

theorem inCall {x : Traced Value} (hm : m.Closed) (paren : Token)
    (hx : Yields A { m with callDepth := m.callDepth + 1 } x) : Yields A m (inCall paren x) :=
  between (Q := fun v st => Value.Rooted st.next v) hm trivial rfl (fun _ hs _ => ⟨trivial, rfl, hs⟩) hx

theorem assign {f : Store → Except AccessError ScopeId} {name : Token} {v : Value} (hm : m.Closed)
    (hv : v.Rooted m.store.next)
    (hf : ∀ a, f m.store = .ok a → a ∈ m.store.chain m.scope ∧ m.store.Has a name.lexeme) :
    Grows A m (assign f name v) fun _ _ => True := by
  cases hfm : f m.store with
  | ok a =>
    obtain ⟨hmem, hhas⟩ := hf a hfm
    have hmake : Grows A m (Traced.make (.define a name.lexeme v)) fun _ m' => m' = _ :=
      make _ hm ⟨.inl ⟨hmem, hhas⟩, hv⟩ trivial (by rintro _ _ ⟨rfl, rfl⟩; exact .inl hhas)
    have heq : ∀ calls, Traced.assign f name v calls m = Traced.make (.define a name.lexeme v) calls m := by
      intro calls
      simp only [Traced.assign, hfm]
    exact ⟨fun calls => heq calls ▸ hmake.steps calls, fun calls => heq calls ▸ ⟨(hmake.outcome calls).1, trivial⟩⟩
  | error e =>
    have heq : ∀ calls, Traced.assign f name v calls m = (.failed ⟨e.cause name.lexeme, name.line⟩ m, []) := by
      intro calls
      simp only [Traced.assign, hfm]
    exact ⟨fun calls => heq calls ▸ nofun, fun calls => heq calls ▸ .refl hm⟩

/-- An assignment goes to a cell around the place of the run, so no name comes to any scope. -/
theorem assignName (setting : Setting) (id : OccurrenceId) (name : Token) {v : Value} (hm : m.Closed)
    (hv : v.Rooted m.store.next) : Grows A m (changes.assignName setting id name v) fun _ _ => True := by
  unfold Changes.assignName
  cases setting.distances[id]? with
  | none =>
    refine assign (f := (·.holder Machine.globals name.lexeme)) hm hv fun a ha => ⟨?_, Store.has_of_holder ha⟩
    have hmem := Store.mem_of_holder ha
    rw [hm.grounded.chain_globals, List.mem_singleton] at hmem
    exact hmem ▸ hm.grounded.globals_mem hm.scope
  | some d =>
    refine reading (assign (f := (·.holderAt m.scope d name.lexeme)) hm hv fun a ha => ?_)
    obtain ⟨hd, hhas⟩ := Store.has_of_holderAt ha
    exact ⟨List.mem_of_getElem? hd, hhas⟩

theorem readName (setting : Setting) (id : OccurrenceId) (name : Token) (hm : m.Closed) :
    Yields A m (Traced.silent (Eval.readName setting id name)) := by
  refine silent (Eval.still_readName setting id name) hm fun v hv => ?_
  obtain ⟨a, ha⟩ := Eval.cell_of_readName hv
  exact hm.values v (.inl ⟨a, _, ha⟩)

theorem declare_current (name : String) (hm : m.Closed) :
    Grows (.into m.scope [name]) m (Traced.make (.declare m.scope name)) fun _ m' => m'.store.Has m.scope name := by
  have hhas : (m.store.declare m.scope name).Has m.scope name :=
    (Store.has_setCell hm.scope name none m.scope name).2 (.inl ⟨rfl, rfl⟩)
  refine (make (.declare m.scope name) hm rfl trivial ?_).imp (fun _ _ _ => id) (by rintro _ _ - rfl; exact hhas)
  rintro _ _ ⟨rfl, rfl⟩
  exact .inr ⟨rfl, List.mem_singleton_self _⟩

theorem define_current (name : String) {v : Value} (hm : m.Closed) (hv : v.Rooted m.store.next) :
    Grows (.into m.scope [name]) m (Traced.make (.define m.scope name v)) fun _ _ => True := by
  refine (make (.define m.scope name v) hm ⟨.inr (.inl rfl), hv⟩ trivial ?_).imp (fun _ _ _ => id)
    fun _ _ _ _ => trivial
  rintro _ _ ⟨rfl, rfl⟩
  exact .inr ⟨rfl, List.mem_singleton_self _⟩

/-- The scope that is made is the newest, and fresh. -/
theorem childScope (hm : m.Closed) (hs : s < m.store.next) :
    Grows A m (childScope s) fun child m' => child = m.store.next ∧ m'.Fresh child := by
  refine reading (bind (make (.addScope s) hm hs trivial nofun) ?_)
  rintro _ _ hl rfl
  exact pure hl.closed ⟨rfl, hm.child hs⟩

theorem newObject (hm : m.Closed) : Grows A m newObject fun _ _ => True := by
  refine reading (bind (make .newObject hm trivial trivial nofun) ?_)
  exact fun _ _ hl _ => pure hl.closed trivial

theorem readClock (clock : Clock) (hm : m.Closed) : Grows A m (Traced.readClock clock) fun _ _ => True := by
  refine reading (bind (make .readClock hm trivial trivial nofun) ?_)
  exact fun _ _ hl _ => pure hl.closed trivial

/-- A name of a fresh scope. -/
theorem define_fresh {name : String} {v : Value} (hf : m.Fresh s) (hv : v.Rooted s) :
    Grows (.within s) m (Traced.make (.define s name v)) fun _ m' => m'.Fresh s := by
  have hroot : ((Move.define s name v).apply m).Fresh s :=
    ⟨(Store.next_setCell s name _).trans hf.newest, hf.rooted.setCell hf.lt (by rintro _ ⟨⟩; exact hv)⟩
  have hmake := make (A := .within s) (.define s name v) hf.closed
    ⟨.inr (.inr hf), hv.mono (Nat.le_of_lt hf.lt)⟩ trivial (by rintro _ _ ⟨rfl, -⟩; exact .inr rfl)
  exact hmake.imp (fun _ _ _ => id) (by rintro _ _ - rfl; exact hroot)

/-- The parameters of a call come to its own scope, which stays fresh: nothing that is held leads to it yet. -/
theorem defineAll {ps : List Token} {vs : List Value} (hf : m.Fresh s) (hv : ∀ v ∈ vs, v.Rooted s) :
    Grows (.within s) m (changes.defineAll s ps vs) fun _ m' => m'.Fresh s := by
  induction ps generalizing vs m with
  | nil => exact pure hf.closed hf
  | cons p ps ih =>
    cases vs with
    | nil => exact pure hf.closed hf
    | cons v vs =>
      obtain ⟨hv, hvs⟩ := List.forall_mem_cons.1 hv
      exact (define_fresh hf hv).bind fun _ _ _ hf' => ih hf' hvs

/-- The scope around a method of an object is a new one. -/
theorem bindThis {method : Closure} {object : Value} (hm : m.Closed) (hs : method.scope < m.store.next)
    (hv : object.Rooted m.store.next) :
    Grows A m (changes.bindThis method object) fun f m' => f.scope < m'.store.next := by
  refine of_new ((childScope hm hs).bind ?_)
  rintro _ m' - ⟨rfl, hf⟩
  refine (define_fresh hf hv).bind fun _ m'' _ hf' => (newObject hf'.closed).bind fun id m₃ hl _ => ?_
  exact pure hl.closed (Nat.lt_of_lt_of_le hf'.lt hl.older.next_le)

/-- To read a property may make the scope around a method, and binds `this` there only. -/
theorem property {object : ObjectId} {cls : Class} {name : Token} (hm : m.Closed) (hc : cls.Rooted m.store.next) :
    Yields A m (changes.property object cls name) := by
  refine reading ?_
  cases hfield : (m.fields[object]?).bind fun fields => fields.find? name.lexeme with
  | some v =>
    obtain ⟨fields, hf, hv⟩ := Option.bind_eq_some_iff.1 hfield
    exact pure hm (hm.values v (.inr ⟨object, fields, _, hf, hv⟩))
  | none =>
    dsimp only
    cases hmethod : cls.methods.find? name.lexeme with
    | none => exact fail hm
    | some method =>
      have hobject : (Value.instance object cls).Rooted m.store.next := hc
      exact (bindThis hm (hc _ _ hmethod) hobject).bind fun f m' hl hf => pure hl.closed hf

theorem closures (fs : List Function) (hm : m.Closed) :
    Grows A m (changes.closures s fs) fun methods _ => ∀ method ∈ methods, method.2.scope = s := by
  induction fs generalizing m with
  | nil => exact pure hm nofun
  | cons f fs ih =>
    refine (newObject hm).bind fun id m' hl _ => (ih hl.closed).bind fun methods m'' hl' hmethods => ?_
    exact pure hl'.closed (List.forall_mem_cons.2 ⟨rfl, hmethods⟩)

theorem values {step : Expr → Traced Value} (hstep : ∀ e m, m.Closed → Yields .none m (step e)) (hm : m.Closed)
    (es : List Expr) : Grows .none m (Operations.values step es) fun vs m' => ∀ v ∈ vs, v.Rooted m'.store.next := by
  induction es generalizing m with
  | nil => exact pure hm nofun
  | cons e es ih =>
    refine (hstep e m hm).bind fun v m' hl hv => (ih hl.closed).bind fun vs m'' hl' hvs => ?_
    exact pure hl'.closed (List.forall_mem_cons.2 ⟨hl'.rooted hv, hvs⟩)

/-- The names that a sequence declares are those of its statements. -/
theorem sequence {step : Stmt → Traced Flow} (hstep : ∀ s m, m.Closed → Ends (.into m.scope s.declared) m (step s))
    (hm : m.Closed) (ss : List Stmt) :
    Ends (.into m.scope (ss.flatMap Stmt.declared)) m (Operations.sequence step ss) := by
  induction ss generalizing m with
  | nil => exact pure hm trivial
  | cons s ss ih =>
    refine ((hstep s m hm).into (List.subset_append_left ..)).bind fun flow m' hl hflow => ?_
    cases flow with
    | normal =>
      have hrest := ih hl.closed
      rw [hl.scope] at hrest
      exact hrest.into (List.subset_append_right ..)
    | «break» | «return» => exact pure hl.closed hflow

/-- A loop, by induction on its turns; each of them may bind the names of its body again. -/
theorem turns {condition : Traced Bool} {body : Traced Flow} {names : List String}
    (hc : ∀ m, m.Closed → Grows .none m condition fun _ _ => True)
    (hb : ∀ m, m.Closed → Ends (.into m.scope names) m body) (hm : m.Closed) (fuel : Nat) :
    Ends (.into m.scope names) m (Operations.repeated (Traced.silent Eval.exhausted) condition body fuel) := by
  induction fuel generalizing m with
  | zero => exact exhausted
  | succ fuel ih =>
    refine (hc m hm).of_none.bind fun holds m' hl _ => ?_
    rw [← hl.scope]
    cases holds with
    | false => exact pure hl.closed trivial
    | true =>
      refine (hb m' hl.closed).bind fun flow m'' hl' hflow => ?_
      rw [← hl'.scope]
      cases flow with
      | normal => exact ih hl'.closed
      | «break» | «return» => exact pure hl'.closed hflow

theorem result {f : Closure} {flow : Flow} (hm : m.Closed) (hf : flow.Rooted m.store.next) :
    Yields A m (Traced.silent (Eval.result f flow)) := by
  refine silent (Eval.still_result f flow) hm fun v hv => ?_
  unfold Eval.result at hv
  split at hv
  · cases hv
    change ((m.store.getHere? f.scope "this").getD .nil).Rooted m.store.next
    cases hthis : m.store.getHere? f.scope "this" with
    | none => trivial
    | some object => exact hm.values object (.inl ⟨f.scope, "this", Option.join_eq_some_iff.1 hthis⟩)
  · cases flow with
    | normal | «break» =>
      cases hv
      trivial
    | «return» value =>
      cases hv
      exact hf

theorem checked {x : Traced Value} (hm : m.Closed) (arity : Nat) (arguments : List Value) (paren : Token)
    (hx : Yields A { m with callDepth := m.callDepth + 1 } x) :
    Yields A m (Traced.silent (Eval.checkCall arity arguments paren) >>= fun _ => Traced.inCall paren x) := by
  have hcheck : Grows A m (Traced.silent (Eval.checkCall arity arguments paren)) fun _ m' => m' = m :=
    silent (Eval.still_checkCall arity arguments paren) hm fun _ _ => rfl
  refine hcheck.bind ?_
  rintro _ _ - rfl
  exact inCall hm paren hx

end Grows

end Traced

end LoxLang
