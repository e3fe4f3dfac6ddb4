import LoxLang.Proofs.Run.Watched
import LoxLang.Proofs.Run.Receivers.Steps

namespace LoxLang

variable {N N' : Notes} {m m' m'' : Machine} {st st' : Store} {p : Position} {shape : Shape}

namespace Activation

/-- The instance that a running body belongs to. -/
def receiver? (st : Store) : Activation → Option Value
  | program _ => none
  | call f _ _ => st.receiver? f.scope

def Proper (N : Notes) (st : Store) : Activation → Prop
  | program _ => True
  | call f _ _ => f.Proper N st

variable {a : Activation}

theorem Proper.mono (h : a.Proper N st) (hN : N.Within N') (hk : st.Keeps st') : a.Proper N' st' := by
  cases a with
  | program => trivial
  | call f => exact Closure.Proper.mono h hN hk

theorem Proper.keeps (h : a.Proper N st) (hk : st.Keeps st') : a.Proper N st' := h.mono (.refl N) hk

/-- The receiver of a running body stays the same as long as it runs. -/
theorem Proper.receiver?_eq (h : a.Proper N st) (hk : st.Keeps st') : a.receiver? st' = a.receiver? st := by
  cases a with
  | program => rfl
  | call f =>
    obtain ⟨-, shape, hs, -⟩ := h
    exact hk.receiver?_eq hs.exist

end Activation

/-- The machine is in a running body where its text has the shape told, and the nearest receiver is that of the body. -/
structure Machine.Stands (N : Notes) (a : Activation) (shape : Shape) (m : Machine) : Prop where
  proper : m.Proper N
  activation : a.Proper N m.store
  shaped : m.store.Shaped m.scope shape
  receiver : m.store.receiver? m.scope = a.receiver? m.store

namespace Machine.Stands

variable {a : Activation}

/-- Whatever a part of the run has done, the place in the body is the same. -/
theorem onward (h : m.Stands N a shape) (hl : m.Onward N m') : m'.Stands N a shape where
  proper := hl.proper
  activation := h.activation.keeps hl.keeps
  shaped := by
    rw [hl.scope]
    exact h.shaped.keeps hl.keeps
  receiver := by
    rw [hl.scope, hl.keeps.receiver?_eq h.shaped.exist, h.receiver, h.activation.receiver?_eq hl.keeps]

/-- In a scope that has been made directly inside one of the body, or of the function that it belongs to. -/
theorem enter {s : ScopeId} (ha : a.Proper N m.store) (hs : m.store.Shaped s shape)
    (hr : m.store.receiver? s = a.receiver? m.store) (hm : m'.Proper N) (hk : (m.store.child s).2.Keeps m'.store)
    (hc : m'.scope = m.store.next) : m'.Stands N a (false :: shape) where
  proper := hm
  activation := ha.keeps (.trans (.addScope m.store _) hk)
  shaped := by
    rw [hc]
    exact hs.child.keeps hk
  receiver := by
    rw [hc, hk.receiver?_eq hs.child.exist, m.store.receiver?_child s hs.exist, hr]
    exact (ha.receiver?_eq (.trans (.addScope m.store _) hk)).symm

theorem of_eq (h : m.Stands N a shape) (hs : m'.store = m.store) (hf : m'.fields = m.fields)
    (hc : m'.scope = m.scope) : m'.Stands N a shape := by
  obtain ⟨hproper, hactivation, hshaped, hreceiver⟩ := h
  constructor
  case proper => exact hproper.of_eq hs hf
  all_goals rw [hs]
  case activation => exact hactivation
  case shaped => rwa [hc]
  case receiver => rwa [hc]

end Machine.Stands

/-- What is told of a place in a machine. Where a statement is, the nearest receiver is that of the running body, and so
it is where `this` is read. -/
def Report.Proper (N : Notes) (p : Position) (m : Machine) : Report → Prop
  | .starts _ => m.store.receiver? m.scope = p.activation.receiver? m.store
  | .ends s flow => m.store.receiver? m.scope = p.activation.receiver? m.store ∧ flow.Proper N m.store ∧
    ∀ f, s = .function f →
      ∃ id, m.store.cell? m.scope f.name.lexeme = some (some (.function ⟨id, f, m.scope, false⟩))
  | .yields _ x => x.Proper N m.store
  | .seeks id keyword => ∃ d x, N.distance id d ∧ m.store.getAt m.scope d keyword.lexeme = .ok x ∧
    p.activation.receiver? m.store = some x
  | .reads object cls name x => x.Proper N m.store ∧
    ((∃ fields, m.fields[object]? = some fields ∧ fields.find? name.lexeme = some x) ∨
      ∃ f, x = .function f ∧ f.name = name.lexeme ∧ m.store.Hides f.scope (.instance object cls))
  | .builds f x => x.Proper N m.store ∧ f.Proper N m.store ∧ f.initializes = true ∧
    ∃ id cls, x = .instance id cls ∧ m.store.Hides f.scope x
  | .leaves flow => flow.Proper N m.store
  | .results x => x.Proper N m.store ∧ ∀ f caller around, p.activation = .call f caller around →
    f.initializes = true → ∃ id cls, x = .instance id cls ∧ m.store.Hides f.scope x

/-- The value is told. -/
def Report.Tells (x : Value) : Report → Prop
  | .yields _ y | .reads _ _ _ y | .builds _ y | .results y | .ends _ (.return y) | .leaves (.return y) => y = x
  | _ => False

namespace Report.Proper

variable {report : Report}

theorem mono (h : report.Proper N p m) (hN : N.Within N') : report.Proper N' p m := by
  have hk := Store.Keeps.refl m.store
  cases report with
  | starts => exact h
  | ends => exact ⟨h.1, h.2.1.mono hN hk, h.2.2⟩
  | yields => exact Value.Proper.mono h hN hk
  | seeks =>
    obtain ⟨d, x, hd, hx⟩ := h
    exact ⟨d, x, hN.distance _ d hd, hx⟩
  | reads => exact ⟨h.1.mono hN hk, h.2⟩
  | builds => exact ⟨h.1.mono hN hk, h.2.1.mono hN hk, h.2.2⟩
  | leaves => exact Flow.Proper.mono h hN hk
  | results => exact ⟨h.1.mono hN hk, h.2⟩

theorem tells (h : report.Proper N p m) {x : Value} (hx : report.Tells x) : x.Proper N m.store := by
  cases report with
  | starts | seeks => cases hx
  | ends s flow =>
    cases flow <;> cases hx
    exact h.2.1
  | leaves flow =>
    cases flow <;> cases hx
    exact h
  | yields =>
    cases hx
    exact h
  | reads | builds | results =>
    cases hx
    exact h.1

end Report.Proper

structure Event.Proper (N : Notes) (v : Event) : Prop where
  machine : v.machine.Proper N
  activation : v.position.activation.Proper N v.machine.store
  report : v.report.Proper N v.position v.machine

/-- The function is kept in the machine, or told, or it is running. -/
def Event.Holds (v : Event) (f : Closure) : Prop :=
  v.machine.Holds (.function f) ∨ v.report.Tells (.function f) ∨
    ∃ caller around, v.position.activation = .call f caller around

namespace Event.Proper

variable {v : Event}

theorem mono (h : v.Proper N) (hN : N.Within N') : v.Proper N' :=
  ⟨h.machine.mono hN, h.activation.mono hN (.refl _), h.report.mono hN⟩

theorem holds (h : v.Proper N) {f : Closure} (hf : v.Holds f) : f.Proper N v.machine.store := by
  obtain hm | hr | ⟨caller, around, ha⟩ := hf
  · exact h.machine.values _ hm
  · exact h.report.tells hr
  · have hactivation := h.activation
    rw [ha] at hactivation
    exact hactivation

/-- Where `this` is read there is a value for it: the receiver of the running function, which is a method bound to it,
or inside of one. -/
theorem seeks (h : v.Proper N) {id : OccurrenceId} {keyword : Token} (hr : v.report = .seeks id keyword) :
    ∃ f caller around d x, v.position.activation = .call f caller around ∧ N.distance id d ∧
      v.machine.store.getAt v.machine.scope d keyword.lexeme = .ok x ∧ v.machine.store.receiver? f.scope = some x ∧
      (f.Bound v.machine.store → v.machine.store.Hides f.scope x) ∧ ∃ id cls, x = .instance id cls := by
  have hreport := h.report
  rw [hr] at hreport
  obtain ⟨d, x, hd, hget, hx⟩ := hreport
  cases ha : v.position.activation with
  | program body => rw [ha] at hx; cases hx
  | call f caller around =>
    rw [ha] at hx
    refine ⟨f, caller, around, d, x, rfl, hd, hget, hx, fun hb => ?_, (h.machine.receiver hx).2⟩
    obtain ⟨-, id, cls, -, hh, -⟩ := hb
    have he : x = .instance id cls := Option.some.inj (hx.symm.trans hh.receiver?)
    rw [he]
    exact hh

/-- An initializer gives what it is bound to, whether its class is called or it is called itself. -/
theorem initializes (h : v.Proper N) {f : Closure} {x : Value} (hr : v.report = .builds f x ∨
      v.report = .results x ∧ f.initializes = true ∧
        ∃ caller around, v.position.activation = .call f caller around) :
    f.Bound v.machine.store ∧ f.initializes = true ∧ v.machine.store.Hides f.scope x ∧
      ∃ id cls, x = .instance id cls := by
  have hreport := h.report
  obtain hr | ⟨hr, hi, caller, around, ha⟩ := hr
  · rw [hr] at hreport
    obtain ⟨-, hf, hi, id, cls, hx, hh⟩ := hreport
    exact ⟨hf.bound hi, hi, hh, id, cls, hx⟩
  · rw [hr] at hreport
    obtain ⟨id, cls, hx, hh⟩ := hreport.2 f caller around ha hi
    exact ⟨(h.holds (.inr (.inr ⟨caller, around, ha⟩))).bound hi, hi, hh, id, cls, hx⟩

end Event.Proper

/-- The stores of a run, one after another, keep what was before. -/
def Trail (st : Store) (log : List Event) (last : Option Machine) : Prop :=
  (st :: (log.map (·.machine.store) ++ last.toList.map Machine.store)).Pairwise Store.Keeps

namespace Trail

variable {log log' : List Event} {last : Option Machine}

theorem silent (h : ∀ m' ∈ last, st.Keeps m'.store) : Trail st [] last := by
  cases last with
  | none => exact List.pairwise_singleton _ _
  | some m' => exact List.pairwise_pair.2 (h m' rfl)

/-- The last machine counts for its store only. -/
theorem map {f : Machine → Machine} (h : Trail st log last) (hf : ∀ m, (f m).store = m.store) :
    Trail st log (last.map f) := by
  cases last with
  | none => exact h
  | some m' =>
    unfold Trail at h ⊢
    rw [Option.map_some, Option.toList_some, List.map_singleton, hf]
    exact h

/-- Of two events the later one has all that the earlier one keeps. -/
theorem pairwise (h : Trail st log last) :
    log.Pairwise fun u v => u.machine.store.Keeps v.machine.store :=
  List.pairwise_map.1 (List.pairwise_append.1 (List.pairwise_cons.1 h).2).1

theorem append (h : Trail st log (some m)) (h' : Trail m.store log' last) : Trail st (log ++ log') last := by
  unfold Trail at h h' ⊢
  rw [Option.toList_some, List.map_singleton, ← List.cons_append] at h
  obtain ⟨hbefore, -, hjoin⟩ := List.pairwise_append.1 h
  obtain ⟨hfrom, hafter⟩ := List.pairwise_cons.1 h'
  rw [List.map_append, List.append_assoc, ← List.cons_append]
  refine List.pairwise_append.2 ⟨hbefore, hafter, fun u hu w hw => ?_⟩
  exact (hjoin u hu m.store List.mem_cons_self).trans (hfrom w hw)

end Trail

namespace Watched
open Telling

variable {α β : Type} {Q : α → Machine → Prop} {R : β → Machine → Prop}

/-- A computation, started in a machine: all that it tells has each function with its receiver, and it leads on. -/
structure Onward (N : Notes) (m : Machine) (x : Watched α) (Q : α → Machine → Prop) : Prop where
  events : ∀ v ∈ (x m).2, v.Proper N
  trail : Trail m.store (x m).2 (x m).1.machine?
  outcome : (x m).1.Onward N m Q

/-- Its value is a proper one when it is there. -/
abbrev Yields (N : Notes) (m : Machine) (x : Watched Value) : Prop := Onward N m x fun v m' => v.Proper N m'.store

/-- The same for a computation that ends as a statement does. -/
abbrev Ends (N : Notes) (m : Machine) (x : Watched Flow) : Prop := Onward N m x fun flow m' => flow.Proper N m'.store

namespace Onward

theorem silent {y : Eval α} (h : (y m).Onward N m Q) : Onward N m (silent y) Q where
  events := by rintro v ⟨⟩
  trail := by
    refine .silent fun m' hm' => ?_
    exact (Eval.Outcome.Onward.machine h hm').keeps
  outcome := h

theorem pure {a : α} (h : m.Proper N) (hQ : Q a m) : Onward N m (Pure.pure a) Q :=
  silent (y := Pure.pure a) ⟨.refl h, hQ⟩

theorem exhausted : Onward N m (Telling.silent Eval.exhausted) Q := silent trivial

theorem imp {x : Watched α} {Q' : α → Machine → Prop} (h : Onward N m x Q)
    (hQ : ∀ a m', m.Onward N m' → Q a m' → Q' a m') : Onward N m x Q' :=
  ⟨h.events, h.trail, h.outcome.imp hQ⟩

/-- What the second computation tells comes after what the first has told. -/
theorem bind {x : Watched α} {f : α → Watched β} (hx : Onward N m x Q)
    (hf : ∀ a m', m.Onward N m' → Q a m' → Onward N m' (f a) R) : Onward N m (x >>= f) R := by
  have houtcome : ((x >>= f) m).1.Onward N m R := by
    change (Telling.plain (x >>= f) m).Onward N m R
    rw [plain_bind]
    exact Eval.onward_bind hx.outcome fun a m' hl hQ => (hf a m' hl hQ).outcome
  obtain ⟨hevents, htrail, hleft⟩ := hx
  rcases hxm : x m with ⟨⟨a, m'⟩ | ⟨e, m'⟩ | _, log⟩
  · rw [hxm] at hevents htrail hleft
    obtain ⟨hevents', htrail', -⟩ := hf a m' hleft.1 hleft.2
    refine ⟨?_, ?_, houtcome⟩
    all_goals rw [bind_done hxm]
    · exact fun v hv => (List.mem_append.1 hv).elim (hevents v) (hevents' v)
    · exact htrail.append htrail'
  · rw [hxm] at hevents htrail
    refine ⟨?_, ?_, houtcome⟩
    all_goals rw [bind_failed hxm]
    · exact hevents
    · exact htrail
  · rw [hxm] at hevents htrail
    refine ⟨?_, ?_, houtcome⟩
    all_goals rw [bind_exhausted hxm]
    · exact hevents
    · exact htrail

/-- A computation that looks at the machine first. -/
theorem reading {f : Machine → α} {g : α → Watched β} (h : Onward N m (g (f m)) R) :
    Onward N m (Telling.silent (Eval.read f) >>= g) R := ⟨h.events, h.trail, h.outcome⟩

theorem tell {report : Report} (h : m.Proper N) (ha : p.activation.Proper N m.store) (hr : report.Proper N p m) :
    Onward N m (tell p report) fun _ m' => m' = m where
  events := by
    rintro v (_ | ⟨_, ⟨⟩⟩)
    exact ⟨h, ha, hr⟩
  trail := by
    change Trail m.store [⟨p, report, m⟩] (some m)
    simp [Trail, Store.Keeps.refl]
  outcome := ⟨.refl h, rfl⟩

/-- What is told of the value is so when it is there. -/
theorem telling {x : Watched α} {report : α → Report} (hx : Onward N m x Q)
    (ha : p.activation.Proper N m.store) (hr : ∀ a m', m.Onward N m' → Q a m' → (report a).Proper N p m') :
    Onward N m (telling p report x) Q := by
  apply hx.bind
  intro a m' hl hQ
  apply (Onward.tell hl.proper (ha.keeps hl.keeps) (hr a m' hl hQ)).bind
  rintro _ _ - rfl
  exact .pure hl.proper hQ

/-- A computation under a combinator that changes no more than the depths and the scope, and puts these back. -/
theorem under {x : Watched α} {Q : α → Store → Prop} {combinator : Eval α → Eval α}
    {enter : Machine → Machine} (restore : Machine → Machine) (h : Onward N (enter m) x fun a m' => Q a m'.store)
    (hc : combinator x.plain m = Eval.restoring restore x.plain (enter m)) (he : (enter m).store = m.store)
    (hstore : ∀ m', (restore m').store = m'.store) (hfields : ∀ m', (restore m').fields = m'.fields)
    (hscope : ∀ m', m'.scope = (enter m).scope → (restore m').scope = m.scope) :
    Onward N m (.under combinator enter x) fun a m' => Q a m'.store := by
  have back : ∀ m', (enter m).Onward N m' → m.Onward N (restore m') := by
    intro m' hl
    refine ⟨hl.proper.of_eq (hstore m') (hfields m'), hscope m' hl.scope, ?_⟩
    rw [hstore, ← he]
    exact hl.keeps
  obtain ⟨hevents, htrail, houtcome⟩ := h
  refine ⟨hevents, ?_, ?_⟩
  · change Trail m.store (x (enter m)).2 (combinator x.plain m).machine?
    rw [he] at htrail
    rw [hc, Eval.machine?_restoring]
    exact htrail.map hstore
  · change (combinator x.plain m).Onward N m _
    rw [hc]
    unfold Eval.restoring plain
    cases hx : (x (enter m)).1 with
    | done a m' =>
      rw [hx] at houtcome
      refine ⟨back m' houtcome.1, ?_⟩
      change Q a (restore m').store
      rw [hstore]
      exact houtcome.2
    | failed e m' =>
      rw [hx] at houtcome
      exact back m' houtcome
    | exhausted => trivial

/-- The scope that is entered is put back, and the stores have grown on the way. -/
theorem inScope {s : ScopeId} {x : Watched Flow} (h : Ends N { m with scope := s } x) : Ends N m (inScope s x) :=
  under (Q := fun flow st => Flow.Proper N st flow) (fun m' => { m' with scope := m.scope }) h rfl rfl (fun _ => rfl)
    (fun _ => rfl) fun _ _ => rfl

theorem inLoop {x : Watched Flow} (h : Ends N { m with loopDepth := m.loopDepth + 1 } x) : Ends N m (inLoop x) :=
  under (Q := fun flow st => Flow.Proper N st flow) (fun m' => { m' with loopDepth := m'.loopDepth - 1 }) h rfl rfl
    (fun _ => rfl) (fun _ => rfl) fun _ h => h

theorem outsideLoops {x : Watched Flow} (h : Ends N { m with loopDepth := 0 } x) : Ends N m (outsideLoops x) :=
  under (Q := fun flow st => Flow.Proper N st flow) (fun m' => { m' with loopDepth := m.loopDepth }) h rfl rfl
    (fun _ => rfl) (fun _ => rfl) fun _ h => h

theorem inCall {x : Watched Value} (h : Yields N { m with callDepth := m.callDepth + 1 } x) : Yields N m (inCall x) :=
  under (Q := fun v st => Value.Proper N st v) (fun m' => { m' with callDepth := m'.callDepth - 1 }) h rfl rfl
    (fun _ => rfl) (fun _ => rfl) fun _ h => h

theorem turns {condition : Watched Bool} {body : Watched Flow} (h : m.Proper N)
    (hc : ∀ m', m.Onward N m' → Onward N m' condition fun _ _ => True)
    (hb : ∀ m', m.Onward N m' → Ends N m' body) (fuel : Nat) : Ends N m (turns condition body fuel) := by
  induction fuel generalizing m with
  | zero => exact .exhausted
  | succ fuel ih =>
    apply (hc m (.refl h)).bind
    intro holds m₁ hl₁ _
    cases holds with
    | false => exact .pure hl₁.proper trivial
    | true =>
      apply (hb m₁ hl₁).bind
      intro flow m₂ hl₂ hflow
      have hl := hl₁.trans hl₂
      cases flow with
      | normal => exact ih hl₂.proper (fun m' hl' => hc m' (hl.trans hl')) fun m' hl' => hb m' (hl.trans hl')
      | «break» => exact .pure hl₂.proper trivial
      | «return» x => exact .pure hl₂.proper hflow

theorem sequence {step : Stmt → Watched Flow} {ss : List Stmt} (h : m.Proper N)
    (hs : ∀ s ∈ ss, ∀ m', m.Onward N m' → Ends N m' (step s)) : Ends N m (Operations.sequence step ss) := by
  induction ss generalizing m with
  | nil => exact .pure h trivial
  | cons s ss ih =>
    apply (hs s List.mem_cons_self m (.refl h)).bind
    intro flow m' hl hflow
    cases flow with
    | normal => exact ih hl.proper fun t ht m'' hl' => hs t (List.mem_cons_of_mem s ht) m'' (hl.trans hl')
    | «break» | «return» => exact .pure hl.proper hflow

theorem values {step : Expr → Watched Value} {es : List Expr} (h : m.Proper N)
    (hs : ∀ e ∈ es, ∀ m', m.Onward N m' → Yields N m' (step e)) :
    Onward N m (Operations.values step es) fun vs m' => ∀ v ∈ vs, v.Proper N m'.store := by
  induction es generalizing m with
  | nil => exact .pure h (by simp)
  | cons e es ih =>
    apply (hs e List.mem_cons_self m (.refl h)).bind
    intro x m₁ hl₁ hx
    apply (ih hl₁.proper fun e' he m' hl' => hs e' (List.mem_cons_of_mem e he) m' (hl₁.trans hl')).bind
    intro xs m₂ hl₂ hxs
    refine .pure hl₂.proper fun v hv => ?_
    rcases List.mem_cons.1 hv with rfl | hv
    · exact hx.keeps hl₂.keeps
    · exact hxs v hv

end Onward

end Watched

end LoxLang
