import LoxLang.Proofs.Run.Alike.Values
import LoxLang.Proofs.Run.Computations

namespace LoxLang
open Scoping

/-- The cause without the name of a variable. -/
def RuntimeError.Cause.unnamed : RuntimeError.Cause → RuntimeError.Cause
  | .undefinedVariable _ => .undefinedVariable ""
  | .uninitializedVariable _ => .uninitializedVariable ""
  | cause => cause

def RuntimeError.unnamed (e : RuntimeError) : RuntimeError := { e with cause := e.cause.unnamed }

/-- A failed access names only the variable that it was for. -/
theorem AccessError.cause_unnamed (e : AccessError) (x y : String) : (e.cause x).unnamed = (e.cause y).unnamed := by
  cases e <;> rfl

namespace Eval

variable {α β : Type} {A : Agreement} {W W' : Spellings} {Γ Δ : Spelling}

/-- Both end in the same way, in machines that are alike, in a scope whose names are spelled as told. -/
inductive Outcome.Alike (A : Agreement) (W : Spellings) (Γ : Spelling) (Q : Spellings → α → α → Prop) :
    Outcome α → Outcome α → Prop
  | done {W' : Spellings} {a a' : α} {m m' : Machine} (hW : W.Extends W') (hm : m.Alike A W' m')
    (hs : W'[m.scope]? = some Γ) (ha : Q W' a a') : Outcome.Alike A W Γ Q (.done a m) (.done a' m')
  | failed {W' : Spellings} {e e' : RuntimeError} {m m' : Machine} (hW : W.Extends W') (hm : m.Alike A W' m')
    (he : e'.unnamed = e.unnamed) : Outcome.Alike A W Γ Q (.failed e m) (.failed e' m')
  | exhausted : Outcome.Alike A W Γ Q .exhausted .exhausted

/-- Scopes that are new to the result are no matter where fewer are spoken of. -/
theorem Outcome.Alike.widen {Q : Spellings → α → α → Prop} {o o' : Outcome α} (h : Outcome.Alike A W' Γ Q o o')
    (hW : W.Extends W') : Outcome.Alike A W Γ Q o o' := by
  cases h with
  | done hW' hm hs ha => exact .done (hW.trans hW') hm hs ha
  | failed hW' hm he => exact .failed (hW.trans hW') hm he
  | exhausted => exact .exhausted

/-- In machines that are alike, in a scope whose names are spelled as told, both computations end alike. -/
def Likewise (A : Agreement) (W : Spellings) (Γ : Spelling) (Q : Spellings → α → α → Prop) (x x' : Eval α) : Prop :=
  ∀ m m' : Machine, m.Alike A W m' → W[m.scope]? = some Γ → Outcome.Alike A W Γ Q (x m) (x' m')

/-- The very same result. -/
def Same : Spellings → α → α → Prop := fun _ a a' => a' = a

/-- The same scope, whose names are spelled as told. -/
def SameScope (Γ : Spelling) : Spellings → ScopeId → ScopeId → Prop := fun W s s' => s' = s ∧ W[s]? = some Γ

def AlikeValue (A : Agreement) : Spellings → Value → Value → Prop := fun W v v' => v.Alike A W v'

def AlikeValues (A : Agreement) : Spellings → List Value → List Value → Prop :=
  fun W => List.Forall₂ (Value.Alike A W)

inductive AlikeFlow (A : Agreement) (W : Spellings) : Flow → Flow → Prop
  | normal : AlikeFlow A W .normal .normal
  | break : AlikeFlow A W .break .break
  | return {v v' : Value} (h : v.Alike A W v') : AlikeFlow A W (.return v) (.return v')

theorem AlikeValues.grows {vs vs' : List Value} (h : AlikeValues A W vs vs') (hW : W.Extends W') :
    AlikeValues A W' vs vs' := by
  have hgrows : ∀ v v' : Value, v.Alike A W v' → v.Alike A W' v' := fun _ _ hv => hv.grows hW
  exact List.Forall₂.imp hgrows h

namespace Likewise

variable {Q : Spellings → α → α → Prop} {R : Spellings → β → β → Prop}

theorem pure {a a' : α} (h : Q W a a') : Likewise A W Γ Q (Pure.pure a) (Pure.pure a') :=
  fun _ _ hm hs => .done (.refl W) hm hs h

/-- The second computations are alike in all scopes that the first ones have added. -/
theorem bind {x x' : Eval α} {f f' : α → Eval β} (hx : Likewise A W Γ Q x x')
    (hf : ∀ W', W.Extends W' → ∀ a a', Q W' a a' → Likewise A W' Γ R (f a) (f' a')) :
    Likewise A W Γ R (x >>= f) (x' >>= f') := by
  intro m m' hm hs
  have ho := hx m m' hm hs
  generalize hxm : x m = o at ho
  generalize hxm' : x' m' = o' at ho
  cases ho with
  | done hW hm hs ha =>
    rw [bind_done hxm, bind_done hxm']
    exact (hf _ hW _ _ ha _ _ hm hs).widen hW
  | failed hW hm he =>
    rw [bind_failed hxm, bind_failed hxm']
    exact .failed hW hm he
  | exhausted =>
    rw [bind_exhausted hxm, bind_exhausted hxm']
    exact .exhausted

/-- Both go on with the same. -/
theorem bindSame {x x' : Eval α} {f f' : α → Eval β} (hx : Likewise A W Γ Same x x')
    (hf : ∀ W', W.Extends W' → ∀ a, Likewise A W' Γ R (f a) (f' a)) : Likewise A W Γ R (x >>= f) (x' >>= f') :=
  bind hx fun W' hW a _ ha => ha ▸ hf W' hW a

/-- Both go on with the same scope. -/
theorem bindScope {x x' : Eval ScopeId} {f f' : ScopeId → Eval β} (hx : Likewise A W Γ (SameScope Δ) x x')
    (hf : ∀ W', W.Extends W' → ∀ s, W'[s]? = some Δ → Likewise A W' Γ R (f s) (f' s)) :
    Likewise A W Γ R (x >>= f) (x' >>= f') :=
  bind hx fun W' hW s _ hs => hs.1 ▸ hf W' hW s hs.2

theorem map {x x' : Eval α} {f f' : α → β} (hx : Likewise A W Γ Q x x')
    (hf : ∀ W', W.Extends W' → ∀ a a', Q W' a a' → R W' (f a) (f' a')) :
    Likewise A W Γ R (f <$> x) (f' <$> x') :=
  bind hx fun W' hW a a' ha => pure (hf W' hW a a' ha)

theorem exhausted : Likewise A W Γ Q (Eval.exhausted : Eval α) Eval.exhausted := fun _ _ _ _ => .exhausted

/-- Errors at tokens on the same line with causes that differ in the name at most. -/
theorem fail {cause cause' : RuntimeError.Cause} {t t' : Token} (hcause : cause'.unnamed = cause.unnamed)
    (ht : t'.line = t.line) : Likewise A W Γ Q (Eval.fail cause t : Eval α) (Eval.fail cause' t') :=
  fun _ _ hm _ => .failed (.refl W) hm (by simp [RuntimeError.unnamed, hcause, ht])

theorem lift {r : Except RuntimeError.Cause Value} (hr : ∀ v, r = .ok v → v.Plain) (t : Token) :
    Likewise A W Γ (AlikeValue A) (Eval.lift r t) (Eval.lift r t) := by
  cases r with
  | ok v => exact .pure (.plain (hr v rfl))
  | error cause => exact .fail rfl rfl

theorem read {f : Machine → α} (h : ∀ m m' : Machine, m.Alike A W m' → W[m.scope]? = some Γ → Q W (f m) (f m')) :
    Likewise A W Γ Q (Eval.read f) (Eval.read f) :=
  fun m m' hm hs => .done (.refl W) hm hs (h m m' hm hs)

theorem scope : Likewise A W Γ (SameScope Γ) (Eval.read Machine.scope) (Eval.read Machine.scope) :=
  read fun _ _ hm hs => ⟨hm.scope, hs⟩

theorem modify {f f' : Machine → Machine}
    (h : ∀ m m' : Machine, m.Alike A W m' → (f m).Alike A W (f' m') ∧ (f m).scope = m.scope) :
    Likewise A W Γ Same (Eval.modify f) (Eval.modify f') := by
  intro m m' hm hs
  obtain ⟨hf, hscope⟩ := h m m' hm
  exact .done (.refl W) hf (by rw [hscope, hs]) rfl

/-- What an inner computation changed is put back in both. -/
theorem restoring {restore restore' : Machine → Machine} {x x' : Eval α} {m m' : Machine}
    (hr : ∀ W', W.Extends W' → ∀ n n' : Machine, n.Alike A W' n' → (restore n).Alike A W' (restore' n'))
    (hs : ∀ W', W.Extends W' → ∀ n : Machine, W'[n.scope]? = some Δ → W'[(restore n).scope]? = some Γ)
    (hx : Outcome.Alike A W Δ Q (x m) (x' m')) :
    Outcome.Alike A W Γ Q (Eval.restoring restore x m) (Eval.restoring restore' x' m') := by
  unfold Eval.restoring
  generalize x m = o at hx
  generalize x' m' = o' at hx
  cases hx with
  | done hW hm hn ha => exact .done hW (hr _ hW _ _ hm) (hs _ hW _ hn) ha
  | failed hW hm he => exact .failed hW (hr _ hW _ _ hm) he
  | exhausted => exact .exhausted

/-- The names of the scope entered may be spelled in another way than those outside. -/
theorem inScope {s : ScopeId} {x x' : Eval α} (hs : W[s]? = some Δ) (hx : Likewise A W Δ Q x x') :
    Likewise A W Γ Q (Eval.inScope s x) (Eval.inScope s x') := by
  intro m m' hm hm'
  have hinside : Outcome.Alike A W Δ Q (x { m with scope := s }) (x' { m' with scope := s }) :=
    hx _ _ { hm with scope := rfl } hs
  exact restoring (fun _ _ _ _ hn => { hn with scope := hm.scope }) (fun _ hW _ _ => hW _ _ hm') hinside

theorem inLoop {x x' : Eval α} (hx : Likewise A W Γ Q x x') :
    Likewise A W Γ Q (Eval.inLoop x) (Eval.inLoop x') := by
  intro m m' hm hs
  have hinside : Outcome.Alike A W Γ Q (x { m with loopDepth := m.loopDepth + 1 })
      (x' { m' with loopDepth := m'.loopDepth + 1 }) :=
    hx _ _ { hm with loopDepth := congrArg (· + 1) hm.loopDepth } hs
  exact restoring (fun _ _ _ _ hn => { hn with loopDepth := congrArg (· - 1) hn.loopDepth }) (fun _ _ _ hn => hn)
    hinside

theorem outsideLoops {x x' : Eval α} (hx : Likewise A W Γ Q x x') :
    Likewise A W Γ Q (Eval.outsideLoops x) (Eval.outsideLoops x') := by
  intro m m' hm hs
  have hinside : Outcome.Alike A W Γ Q (x { m with loopDepth := 0 }) (x' { m' with loopDepth := 0 }) :=
    hx _ _ { hm with loopDepth := rfl } hs
  exact restoring (fun _ _ _ _ hn => { hn with loopDepth := hm.loopDepth }) (fun _ _ _ hn => hn) hinside

theorem inCall {x x' : Eval α} (hx : Likewise A W Γ Q x x') :
    Likewise A W Γ Q (Eval.inCall x) (Eval.inCall x') := by
  intro m m' hm hs
  have hinside : Outcome.Alike A W Γ Q (x { m with callDepth := m.callDepth + 1 })
      (x' { m' with callDepth := m'.callDepth + 1 }) :=
    hx _ _ { hm with callDepth := congrArg (· + 1) hm.callDepth } hs
  exact restoring (fun _ _ _ _ hn => { hn with callDepth := congrArg (· - 1) hn.callDepth }) (fun _ _ _ hn => hn)
    hinside

/-- A new scope, its names spelled in any way that leaves `this` alone. -/
theorem childScope {s : ScopeId} (hs : W[s]? = some Δ) {κ : Equiv.Perm String} (hκ : κ "this" = "this") :
    Likewise A W Γ (SameScope (κ :: Δ)) (Eval.childScope s) (Eval.childScope s) := by
  intro m m' hm hm'
  have hW := Spellings.Extends.push W (κ :: Δ)
  have hnew : (W.push (κ :: Δ))[m.store.next]? = some (κ :: Δ) := by simp [← hm.store.size]
  refine .done hW ?_ (hW _ _ hm') ⟨hm.store.next, hnew⟩
  exact { hm with
    store := hm.store.child hs hκ
    fields := fun o => (hm.fields o).imp fun _ _ hb => hb.imp fun _ _ hv => hv.grows hW }

/-- The name is declared in each run under its own spelling. -/
theorem define {s : ScopeId} {x x' : String} (hs : W[s]? = some Δ) (hx : Δ.here x = x') {v v' : Value}
    (hv : v.Alike A W v') : Likewise A W Γ Same (Eval.define s x v) (Eval.define s x' v') := by
  rw [← hx]
  exact modify fun _ _ hm => ⟨{ hm with store := hm.store.setCell hs x (.some hv) }, rfl⟩

theorem declare {s : ScopeId} {x x' : String} (hs : W[s]? = some Δ) (hx : Δ.here x = x') :
    Likewise A W Γ Same (Eval.declare s x) (Eval.declare s x') := by
  rw [← hx]
  exact modify fun _ _ hm => ⟨{ hm with store := hm.store.setCell hs x .none }, rfl⟩

/-- A read fails in both runs or in none, since its cell is there and filled in both. -/
theorem access {f f' : Store → Except AccessError Value} {name name' : Token}
    (hf : ∀ st st' : Store, st.Alike A W st' → AlikeRead A W (f st) (f' st')) (hline : name'.line = name.line) :
    Likewise A W Γ (AlikeValue A) (Eval.access f name) (Eval.access f' name') := by
  intro m m' hm hs
  have hr := hf _ _ hm.store
  unfold Eval.access
  generalize f m.store = r at hr ⊢
  generalize f' m'.store = r' at hr ⊢
  cases hr with
  | error e =>
    refine .failed (.refl W) hm ?_
    simp [RuntimeError.unnamed, hline, e.cause_unnamed name'.lexeme name.lexeme]
  | ok hv => exact .done (.refl W) hm hs hv

/-- The cell that is filled is found in the same scope, under the name that it has there. -/
theorem assign {f f' : Store → Except AccessError ScopeId} {name name' : Token} {v v' : Value}
    (hf : ∀ st st' : Store, st.Alike A W st' → f' st' = f st)
    (hn : ∀ (st st' : Store) (s : ScopeId), st.Alike A W st' → f st = .ok s →
      ∃ Δ, W[s]? = some Δ ∧ name'.lexeme = Δ.here name.lexeme)
    (hline : name'.line = name.line) (hv : v.Alike A W v') :
    Likewise A W Γ Same (Eval.assign f name v) (Eval.assign f' name' v') := by
  intro m m' hm hs
  unfold Eval.assign
  rw [hf _ _ hm.store]
  cases hr : f m.store with
  | error e =>
    refine .failed (.refl W) hm ?_
    simp [RuntimeError.unnamed, hline, e.cause_unnamed name'.lexeme name.lexeme]
  | ok s =>
    obtain ⟨Δ, hΔ, hname⟩ := hn _ _ s hm.store hr
    dsimp only
    rw [hname]
    exact .done (.refl W) { hm with store := hm.store.setCell hΔ name.lexeme (.some hv) } hs rfl

theorem print (text : String) : Likewise A W Γ Same (Eval.print text) (Eval.print text) :=
  modify fun _ _ hm => ⟨{ hm with printed := congrArg (·.push text) hm.printed }, rfl⟩

theorem readClock (clock : Clock) : Likewise A W Γ Same (Eval.readClock clock) (Eval.readClock clock) :=
  fun _ _ hm hs => .done (.refl W) { hm with readings := congrArg (· + 1) hm.readings } hs
    (congrArg clock hm.readings)

theorem newObject : Likewise A W Γ Same Eval.newObject Eval.newObject := by
  intro m m' hm hs
  refine .done (.refl W) ?_ hs hm.objects
  refine { hm with objects := by simp [hm.objects], fields := fun o => ?_ }
  dsimp only
  rw [Array.getElem?_push, Array.getElem?_push, hm.objects]
  split
  · exact .some .empty
  · exact hm.fields o

theorem field? (object : ObjectId) (x : String) :
    Likewise A W Γ (fun W => Option.Rel (Value.Alike A W)) (Eval.field? object x) (Eval.field? object x) := by
  refine .read fun m m' hm _ => ?_
  have hfields := hm.fields object
  generalize m.fields[object]? = fields at hfields ⊢
  generalize m'.fields[object]? = fields' at hfields ⊢
  cases hfields with
  | none => exact .none
  | some h => exact h x

theorem setField (object : ObjectId) (x : String) {v v' : Value} (hv : v.Alike A W v') :
    Likewise A W Γ Same (Eval.setField object x v) (Eval.setField object x v') := by
  refine .modify fun m m' hm => ⟨?_, rfl⟩
  refine { hm with objects := by simp [hm.objects], fields := fun o => ?_ }
  dsimp only
  rw [Array.getElem?_modify, Array.getElem?_modify]
  have hfields := hm.fields o
  generalize m.fields[o]? = fields at hfields ⊢
  generalize m'.fields[o]? = fields' at hfields ⊢
  split
  · cases hfields with
    | none => exact .none
    | some h => exact .some (h.set x hv)
  · exact hfields

theorem turns {condition condition' : Eval Bool} {body body' : Eval Flow}
    (hc : ∀ W, Likewise A W Γ Same condition condition') (hb : ∀ W, Likewise A W Γ (AlikeFlow A) body body')
    (fuel : Nat) (W : Spellings) :
    Likewise A W Γ (AlikeFlow A) (Eval.turns condition body fuel) (Eval.turns condition' body' fuel) := by
  induction fuel generalizing W with
  | zero => exact .exhausted
  | succ fuel ih =>
    rw [turns_succ, turns_succ]
    refine .bindSame (hc W) fun W _ holds => ?_
    cases holds with
    | false => exact .pure .normal
    | true =>
      refine .bind (hb W) fun W _ flow flow' hflow => ?_
      cases hflow with
      | normal => exact ih W
      | «break» => exact .pure .normal
      | «return» h => exact .pure (.return h)

theorem sequence {step step' : Stmt → Eval Flow}
    (hstep : ∀ W s s', AlikeStmt A Γ s s' → Likewise A W Γ (AlikeFlow A) (step s) (step' s')) {ss ss' : List Stmt}
    (hs : AlikeStmts A Γ ss ss') (W : Spellings) :
    Likewise A W Γ (AlikeFlow A) (Operations.sequence step ss) (Operations.sequence step' ss') := by
  induction ss generalizing ss' W with
  | nil =>
    cases hs
    exact .pure .normal
  | cons s ss ih =>
    cases hs with
    | cons h hs =>
      refine .bind (hstep W _ _ h) fun W _ flow flow' hflow => ?_
      cases hflow with
      | normal => exact ih hs W
      | «break» => exact .pure .break
      | «return» h => exact .pure (.return h)

theorem values {step step' : Expr → Eval Value} {f : OccurrenceId → String → String}
    (hstep : ∀ W e, Likewise A W Γ (AlikeValue A) (step e) (step' (e.renamed f))) (es : List Expr) (W : Spellings) :
    Likewise A W Γ (AlikeValues A) (Operations.values step es) (Operations.values step' (Expr.renamedAll f es)) := by
  induction es generalizing W with
  | nil => exact .pure .nil
  | cons e es ih =>
    refine .bind (hstep W e) fun W _ v v' hv => .bind (ih W) fun W hW vs vs' hvs => .pure ?_
    exact .cons (hv.grows hW) hvs

section

variable {setting : Setting} (hA : ∀ i, A.distance? i = setting.distances[i]?)
include hA

/-- The occurrence is spelled in the other run as the scope spells it to which its distance leads, and a global one is
spelled alike. -/
theorem readName (i : OccurrenceId) (name : Token) :
    Likewise A W Γ (AlikeValue A) (Eval.readName setting i name)
      (Eval.readName setting i (name.renamed (Γ.outward (A.distance? i)))) := by
  unfold Eval.readName
  rw [hA]
  cases setting.distances[i]? with
  | none => exact .access (fun _ _ hst => hst.get_globals name.lexeme) rfl
  | some d =>
    refine .bindScope .scope fun W _ s hs => ?_
    exact .access (fun _ _ hst => hst.getAt hs d name.lexeme) rfl

/-- So is the target of an assignment. -/
theorem assignName (i : OccurrenceId) (name : Token) {v v' : Value} (hv : v.Alike A W v') :
    Likewise A W Γ Same (Eval.assignName setting i name v)
      (Eval.assignName setting i (name.renamed (Γ.outward (A.distance? i))) v') := by
  rw [Eval.assignName_eq, Eval.assignName_eq, hA]
  cases setting.distances[i]? with
  | none =>
    refine .assign (fun _ _ hst => hst.holder_globals name.lexeme) (fun st st' s hst hh => ?_) rfl hv
    rw [hst.eq_globals_of_holder hh]
    exact ⟨[], hst.globals, rfl⟩
  | some d =>
    refine .bindScope .scope fun W hW s hs => ?_
    refine .assign (fun _ _ hst => hst.holderAt_eq hs d name.lexeme) (fun st st' a hst hh => ?_) rfl (hv.grows hW)
    refine ⟨_, hst.spelling_of_ancestor hs (Store.has_of_holderAt hh).1, ?_⟩
    rw [Spelling.here_drop]
    rfl

end

/-- With its scope of `this`, a method is a function. -/
theorem bindThis {f f' : Closure} {object object' : Value} (hf : f.Alike A W [.refl _] f')
    (ho : object.Alike A W object') :
    Likewise A W Γ (fun W f f' => f.Alike A W [] f') (Eval.bindThis f object) (Eval.bindThis f' object') := by
  obtain ⟨Δ, hΔ, hcode⟩ := hf.code
  unfold Eval.bindThis Changes.bindThis
  rw [hf.scope]
  have hscope : Likewise A W Γ (SameScope (.refl _ :: Δ)) (Eval.childScope f.scope) (Eval.childScope f.scope) :=
    .childScope hΔ rfl
  refine .bindScope hscope fun W hW s hs => .bindSame (.define hs rfl (ho.grows hW)) fun W hW _ => ?_
  refine .bindSame .newObject fun W hW' i => ?_
  exact .pure ⟨rfl, rfl, hf.initializes, _, hW' _ _ (hW _ _ hs), hcode⟩

theorem property (object : ObjectId) {c c' : Class} (hc : c.Alike A W c') (name : Token) :
    Likewise A W Γ (AlikeValue A) (Eval.property object c name) (Eval.property object c' name) := by
  unfold Eval.property
  refine .bind (.field? object name.lexeme) fun W hW value value' hvalue => ?_
  cases hvalue with
  | some hv => exact .pure hv
  | none =>
    have hc := hc.grows hW
    have hmethod := hc.methods name.lexeme
    dsimp only
    generalize c.methods.find? name.lexeme = method at hmethod ⊢
    generalize c'.methods.find? name.lexeme = method' at hmethod ⊢
    cases hmethod with
    | none => exact .fail rfl rfl
    | some hf => exact .map (.bindThis hf (.instance object hc)) fun _ _ _ _ hf => .function hf

theorem closures {s : ScopeId} {fs fs' : List Function} (hs : W[s]? = some Δ)
    (h : AlikeFunctions A (.refl _ :: Δ) fs fs') :
    Likewise A W Γ (fun W => List.Forall₂ fun e e' => e'.1 = e.1 ∧ e.2.Alike A W [.refl _] e'.2)
      (Eval.closures s fs) (Eval.closures s fs') := by
  induction fs generalizing fs' W with
  | nil =>
    cases h
    exact .pure .nil
  | cons f fs ih =>
    cases h with
    | cons hf hfs =>
      refine .bindSame .newObject fun W hW i => .bind (ih (hW _ _ hs) hfs) fun W hW' rest rest' hrest => .pure ?_
      refine .cons ⟨?_, rfl, rfl, hf.isInitializer_eq, Δ, hW' _ _ (hW _ _ hs), hf⟩ hrest
      simp [hf.name_eq]

/-- Parameters are renamed with the scope that their call opens. -/
theorem defineAll {s : ScopeId} {κ : Equiv.Perm String} (hs : W[s]? = some (κ :: Δ)) (ps : List Token)
    {vs vs' : List Value} (hv : AlikeValues A W vs vs') :
    Likewise A W Γ Same (Eval.defineAll s ps vs) (Eval.defineAll s (ps.map (Token.renamed κ)) vs') := by
  induction ps generalizing vs vs' W with
  | nil => exact .pure rfl
  | cons p ps ih =>
    cases hv with
    | nil => exact .pure rfl
    | cons hv hvs =>
      refine .bindSame (.define hs rfl hv) fun W hW _ => ih (hW _ _ hs) ?_
      exact AlikeValues.grows hvs hW

theorem result {f f' : Closure} {flow flow' : Flow} (hf : f.Alike A W [] f') (hflow : AlikeFlow A W flow flow') :
    Likewise A W Γ (AlikeValue A) (Eval.result f flow) (Eval.result f' flow') := by
  obtain ⟨Δ, hΔ, -⟩ := hf.code
  unfold Eval.result
  rw [hf.initializes, hf.scope]
  split
  · refine .read fun m m' hm _ => ?_
    -- an initializer gives back the object, whatever flow its body ends with
    have hc := hm.store.cell _ _ "this" hΔ
    rw [hm.store.this_eq _ _ hΔ] at hc
    exact hc.join.getD (.plain trivial)
  · cases hflow with
    | «return» hv => exact .pure hv
    | normal | «break» => exact .pure (.plain trivial)

theorem checkCall {arity arity' : Nat} (ha : arity' = arity) {arguments arguments' : List Value}
    (h : AlikeValues A W arguments arguments') (paren : Token) :
    Likewise A W Γ Same (Eval.checkCall arity arguments paren) (Eval.checkCall arity' arguments' paren) := by
  have hlength : arguments'.length = arguments.length := (List.Forall₂.length_eq h).symm
  unfold Eval.checkCall
  rw [hlength, ha]
  split
  · exact .fail rfl rfl
  · have hdepth : Likewise A W Γ Same (Eval.read Machine.callDepth) (Eval.read Machine.callDepth) :=
      .read fun _ _ hm _ => hm.callDepth
    refine .bindSame hdepth fun W _ depth => ?_
    split
    · exact .fail rfl rfl
    · exact .pure rfl

end Likewise

/-- With so much fuel, what is alike runs likewise. -/
structure LikewiseAt (A : Agreement) (setting : Setting) (fuel : Nat) : Prop where
  evaluate : ∀ W Γ (e : Expr), Likewise A W Γ (AlikeValue A) (evaluate setting fuel e)
    (evaluate setting fuel (A.expr Γ e))
  execute : ∀ W Γ (s s' : Stmt), AlikeStmt A Γ s s' →
    Likewise A W Γ (AlikeFlow A) (execute setting fuel s) (execute setting fuel s')
  call : ∀ W Γ (callee callee' : Value) arguments arguments' (paren : Token), callee.Alike A W callee' →
    AlikeValues A W arguments arguments' →
    Likewise A W Γ (AlikeValue A) (call setting fuel callee arguments paren)
      (call setting fuel callee' arguments' paren)
  run : ∀ W Γ (f f' : Closure) arguments arguments', f.Alike A W [] f' → AlikeValues A W arguments arguments' →
    Likewise A W Γ (AlikeValue A) (run setting fuel f arguments) (run setting fuel f' arguments')

namespace LikewiseAt

variable {setting : Setting} {fuel : Nat}

theorem evaluate_succ (hA : ∀ i, A.distance? i = setting.distances[i]?) (h : LikewiseAt A setting fuel)
    (W : Spellings) (Γ : Spelling) (e : Expr) :
    Likewise A W Γ (AlikeValue A) (Eval.evaluate setting (fuel + 1) e)
      (Eval.evaluate setting (fuel + 1) (A.expr Γ e)) := by
  cases e with
  | literal value => exact .pure (.plain value.value_plain)
  | group inner => exact h.evaluate W Γ inner
  | unary operator operand =>
    refine .bind (h.evaluate W Γ operand) fun W _ v v' hv => ?_
    rw [hv.same.unary_eq]
    exact .lift (fun _ => Value.unary_plain) operator
  | binary left operator right =>
    refine .bind (h.evaluate W Γ left) fun W _ v v' hv => .bind (h.evaluate W Γ right) fun W hW w w' hw => ?_
    rw [(hv.grows hW).same.binary_eq operator.kind hw.same]
    exact .lift (fun _ => Value.binary_plain) operator
  | logical left operator right =>
    refine .bind (h.evaluate W Γ left) fun W _ v v' hv => ?_
    rw [hv.same.isTruthy_eq]
    split
    · exact .pure hv
    · exact h.evaluate W Γ right
  | ternary condition thenBranch elseBranch =>
    refine .bind (h.evaluate W Γ condition) fun W _ v v' hv => ?_
    rw [hv.same.isTruthy_eq]
    split
    · exact h.evaluate W Γ thenBranch
    · exact h.evaluate W Γ elseBranch
  | «variable» i name => exact .readName hA i name
  | this i keyword => exact .readName hA i keyword
  | assign i name value =>
    refine .bind (h.evaluate W Γ value) fun W _ v v' hv => .bindSame (.assignName hA i name hv) fun W hW _ => ?_
    exact .pure (hv.grows hW)
  | call callee paren given =>
    refine .bind (h.evaluate W Γ callee) fun W _ f f' hf => ?_
    refine .bind (.values (fun W => h.evaluate W Γ) given W) fun W hW arguments arguments' hgiven => ?_
    exact h.call W Γ f f' arguments arguments' paren (hf.grows hW) hgiven
  | get object name =>
    refine .bind (h.evaluate W Γ object) fun W _ v v' hv => ?_
    cases hv with
    | «instance» i hc => exact .property i hc name
    | plain hv =>
      cases v with
      | «instance» => cases hv
      | _ => exact .fail rfl rfl
    | _ => exact .fail rfl rfl
  | set object name value =>
    refine .bind (h.evaluate W Γ object) fun W _ v v' hv => ?_
    cases hv with
    | «instance» i hc =>
      refine .bind (h.evaluate W Γ value) fun W _ w w' hw => .bindSame (.setField i name.lexeme hw) fun W hW _ => ?_
      exact .pure (hw.grows hW)
    | plain hv =>
      cases v with
      | «instance» => cases hv
      | _ => exact .fail rfl rfl
    | _ => exact .fail rfl rfl

theorem declareClass_likewise (W : Spellings) {name : Token} {methods methods' : List Function}
    (hname : Γ.here name.lexeme = name.lexeme) (h : AlikeFunctions A (.refl _ :: Γ) methods methods') :
    Likewise A W Γ (AlikeFlow A) (declareClass name methods) (declareClass name methods') := by
  refine .bindScope .scope fun W _ s hs => .bindSame (.declare hs hname) fun W hW₁ _ => ?_
  refine .bind (.closures (hW₁ _ _ hs) h) fun W hW₂ _ _ hclosures => .bindSame .newObject fun W hW₃ i => ?_
  refine .bindSame (.define (hW₃ _ _ (hW₂ _ _ (hW₁ _ _ hs))) hname (.class ⟨rfl, rfl, ?_⟩)) fun W _ _ => .pure .normal
  exact (NameMap.Alike.ofList hclosures).imp fun _ _ hf => hf.grows hW₃

/-- One level more for statements: a block and a function may each spell their own names anew. -/
theorem execute_succ (h : LikewiseAt A setting fuel) (W : Spellings) (Γ : Spelling) (s s' : Stmt)
    (hs : AlikeStmt A Γ s s') :
    Likewise A W Γ (AlikeFlow A) (Eval.execute setting (fuel + 1) s) (Eval.execute setting (fuel + 1) s') := by
  cases hs with
  | expression _ value => exact .bind (h.evaluate W Γ value) fun W _ v v' hv => .pure .normal
  | print _ value =>
    refine .bind (h.evaluate W Γ value) fun W _ v v' hv => ?_
    rw [hv.same.display_eq]
    exact .bindSame (.print v.display) fun W _ _ => .pure .normal
  | var _ name initializer =>
    cases initializer with
    | none =>
      exact .bindScope .scope fun W _ s hs => .bindSame (.declare hs rfl) fun W _ _ => .pure .normal
    | some value =>
      refine .bind (h.evaluate W Γ value) fun W _ v v' hv => .bindScope .scope fun W hW s hs => ?_
      exact .bindSame (.define hs rfl (hv.grows hW)) fun W _ _ => .pure .normal
  | block hκ hbody =>
    refine .bindScope .scope fun W _ outer ho => .bindScope (.childScope ho (A.this_eq _ hκ)) fun W _ s hs => ?_
    exact .inScope hs (.sequence (fun W => h.execute W _) hbody W)
  | branch condition hyes =>
    refine .bind (h.evaluate W Γ condition) fun W _ v v' hv => ?_
    rw [hv.same.isTruthy_eq]
    split
    · exact h.execute W Γ _ _ hyes
    · exact .pure .normal
  | branchElse condition hyes hno =>
    refine .bind (h.evaluate W Γ condition) fun W _ v v' hv => ?_
    rw [hv.same.isTruthy_eq]
    split
    · exact h.execute W Γ _ _ hyes
    · exact h.execute W Γ _ _ hno
  | loop condition hbody =>
    refine .inLoop (.turns (fun W => ?_) (fun W => h.execute W Γ _ _ hbody) fuel W)
    exact .map (h.evaluate W Γ condition) fun W _ v v' hv => hv.same.isTruthy_eq
  | «break» _ keyword =>
    have hdepth : Likewise A W Γ Same (Eval.read Machine.loopDepth) (Eval.read Machine.loopDepth) :=
      .read fun _ _ hm _ => hm.loopDepth
    refine .bindSame hdepth fun W _ depth => ?_
    split
    · exact .fail rfl rfl
    · exact .pure .break
  | «return» _ keyword value =>
    cases value with
    | none => exact .pure (.return (.plain trivial))
    | some value => exact .bind (h.evaluate W Γ value) fun W _ v v' hv => .pure (.return hv)
  | @function _ f f' hname hf =>
    refine .bindScope .scope fun W _ s hs => .bindSame .newObject fun W hW i => ?_
    have hclosure : Closure.Alike A W [] ⟨i, f, s, false⟩ ⟨i, f', s, false⟩ := ⟨rfl, rfl, rfl, Γ, hW _ _ hs, hf⟩
    have hlexeme : Γ.here f.name.lexeme = f'.name.lexeme := by rw [hname, hf.name_eq]
    exact .bindSame (.define (hW _ _ hs) hlexeme (.function hclosure)) fun W _ _ => .pure .normal
  | @«class» _ name methods methods' hname hmethods =>
    -- the class is assigned by name, and the search for it has to end in the scope of the machine
    intro m m' hm hs
    have hlt := hm.store.lt_next hs
    rw [execute_class hlt, execute_class (by rw [hm.scope, hm.store.next]; exact hlt)]
    exact declareClass_likewise W hname hmethods m m' hm hs

theorem call_succ (h : LikewiseAt A setting fuel) (W : Spellings) (Γ : Spelling) (callee callee' : Value)
    (arguments arguments' : List Value) (paren : Token) (hcallee : callee.Alike A W callee')
    (harguments : AlikeValues A W arguments arguments') :
    Likewise A W Γ (AlikeValue A) (Eval.call setting (fuel + 1) callee arguments paren)
      (Eval.call setting (fuel + 1) callee' arguments' paren) := by
  cases hcallee with
  | plain hv =>
    cases callee with
    | native f =>
      cases f with
      | clock =>
        refine .bindSame (.checkCall rfl harguments paren) fun W _ _ => .inCall ?_
        exact .bindSame (.readClock setting.clock) fun W _ time => .pure (.plain trivial)
    | function | «class» | «instance» => cases hv
    | _ => exact .fail rfl rfl
  | function hf =>
    refine .bindSame (.checkCall hf.arity_eq harguments paren) fun W hW _ => .inCall ?_
    exact h.run W Γ _ _ arguments arguments' (hf.grows hW) (harguments.grows hW)
  | @«class» c c' hc =>
    refine .bindSame (.checkCall hc.arity_eq harguments paren) fun W hW₁ _ => .inCall ?_
    refine .bindSame .newObject fun W hW₂ i => ?_
    have hc := hc.grows (hW₁.trans hW₂)
    have hinitializer := hc.initializer?
    generalize c.initializer? = method at hinitializer ⊢
    generalize c'.initializer? = method' at hinitializer ⊢
    cases hinitializer with
    | none => exact .pure (.instance i hc)
    | some hf =>
      refine .bind (.bindThis hf (.instance i hc)) fun W hW₃ f f' hf => ?_
      have hgiven := harguments.grows (hW₁.trans (hW₂.trans hW₃))
      refine .bind (h.run W Γ f f' arguments arguments' hf hgiven) fun W hW₄ _ _ _ => .pure ?_
      exact .instance i (hc.grows (hW₃.trans hW₄))
  | «instance» i hc => exact .fail rfl rfl

/-- A call spells its parameters as the function did where it was declared. -/
theorem run_succ (h : LikewiseAt A setting fuel) (W : Spellings) (Γ : Spelling) (f f' : Closure)
    (arguments arguments' : List Value) (hf : f.Alike A W [] f') (harguments : AlikeValues A W arguments arguments') :
    Likewise A W Γ (AlikeValue A) (Eval.run setting (fuel + 1) f arguments)
      (Eval.run setting (fuel + 1) f' arguments') := by
  have hclosure := hf
  obtain ⟨i, code, outer, initializes⟩ := f
  obtain ⟨i', code', outer', initializes'⟩ := f'
  obtain ⟨rfl, rfl, rfl, Δ, hΔ, hcode⟩ := hf
  cases hcode with
  | mk name parameters hκ hbody =>
    refine .bindScope (.childScope hΔ (A.this_eq _ hκ)) fun W hW₁ s hs => ?_
    refine .bindSame (.defineAll hs parameters (harguments.grows hW₁)) fun W hW₂ _ => ?_
    refine .bind (.outsideLoops (.inScope (hW₂ _ _ hs) (.sequence (fun W => h.execute W _) hbody W))) ?_
    intro W hW₃ flow flow' hflow
    exact .result (hclosure.grows (hW₁.trans (hW₂.trans hW₃))) hflow

end LikewiseAt

theorem likewiseAt {setting : Setting} (hA : ∀ i, A.distance? i = setting.distances[i]?) (fuel : Nat) :
    LikewiseAt A setting fuel := by
  induction fuel with
  | zero =>
    exact ⟨fun _ _ _ => .exhausted, fun _ _ _ _ _ => .exhausted, fun _ _ _ _ _ _ _ _ _ => .exhausted,
      fun _ _ _ _ _ _ _ _ => .exhausted⟩
  | succ fuel h => exact ⟨h.evaluate_succ hA, h.execute_succ, h.call_succ, h.run_succ⟩

end Eval

/-- Programs that are alike run likewise. -/
theorem Interpreter.runAll_likewise {A : Agreement} {setting : Setting}
    (hA : ∀ i, A.distance? i = setting.distances[i]?) (fuel : Nat) {Γ : Spelling} {ss ss' : List Stmt}
    (hs : AlikeStmts A Γ ss ss') (W : Spellings) :
    Eval.Likewise A W Γ Eval.Same (runAll setting fuel ss) (runAll setting fuel ss') := by
  induction ss generalizing ss' W with
  | nil =>
    cases hs
    exact .pure rfl
  | cons s ss ih =>
    cases hs with
    | cons h hs => exact .bind ((Eval.likewiseAt hA fuel).execute W Γ _ _ h) fun W _ _ _ _ => ih hs W

end LoxLang
