import LoxLang.Proofs.Run.Loops.Values

namespace LoxLang.Eval

/-- The run that may be the first to run out of fuel. -/
inductive Lag where
  | direct
  | desugared

/-- With so much fuel in the two runs, only the one that lags runs out of it before the other. Where the direct run
takes one unit, for a `for`, the other may take four; `more` are still to come. -/
def Lag.Spares : Lag → (more fuel fuel' : Nat) → Prop
  | .direct, more, fuel, fuel' => 4 * fuel + more ≤ fuel'
  | .desugared, _, fuel, fuel' => fuel' ≤ fuel

namespace Lag.Spares

variable {lag : Lag} {more more' fuel fuel' : Nat}

theorem mono (h : lag.Spares more fuel fuel') (hm : more' ≤ more) : lag.Spares more' fuel fuel' := by
  cases lag <;> simp only [Lag.Spares] at h ⊢ <;> omega

/-- One unit is taken in each run. -/
theorem step (h : lag.Spares 0 (fuel + 1) (fuel' + 1)) : lag.Spares 3 fuel fuel' := by
  cases lag <;> simp only [Lag.Spares] at h ⊢ <;> omega

/-- One unit is taken in the run that takes more. -/
theorem take (h : lag.Spares (more + 1) fuel (fuel' + 1)) : lag.Spares more fuel fuel' := by
  cases lag <;> simp only [Lag.Spares] at h ⊢ <;> omega

/-- Where the run of the tree has no fuel left, it is the one that lags. -/
theorem lag_of_zero (h : lag.Spares more fuel 0) (hpos : 0 < fuel + more) : lag = .desugared := by
  cases lag with
  | direct =>
    simp only [Lag.Spares] at h
    omega
  | desugared => rfl

theorem zero_or_lag (h : lag.Spares 0 0 fuel') : fuel' = 0 ∨ lag = .direct := by
  cases lag with
  | direct => exact .inr rfl
  | desugared => exact .inl (Nat.le_zero.1 h)

end Lag.Spares

variable {α β : Type} {T : TwoRuns} {lag : Lag} {W W' : World} {j k : Layers} {s s' t t' : ScopeId}

/-- Both end in the same way, in machines that mirror each other and in the scopes told. -/
inductive Outcome.InStep (T : TwoRuns) (lag : Lag) (W : World) (s s' : ScopeId) (Q : World → α → α → Prop) :
    Outcome α → Outcome α → Prop
  | done {W' : World} {a a' : α} {m m' : Machine} (hW : W ⊆ W') (hm : m.Mirrors T W' m') (hs : m.scope = s)
    (hs' : m'.scope = s') (ha : Q W' a a') : Outcome.InStep T lag W s s' Q (.done a m) (.done a' m')
  | failed {W' : World} {e : RuntimeError} {m m' : Machine} (hW : W ⊆ W') (hm : m.Mirrors T W' m') :
    Outcome.InStep T lag W s s' Q (.failed e m) (.failed e m')
  | direct (h : lag = .direct) (o' : Outcome α) : Outcome.InStep T lag W s s' Q .exhausted o'
  | desugared (h : lag = .desugared) (o : Outcome α) : Outcome.InStep T lag W s s' Q o .exhausted

/-- Places that are new to the result are no matter where fewer are spoken of. -/
theorem Outcome.InStep.widen {Q : World → α → α → Prop} {o o' : Outcome α} (h : Outcome.InStep T lag W' s s' Q o o')
    (hW : W ⊆ W') : Outcome.InStep T lag W s s' Q o o' := by
  cases h with
  | done hW' hm hs hs' ha => exact .done (hW.trans hW') hm hs hs' ha
  | failed hW' hm => exact .failed (hW.trans hW') hm
  | direct h o' => exact .direct h o'
  | desugared h o => exact .desugared h o

/-- In machines that mirror each other, at a place with the scopes told around it, both computations end alike. -/
def InStep (T : TwoRuns) (lag : Lag) (W : World) (k : Layers) (Q : World → α → α → Prop) (x x' : Eval α) : Prop :=
  ∀ m m' : Machine, m.Mirrors T W m' → ⟨m.scope, k, m'.scope⟩ ∈ W →
    Outcome.InStep T lag W m.scope m'.scope Q (x m) (x' m')

/-- The very same result. -/
def Equal : World → α → α → Prop := fun _ a a' => a' = a

/-- The scopes of a place with the scopes told around it. -/
def Stands (k : Layers) : World → ScopeId → ScopeId → Prop := fun W s s' => ⟨s, k, s'⟩ ∈ W

def MirrorValue (T : TwoRuns) : World → Value → Value → Prop := Value.Mirrors T

def MirrorValues (T : TwoRuns) : World → List Value → List Value → Prop := fun W => List.Forall₂ (Value.Mirrors T W)

inductive MirrorFlow (T : TwoRuns) (W : World) : Flow → Flow → Prop
  | normal : MirrorFlow T W .normal .normal
  | break : MirrorFlow T W .break .break
  | return {v v' : Value} (h : v.Mirrors T W v') : MirrorFlow T W (.return v) (.return v')

theorem MirrorValues.grows {vs vs' : List Value} (h : MirrorValues T W vs vs') (hW : W ⊆ W') :
    MirrorValues T W' vs vs' := by
  have hgrows : ∀ v v' : Value, v.Mirrors T W v' → v.Mirrors T W' v' := fun _ _ hv => hv.grows hW
  exact List.Forall₂.imp hgrows h

theorem inNewScope_apply (x : Eval α) (m : Machine) :
    inNewScope x m =
      restoring (fun n => { n with scope := m.scope }) x
        { m with store := (m.store.child m.scope).2, scope := m.store.next } := rfl

theorem restoring_id (x : Eval α) (m : Machine) : restoring id x m = x m := by
  unfold restoring
  cases x m <;> rfl

namespace InStep

variable {Q : World → α → α → Prop} {R : World → β → β → Prop}

theorem pure {a a' : α} (h : Q W a a') : InStep T lag W k Q (Pure.pure a) (Pure.pure a') :=
  fun _ _ hm _ => .done subset_rfl hm rfl rfl h

/-- The second computations go in step at all places that the first ones have come to. -/
theorem bind {x x' : Eval α} {f f' : α → Eval β} (hx : InStep T lag W k Q x x')
    (hf : ∀ W', W ⊆ W' → ∀ a a', Q W' a a' → InStep T lag W' k R (f a) (f' a')) :
    InStep T lag W k R (x >>= f) (x' >>= f') := by
  intro m m' hm hs
  have ho := hx m m' hm hs
  generalize hxm : x m = o at ho
  generalize hxm' : x' m' = o' at ho
  cases ho with
  | @done W' a a' n n' hW hn hscope hscope' ha =>
    rw [bind_done hxm, bind_done hxm', ← hscope, ← hscope']
    refine (hf W' hW a a' ha n n' hn ?_).widen hW
    rw [hscope, hscope']
    exact hW hs
  | failed hW hn =>
    rw [bind_failed hxm, bind_failed hxm']
    exact .failed hW hn
  | direct h =>
    rw [bind_exhausted hxm]
    exact .direct h _
  | desugared h =>
    rw [bind_exhausted hxm']
    exact .desugared h _

/-- Both go on with the same. -/
theorem bindEqual {x x' : Eval α} {f f' : α → Eval β} (hx : InStep T lag W k Equal x x')
    (hf : ∀ W', W ⊆ W' → ∀ a, InStep T lag W' k R (f a) (f' a)) : InStep T lag W k R (x >>= f) (x' >>= f') :=
  bind hx fun W' hW a _ ha => ha ▸ hf W' hW a

theorem map {x x' : Eval α} {f f' : α → β} (hx : InStep T lag W k Q x x')
    (hf : ∀ W', W ⊆ W' → ∀ a a', Q W' a a' → R W' (f a) (f' a')) :
    InStep T lag W k R (f <$> x) (f' <$> x') :=
  bind hx fun W' hW a a' ha => pure (hf W' hW a a' ha)

theorem exhausted : InStep T lag W k Q (Eval.exhausted : Eval α) Eval.exhausted := by
  intro m m' _ _
  cases lag with
  | direct => exact .direct rfl _
  | desugared => exact .desugared rfl _

/-- The run that lags may run out of fuel before the other has come to an end. -/
theorem lagDirect (h : lag = .direct) (x' : Eval α) : InStep T lag W k Q Eval.exhausted x' := fun _ _ _ _ => .direct h _

theorem lagDesugared (h : lag = .desugared) (x : Eval α) : InStep T lag W k Q x Eval.exhausted :=
  fun _ _ _ _ => .desugared h _

theorem fail (cause : RuntimeError.Cause) (t : Token) :
    InStep T lag W k Q (Eval.fail cause t : Eval α) (Eval.fail cause t) := fun _ _ hm _ => .failed subset_rfl hm

theorem lift {r : Except RuntimeError.Cause Value} (hr : ∀ v, r = .ok v → v.Plain) (t : Token) :
    InStep T lag W k (MirrorValue T) (Eval.lift r t) (Eval.lift r t) := by
  cases r with
  | ok v => exact .pure (.plain (hr v rfl))
  | error cause => exact .fail cause t

theorem read {f f' : Machine → α}
    (h : ∀ m m' : Machine, m.Mirrors T W m' → ⟨m.scope, k, m'.scope⟩ ∈ W → Q W (f m) (f' m')) :
    InStep T lag W k Q (Eval.read f) (Eval.read f') :=
  fun m m' hm hs => .done subset_rfl hm rfl rfl (h m m' hm hs)

theorem scope : InStep T lag W k (Stands k) (Eval.read Machine.scope) (Eval.read Machine.scope) :=
  read fun _ _ _ hs => hs

theorem modify {f f' : Machine → Machine} (h : ∀ m m' : Machine, m.Mirrors T W m' → (f m).Mirrors T W (f' m'))
    (hf : ∀ m, (f m).scope = m.scope) (hf' : ∀ m, (f' m).scope = m.scope) :
    InStep T lag W k Equal (Eval.modify f) (Eval.modify f') :=
  fun m m' hm _ => .done subset_rfl (h m m' hm) (hf m) (hf' m') rfl

/-- What an inner computation changed is put back in both. -/
theorem restoring {restore restore' : Machine → Machine} {x x' : Eval α} {m m' : Machine}
    (hr : ∀ W', W ⊆ W' → ∀ n n' : Machine, n.Mirrors T W' n' → (restore n).Mirrors T W' (restore' n'))
    (hs : ∀ n : Machine, n.scope = t → (restore n).scope = s)
    (hs' : ∀ n : Machine, n.scope = t' → (restore' n).scope = s')
    (hx : Outcome.InStep T lag W t t' Q (x m) (x' m')) :
    Outcome.InStep T lag W s s' Q (Eval.restoring restore x m) (Eval.restoring restore' x' m') := by
  unfold Eval.restoring
  generalize x m = o at hx
  generalize x' m' = o' at hx
  cases hx with
  | done hW hm hscope hscope' ha => exact .done hW (hr _ hW _ _ hm) (hs _ hscope) (hs' _ hscope') ha
  | failed hW hm => exact .failed hW (hr _ hW _ _ hm)
  | direct h => exact .direct h _
  | desugared h => exact .desugared h _

/-- Both enter a scope of their own, which stand for the same place. -/
theorem inScope {x x' : Eval α} (ht : ⟨t, j, t'⟩ ∈ W) (hx : InStep T lag W j Q x x') :
    InStep T lag W k Q (Eval.inScope t x) (Eval.inScope t' x') := by
  intro m m' hm _
  have hinside := hx { m with scope := t } { m' with scope := t' } { hm with } ht
  exact restoring (fun _ _ _ _ hn => { hn with }) (fun _ _ => rfl) (fun _ _ => rfl) hinside

theorem inLoop {x x' : Eval α} (hx : InStep T lag W k Q x x') :
    InStep T lag W k Q (Eval.inLoop x) (Eval.inLoop x') := by
  intro m m' hm hs
  have hinside := hx { m with loopDepth := m.loopDepth + 1 } { m' with loopDepth := m'.loopDepth + 1 }
    { hm with loopDepth := congrArg (· + 1) hm.loopDepth } hs
  exact restoring (fun _ _ _ _ hn => { hn with loopDepth := congrArg (· - 1) hn.loopDepth }) (fun _ => id)
    (fun _ => id) hinside

theorem outsideLoops {x x' : Eval α} (hx : InStep T lag W k Q x x') :
    InStep T lag W k Q (Eval.outsideLoops x) (Eval.outsideLoops x') := by
  intro m m' hm hs
  have hinside := hx { m with loopDepth := 0 } { m' with loopDepth := 0 } { hm with loopDepth := rfl } hs
  exact restoring (fun _ _ _ _ hn => { hn with loopDepth := hm.loopDepth }) (fun _ => id) (fun _ => id) hinside

theorem inCall {x x' : Eval α} (hx : InStep T lag W k Q x x') :
    InStep T lag W k Q (Eval.inCall x) (Eval.inCall x') := by
  intro m m' hm hs
  have hinside := hx { m with callDepth := m.callDepth + 1 } { m' with callDepth := m'.callDepth + 1 }
    { hm with callDepth := congrArg (· + 1) hm.callDepth } hs
  exact restoring (fun _ _ _ _ hn => { hn with callDepth := congrArg (· - 1) hn.callDepth }) (fun _ => id)
    (fun _ => id) hinside

/-- A scope that both runs make. -/
theorem childScope (ht : ⟨t, j, t'⟩ ∈ W) :
    InStep T lag W k (Stands (.both :: j)) (Eval.childScope t) (Eval.childScope t') := by
  intro m m' hm _
  have hW : W ⊆ insert ⟨m.store.next, .both :: j, m'.store.next⟩ W := Set.subset_insert _ W
  exact .done hW { hm with store := hm.store.child ht, fields := hm.fields_grow hW } rfl rfl (Set.mem_insert _ W)

theorem inNewScope {x x' : Eval α} (hx : ∀ W', W ⊆ W' → InStep T lag W' (.both :: k) Q x x') :
    InStep T lag W k Q (Eval.inNewScope x) (Eval.inNewScope x') :=
  bind scope fun _ hW _ _ hs => bind (childScope hs) fun _ hW' _ _ ht => inScope ht (hx _ (hW.trans hW'))

/-- A scope that only the direct run makes is left out in the other one: nothing is declared in it. -/
theorem inNewScopeDirect {x x' : Eval α} (hx : ∀ W', W ⊆ W' → InStep T lag W' (.direct :: k) Q x x') :
    InStep T lag W k Q (Eval.inNewScope x) x' := by
  intro m m' hm hs
  have hW : W ⊆ insert ⟨m.store.next, .direct :: k, m'.scope⟩ W := Set.subset_insert _ W
  have hinside := hx _ hW { m with store := (m.store.child m.scope).2, scope := m.store.next } m'
    { hm with store := hm.store.childDirect hs, fields := hm.fields_grow hW } (Set.mem_insert _ W)
  rw [inNewScope_apply, ← restoring_id x' m']
  refine .widen ?_ hW
  exact restoring (fun _ _ _ _ hn => { hn with }) (fun _ _ => rfl) (fun _ => id) hinside

/-- A scope that only the run of the tree makes, likewise. -/
theorem inNewScopeDesugared {x x' : Eval α} (hx : ∀ W', W ⊆ W' → InStep T lag W' (.desugared :: k) Q x x') :
    InStep T lag W k Q x (Eval.inNewScope x') := by
  intro m m' hm hs
  have hW : W ⊆ insert ⟨m.scope, .desugared :: k, m'.store.next⟩ W := Set.subset_insert _ W
  have hinside := hx _ hW m { m' with store := (m'.store.child m'.scope).2, scope := m'.store.next }
    { hm with store := hm.store.childDesugared hs, fields := hm.fields_grow hW } (Set.mem_insert _ W)
  rw [inNewScope_apply, ← restoring_id x m]
  refine .widen ?_ hW
  exact restoring (fun _ _ _ _ hn => { hn with }) (fun _ => id) (fun _ _ => rfl) hinside

theorem define (ht : W.Shares t t') (x : String) {v v' : Value} (hv : v.Mirrors T W v') :
    InStep T lag W k Equal (Eval.define t x v) (Eval.define t' x v') :=
  modify (fun _ _ hm => { hm with store := hm.store.setCell ht x (.some hv) }) (fun _ => rfl) fun _ => rfl

theorem declare (ht : W.Shares t t') (x : String) :
    InStep T lag W k Equal (Eval.declare t x) (Eval.declare t' x) :=
  modify (fun _ _ hm => { hm with store := hm.store.setCell ht x .none }) (fun _ => rfl) fun _ => rfl

theorem access {f f' : Store → Except AccessError Value} (name : Token)
    (hf : ∀ st st' : Store, st.Mirrors T W st' → AccessMirrors (Value.Mirrors T W) (f st) (f' st')) :
    InStep T lag W k (MirrorValue T) (Eval.access f name) (Eval.access f' name) := by
  intro m m' hm hs
  have hr := hf _ _ hm.store
  unfold Eval.access
  generalize f m.store = r at hr ⊢
  generalize f' m'.store = r' at hr ⊢
  cases hr with
  | error e => exact .failed subset_rfl hm
  | ok hv => exact .done subset_rfl hm rfl rfl hv

theorem assign {f f' : Store → Except AccessError ScopeId} (name : Token) {v v' : Value}
    (hf : ∀ st st' : Store, st.Mirrors T W st' → AccessMirrors W.Shares (f st) (f' st')) (hv : v.Mirrors T W v') :
    InStep T lag W k Equal (Eval.assign f name v) (Eval.assign f' name v') := by
  intro m m' hm hs
  have hr := hf _ _ hm.store
  unfold Eval.assign
  generalize f m.store = r at hr ⊢
  generalize f' m'.store = r' at hr ⊢
  cases hr with
  | error e => exact .failed subset_rfl hm
  | ok ha => exact .done subset_rfl { hm with store := hm.store.setCell ha name.lexeme (.some hv) } rfl rfl rfl

theorem print (text : String) : InStep T lag W k Equal (Eval.print text) (Eval.print text) :=
  modify (fun _ _ hm => { hm with printed := congrArg (·.push text) hm.printed }) (fun _ => rfl) fun _ => rfl

theorem readClock (clock : Clock) : InStep T lag W k Equal (Eval.readClock clock) (Eval.readClock clock) :=
  fun _ _ hm _ => .done subset_rfl { hm with readings := congrArg (· + 1) hm.readings } rfl rfl
    (congrArg clock hm.readings)

theorem newObject : InStep T lag W k Equal Eval.newObject Eval.newObject := by
  intro m m' hm hs
  refine .done subset_rfl { hm with objects := by simp [hm.objects], fields := fun o => ?_ } rfl rfl hm.objects
  dsimp only
  rw [Array.getElem?_push, Array.getElem?_push, hm.objects]
  split
  · exact .some .empty
  · exact hm.fields o

theorem field? (object : ObjectId) (x : String) :
    InStep T lag W k (fun W => Option.Rel (Value.Mirrors T W)) (Eval.field? object x) (Eval.field? object x) := by
  refine .read fun m m' hm _ => ?_
  have hfields := hm.fields object
  generalize m.fields[object]? = fields at hfields ⊢
  generalize m'.fields[object]? = fields' at hfields ⊢
  cases hfields with
  | none => exact .none
  | some h => exact h x

theorem setField (object : ObjectId) (x : String) {v v' : Value} (hv : v.Mirrors T W v') :
    InStep T lag W k Equal (Eval.setField object x v) (Eval.setField object x v') := by
  refine .modify (fun m m' hm => ?_) (fun _ => rfl) fun _ => rfl
  refine { hm with objects := by simp [hm.objects], fields := fun o => ?_ }
  dsimp only
  rw [Array.getElem?_modify, Array.getElem?_modify]
  have hfields := hm.fields o
  generalize m.fields[o]? = fields at hfields ⊢
  generalize m'.fields[o]? = fields' at hfields ⊢
  split
  · cases hfields with
    | none => exact .none
    | some h => exact .some (h.set x hv)
  · exact hfields

/-- Distances that lead to the same scope read the same there. -/
theorem readName {i : OccurrenceId} (h : Option.Rel k.Meet T.direct.distances[i]? T.desugared.distances[i]?)
    (name : Token) :
    InStep T lag W k (MirrorValue T) (Eval.readName T.direct i name) (Eval.readName T.desugared i name) := by
  unfold Eval.readName
  generalize T.direct.distances[i]? = d at h ⊢
  generalize T.desugared.distances[i]? = d' at h ⊢
  cases h with
  | none => exact .access name fun _ _ hst => hst.get_globals name.lexeme
  | some hd => exact .bind .scope fun W _ s s' hs => .access name fun _ _ hst => hst.getAt hs hd name.lexeme

theorem assignName {i : OccurrenceId} (h : Option.Rel k.Meet T.direct.distances[i]? T.desugared.distances[i]?)
    (name : Token) {v v' : Value} (hv : v.Mirrors T W v') :
    InStep T lag W k Equal (Eval.assignName T.direct i name v) (Eval.assignName T.desugared i name v') := by
  rw [Eval.assignName_eq, Eval.assignName_eq]
  generalize T.direct.distances[i]? = d at h ⊢
  generalize T.desugared.distances[i]? = d' at h ⊢
  cases h with
  | none => exact .assign name (fun _ _ hst => hst.holder_globals name.lexeme) hv
  | some hd =>
    refine .bind .scope fun W hW s s' hs => ?_
    exact .assign name (fun _ _ hst => hst.holderAt hs hd name.lexeme) (hv.grows hW)

/-- With its scope of `this`, a method is a function. -/
theorem bindThis {f f' : Closure} {object object' : Value} (hf : f.Mirrors T W [.both] f')
    (ho : object.Mirrors T W object') :
    InStep T lag W k (fun W f f' => f.Mirrors T W [] f') (Eval.bindThis f object) (Eval.bindThis f' object') := by
  obtain ⟨hsame, j, hj, hmem, hcode⟩ := hf
  refine .bind (.childScope hmem) fun W hW t t' ht => ?_
  have hopen := Layers.open_both j
  refine .bindEqual (.define ⟨_, hopen, ht⟩ "this" (ho.grows hW)) fun W hW' _ => ?_
  refine .bindEqual .newObject fun W hW'' i => ?_
  refine .pure ⟨?_, .both :: j, hopen, hW'' (hW' ht), hcode⟩
  rw [hsame]

theorem property (object : ObjectId) {c c' : Class} (hc : c.Mirrors T W c') (name : Token) :
    InStep T lag W k (MirrorValue T) (Eval.property object c name) (Eval.property object c' name) := by
  refine .bind (.field? object name.lexeme) fun W hW value value' hvalue => ?_
  cases hvalue with
  | some hv => exact .pure hv
  | none =>
    have hc := hc.grows hW
    have hmethod := hc.methods name.lexeme
    dsimp only
    generalize c.methods.find? name.lexeme = method at hmethod ⊢
    generalize c'.methods.find? name.lexeme = method' at hmethod ⊢
    cases hmethod with
    | none => exact .fail _ name
    | some hf => exact .map (.bindThis hf (.instance object hc)) fun _ _ _ _ hf => .function hf

theorem closures (hj : j.Open) (ht : ⟨t, j, t'⟩ ∈ W) (fs : List Function) (h : ∀ f ∈ fs, f.Aligned T (.both :: j)) :
    InStep T lag W k (fun W => List.Forall₂ fun e e' => e'.1 = e.1 ∧ e.2.Mirrors T W [.both] e'.2)
      (Eval.closures t fs) (Eval.closures t' fs) := by
  induction fs generalizing W with
  | nil => exact .pure .nil
  | cons f fs ih =>
    obtain ⟨hf, hfs⟩ := List.forall_mem_cons.1 h
    refine .bindEqual .newObject fun W hW i => .bind (ih (hW ht) hfs) fun W hW' rest rest' hrest => .pure ?_
    exact .cons ⟨rfl, rfl, j, hj, hW' (hW ht), hf⟩ hrest

theorem defineAll (ht : W.Shares t t') (ps : List Token) {vs vs' : List Value} (hv : MirrorValues T W vs vs') :
    InStep T lag W k Equal (Eval.defineAll t ps vs) (Eval.defineAll t' ps vs') := by
  induction ps generalizing vs vs' W with
  | nil => exact .pure rfl
  | cons p ps ih =>
    cases hv with
    | nil => exact .pure rfl
    | cons hv hvs =>
      exact .bindEqual (.define ht p.lexeme hv) fun W hW _ => ih (ht.grows hW) (MirrorValues.grows hvs hW)

theorem result {f f' : Closure} {flow flow' : Flow} (hf : f.Mirrors T W [] f') (hflow : MirrorFlow T W flow flow') :
    InStep T lag W k (MirrorValue T) (Eval.result f flow) (Eval.result f' flow') := by
  obtain ⟨hsame, j, hj, hmem, -⟩ := hf
  unfold Eval.result
  rw [show f'.initializes = f.initializes by rw [hsame]]
  split
  · refine .read fun m m' hm _ => ?_
    -- an initializer gives back the object, whatever flow its body ends with
    exact (hm.store.cell _ _ ⟨j, hj, hmem⟩ "this").join.getD (.plain trivial)
  · cases hflow with
    | «return» hv => exact .pure hv
    | normal | «break» => exact .pure (.plain trivial)

theorem checkCall {arity arity' : Nat} (ha : arity' = arity) {arguments arguments' : List Value}
    (h : MirrorValues T W arguments arguments') (paren : Token) :
    InStep T lag W k Equal (Eval.checkCall arity arguments paren) (Eval.checkCall arity' arguments' paren) := by
  have hlength : arguments'.length = arguments.length := (List.Forall₂.length_eq h).symm
  unfold Eval.checkCall
  rw [hlength, ha]
  split
  · exact .fail _ paren
  · have hdepth : InStep T lag W k Equal (Eval.read Machine.callDepth) (Eval.read Machine.callDepth) :=
      .read fun _ _ hm _ => hm.callDepth
    refine .bindEqual hdepth fun W _ depth => ?_
    split
    · exact .fail _ paren
    · exact .pure rfl

end InStep

end LoxLang.Eval
