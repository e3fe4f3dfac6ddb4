import LoxLang.Proofs.Run.Computations
import LoxLang.Proofs.Run.Relabel.Values

namespace LoxLang

/-- In the second setting the new identities have the distances that the old ones have in the first. -/
structure Setting.Relabels (ident : OccurrenceId → OccurrenceId) (setting setting' : Setting) : Prop where
  clock : setting'.clock = setting.clock
  distances : ∀ i, setting'.distances[ident i]? = setting.distances[i]?

/-- Where only lines are moved, the distances are the same ones. -/
theorem Setting.Relabels.same (setting : Setting) : setting.Relabels id setting := ⟨rfl, fun _ => rfl⟩

namespace Eval

variable {α β : Type} {line : Nat → Nat} {ident : OccurrenceId → OccurrenceId} {before : Array String}

def Outcome.moved (line : Nat → Nat) (ident : OccurrenceId → OccurrenceId) (before : Array String) (g : α → α) :
    Outcome α → Outcome α
  | .done a m => .done (g a) (m.moved line ident before)
  | .failed e m => .failed (e.relined line) (m.moved line ident before)
  | .exhausted => .exhausted

/-- The second computation does in the moved machine what the first does in the machine itself. -/
def Moves (line : Nat → Nat) (ident : OccurrenceId → OccurrenceId) (before : Array String) (g : α → α)
    (x y : Eval α) : Prop :=
  ∀ m, y (m.moved line ident before) = (x m).moved line ident before g

namespace Moves

variable {g : α → α} {h : β → β}

theorem pure {a b : α} (hab : b = g a) : Moves line ident before g (Pure.pure a) (Pure.pure b) := by
  intro m
  rw [hab]
  rfl

theorem bind {x y : Eval α} {f f' : α → Eval β} (hx : Moves line ident before g x y)
    (hf : ∀ a, Moves line ident before h (f a) (f' (g a))) : Moves line ident before h (x >>= f) (y >>= f') := by
  intro m
  have hm := hx m
  cases hxm : x m with
  | done a m' =>
    rw [hxm] at hm
    rw [bind_done hxm, bind_done hm]
    exact hf a m'
  | failed e m' =>
    rw [hxm] at hm
    rw [bind_failed hxm, bind_failed hm]
    rfl
  | exhausted =>
    rw [hxm] at hm
    rw [bind_exhausted hxm, bind_exhausted hm]
    rfl

theorem map {x y : Eval α} {f f' : α → β} (hx : Moves line ident before g x y) (hf : ∀ a, f' (g a) = h (f a)) :
    Moves line ident before h (f <$> x) (f' <$> y) :=
  bind hx fun a => pure (hf a)

theorem exhausted : Moves line ident before g Eval.exhausted Eval.exhausted := fun _ => rfl

/-- An error is on the line that its token is moved to. -/
theorem fail (cause : RuntimeError.Cause) (t : Token) :
    Moves line ident before g (Eval.fail cause t) (Eval.fail cause (t.relined line)) := fun _ => rfl

theorem lift {r r' : Except RuntimeError.Cause α} (hr : r' = r.map g) (t : Token) :
    Moves line ident before g (Eval.lift r t) (Eval.lift r' (t.relined line)) := by
  rw [hr]
  cases r with
  | ok a => exact .pure rfl
  | error cause => exact .fail cause t

/-- A look at the machine that sees neither lines nor identities nor what has been printed. -/
theorem read {f : Machine → α} (hf : ∀ m : Machine, f (m.moved line ident before) = g (f m)) :
    Moves line ident before g (Eval.read f) (Eval.read f) := by
  intro m
  unfold Eval.read
  rw [hf]
  rfl

theorem modify {f f' : Machine → Machine}
    (hf : ∀ m : Machine, f' (m.moved line ident before) = (f m).moved line ident before) :
    Moves line ident before id (Eval.modify f) (Eval.modify f') := by
  intro m
  unfold Eval.modify
  rw [hf]
  rfl

theorem restoring (restore : Machine → Machine) {x y : Eval α} {m : Machine}
    (hr : ∀ m : Machine, restore (m.moved line ident before) = (restore m).moved line ident before)
    (hx : y (m.moved line ident before) = (x m).moved line ident before g) :
    Eval.restoring restore y (m.moved line ident before) = (Eval.restoring restore x m).moved line ident before g := by
  unfold Eval.restoring
  rw [hx]
  cases x m with
  | done a m' => simp only [Outcome.moved, hr]
  | failed e m' => simp only [Outcome.moved, hr]
  | exhausted => rfl

theorem inScope {x y : Eval α} (s : ScopeId) (hx : Moves line ident before g x y) :
    Moves line ident before g (Eval.inScope s x) (Eval.inScope s y) :=
  fun m => restoring (fun m' => { m' with scope := m.scope }) (fun _ => rfl) (hx { m with scope := s })

theorem inLoop {x y : Eval α} (hx : Moves line ident before g x y) :
    Moves line ident before g (Eval.inLoop x) (Eval.inLoop y) :=
  fun m =>
    restoring (fun m => { m with loopDepth := m.loopDepth - 1 }) (fun _ => rfl)
      (hx { m with loopDepth := m.loopDepth + 1 })

theorem outsideLoops {x y : Eval α} (hx : Moves line ident before g x y) :
    Moves line ident before g (Eval.outsideLoops x) (Eval.outsideLoops y) :=
  fun m => restoring (fun m' => { m' with loopDepth := m.loopDepth }) (fun _ => rfl) (hx { m with loopDepth := 0 })

theorem inCall {x y : Eval α} (hx : Moves line ident before g x y) :
    Moves line ident before g (Eval.inCall x) (Eval.inCall y) :=
  fun m =>
    restoring (fun m => { m with callDepth := m.callDepth - 1 }) (fun _ => rfl)
      (hx { m with callDepth := m.callDepth + 1 })

theorem childScope (s : ScopeId) : Moves line ident before id (Eval.childScope s) (Eval.childScope s) := by
  intro m
  simp only [Eval.childScope, Machine.moved, Store.relabel_child]
  rfl

theorem define (s : ScopeId) (name : String) (value : Value) :
    Moves line ident before id (Eval.define s name value) (Eval.define s name (value.relabel line ident)) := by
  refine .modify fun m => ?_
  simp only [Machine.moved, Store.relabel_define]

theorem declare (s : ScopeId) (name : String) :
    Moves line ident before id (Eval.declare s name) (Eval.declare s name) := by
  refine .modify fun m => ?_
  simp only [Machine.moved, Store.relabel_declare]

/-- A read gives the relabelled value, or fails on the moved line. -/
theorem access {f : Store → Except AccessError Value}
    (hf : ∀ st : Store, f (st.relabel line ident) = (f st).map (Value.relabel line ident)) (name : Token) :
    Moves line ident before (Value.relabel line ident) (Eval.access f name) (Eval.access f (name.relined line)) := by
  intro m
  unfold Eval.access
  rw [show (m.moved line ident before).store = m.store.relabel line ident from rfl, hf]
  cases f m.store <;> rfl

theorem assign {f : Store → Except AccessError ScopeId} (hf : ∀ st : Store, f (st.relabel line ident) = f st)
    (name : Token) (value : Value) :
    Moves line ident before id (Eval.assign f name value)
      (Eval.assign f (name.relined line) (value.relabel line ident)) := by
  intro m
  unfold Eval.assign
  rw [show (m.moved line ident before).store = m.store.relabel line ident from rfl, hf]
  cases f m.store with
  | error e => rfl
  | ok s =>
    simp only [Outcome.moved, Machine.moved, Token.relined_lexeme, Store.relabel_define, id]

theorem readClock (clock : Clock) : Moves line ident before id (Eval.readClock clock) (Eval.readClock clock) :=
  fun _ => rfl

/-- What is printed is the same, after whatever was printed before. -/
theorem print (text : String) : Moves line ident before id (Eval.print text) (Eval.print text) := by
  refine .modify fun m => ?_
  simp [Machine.moved]

theorem newObject : Moves line ident before id Eval.newObject Eval.newObject := by
  intro m
  simp [Eval.newObject, Machine.moved, Outcome.moved, NameMap.map, NameMap.empty]

theorem field? (object : ObjectId) (name : String) :
    Moves line ident before (Option.map (Value.relabel line ident)) (Eval.field? object name)
      (Eval.field? object name) := by
  refine .read fun m => ?_
  simp only [Machine.moved, Array.getElem?_map]
  cases m.fields[object]? with
  | none => rfl
  | some fields => exact NameMap.find?_map _ fields name

theorem setField (object : ObjectId) (name : String) (value : Value) :
    Moves line ident before id (Eval.setField object name value)
      (Eval.setField object name (value.relabel line ident)) := by
  refine .modify fun m => ?_
  simp only [Machine.moved]
  congr 1
  apply Array.ext_getElem?
  intro i
  rw [Array.getElem?_modify, Array.getElem?_map, Array.getElem?_map, Array.getElem?_modify]
  cases m.fields[i]? with
  | none => split <;> rfl
  | some fields =>
    split
    · exact congrArg some (NameMap.set_map _ fields name value)
    · rfl

theorem turns {condition condition' : Eval Bool} {body body' : Eval Flow}
    (hc : Moves line ident before id condition condition')
    (hb : Moves line ident before (Flow.relabel line ident) body body')
    (fuel : Nat) :
    Moves line ident before (Flow.relabel line ident) (Eval.turns condition body fuel)
      (Eval.turns condition' body' fuel) := by
  induction fuel with
  | zero => exact .exhausted
  | succ fuel ih =>
    rw [turns_succ, turns_succ]
    refine .bind hc fun holds => ?_
    cases holds with
    | false => exact .pure rfl
    | true =>
      refine .bind hb fun flow => ?_
      cases flow with
      | normal => exact ih
      | «break» | «return» => exact .pure rfl

theorem sequence {step step' : Stmt → Eval Flow}
    (hs : ∀ s, Moves line ident before (Flow.relabel line ident) (step s) (step' (s.relabel line ident)))
    (ss : List Stmt) : Moves line ident before (Flow.relabel line ident) (Operations.sequence step ss)
      (Operations.sequence step' (Stmt.relabelAll line ident ss)) := by
  induction ss with
  | nil => exact .pure rfl
  | cons s ss ih =>
    refine .bind (hs s) fun flow => ?_
    cases flow with
    | normal => exact ih
    | «break» | «return» => exact .pure rfl

theorem values {step step' : Expr → Eval Value}
    (hs : ∀ e, Moves line ident before (Value.relabel line ident) (step e) (step' (e.relabel line ident)))
    (es : List Expr) : Moves line ident before (List.map (Value.relabel line ident)) (Operations.values step es)
      (Operations.values step' (Expr.relabelAll line ident es)) := by
  induction es with
  | nil => exact .pure rfl
  | cons e es ih => exact .bind (hs e) fun first => .bind ih fun rest => .pure rfl

/-- Identities are looked at here only: the distance of the new one is that of the old one. -/
theorem readName {setting setting' : Setting} (h : setting.Relabels ident setting') (i : OccurrenceId) (name : Token) :
    Moves line ident before (Value.relabel line ident) (Eval.readName setting i name)
      (Eval.readName setting' (ident i) (name.relined line)) := by
  unfold Eval.readName
  rw [h.distances]
  cases setting.distances[i]? with
  | none => exact .access (fun st => Store.relabel_get st _ _) name
  | some d =>
    exact .bind (.read (g := id) fun _ => rfl) fun scope => .access (fun st => Store.relabel_getAt st _ _ _) name

theorem assignName {setting setting' : Setting} (h : setting.Relabels ident setting') (i : OccurrenceId) (name : Token)
    (value : Value) :
    Moves line ident before id (Eval.assignName setting i name value)
      (Eval.assignName setting' (ident i) (name.relined line) (value.relabel line ident)) := by
  rw [Eval.assignName_eq, Eval.assignName_eq]
  rw [h.distances]
  cases setting.distances[i]? with
  | none => exact .assign (fun st => Store.relabel_holder st _ _) name value
  | some d =>
    exact .bind (.read (g := id) fun _ => rfl) fun scope =>
      .assign (fun st => Store.relabel_holderAt st _ _ _) name value

theorem bindThis (method : Closure) (object : Value) :
    Moves line ident before (Closure.relabel line ident) (Eval.bindThis method object)
      (Eval.bindThis (method.relabel line ident) (object.relabel line ident)) := by
  unfold Eval.bindThis
  refine .bind (.childScope method.scope) fun scope => .bind (.define scope "this" object) fun _ => ?_
  exact .bind .newObject fun i => .pure rfl

theorem property (object : ObjectId) (cls : Class) (name : Token) :
    Moves line ident before (Value.relabel line ident) (Eval.property object cls name)
      (Eval.property object (cls.relabel line ident) (name.relined line)) := by
  unfold Eval.property
  refine .bind (.field? object name.lexeme) fun value => ?_
  cases value with
  | some value => exact .pure rfl
  | none =>
    have hfind : (cls.relabel line ident).methods.find? (name.relined line).lexeme =
        (cls.methods.find? name.lexeme).map (Closure.relabel line ident) := NameMap.find?_map _ cls.methods name.lexeme
    simp only [Option.map_none]
    rw [hfind]
    cases cls.methods.find? name.lexeme with
    | none => exact .fail _ name
    | some method => exact .map (.bindThis method (.instance object cls)) fun f => rfl

theorem closures (scope : ScopeId) (fs : List Function) :
    Moves line ident before (List.map fun e => (e.1, e.2.relabel line ident)) (Eval.closures scope fs)
      (Eval.closures scope (Function.relabelAll line ident fs)) := by
  induction fs with
  | nil => exact .pure rfl
  | cons f fs ih =>
    refine .bind .newObject fun i => .bind ih fun rest => .pure ?_
    simp [Closure.relabel]

theorem defineAll (scope : ScopeId) (ps : List Token) (vs : List Value) :
    Moves line ident before id (Eval.defineAll scope ps vs)
      (Eval.defineAll scope (ps.map (Token.relined line)) (vs.map (Value.relabel line ident))) := by
  induction ps generalizing vs with
  | nil => exact .pure rfl
  | cons p ps ih =>
    cases vs with
    | nil => exact .pure rfl
    | cons v vs => exact .bind (.define scope p.lexeme v) fun _ => ih vs

theorem result (f : Closure) (flow : Flow) :
    Moves line ident before (Value.relabel line ident) (Eval.result f flow)
      (Eval.result (f.relabel line ident) (flow.relabel line ident)) := by
  unfold Eval.result
  change Moves line ident before (Value.relabel line ident) (if f.initializes then _ else _)
    (if f.initializes then _ else _)
  split
  · refine .read fun m => ?_
    simp only [Machine.moved, Store.relabel_getHere?]
    cases m.store.getHere? f.scope "this" <;> rfl
  · cases flow <;> exact .pure rfl

theorem checkCall (arity : Nat) (arguments : List Value) (paren : Token) :
    Moves line ident before id (Eval.checkCall arity arguments paren)
      (Eval.checkCall arity (arguments.map (Value.relabel line ident)) (paren.relined line)) := by
  unfold Eval.checkCall
  rw [List.length_map]
  split
  · exact .fail _ paren
  · refine .bind (.read (g := id) fun _ => rfl) fun depth => ?_
    dsimp only [id]
    split
    · exact .fail _ paren
    · exact .pure rfl

end Moves

/-- With so much fuel, relabelled runs come to the same. -/
structure MovesAt (line : Nat → Nat) (ident : OccurrenceId → OccurrenceId) (before : Array String)
    (setting setting' : Setting) (fuel : Nat) : Prop where
  evaluate : ∀ e : Expr, Moves line ident before (Value.relabel line ident) (evaluate setting fuel e)
    (evaluate setting' fuel (e.relabel line ident))
  execute : ∀ s : Stmt, Moves line ident before (Flow.relabel line ident) (execute setting fuel s)
    (execute setting' fuel (s.relabel line ident))
  call : ∀ (callee : Value) arguments (paren : Token), Moves line ident before (Value.relabel line ident)
    (call setting fuel callee arguments paren)
    (call setting' fuel (callee.relabel line ident) (arguments.map (Value.relabel line ident)) (paren.relined line))
  run : ∀ (f : Closure) arguments, Moves line ident before (Value.relabel line ident) (run setting fuel f arguments)
    (run setting' fuel (f.relabel line ident) (arguments.map (Value.relabel line ident)))

namespace MovesAt

variable {setting setting' : Setting} {fuel : Nat}

theorem evaluate_succ (h : MovesAt line ident before setting setting' fuel) (hset : setting.Relabels ident setting')
    (e : Expr) :
    Moves line ident before (Value.relabel line ident) (Eval.evaluate setting (fuel + 1) e)
      (Eval.evaluate setting' (fuel + 1) (e.relabel line ident)) := by
  cases e with
  | literal value => exact .pure (Value.relabel_literal value).symm
  | group inner => exact h.evaluate inner
  | unary operator operand =>
    exact .bind (h.evaluate operand) fun x => .lift (Value.unary_relabel operator.kind x) operator
  | binary left operator right =>
    refine .bind (h.evaluate left) fun x => .bind (h.evaluate right) fun y => ?_
    exact .lift (Value.binary_relabel operator.kind x y) operator
  | logical left operator right =>
    refine .bind (h.evaluate left) fun x => ?_
    rw [Value.relabel_isTruthy, Token.relined_kind]
    split
    · exact .pure rfl
    · exact h.evaluate right
  | ternary condition thenBranch elseBranch =>
    refine .bind (h.evaluate condition) fun x => ?_
    rw [Value.relabel_isTruthy]
    split
    · exact h.evaluate thenBranch
    · exact h.evaluate elseBranch
  | «variable» i name => exact .readName hset i name
  | this i keyword => exact .readName hset i keyword
  | assign i name value =>
    exact .bind (h.evaluate value) fun x => .bind (.assignName hset i name x) fun _ => .pure rfl
  | call callee paren given =>
    refine .bind (h.evaluate callee) fun f => .bind (.values h.evaluate given) fun arguments => ?_
    exact h.call f arguments paren
  | get object name =>
    refine .bind (h.evaluate object) fun x => ?_
    cases x with
    | «instance» i cls => exact .property i cls name
    | _ => exact .fail _ name
  | set object name value =>
    refine .bind (h.evaluate object) fun x => ?_
    cases x with
    | «instance» i cls =>
      exact .bind (h.evaluate value) fun y => .bind (.setField i name.lexeme y) fun _ => .pure rfl
    | _ => exact .fail _ name

theorem execute_succ (h : MovesAt line ident before setting setting' fuel) (s : Stmt) :
    Moves line ident before (Flow.relabel line ident) (Eval.execute setting (fuel + 1) s)
      (Eval.execute setting' (fuel + 1) (s.relabel line ident)) := by
  cases s with
  | expression value => exact .bind (h.evaluate value) fun x => .pure rfl
  | print value =>
    refine .bind (h.evaluate value) fun x => ?_
    rw [Value.relabel_display]
    exact .bind (.print x.display) fun _ => .pure rfl
  | var name initializer =>
    cases initializer with
    | none =>
      refine .bind (.read (g := id) fun _ => rfl) fun scope => ?_
      exact .bind (.declare scope name.lexeme) fun _ => .pure rfl
    | some value =>
      refine .bind (h.evaluate value) fun x => .bind (.read (g := id) fun _ => rfl) fun scope => ?_
      exact .bind (.define scope name.lexeme x) fun _ => .pure rfl
  | block body =>
    refine .bind (.read (g := id) fun _ => rfl) fun outer => .bind (.childScope outer) fun scope => ?_
    exact .inScope scope (.sequence h.execute body)
  | branch condition thenBranch elseBranch =>
    cases elseBranch with
    | none =>
      refine .bind (h.evaluate condition) fun x => ?_
      rw [Value.relabel_isTruthy]
      split
      · exact h.execute thenBranch
      · exact .pure rfl
    | some elseBranch =>
      refine .bind (h.evaluate condition) fun x => ?_
      rw [Value.relabel_isTruthy]
      split
      · exact h.execute thenBranch
      · exact h.execute elseBranch
  | loop condition body =>
    exact .inLoop (.turns (.map (h.evaluate condition) Value.relabel_isTruthy) (h.execute body) fuel)
  | «break» keyword =>
    refine .bind (.read (g := id) fun _ => rfl) fun depth => ?_
    dsimp only [id]
    split
    · exact .fail _ keyword
    · exact .pure rfl
  | «return» keyword value =>
    cases value with
    | none => exact .pure rfl
    | some value => exact .bind (h.evaluate value) fun x => .pure rfl
  | function f =>
    refine .bind (.read (g := id) fun _ => rfl) fun scope => .bind .newObject fun i => ?_
    cases f with
    | mk name parameters body =>
      exact .bind (.define scope name.lexeme (.function ⟨i, .mk name parameters body, scope, false⟩)) fun _ => .pure rfl
  | «class» name declared =>
    refine .bind (.read (g := id) fun _ => rfl) fun scope => .bind (.declare scope name.lexeme) fun _ => ?_
    refine .bind (.closures scope declared) fun methods => .bind .newObject fun i => ?_
    have hassign : Moves line ident before id
        (assign (·.holder scope name.lexeme) name (.class ⟨i, name.lexeme, .ofList methods⟩))
        (assign (·.holder scope name.lexeme) (name.relined line)
          ((Value.class ⟨i, name.lexeme, .ofList methods⟩).relabel line ident)) :=
      .assign (fun st => Store.relabel_holder st _ _) name _
    rw [NameMap.ofList_map]
    exact .bind hassign fun _ => .pure rfl

theorem call_succ (h : MovesAt line ident before setting setting' fuel) (hset : setting.Relabels ident setting')
    (callee : Value) (arguments : List Value) (paren : Token) :
    Moves line ident before (Value.relabel line ident) (Eval.call setting (fuel + 1) callee arguments paren)
      (Eval.call setting' (fuel + 1) (callee.relabel line ident) (arguments.map (Value.relabel line ident))
        (paren.relined line)) := by
  cases callee with
  | native f =>
    cases f with
    | clock =>
      refine .bind (.checkCall _ arguments paren) fun _ => .inCall ?_
      have hread : Moves line ident before id (readClock setting.clock) (readClock setting'.clock) := by
        rw [hset.clock]
        exact .readClock setting.clock
      exact .map hread fun _ => rfl
  | function f =>
    have hcheck : Moves line ident before id (checkCall f.arity arguments paren)
        (checkCall (f.relabel line ident).arity (arguments.map (Value.relabel line ident)) (paren.relined line)) := by
      rw [Closure.relabel_arity]
      exact .checkCall f.arity arguments paren
    exact .bind hcheck fun _ => .inCall (h.run f arguments)
  | «class» c =>
    have hcheck : Moves line ident before id (checkCall c.arity arguments paren)
        (checkCall (c.relabel line ident).arity (arguments.map (Value.relabel line ident)) (paren.relined line)) := by
      rw [Class.relabel_arity]
      exact .checkCall c.arity arguments paren
    refine .bind hcheck fun _ => .inCall (.bind .newObject fun i => ?_)
    rw [Class.relabel_initializer?]
    cases c.initializer? with
    | none => exact .pure rfl
    | some method =>
      refine .bind (.bindThis method (.instance i c)) fun f => ?_
      exact .bind (h.run f arguments) fun _ => .pure rfl
  | _ => exact .fail _ paren

theorem run_succ (h : MovesAt line ident before setting setting' fuel) (f : Closure) (arguments : List Value) :
    Moves line ident before (Value.relabel line ident) (Eval.run setting (fuel + 1) f arguments)
      (Eval.run setting' (fuel + 1) (f.relabel line ident) (arguments.map (Value.relabel line ident))) := by
  obtain ⟨i, ⟨name, parameters, body⟩, outer, initializes⟩ := f
  refine .bind (.childScope outer) fun scope => .bind (.defineAll scope parameters arguments) fun _ => ?_
  refine .bind (.outsideLoops (.inScope scope (.sequence h.execute body))) fun flow => ?_
  exact .result ⟨i, .mk name parameters body, outer, initializes⟩ flow

end MovesAt

/-- Relabelled runs come to the same with any fuel, by induction on it. -/
theorem movesAt (line : Nat → Nat) (before : Array String) {ident : OccurrenceId → OccurrenceId}
    {setting setting' : Setting} (hset : setting.Relabels ident setting') (fuel : Nat) :
    MovesAt line ident before setting setting' fuel := by
  induction fuel with
  | zero => exact ⟨fun _ => .exhausted, fun _ => .exhausted, fun _ _ _ => .exhausted, fun _ _ => .exhausted⟩
  | succ fuel h => exact ⟨h.evaluate_succ hset, h.execute_succ, h.call_succ hset, h.run_succ⟩

end Eval

/-- A relabelled program runs as it does on its own. -/
theorem Interpreter.runAll_moves (line : Nat → Nat) (before : Array String) {ident : OccurrenceId → OccurrenceId}
    {setting setting' : Setting} (hset : setting.Relabels ident setting') (fuel : Nat) (ss : List Stmt) :
    Eval.Moves line ident before id (runAll setting fuel ss)
      (runAll setting' fuel (Stmt.relabelAll line ident ss)) := by
  induction ss with
  | nil => exact .pure rfl
  | cons s ss ih => exact .bind ((Eval.movesAt line before hset fuel).execute s) fun _ => ih

end LoxLang
