import LoxLang.Proofs.Run.Moves

namespace LoxLang

structure Machine.Frame where
  scope : ScopeId
  loopDepth : Nat
  callDepth : Nat
deriving DecidableEq, Repr

def Machine.frame (m : Machine) : Machine.Frame := ⟨m.scope, m.loopDepth, m.callDepth⟩

/-- The calls told are open besides `base` others, and no more are than may be. -/
structure Machine.Counts (base : Nat) (calls : List Token) (m : Machine) : Prop where
  depth : m.callDepth = base + calls.length
  le : m.callDepth ≤ maxCallDepth

/-- Nothing but the frame is counted. -/
theorem Machine.Counts.of_frame {base : Nat} {calls : List Token} {m m' : Machine} (h : m.Counts base calls)
    (hf : m'.frame = m.frame) : m'.Counts base calls := by
  have hd : m'.callDepth = m.callDepth := congrArg Machine.Frame.callDepth hf
  exact ⟨hd.trans h.depth, hd ▸ h.le⟩

/-- The machine counts the open calls before the step and too many of them neither before nor after it, and no depth is
lowered that is zero. -/
structure Step.Counted (base : Nat) (t : Step) : Prop where
  counts : t.machine.Counts base t.calls
  after_le : t.after.callDepth ≤ maxCallDepth
  closes : t.move = .closeCall → 0 < t.machine.callDepth
  leaves : t.move = .leaveLoop → 0 < t.machine.loopDepth

/-- The move concerns no frame. -/
def Move.Inner : Move → Prop
  | addScope _ | define _ _ _ | declare _ _ | newObject | setField _ _ _ | readClock | print _ => True
  | _ => False

theorem Move.Inner.frame {move : Move} (h : move.Inner) (m : Machine) : (move.apply m).frame = m.frame := by
  cases move <;> first | rfl | cases h

theorem Move.Inner.counted {move : Move} (h : move.Inner) {base : Nat} {calls : List Token} {m : Machine}
    (hm : m.Counts base calls) : Step.Counted base ⟨calls, move, m⟩ where
  counts := hm
  after_le := (hm.of_frame (h.frame m)).le
  closes := by
    rintro rfl
    cases h
  leaves := by
    rintro rfl
    cases h

namespace Eval

variable {α β : Type}

/-- A call that passes the check is not one too many. -/
theorem checkCall_cases (arity : Nat) (arguments : List Value) (paren : Token) (m : Machine) :
    (∃ e, checkCall arity arguments paren m = .failed e m) ∨
      checkCall arity arguments paren m = .done () m ∧ m.callDepth < maxCallDepth := by
  unfold checkCall
  split
  · exact .inl ⟨_, rfl⟩
  · rw [bind_done (show read Machine.callDepth m = .done m.callDepth m from rfl)]
    split
    · exact .inl ⟨_, rfl⟩
    · next hlt => exact .inr ⟨rfl, Nat.lt_of_not_le hlt⟩

end Eval

namespace Traced

variable {α β : Type}

/-- Started as told, the traced computation does what the plain one does, its steps lead to where that ends, each of
them counts the open calls, and at the end the frame is what it was. -/
structure Framed (base : Nat) (calls : List Token) (m : Machine) (x : Traced α) (y : Eval α) : Prop where
  outcome : (x calls m).1 = y m
  path : ∃ m', Path m (x calls m).2 m' ∧ ∀ m'' ∈ (y m).machine?, m'' = m'
  counted : ∀ t ∈ (x calls m).2, t.Counted base
  frame : ∀ m' ∈ (y m).machine?, m'.frame = m.frame

/-- So is another one that takes the same steps and ends in the same machine. -/
theorem Framed.of_same_steps {base : Nat} {calls : List Token} {m : Machine} {x : Traced α} {y : Eval α}
    {x' : Traced β} {y' : Eval β} (h : Framed base calls m x y) (ho : (x' calls m).1 = y' m)
    (hlog : (x' calls m).2 = (x calls m).2) (hend : (y' m).machine? = (y m).machine?) :
    Framed base calls m x' y' where
  outcome := ho
  path := by
    rw [hlog, hend]
    exact h.path
  counted := by
    rw [hlog]
    exact h.counted
  frame := by
    rw [hend]
    exact h.frame

/-- The same wherever it is started. -/
def Traces (x : Traced α) (y : Eval α) : Prop :=
  ∀ base calls (m : Machine), m.Counts base calls → Framed base calls m x y

namespace Traces

theorem silent {y : Eval α} (h : y.Still) : Traces (silent y) y := by
  intro base calls m hm
  refine ⟨rfl, ⟨m, .refl m, h m⟩, ?_, fun m' hm' => ?_⟩
  · intro t ht
    cases ht
  · rw [h m m' hm']

theorem pure (a : α) : Traces (Pure.pure a) (Pure.pure a) := silent (Eval.still_pure a)

theorem make (move : Move) (h : move.Inner) : Traces (make move) (Eval.modify move.apply) := by
  intro base calls m hm
  refine ⟨rfl, ⟨move.apply m, .step ⟨calls, move, m⟩ (.refl _), ?_⟩, ?_, ?_⟩
  · rintro _ ⟨⟩
    rfl
  · intro t ht
    rw [List.mem_singleton.1 ht]
    exact h.counted hm
  · rintro _ ⟨⟩
    exact h.frame m

/-- The steps of the first computation, and from its end those of the second. -/
theorem bind {x : Traced α} {y : Eval α} {f : α → Traced β} {g : α → Eval β} (hx : Traces x y)
    (hf : ∀ a, Traces (f a) (g a)) : Traces (x >>= f) (y >>= g) := by
  intro base calls m hm
  have hfirst := hx base calls m hm
  have ho := hfirst.outcome
  rcases hxm : x calls m with ⟨⟨a, m'⟩ | ⟨e, m'⟩ | _, log⟩
  · rw [hxm] at ho
    have hm' : m'.frame = m.frame := hfirst.frame m' (by rw [← ho]; rfl)
    -- where the first computation ends, the counting goes on as if it had just begun
    have hrest := hf a base calls m' (hm.of_frame hm')
    have hy : (y >>= g) m = g a m' := Eval.bind_done ho.symm
    constructor
    case outcome => rw [bind_done hxm, hy, hrest.outcome]
    case path =>
      obtain ⟨m₁, hpath, hend⟩ := hfirst.path
      obtain ⟨m₂, hpath', hend'⟩ := hrest.path
      have hm₁ : m' = m₁ := hend m' (by rw [← ho]; rfl)
      rw [hxm, ← hm₁] at hpath
      rw [bind_done hxm, hy]
      exact ⟨m₂, hpath.append hpath', hend'⟩
    case counted =>
      have hcounted := hfirst.counted
      rw [hxm] at hcounted
      rw [bind_done hxm]
      intro t ht
      exact (List.mem_append.1 ht).elim (hcounted t) (hrest.counted t)
    case frame =>
      rw [hy]
      intro m'' hm''
      exact (hrest.frame m'' hm'').trans hm'
  · rw [hxm] at ho
    have hy : (y >>= g) m = .failed e m' := Eval.bind_failed ho.symm
    exact hfirst.of_same_steps (by rw [bind_failed hxm, hy]) (by rw [bind_failed hxm, hxm]) (by rw [hy, ← ho]; rfl)
  · rw [hxm] at ho
    have hy : (y >>= g) m = .exhausted := Eval.bind_exhausted ho.symm
    exact hfirst.of_same_steps (by rw [bind_exhausted hxm, hy]) (by rw [bind_exhausted hxm, hxm])
      (by rw [hy, ← ho]; rfl)

theorem map {x : Traced α} {y : Eval α} (f : α → β) (hx : Traces x y) : Traces (f <$> x) (f <$> y) :=
  bind hx fun a => pure (f a)

/-- Between two changes that belong together. -/
theorem between {base : Nat} {calls : List Token} {m : Machine} {first : Move} {last : Machine → Move}
    {inner : List Token → List Token} {x : Traced α} {y z : Eval α}
    (hz : z m = Eval.restoring (last m).apply y (first.apply m))
    (hfirst : Step.Counted base ⟨calls, first, m⟩)
    (hlast : ∀ m', m'.frame = (first.apply m).frame →
      Step.Counted base ⟨inner calls, last m, m'⟩ ∧ ((last m).apply m').frame = m.frame)
    (hx : Framed base (inner calls) (first.apply m) x y) :
    Framed base calls m (Traced.between first last inner x) z := by
  obtain ⟨ho, ⟨m₁, hpath, hend⟩, hcounted, hframe⟩ := hx
  unfold Eval.restoring at hz
  rw [← ho] at hz hend hframe
  rcases hxm : x (inner calls) (first.apply m) with ⟨⟨a, m'⟩ | ⟨e, m'⟩ | _, log⟩
  all_goals
    rw [hxm] at hz hend hframe hpath hcounted
    dsimp only at hz
    constructor
    all_goals simp only [Traced.between, hxm, hz]
  case exhausted.path => exact ⟨m₁, .step ⟨calls, first, m⟩ hpath, by rintro _ ⟨⟩⟩
  case exhausted.counted =>
    intro t ht
    rcases List.mem_cons.1 ht with rfl | ht
    · exact hfirst
    · exact hcounted t ht
  case exhausted.frame => rintro _ ⟨⟩
  all_goals
    have hm₁ : m' = m₁ := hend m' rfl
    subst hm₁
    obtain ⟨hcount, hback⟩ := hlast m' (hframe m' rfl)
  case done.path | failed.path =>
    refine ⟨(last m).apply m', .step ⟨calls, first, m⟩ (hpath.append (.step ⟨inner calls, last m, m'⟩ (.refl _))), ?_⟩
    rintro _ ⟨⟩
    rfl
  case done.counted | failed.counted =>
    intro t ht
    rcases List.mem_cons.1 ht with rfl | ht
    · exact hfirst
    · rcases List.mem_append.1 ht with ht | ht
      · exact hcounted t ht
      · rw [List.mem_singleton.1 ht]
        exact hcount
  case done.frame | failed.frame =>
    rintro _ ⟨⟩
    exact hback

/-- The scope is entered by one step and left by another, however the computation between them ends. -/
theorem inScope {x : Traced α} {y : Eval α} (s : ScopeId) (hx : Traces x y) :
    Traces (Traced.inScope s x) (Eval.inScope s y) := by
  intro base calls m hm
  have hm' : ((Move.scope s).apply m).Counts base calls := ⟨hm.depth, hm.le⟩
  refine between rfl ⟨hm, hm.le, nofun, nofun⟩ (fun m' hf => ?_) (hx base calls _ hm')
  have hd : m'.callDepth = m.callDepth := congrArg Machine.Frame.callDepth hf
  have hl : m'.loopDepth = m.loopDepth := congrArg Machine.Frame.loopDepth hf
  refine ⟨⟨hm'.of_frame hf, Nat.le_trans (Nat.le_of_eq hd) hm.le, nofun, nofun⟩, ?_⟩
  simp only [Move.apply, Machine.frame, hd, hl]

/-- Loops are counted up and down again. -/
theorem inLoop {x : Traced α} {y : Eval α} (hx : Traces x y) : Traces (Traced.inLoop x) (Eval.inLoop y) := by
  intro base calls m hm
  have hm' : (Move.enterLoop.apply m).Counts base calls := ⟨hm.depth, hm.le⟩
  refine between rfl ⟨hm, hm.le, nofun, nofun⟩ (fun m' hf => ?_) (hx base calls _ hm')
  have hd : m'.callDepth = m.callDepth := congrArg Machine.Frame.callDepth hf
  have hl : m'.loopDepth = m.loopDepth + 1 := congrArg Machine.Frame.loopDepth hf
  have hs : m'.scope = m.scope := congrArg Machine.Frame.scope hf
  refine ⟨⟨hm'.of_frame hf, Nat.le_trans (Nat.le_of_eq hd) hm.le, nofun, fun _ => ?_⟩, ?_⟩
  · exact hl ▸ Nat.succ_pos _
  · simp only [Move.apply, Machine.frame, hd, hl, hs, Nat.add_sub_cancel]

theorem outsideLoops {x : Traced α} {y : Eval α} (hx : Traces x y) :
    Traces (Traced.outsideLoops x) (Eval.outsideLoops y) := by
  intro base calls m hm
  have hm' : ((Move.loops 0).apply m).Counts base calls := ⟨hm.depth, hm.le⟩
  refine between rfl ⟨hm, hm.le, nofun, nofun⟩ (fun m' hf => ?_) (hx base calls _ hm')
  have hd : m'.callDepth = m.callDepth := congrArg Machine.Frame.callDepth hf
  have hs : m'.scope = m.scope := congrArg Machine.Frame.scope hf
  refine ⟨⟨hm'.of_frame hf, Nat.le_trans (Nat.le_of_eq hd) hm.le, nofun, nofun⟩, ?_⟩
  simp only [Move.apply, Machine.frame, hd, hs]

/-- One open call more, if there may be. -/
theorem inCall {base : Nat} {calls : List Token} {m : Machine} {x : Traced α} {y : Eval α} (hm : m.Counts base calls)
    (hlt : m.callDepth < maxCallDepth) (paren : Token) (hx : Traces x y) :
    Framed base calls m (Traced.inCall paren x) (Eval.inCall y) := by
  have hm' : (Move.openCall.apply m).Counts base (paren :: calls) :=
    ⟨by simp only [Move.apply, hm.depth, List.length_cons, Nat.add_assoc], hlt⟩
  refine between rfl ⟨hm, hlt, nofun, nofun⟩ (fun m' hf => ?_) (hx base _ _ hm')
  have hd : m'.callDepth = m.callDepth + 1 := congrArg Machine.Frame.callDepth hf
  have hl : m'.loopDepth = m.loopDepth := congrArg Machine.Frame.loopDepth hf
  have hs : m'.scope = m.scope := congrArg Machine.Frame.scope hf
  refine ⟨⟨hm'.of_frame hf, ?_, fun _ => ?_, nofun⟩, ?_⟩
  · simp only [Step.after, Move.apply, hd, Nat.add_sub_cancel, hm.le]
  · exact hd ▸ Nat.succ_pos _
  · simp only [Move.apply, Machine.frame, hd, hl, hs, Nat.add_sub_cancel]

/-- A call is opened only after the check. -/
theorem checked {x : Traced α} {y : Eval α} (arity : Nat) (arguments : List Value) (paren : Token) (hx : Traces x y) :
    Traces (Traced.silent (Eval.checkCall arity arguments paren) >>= fun _ => Traced.inCall paren x)
      (Eval.checkCall arity arguments paren >>= fun _ => Eval.inCall y) := by
  intro base calls m hm
  rcases Eval.checkCall_cases arity arguments paren m with ⟨e, he⟩ | ⟨hdone, hlt⟩
  · have hx' : Traced.silent (Eval.checkCall arity arguments paren) calls m = (.failed e m, []) :=
      congrArg (·, []) he
    constructor
    all_goals simp only [Traced.bind_failed hx', Eval.bind_failed he]
    case path => exact ⟨m, .refl m, by rintro _ ⟨⟩; rfl⟩
    case counted =>
      intro t ht
      cases ht
    case frame =>
      rintro _ ⟨⟩
      rfl
  · have hx' : Traced.silent (Eval.checkCall arity arguments paren) calls m = (.done () m, []) :=
      congrArg (·, []) hdone
    obtain ⟨ho, hpath, hcounted, hframe⟩ := inCall hm hlt paren hx
    constructor
    all_goals simp only [Traced.bind_done hx', Eval.bind_done hdone, List.nil_append]
    case outcome => exact ho
    case path => exact hpath
    case counted => exact hcounted
    case frame => exact hframe

theorem childScope (s : ScopeId) : Traces (Traced.childScope s) (Eval.childScope s) :=
  show Traces _ (Eval.read (fun m => m.store.next) >>= fun child => Eval.modify (Move.addScope s).apply >>= fun _ =>
    Pure.pure child) from
  .bind (.silent (Eval.still_read _)) fun child => .bind (.make _ trivial) fun _ => .pure child

theorem newObject : Traces Traced.newObject Eval.newObject :=
  show Traces _ (Eval.read (fun m => m.fields.size) >>= fun id => Eval.modify Move.newObject.apply >>= fun _ =>
    Pure.pure id) from
  .bind (.silent (Eval.still_read _)) fun id => .bind (.make _ trivial) fun _ => .pure id

theorem readClock (clock : Clock) : Traces (Traced.readClock clock) (Eval.readClock clock) :=
  show Traces _ (Eval.read (fun m => clock m.readings) >>= fun time => Eval.modify Move.readClock.apply >>= fun _ =>
    Pure.pure time) from
  .bind (.silent (Eval.still_read _)) fun time => .bind (.make _ trivial) fun _ => .pure time

theorem assign (f : Store → Except AccessError ScopeId) (name : Token) (value : Value) :
    Traces (Traced.assign f name value) (Eval.assign f name value) := by
  intro base calls m hm
  unfold Traced.assign Eval.assign
  cases hf : f m.store with
  | ok s =>
    have hmake := make (.define s name.lexeme value) trivial base calls m hm
    constructor
    all_goals simp only [hf]
    case outcome => rfl
    case path => exact hmake.path
    case counted => exact hmake.counted
    case frame => exact hmake.frame
  | error e =>
    constructor
    all_goals simp only [hf]
    case path => exact ⟨m, .refl m, by rintro _ ⟨⟩; rfl⟩
    case counted =>
      intro t ht
      cases ht
    case frame =>
      rintro _ ⟨⟩
      rfl

theorem composes : Composes (fun α (x : Traced α) y => Traces x y) where
  pure := .pure
  bind := .bind
  map := .map

theorem changes : Changes.Correspond (fun α (x : Traced α) y => Traces x y) Traced.changes Eval.changes where
  toComposes := composes
  look := .silent
  childScope := .childScope
  define s name value := .make (.define s name value) trivial
  declare s name := .make (.declare s name) trivial
  assign := .assign
  newObject := .newObject
  setField object name value := .make (.setField object name value) trivial
  print line := .make (.print line) trivial

end Traces

/-- Whatever a run does, the traced one does in steps. -/
theorem operations_trace (setting : Setting) :
    Operations.Correspond (fun α (x : Traced α) y => Traces x y) (operations setting) (Eval.operations setting) where
  toCorrespond := Traces.changes
  readClock := .readClock setting.clock
  readName _ id name := .silent (Eval.still_readName setting id name)
  assignName := Traces.changes.assignName setting
  property := Traces.changes.property
  construct _ _ _ h := h
  inScope s _ _ h := .inScope s h
  inLoop h := .inLoop h
  outsideLoops h := .outsideLoops h
  inCall arity arguments paren _ _ h := .checked arity arguments paren h
  turns hc hb fuel := by
    change Traces _ (Eval.turns _ _ fuel)
    rw [Eval.turns_eq_repeated]
    exact Traces.composes.repeated (.silent Eval.still_exhausted) hc hb fuel

theorem runAll_traces (setting : Setting) (fuel : Nat) (program : List Stmt) :
    Traces (runAll setting fuel program) (Interpreter.runAll setting fuel program) :=
  Traces.composes.runAll ((operations_trace setting).at fuel).execute program

end Traced

end LoxLang
