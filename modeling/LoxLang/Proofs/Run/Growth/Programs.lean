import LoxLang.Proofs.Run.Access
import LoxLang.Proofs.Run.Rest
import LoxLang.Proofs.Run.Seam
import LoxLang.Proofs.Run.Growth.Evaluation

namespace LoxLang

variable {m m' : Machine} {log log' : List Step}

/-- The newest scope, to which nothing leads that was there before it. -/
structure Machine.Apart (m : Machine) (s : ScopeId) : Prop where
  newest : m.store.next = s + 1
  unreachable : ∀ a : Node, a.Below s → ¬m.Reachable a (.scope s)

theorem Machine.Fresh.apart {s : ScopeId} (h : m.Fresh s) : m.Apart s := ⟨h.newest, fun _ ha => h.not_reachable ha⟩

namespace Step.Fits

variable {t : Step}

/-- A step that fits leaves a machine that holds on to no more than there is. -/
theorem after (h : t.Fits) : t.after.Closed := h.move.closed h.closed

theorem older (h : t.Fits) : t.machine.store.Older t.after.store := h.move.older h.closed

/-- One cell is set, around the place of the run or in a scope that is being made. -/
theorem sets (h : t.Fits) {s : ScopeId} {name : String}
    (hc : t.after.store.cell? s name ≠ t.machine.store.cell? s name) :
    t.move.Sets s name ∧ (s ∈ t.machine.store.chain t.machine.scope ∨ t.machine.Apart s) := by
  by_cases hs : t.move.Sets s name
  · refine ⟨hs, ?_⟩
    obtain ⟨hmem, -⟩ | rfl | hf := h.move.takes hs
    · exact .inl hmem
    · exact .inl List.mem_cons_self
    · exact .inr hf.apart
  · exact absurd (h.move.cell?_eq h.closed hs) hc

/-- What sets a cell of one scope changes none of another. -/
theorem cell?_eq_of_ne (h : t.Fits) {s s' : ScopeId} {x : String} (hs : t.move.Sets s x) (hne : s ≠ s')
    (name : String) : t.after.store.cell? s' name = t.machine.store.cell? s' name :=
  h.move.cell?_eq h.closed fun hs' => hne (hs.scope_eq hs')

/-- A name comes to the current scope, or to one that is being made. -/
theorem binds (h : t.Fits) {s : ScopeId} {name : String} (hh : t.after.store.Has s name) :
    t.machine.store.Has s name ∨ s = t.machine.scope ∨ t.machine.Apart s := by
  obtain hn | hs := h.move.has h.closed hh
  · exact .inl hn
  · obtain ⟨-, hhas⟩ | hs | hf := h.move.takes hs
    · exact .inl hhas
    · exact .inr (.inl hs)
    · exact .inr (.inr hf.apart)

/-- What runs inside one scope changes no cell of another beside it. -/
theorem beside (h : t.Fits) {s s' : ScopeId} {name : String} (hs' : s' ∈ t.machine.store.chain t.machine.scope)
    (hout : s' ∉ t.machine.store.chain s) (hout' : s ∉ t.machine.store.chain s') :
    t.after.store.cell? s name = t.machine.store.cell? s name ∨ t.machine.Apart s := by
  by_cases hc : t.after.store.cell? s name = t.machine.store.cell? s name
  · exact .inl hc
  · obtain hs | hs := (h.sets hc).2
    · exact absurd (h.closed.grounded.linked.mem_or_mem hs' hs) (not_or.2 ⟨hout, hout'⟩)
    · exact .inr hs

/-- A new scope has no names yet, and nothing leads to it. -/
theorem makes (h : t.Fits) {around : ScopeId} (ht : t.move = .addScope around) :
    t.after.store.chain t.machine.store.next = t.machine.store.next :: t.machine.store.chain around ∧
      t.after.Apart t.machine.store.next ∧ ∀ name, ¬t.after.store.Has t.machine.store.next name := by
  have hmove := h.move
  rw [ht] at hmove
  have hafter : t.after = { t.machine with store := (t.machine.store.child around).2 } := by
    rw [Step.after, ht]
    rfl
  rw [hafter]
  refine ⟨Store.chain_addScope_next _, (h.closed.child hmove).apart, fun name hh => ?_⟩
  unfold Store.Has at hh
  rw [Store.child, Store.cell?_addScope, Store.cell?_next] at hh
  cases hh

end Step.Fits

/-- Along steps that fit, stores only grow. -/
theorem Path.older (hp : Path m log m') (hf : ∀ t ∈ log, t.Fits) :
    m.store.Older m'.store ∧ (∀ t ∈ log, m.store.Older t.machine.store ∧ t.after.store.Older m'.store) ∧
      log.Pairwise fun t u => t.after.store.Older u.machine.store := by
  induction hp with
  | refl m => exact ⟨.refl _, nofun, .nil⟩
  | step t _ ih =>
    obtain ⟨ht, hrest⟩ := List.forall_mem_cons.1 hf
    obtain ⟨hends, hbetween, hpairs⟩ := ih hrest
    refine ⟨ht.older.trans hends, List.forall_mem_cons.2 ⟨⟨.refl _, hends⟩, fun u hu => ?_⟩,
      List.pairwise_cons.2 ⟨fun u hu => (hbetween u hu).1, hpairs⟩⟩
    exact ⟨ht.older.trans (hbetween u hu).1, (hbetween u hu).2⟩

/-- What has been logged when a machine has come to rest. -/
structure Grown (log : List Step) (m : Machine) : Prop where
  closed : m.Closed
  frame : m.frame = ⟨Machine.globals, 0, 0⟩
  fits : ∀ t ∈ log, t.Fits
  counted : ∀ t ∈ log, t.Counted 0
  older : ∀ t ∈ log, t.after.store.Older m.store
  pairwise : log.Pairwise fun t u => t.after.store.Older u.machine.store

namespace Grown

variable {α : Type} {x : Traced α} {y : Eval α} {A : Additions} {Q : α → Machine → Prop}

theorem initial : Grown [] Machine.initial := ⟨.initial, rfl, nofun, nofun, nofun, .nil⟩

theorem of_eq (h : Grown log m) (hs : m'.store = m.store) (hf : m'.fields = m.fields) (hm : m'.frame = m.frame) :
    Grown log m' where
  closed := by
    have hc : m'.scope = m.scope := congrArg Machine.Frame.scope hm
    have hclosed : m'.RootedIn m.store.next := h.closed.of_eq hs hf (hc ▸ h.closed.scope)
    rwa [← hs] at hclosed
  frame := hm.trans h.frame
  fits := h.fits
  counted := h.counted
  older := hs ▸ h.older
  pairwise := h.pairwise

/-- Between programs no call is open. -/
theorem counts (h : Grown log m) : m.Counts 0 [] := by
  have hd : m.callDepth = 0 := congrArg Machine.Frame.callDepth h.frame
  exact ⟨hd, hd ▸ Nat.zero_le _⟩

/-- The steps of a run that starts from rest come after all others, and are in order among themselves. -/
theorem steps (h : Grown log m) (hx : Traced.Grows A m x Q) (ht : Traced.Traces x y) :
    (∀ t ∈ log ++ (x [] m).2, t.Fits) ∧ (∀ t ∈ log ++ (x [] m).2, t.Counted 0) ∧
      (log ++ (x [] m).2).Pairwise fun t u => t.after.store.Older u.machine.store := by
  obtain ⟨-, ⟨m', hpath, -⟩, hcounted, -⟩ := ht 0 [] m h.counts
  obtain ⟨-, hbetween, hpairs⟩ := hpath.older (hx.steps [])
  refine ⟨List.forall_mem_append.2 ⟨h.fits, hx.steps []⟩, List.forall_mem_append.2 ⟨h.counted, hcounted⟩,
    List.pairwise_append.2 ⟨h.pairwise, hpairs, fun t ht u hu => ?_⟩⟩
  exact (h.older t ht).trans (hbetween u hu).1

/-- The next run, when it ends. -/
theorem run (h : Grown log m) (hx : Traced.Grows A m x Q) (ht : Traced.Traces x y) (hm : m' ∈ (y m).machine?) :
    Grown (log ++ (x [] m).2) m' := by
  obtain ⟨hfits, hcounted, hpairs⟩ := h.steps hx ht
  obtain ⟨ho, ⟨m'', hpath, hend⟩, -, hframe⟩ := ht 0 [] m h.counts
  obtain rfl := hend m' hm
  obtain ⟨hends, hbetween, -⟩ := hpath.older (hx.steps [])
  have hextends := (hx.outcome []).machine (ho ▸ hm)
  refine ⟨hextends.closed, (hframe m' hm).trans h.frame, hfits, hcounted,
    List.forall_mem_append.2 ⟨fun t ht => (h.older t ht).trans hends, fun t ht => (hbetween t ht).2⟩, hpairs⟩

end Grown

namespace Traced

/-- Any statement, also one that no parser has built. -/
theorem execute_extends (setting : Setting) (fuel : Nat) (hm : m.Closed) (hd : m.callDepth ≤ maxCallDepth) (s : Stmt) :
    (Eval.execute setting fuel s m).Extends (.into m.scope s.declared) m fun flow m' => flow.Rooted m'.store.next := by
  have ho : (Traced.execute setting fuel s [] m).1 = Eval.execute setting fuel s m :=
    (((operations_trace setting).at fuel).execute s _ [] m (Interpreter.counts_nil hd)).outcome
  exact ho ▸ ((growsAt setting fuel).execute s m hm).outcome []

theorem evaluate_extends (setting : Setting) (fuel : Nat) (hm : m.Closed) (hd : m.callDepth ≤ maxCallDepth) (e : Expr) :
    (Eval.evaluate setting fuel e m).Extends .none m fun v m' => v.Rooted m'.store.next := by
  have ho : (Traced.evaluate setting fuel e [] m).1 = Eval.evaluate setting fuel e m :=
    (((operations_trace setting).at fuel).evaluate e _ [] m (Interpreter.counts_nil hd)).outcome
  exact ho ▸ ((growsAt setting fuel).evaluate e m hm).outcome []

/-- A computation with a scope of its own, which its first step makes. -/
def making {α : Type} (around : ScopeId) (x : ScopeId → Traced α) : Traced α := fun calls m =>
  let t : Step := ⟨calls, .addScope around, m⟩
  ((x m.store.next calls t.after).1, t :: (x m.store.next calls t.after).2)

end Traced

namespace Interpreter

/-- The steps of the next run. -/
def steps (i : Interpreter) (c : Conditions) (program : List Stmt) : List Step :=
  (Traced.runAll (i.setting c) c.fuel program [] i.machine).2

/-- An interpreter on which any programs have been run and any expressions evaluated, whatever was noted or forgotten
of their names, with all the steps that were taken. -/
inductive Recorded : List Step → Interpreter → Prop
  | initial : Recorded [] .initial
  | noted {log : List Step} {i : Interpreter} (h : Recorded log i) (distances : Distances)
    (topLevel : List OccurrenceId) : Recorded log { i with distances := distances, topLevel := topLevel }
  | taken {log : List Step} {i : Interpreter} (h : Recorded log i) : Recorded log i.takePrinted.2
  | interpret {log : List Step} {i i' : Interpreter} {c : Conditions} {program : List Stmt}
    {error : Option RuntimeError} (h : Recorded log i) (hr : i.interpret c program = some (error, i')) :
    Recorded (log ++ i.steps c program) i'
  | evaluate {log : List Step} {i i' : Interpreter} {c : Conditions} {e : Expr} {result : Except RuntimeError Value}
    (h : Recorded log i) (hr : i.evaluate c e = some (result, i')) :
    Recorded (log ++ (Traced.evaluate (i.setting c) c.fuel e [] i.machine).2) i'

/-- The machine comes up before, between or after the steps of an interpreter. -/
def Passes (log : List Step) (i : Interpreter) (m : Machine) : Prop :=
  m = i.machine ∨ ∃ t ∈ log, m = t.machine ∨ m = t.after

variable {i i' : Interpreter} {c : Conditions}

/-- The machine is left where evaluation ended, whether it came to a value or not. -/
theorem machine_of_evaluate {e : Expr} {result : Except RuntimeError Value} (hr : i.evaluate c e = some (result, i')) :
    i'.machine ∈ (Eval.evaluate (i.setting c) c.fuel e i.machine).machine? := by
  unfold Interpreter.evaluate at hr
  cases ho : Eval.evaluate (i.setting c) c.fuel e i.machine with
  | done v m' =>
    rw [ho] at hr
    cases hr
    rfl
  | failed e m' =>
    rw [ho] at hr
    cases hr
    rfl
  | exhausted =>
    rw [ho] at hr
    cases hr

namespace Recorded

theorem bind {program : List Stmt} (h : Recorded log i) (hb : i.bind program = .ok i') : Recorded log i' := by
  have hm : i'.machine = i.machine := by
    cases hp : Binding.ofProgram program with
    | ok b =>
      rw [Interpreter.bind, hp] at hb
      cases hb
      exact addBinding_machine i b
    | error es =>
      rw [Interpreter.bind, hp] at hb
      cases hb
  have hnoted := h.noted i'.distances i'.topLevel
  rwa [← hm] at hnoted

theorem grown (h : Recorded log i) : Grown log i.machine := by
  induction h with
  | initial => exact .initial
  | noted _ _ _ ih => exact ih
  | taken _ ih => exact ih.of_eq rfl rfl rfl
  | @interpret log i i' c program _ _ hr ih =>
    exact ih.run (Traced.runAll_grows (i.setting c) c.fuel program ih.closed)
      (Traced.runAll_traces (i.setting c) c.fuel program) (machine_of_interpret hr)
  | @evaluate log i i' c e _ _ hr ih =>
    exact ih.run ((Traced.growsAt (i.setting c) c.fuel).evaluate e _ ih.closed)
      (((Traced.operations_trace (i.setting c)).at c.fuel).evaluate e) (machine_of_evaluate hr)

/-- The steps so far and those of the next run. -/
theorem steps (h : Recorded log i) (c : Conditions) (program : List Stmt) :
    (∀ t ∈ log ++ i.steps c program, t.Fits) ∧ (∀ t ∈ log ++ i.steps c program, t.Counted 0) ∧
      (log ++ i.steps c program).Pairwise fun t u => t.after.store.Older u.machine.store :=
  h.grown.steps (Traced.runAll_grows (i.setting c) c.fuel program h.grown.closed)
    (Traced.runAll_traces (i.setting c) c.fuel program)

/-- Wherever the interpreter comes by, all that is held is over the scopes there are. -/
theorem passes (h : Recorded log i) {program : List Stmt} (hm : Passes (log ++ i.steps c program) i m) :
    m.Closed ∧ m.callDepth ≤ maxCallDepth := by
  obtain ⟨hfits, hcounted, -⟩ := h.steps c program
  obtain rfl | ⟨t, ht, rfl | rfl⟩ := hm
  · exact ⟨h.grown.closed, h.grown.counts.le⟩
  · exact ⟨(hfits t ht).closed, (hcounted t ht).counts.le⟩
  · exact ⟨(hfits t ht).after, (hcounted t ht).after_le⟩

/-- Whatever programs have run, however they ended, and wherever the next one has got to. No step moves a scope that is
there or takes a name from it. The current scope is there, and so is that of each function that is held; from each scope
that is there the chain goes down to the globals. Expressions bind no names in scopes that were there, and statements
bind those that they declare, in the current scope; step by step, names come to the current scope, or to one that is
being made, which is the newest one and out of reach of all that was there. Blocks, calls and bound methods run in
scopes that are made so, each by a step of its own. A step sets one cell, around the current scope or in one that is
being made; so no scope that is made shares a cell with another one, and what runs inside one changes nothing in another
beside it, such as one made in the same place. -/
theorem scopes_grow_apart (h : Recorded log i) (c : Conditions) (program : List Stmt) :
    let steps := log ++ i.steps c program
    ((Traced.runAll (i.setting c) c.fuel program [] i.machine).1 = runAll (i.setting c) c.fuel program i.machine ∧
      ∃ m, Path i.machine (i.steps c program) m ∧
        ∀ m' ∈ (runAll (i.setting c) c.fuel program i.machine).machine?, m' = m) ∧
    ((∀ t ∈ steps, t.machine.store.Older t.after.store) ∧
      steps.Pairwise fun t u => t.after.store.Older u.machine.store) ∧
    (∀ m, Passes steps i m →
      (m.scope < m.store.next ∧ ∀ v, m.Holds v → v.Rooted m.store.next) ∧
      (∀ s < m.store.next, (m.store.chain s).Pairwise (· > ·) ∧
        (m.store.chain s).getLast? = some Machine.globals) ∧
      (∀ s s', s ≠ s' → m.store.enclosing? s = m.store.enclosing? s' → s ∉ m.store.chain s') ∧
      ∀ setting fuel,
        (∀ s, ∀ m' ∈ (Eval.execute setting fuel s m).machine?, ∀ a < m.store.next, ∀ name,
          m'.store.Has a name → m.store.Has a name ∨ a = m.scope ∧ name ∈ s.declared) ∧
        (∀ e, ∀ m' ∈ (Eval.evaluate setting fuel e m).machine?, ∀ a < m.store.next, ∀ name,
          m'.store.Has a name → m.store.Has a name) ∧
        ∀ e v m', Eval.evaluate setting fuel e m = .done v m' → v.Rooted m'.store.next) ∧
    (∀ t ∈ steps, ∀ s name,
      (t.after.store.Has s name → t.machine.store.Has s name ∨ s = t.machine.scope ∨ t.machine.Apart s) ∧
      (t.after.store.cell? s name ≠ t.machine.store.cell? s name →
        t.move.Sets s name ∧ (s ∈ t.machine.store.chain t.machine.scope ∨ t.machine.Apart s)) ∧
      ∀ s' ∈ t.machine.store.chain t.machine.scope, s' ∉ t.machine.store.chain s → s ∉ t.machine.store.chain s' →
        t.after.store.cell? s name = t.machine.store.cell? s name ∨ t.machine.Apart s) ∧
    (∀ t ∈ steps, ∀ around, t.move = .addScope around →
      t.after.store.chain t.machine.store.next = t.machine.store.next :: t.machine.store.chain around ∧
        t.after.Apart t.machine.store.next ∧ ∀ name, ¬t.after.store.Has t.machine.store.next name) ∧
    (steps.Pairwise fun t u => ∀ a b, t.move = .addScope a → u.move = .addScope b →
      t.machine.store.next < u.machine.store.next ∧ ∀ w ∈ steps, ∀ x name,
        (w.move.Sets t.machine.store.next x →
          w.after.store.cell? u.machine.store.next name = w.machine.store.cell? u.machine.store.next name) ∧
        (w.move.Sets u.machine.store.next x →
          w.after.store.cell? t.machine.store.next name = w.machine.store.cell? t.machine.store.next name)) ∧
    ∀ setting fuel,
      (∀ body calls m, Traced.execute setting (fuel + 1) (.block body) calls m = Traced.making m.scope
        (fun s => Traced.inScope s (Operations.sequence (Traced.execute setting fuel) body)) calls m) ∧
      (∀ f arguments, Traced.run setting (fuel + 1) f arguments = Traced.making f.scope (fun s => do
        Traced.changes.defineAll s f.declaration.parameters arguments
        let flow ← Traced.outsideLoops
          (Traced.inScope s (Operations.sequence (Traced.execute setting fuel) f.declaration.body))
        Traced.silent (Eval.result f flow))) ∧
      ∀ method object, Traced.changes.bindThis method object = Traced.making method.scope (fun s => do
        Traced.make (.define s "this" object)
        let id ← Traced.newObject
        pure { method with id := id, scope := s }) := by
  intro steps
  obtain ⟨hfits, -, hpairs⟩ := h.steps c program
  obtain ⟨houtcome, hpath, -, -⟩ := Traced.runAll_traces (i.setting c) c.fuel program 0 [] _ h.grown.counts
  refine ⟨⟨houtcome, hpath⟩, ⟨fun t ht => (hfits t ht).older, hpairs⟩, fun m hm => ?_,
    fun t ht s name => ⟨(hfits t ht).binds, (hfits t ht).sets, fun s' => (hfits t ht).beside⟩,
    fun t ht around hmove => (hfits t ht).makes hmove, ?_,
    fun setting fuel => ⟨fun _ _ _ => rfl, fun _ _ => rfl, fun _ _ => rfl⟩⟩
  · obtain ⟨hclosed, hdepth⟩ := h.passes hm
    have hlinked := hclosed.grounded.linked
    refine ⟨⟨hclosed.scope, hclosed.values⟩, fun s hs => ⟨hlinked.descending s, hclosed.grounded.last s hs⟩,
      fun s s' hne he => hlinked.not_mem_of_enclosing hne he,
      fun setting fuel => ⟨fun s m' hm' a ha name => ?_, ?_, ?_⟩⟩
    · exact ((Traced.execute_extends setting fuel hclosed hdepth s).machine hm').names a name ha
    · intro e m' hm' a ha name hh
      exact (((Traced.evaluate_extends setting fuel hclosed hdepth e).machine hm').names a name ha hh).resolve_right id
    · intro e v m' hv
      have hextends := Traced.evaluate_extends setting fuel hclosed hdepth e
      rw [hv] at hextends
      exact hextends.2
  · -- the scope of the earlier step is there when the later one makes its own
    refine hpairs.imp_of_mem fun {t u} ht _ holder a b ha _ => ?_
    have hlt : t.machine.store.next < u.machine.store.next :=
      Nat.lt_of_succ_le (Nat.le_trans (Nat.le_of_eq ((hfits t ht).makes ha).2.1.newest.symm) holder.next_le)
    refine ⟨hlt, fun w hw x name => ⟨fun hs => ?_, fun hs => ?_⟩⟩
    · exact (hfits w hw).cell?_eq_of_ne hs (Nat.ne_of_lt hlt) name
    · exact (hfits w hw).cell?_eq_of_ne hs (Nat.ne_of_gt hlt) name

end Recorded

/-- Two functions that count, each in the scope of its own call. -/
def countsTwice : String :=
  "fun make() \x7b var n = 0; fun up() \x7b n = n + 1; return n; \x7d return up; \x7d var a = make(); var b = make();"

/-- The first of them counts, running inside its own scope and not in that of the other. -/
def countsInFirst (t : Step) : Bool :=
  match t.move with
  | .define s name _ => decide (s = 1 ∧ name = "n" ∧ t.machine.store.Has 2 "n" ∧ t.machine.store.next ≠ 3 ∧
      1 ∈ t.machine.store.chain t.machine.scope ∧ 1 ∉ t.machine.store.chain 2 ∧ 2 ∉ t.machine.store.chain 1)
  | _ => false

/-- The count of the other one stays as it is. -/
theorem counting_leaves_the_other_count :
    let c : Conditions := ⟨.ticking, 40⟩
    let p := Program.ofSource false countsTwice 0
    let i := (initial.bound p).ran c p
    let q := Program.ofSource false "a();" 20
    ∃ log, Recorded log (i.bound q) ∧ ∃ t ∈ (i.bound q).steps c q, t.move.Sets 1 "n" ∧
      t.machine.store.Has 2 "n" ∧ t.after.store.cell? 2 "n" = t.machine.store.cell? 2 "n" := by
  intro c p i q
  have hb : initial.bind p = .ok (initial.bound p) := bind_eq_bound (by decide +kernel)
  obtain ⟨error, hr⟩ : ∃ error, (initial.bound p).interpret c p = some (error, i) :=
    interpret_eq_ran (by decide +kernel)
  have hb' : i.bind q = .ok (i.bound q) := bind_eq_bound (by decide +kernel)
  have hany : ((i.bound q).steps c q).any countsInFirst = true := by decide +kernel
  obtain ⟨t, ht, hcounts⟩ := List.any_eq_true.1 hany
  have hrecorded : Recorded _ (i.bound q) := .bind (.interpret (.bind .initial hb) hr) hb'
  obtain ⟨-, -, -, hsteps, -⟩ := Recorded.scopes_grow_apart hrecorded c q
  unfold countsInFirst at hcounts
  split at hcounts
  · next s name value hmove =>
    obtain ⟨rfl, rfl, hhas, hnext, hinside, hout, hout'⟩ := of_decide_eq_true hcounts
    refine ⟨_, hrecorded, t, ht, hmove ▸ ⟨rfl, rfl⟩, hhas, ?_⟩
    obtain hsame | hnew := (hsteps t (List.mem_append_right _ ht) 2 "n").2.2 1 hinside hout hout'
    · exact hsame
    · exact absurd hnew.newest hnext
  · cases hcounts

end Interpreter

end LoxLang
