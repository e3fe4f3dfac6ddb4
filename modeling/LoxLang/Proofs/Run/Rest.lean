import LoxLang.Proofs.Run.Frames

namespace LoxLang.Interpreter

/-- An interpreter on which any programs have been run, whatever was noted or forgotten of their names. -/
inductive Used : Interpreter → Prop
  | initial : Used .initial
  | noted {i : Interpreter} (h : Used i) (distances : Distances) (topLevel : List OccurrenceId) :
    Used { i with distances := distances, topLevel := topLevel }
  | taken {i : Interpreter} (h : Used i) : Used i.takePrinted.2
  | interpret {i i' : Interpreter} {c : Conditions} {program : List Stmt} {error : Option RuntimeError} (h : Used i)
    (hr : i.interpret c program = some (error, i')) : Used i'

/-- An interpreter keeps the machine its run has ended in, after an error too. -/
theorem machine_of_interpret {i i' : Interpreter} {c : Conditions} {program : List Stmt} {error : Option RuntimeError}
    (hr : i.interpret c program = some (error, i')) :
    i'.machine ∈ (runAll (i.setting c) c.fuel program i.machine).machine? := by
  obtain ⟨m', hm', rfl⟩ := concluded_eq_some hr
  exact hm'

theorem counts_nil {m : Machine} (hm : m.callDepth ≤ maxCallDepth) : m.Counts m.callDepth [] := ⟨rfl, hm⟩

/-- By induction on the programs: each run is begun at rest, and puts back what it has changed. -/
theorem Used.frame_eq {i : Interpreter} (h : Used i) : i.machine.frame = ⟨Machine.globals, 0, 0⟩ := by
  induction h with
  | initial => rfl
  | noted _ _ _ ih => exact ih
  | taken _ ih => exact ih
  | @interpret i i' c program error _ hr ih =>
    have hd : i.machine.callDepth = 0 := congrArg Machine.Frame.callDepth ih
    have hm : i.machine.callDepth ≤ maxCallDepth := hd ▸ Nat.zero_le _
    have hframed := Traced.runAll_traces (i.setting c) c.fuel program _ _ _ (counts_nil hm)
    exact (hframed.frame _ (machine_of_interpret hr)).trans ih

/-- Whatever way a statement or an expression ends, its scope and its depths are what they were. In the run of a program
the depth of calls is at every step the number of calls that are open, at most as many as there may be, and no depth is
lowered that is zero. So an interpreter is at rest between any two programs. -/
theorem frame_restored_however_a_run_ends :
    (∀ (setting : Setting) (fuel : Nat) (m m' : Machine), m.callDepth ≤ maxCallDepth →
      (∀ s : Stmt, m' ∈ (Eval.execute setting fuel s m).machine? → m'.frame = m.frame) ∧
      ∀ e : Expr, m' ∈ (Eval.evaluate setting fuel e m).machine? → m'.frame = m.frame) ∧
    (∀ (setting : Setting) (fuel : Nat) (program : List Stmt) (m : Machine), m.callDepth ≤ maxCallDepth →
      (Traced.runAll setting fuel program [] m).1 = runAll setting fuel program m ∧
      (∃ m', Path m (Traced.runAll setting fuel program [] m).2 m' ∧
        ∀ m'' ∈ (runAll setting fuel program m).machine?, m'' = m') ∧
      ∀ t ∈ (Traced.runAll setting fuel program [] m).2,
        t.machine.callDepth = m.callDepth + t.calls.length ∧
        t.machine.callDepth ≤ maxCallDepth ∧ t.after.callDepth ≤ maxCallDepth ∧
        (t.move = .closeCall → 0 < t.machine.callDepth) ∧ (t.move = .leaveLoop → 0 < t.machine.loopDepth)) ∧
    ∀ i, Used i → i.machine.scope = Machine.globals ∧ i.machine.loopDepth = 0 ∧ i.machine.callDepth = 0 := by
  refine ⟨fun setting fuel m m' hm => ⟨fun s => ?_, fun e => ?_⟩, fun setting fuel program m hm => ?_, fun i hi => ?_⟩
  · exact (((Traced.operations_trace setting).at fuel).execute s _ _ _ (counts_nil hm)).frame m'
  · exact (((Traced.operations_trace setting).at fuel).evaluate e _ _ _ (counts_nil hm)).frame m'
  · obtain ⟨ho, hpath, hcounted, -⟩ := Traced.runAll_traces setting fuel program _ _ _ (counts_nil hm)
    refine ⟨ho, hpath, fun t ht => ?_⟩
    obtain ⟨⟨hdepth, hle⟩, hafter, hcloses, hleaves⟩ := hcounted t ht
    exact ⟨hdepth, hle, hafter, hcloses, hleaves⟩
  · have hf := hi.frame_eq
    exact ⟨congrArg Machine.Frame.scope hf, congrArg Machine.Frame.loopDepth hf, congrArg Machine.Frame.callDepth hf⟩

/-- A function that calls itself, called when all calls but one are open: the second call is one too many, and after it
the machine is back where the first was made. -/
theorem frame_restored_after_overflow :
    let f : Token := ⟨.identifier, "f", 1⟩
    let again : Stmt := .expression (.call (.variable 0 f) ⟨.mark .rightParen, ")", 1⟩ [])
    let m : Machine :=
      { Machine.initial with
        store := Machine.initial.store.define Machine.globals "f"
          (.function ⟨0, .mk f [] [again], Machine.globals, false⟩)
        callDepth := 4095 }
    ∃ m', m' ∈ (Eval.execute ⟨∅, .ticking⟩ 20 again m).machine? ∧ m.callDepth ≤ maxCallDepth ∧
      m'.frame = ⟨0, 0, 4095⟩ := by
  intro f again m
  have hends : (Eval.execute ⟨∅, .ticking⟩ 20 again m).machine?.isSome := by decide +kernel
  have hm : m.callDepth ≤ maxCallDepth := by decide
  obtain ⟨m', hm'⟩ := Option.isSome_iff_exists.1 hends
  exact ⟨m', hm', hm, ((frame_restored_however_a_run_ends.1 _ 20 m m' hm).1 again hm').trans rfl⟩

end LoxLang.Interpreter
