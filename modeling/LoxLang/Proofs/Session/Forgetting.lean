import LoxLang.Proofs.Run.Seam
import LoxLang.Proofs.Session.OnTheWay

namespace LoxLang
open Scoping

namespace Interpreter

variable {sites : List Site} {log : List Moment} {i i' j : Interpreter} {n n₀ n' : OccurrenceId}
  {program : List Stmt} {b : Binding} {es : List BindingError}

/-- For a program that is accepted, to note on the way or at the end is the same. -/
theorem noteAll_of_ok (h : Binding.ofProgram program = .ok b) (i : Interpreter) :
    i.noteAll program = i.addBinding b := by
  rw [Binding.ofProgram_eq] at h
  split at h
  · cases h
    rfl
  · cases h

theorem bindOnTheWay_of_ok (h : Binding.ofProgram program = .ok b) (drops : Bool) (i : Interpreter) :
    i.bindOnTheWay drops program = ([], i.addBinding b) := by
  have hempty : (Binding.walk program).errors = #[] := Binding.exists_ofProgram_iff.1 ⟨b, h⟩
  rw [← noteAll_of_ok h i]
  simp [bindOnTheWay, hempty]

/-- The walk that ends with errors has noted something by then. -/
theorem bindOnTheWay_of_error (h : Binding.ofProgram program = .error es) (drops : Bool) (i : Interpreter) :
    es ≠ [] ∧ i.bindOnTheWay drops program =
      (es, if drops then (i.noteAll program).forget ((Binding.walk program).distances.toList.map Prod.fst)
        else i.noteAll program) := by
  rw [Binding.ofProgram_eq] at h
  split at h
  · cases h
  · next hne =>
    cases h
    have hne : (Binding.walk program).errors ≠ #[] := by simpa using hne
    exact ⟨by simpa using hne, by simp [bindOnTheWay, hne]⟩

theorem bind_eq_error (h : Binding.ofProgram program = .error es) (i : Interpreter) : i.bind program = .error es := by
  unfold Interpreter.bind
  rw [h]
  rfl

/-- All that the walk over a program notes is about the program's own occurrences. -/
theorem walk_given (hp : Program.Read n₀ n' program) :
    (Binding.walk program).Only fun id => n₀ ≤ id ∧ id < n' := by
  apply Binding.walk_only
  intro o ho
  obtain ⟨σ, hσ, rfl⟩ := List.mem_map.1 ((Stmt.sitesOfAll .top program).mem_iff.2 ho)
  exact ⟨hp.first_le hσ, hp.lt_next hσ⟩

theorem addBinding_distances (i : Interpreter) (b : Binding) :
    (i.addBinding b).distances = b.distances.foldl (fun t d => t.insert d.1 d.2) i.distances := by
  simp [addBinding, distances_foldl_note]

theorem noteAll_distances (i : Interpreter) (program : List Stmt) :
    (i.noteAll program).distances =
      (Binding.walk program).distances.toList.foldl (fun t d => t.insert d.1 d.2) i.distances :=
  addBinding_distances i _

theorem noteAll_machine (i : Interpreter) (program : List Stmt) : (i.noteAll program).machine = i.machine :=
  addBinding_machine i _

/-- What is left at the end of a run when nothing is dropped. -/
def endedKeeping (i : Interpreter) : Eval.Outcome Unit → Option (Option RuntimeError × Interpreter)
  | .done _ m => some (none, { i with machine := m })
  | .failed e m => some (some e, { i with machine := m })
  | .exhausted => none

theorem interpretOnTheWay_eq (i : Interpreter) (c : Conditions) (program : List Stmt) :
    i.interpretOnTheWay false c program = i.endedKeeping (runAll (i.setting c) c.fuel program i.machine) := rfl

/-- The interpreter without the list of what it is to drop. -/
def bare (i : Interpreter) : Interpreter := { i with topLevel := [] }

/-- A run that has ended in a machine leaves it to the interpreter. -/
theorem exists_interpret {c : Conditions} {m : Machine}
    (hm : m ∈ (runAll (i.setting c) c.fuel program i.machine).machine?) :
    ∃ error, i.interpret c program = some (error, { i with machine := m }.forgetTopLevel) := by
  rw [interpret_eq]
  cases ho : runAll (i.setting c) c.fuel program i.machine with
  | done a m' => rw [ho] at hm; cases hm; exact ⟨none, rfl⟩
  | failed e m' => rw [ho] at hm; cases hm; exact ⟨some e, rfl⟩
  | exhausted => rw [ho] at hm; cases hm

theorem bare_addBinding (i : Interpreter) (b : Binding) : (i.bare.addBinding b).bare = (i.addBinding b).bare := by
  simp [addBinding, distances_foldl_note, bare]

namespace InOrder

/-- Nothing is known of identities that have not been given out. -/
theorem unknown (h : InOrder sites log i n) {id : OccurrenceId} (hid : n ≤ id) : i.distances[id]? = none := by
  cases hd : i.distances[id]? with
  | none => rfl
  | some d => exact absurd hid (Nat.not_le_of_lt (h.known id d hd))

/-- Identities may have been given out for something else in between. -/
theorem later (h : InOrder sites log i n) (hn : n ≤ n') : InOrder sites log i n' :=
  { h with
    known := fun id d hid => Nat.lt_of_lt_of_le (h.known id d hid) hn
    ids := fun σ hσ => Nat.lt_of_lt_of_le (h.ids σ hσ) hn }

theorem bare (h : InOrder sites log i n) : i.bare = i := by
  unfold Interpreter.bare
  rw [← h.topLevel]

/-- Distances noted for a program that is then rejected are dropped without a trace. -/
theorem forget_rejected (h : InOrder sites log i n) (hn : n ≤ n₀) (hp : Program.Read n₀ n' program) :
    ((i.noteAll program).forget ((Binding.walk program).distances.toList.map Prod.fst)).forgetTopLevel =
      i.forgetTopLevel := by
  have honly := walk_given hp
  have hfresh : ∀ id, n₀ ≤ id → i.distances[id]? = none := fun id hid => h.unknown (Nat.le_trans hn hid)
  have hdistances : ∀ k : OccurrenceId,
      ((Binding.walk program).topLevel.toList.foldl (fun (t : Distances) id => t.erase id)
        (((Binding.walk program).distances.toList.map Prod.fst).foldl (fun t id => t.erase id)
          ((Binding.walk program).distances.toList.foldl (fun t d => t.insert d.1 d.2) i.distances)))[k]? =
        i.distances[k]? := by
    intro k
    rw [getElem?_foldl_erase, getElem?_foldl_erase]
    by_cases htop : k ∈ (Binding.walk program).topLevel.toList
    · rw [if_pos htop, hfresh k (honly.topLevel k htop).1]
    · rw [if_neg htop]
      by_cases hk : k ∈ (Binding.walk program).distances.toList.map Prod.fst
      · obtain ⟨e, he, rfl⟩ := List.mem_map.1 hk
        rw [if_pos hk, hfresh e.1 (honly.distances e he).1]
      · rw [if_neg hk, getElem?_foldl_insert_of_not_mem hk]
  have hext := Std.ExtTreeMap.ext_getElem? hdistances
  have htop : i.topLevel = [] := h.topLevel
  simp only [noteAll, addBinding, distances_foldl_note, forget, forgetTopLevel, htop, List.nil_append, List.foldl_nil,
    hext]

/-- Distances of a rejected program do no harm when they are kept. -/
theorem kept_rejected (h : InOrder sites log j.bare n) (hn : n ≤ n₀) (hp : Program.Read n₀ n' program) :
    InOrder sites log (j.noteAll program).bare n' := by
  have honly := walk_given hp
  have hlater := h.later (Nat.le_trans hn hp.ids.le)
  refine { hlater with machine := ?_, scope := ?_, distances := ?_, topLevel := rfl, known := ?_, remembers := ?_ }
  · exact (noteAll_machine j program).symm ▸ h.machine
  · exact (congrArg Machine.scope (noteAll_machine j program)).trans h.scope
  · intro σ hσ hin
    change (j.noteAll program).distances[σ.id]? = _
    rw [noteAll_distances, getElem?_foldl_insert_of_not_mem]
    · exact h.distances σ hσ hin
    · intro hmem
      obtain ⟨e, he, hid⟩ := List.mem_map.1 hmem
      have hle := (honly.distances e he).1
      rw [hid] at hle
      exact absurd hle (Nat.not_le_of_lt (Nat.lt_of_lt_of_le (h.ids σ hσ) hn))
  · intro id d hid
    change (j.noteAll program).distances[id]? = _ at hid
    rw [noteAll_distances] at hid
    rcases getElem?_foldl_insert hid with hmem | hold
    · exact (honly.distances _ hmem).2
    · exact hlater.known id d hold
  · intro μ hμ
    exact (noteAll_machine j program).symm ▸ h.remembers μ hμ

/-- With nothing dropped the live sites still have their distances. -/
theorem kept_agrees (h : InOrder sites log j.bare n) (hn : n ≤ n₀) (hp : Program.Read n₀ n' program)
    (hb : Binding.ofProgram program = .ok b) (c : Conditions) :
    ((j.addBinding b).setting c).Agrees (Live sites program) := by
  have hagrees := h.agrees hn hp (bind_eq hb j.bare) c
  change ((j.bare.addBinding b).bare.setting c).Agrees _ at hagrees
  rw [bare_addBinding] at hagrees
  exact hagrees

/-- After a run that ended in the machine told, with nothing dropped. -/
theorem kept_run (h : InOrder sites log j.bare n) (hn : n ≤ n₀) (hp : Program.Read n₀ n' program)
    (hb : Binding.ofProgram program = .ok b) {c : Conditions} {m : Machine}
    (hm : m ∈ (runAll ((j.addBinding b).setting c) c.fuel program (j.addBinding b).machine).machine?) :
    ∃ log, InOrder (sites ++ Stmt.sitesAll .top program) log ({ j.addBinding b with machine := m }).bare n' := by
  have hbind := bind_eq hb j.bare
  have hbare : ({ j.addBinding b with machine := m }).bare = { (j.bare.addBinding b).bare with machine := m } := by
    rw [bare_addBinding]
    rfl
  obtain ⟨error, hr⟩ : ∃ error, (j.bare.addBinding b).interpret c program =
      some (error, { j.bare.addBinding b with machine := m }.forgetTopLevel) := by
    change m ∈ (runAll ((j.addBinding b).bare.setting c) c.fuel program (j.addBinding b).bare.machine).machine? at hm
    rw [← bare_addBinding] at hm
    change m ∈ (runAll ((j.bare.addBinding b).setting c) c.fuel program (j.bare.addBinding b).machine).machine? at hm
    exact exists_interpret hm
  have hdropped := h.interpreted hn hp hbind hr
  rw [hbare]
  refine ⟨_, { hdropped with distances := ?_, known := ?_ }⟩
  · intro σ hσ hin
    exact h.agrees hn hp hbind c σ ((List.mem_append.1 hσ).elim (fun hσ => .inr ⟨hσ, hin⟩) .inl)
  · intro id d hid
    rcases noted_or_known hp hbind hid with ⟨τ, hτ, rfl, -⟩ | hold
    · exact hp.lt_next hτ
    · exact Nat.lt_of_lt_of_le (h.known id d hold) (Nat.le_trans hn hp.ids.le)

/-- Between programs nothing is left to be forgotten. -/
theorem forgetTopLevel_eq (h : InOrder sites log i n) : i.forgetTopLevel = i := by
  have htop : i.topLevel = [] := h.topLevel
  unfold Interpreter.forgetTopLevel
  rw [htop]
  exact h.bare

end InOrder

end Interpreter

namespace Session
open Interpreter

variable {sites : List Site} {log log' : List Moment} {n n₀ n' : OccurrenceId} {s k s' : Session}
  {program : List Stmt} {i j : Interpreter}

/-- What comes of reading a source does not depend on the interpreter. -/
theorem parse_cases (s : Session) (echo : Bool) (source : String) :
    (∃ s' : Session, (∀ i, (s.on i).parse source = (none, s'.on i)) ∧ s.nextId ≤ s'.nextId) ∨
      ∃ program n', Program.Read s.nextId n' (if echo then program.map Stmt.echoed else program) ∧
        ∀ i, (s.on i).parse source = (some program, { s with nextId := n' }.on i) := by
  cases hparse : s.parse source with
  | mk program s' =>
    cases program with
    | none =>
      refine .inl ⟨s', fun i => by rw [parse_on, hparse], ?_⟩
      have hnext := parse_nextId s source
      rw [hparse] at hnext
      exact Nat.le_trans (nextId_le source s.nextId) (Nat.le_of_eq hnext.symm)
    | some program =>
      obtain ⟨herrors, rfl, rfl⟩ := parse_some hparse
      exact .inr ⟨_, _, Program.ofSource_read echo herrors, fun i => by rw [parse_on, hparse]⟩

/-- A session that drops what it has noted on the way ends as one that notes nothing of a rejected program. -/
theorem runProgramOnTheWay_eq (h : s.interpreter.InOrder sites log n) (hn : n ≤ n₀) (hp : Program.Read n₀ n' program)
    (c : Conditions) : s.runProgramOnTheWay true c program = s.runProgram c program := by
  cases hb : Binding.ofProgram program with
  | ok b =>
    rw [runProgram_eq (bind_eq hb _)]
    unfold runProgramOnTheWay
    rw [bindOnTheWay_of_ok hb]
    rfl
  | error es =>
    obtain ⟨hne, hnoted⟩ := bindOnTheWay_of_error hb true s.interpreter
    obtain ⟨e, es, rfl⟩ := List.exists_cons_of_ne_nil hne
    rw [runProgram_of_error (bind_eq_error hb _)]
    unfold runProgramOnTheWay
    rw [hnoted]
    have hdropped := h.forget_rejected hn hp
    simp only [if_true, settle, hdropped]
    rfl

theorem rel_cases {α β : Type} {r : α → β → Prop} {x : Option α} {y : Option β} (h : Option.Rel r x y) :
    (x = none ∧ y = none) ∨ ∃ a b, x = some a ∧ y = some b ∧ r a b := by
  cases h with
  | none => exact .inl ⟨rfl, rfl⟩
  | some hab => exact .inr ⟨_, _, rfl, rfl, hab⟩

/-- Two sessions that differ in nothing but what they have noted, and what both have noted is right for all sites inside
functions of the programs so far. -/
structure Beside (n : OccurrenceId) (s k : Session) : Prop where
  same : k = s.on k.interpreter
  machine : k.interpreter.machine = s.interpreter.machine
  order : ∃ sites, (∃ log, s.interpreter.InOrder sites log n) ∧ ∃ log, k.interpreter.bare.InOrder sites log n

namespace Beside

theorem initial : Beside (nextId .initial) .initial .initial := ⟨rfl, rfl, [], ⟨[], .initial⟩, [], .initial⟩

theorem later (h : Beside n s k) (hn : n ≤ n') : Beside n' s k := by
  obtain ⟨sites, ⟨log, hs⟩, log', hk⟩ := h.order
  exact ⟨h.same, h.machine, sites, ⟨log, hs.later hn⟩, log', hk.later hn⟩

theorem close (h : Beside n s k) (g : Given) : Beside n (g.close s) (g.close k) := by
  cases g with
  | source => exact h
  | line => exact ⟨congrArg clearFlags h.same, h.machine, h.order⟩

/-- At the end of a run that has left both machines alike. -/
theorem finished (h : Beside n₀ s k) (hi : i.InOrder sites log n) (hj : j.bare.InOrder sites log' n)
    (hm : j.machine = i.machine) (error : Option RuntimeError) :
    Beside n (s.finished error i) (k.finished error j) where
  same := by
    have hprinted : j.takePrinted.1 = i.takePrinted.1 := congrArg (fun m => m.printed.toList) hm
    rw [h.same]
    unfold Session.finished
    rw [hprinted]
    rfl
  machine := congrArg (fun m : Machine => { m with printed := #[] }) hm
  order := ⟨sites, ⟨log, hi.taken⟩, log', hj.taken⟩

/-- The next program does the same in both. -/
theorem runProgram (h : Beside n s k) (hn : n ≤ n₀) (hp : Program.Read n₀ n' program) (c : Conditions) :
    Option.Rel (Beside n') (s.runProgram c program) (k.runProgramOnTheWay false c program) := by
  obtain ⟨sites, ⟨log, hi⟩, log', hj⟩ := h.order
  unfold runProgramOnTheWay
  cases hb : Binding.ofProgram program with
  | error es =>
    -- what the walk noted before the error stays in the second session
    obtain ⟨hne, hnoted⟩ := bindOnTheWay_of_error hb false k.interpreter
    obtain ⟨e, es, rfl⟩ := List.exists_cons_of_ne_nil hne
    rw [runProgram_of_error (bind_eq_error hb _), hnoted, h.same]
    apply Option.Rel.some
    change Beside n' ((s.on s.interpreter.forgetTopLevel).reportAll _)
      ((s.on (k.interpreter.noteAll program)).reportAll _)
    rw [hi.forgetTopLevel_eq, reportAll_on, reportAll_on]
    refine ⟨rfl, ?_, sites, ⟨log, hi.later (Nat.le_trans hn hp.ids.le)⟩, log', hj.kept_rejected hn hp⟩
    exact (noteAll_machine k.interpreter program).trans h.machine
  | ok b =>
    have hbi := bind_eq hb s.interpreter
    -- at the sites that the run can come to both have the same distances, whatever else has been kept
    have hagrees := hj.kept_agrees hn hp hb c
    have halike := hi.runs_alike hn hp hbi c (t := (k.interpreter.addBinding b).distances) hagrees
    have hmachine : (k.interpreter.addBinding b).machine = (s.interpreter.addBinding b).machine := by
      rw [addBinding_machine, addBinding_machine, h.machine]
    have hrun : runAll ((k.interpreter.addBinding b).setting c) c.fuel program (k.interpreter.addBinding b).machine =
        runAll ((s.interpreter.addBinding b).setting c) c.fuel program (s.interpreter.addBinding b).machine :=
      (congrArg (runAll ((k.interpreter.addBinding b).setting c) c.fuel program) hmachine).trans halike
    have hended : ∀ m, m ∈ (runAll ((s.interpreter.addBinding b).setting c) c.fuel program
        (s.interpreter.addBinding b).machine).machine? → ∀ error, Beside n'
          (s.finished error { s.interpreter.addBinding b with machine := m }.forgetTopLevel)
          (k.finished error { k.interpreter.addBinding b with machine := m }) := by
      intro m hm error
      obtain ⟨log', hkept⟩ := hj.kept_run hn hp hb (c := c) (hrun.symm ▸ hm)
      obtain ⟨error', hr⟩ := exists_interpret hm
      exact h.finished (hi.interpreted hn hp hbi hr) hkept rfl error
    rw [bindOnTheWay_of_ok hb, runProgram_eq hbi, interpret_eq]
    change Option.Rel (Beside n') _ (((k.interpreter.addBinding b).interpretOnTheWay false c program).map _)
    rw [interpretOnTheWay_eq, hrun]
    cases ho : runAll ((s.interpreter.addBinding b).setting c) c.fuel program (s.interpreter.addBinding b).machine with
    | done a m => exact .some (hended m (by rw [ho]; rfl) none)
    | failed e m => exact .some (hended m (by rw [ho]; rfl) (some e))
    | exhausted => exact .none

theorem run (h : Beside s.nextId s k) (c : Conditions) (echo : Bool) (source : String) :
    Option.Rel (fun s k => Beside s.nextId s k) (s.run c echo source) (k.runOnTheWay false c echo source) := by
  have hs : s.parse source = (s.on s.interpreter).parse source := rfl
  rw [run_eq_parse]
  unfold runOnTheWay
  rw [hs, h.same]
  rcases parse_cases s echo source with ⟨s', hparse, hle⟩ | ⟨program, n', hp, hparse⟩
  · rw [hparse, hparse]
    have hlater := h.later hle
    exact .some ⟨rfl, hlater.machine, hlater.order⟩
  · rw [hparse, hparse]
    dsimp only
    have hbeside : Beside s.nextId ({ s with nextId := n' }.on s.interpreter)
        ({ s with nextId := n' }.on k.interpreter) := ⟨rfl, h.machine, h.order⟩
    rcases rel_cases (hbeside.runProgram (Nat.le_refl _) hp c) with ⟨hs', hk'⟩ | ⟨s', k', hs', hk', hended⟩
    · rw [hs', hk']
      exact .none
    · rw [hs', hk']
      have hnext : s'.nextId = n' := runProgram_nextId hs'
      exact .some (hnext ▸ hended)

theorem feed (h : Beside s.nextId s k) (g : Given) :
    Option.Rel (fun s k => Beside s.nextId s k) (s.feed g) (k.feedOnTheWay false g) := by
  unfold feedOnTheWay
  cases hg : g.program? with
  | none =>
    obtain ⟨s', hfeed, hle⟩ := feed_of_none hg s
    have hs : s.feed g = some (s'.on s.interpreter) := hfeed s.interpreter
    have hlater := h.later hle
    rw [hs, h.same]
    dsimp only
    rw [hfeed]
    exact .some ⟨rfl, hlater.machine, hlater.order⟩
  | some p =>
    obtain ⟨echo, source⟩ := p
    rw [feed_of_program hg]
    dsimp only
    rcases rel_cases (h.run g.conditions echo source) with ⟨hs', hk'⟩ | ⟨s', k', hs', hk', hended⟩
    · rw [hs', hk']
      exact .none
    · rw [hs', hk']
      have hnext : (g.close s').nextId = s'.nextId := by cases g <;> rfl
      exact .some (hnext ▸ hended.close g)

/-- However much the two sessions are given. -/
theorem feedAll (gs : List Given) (h : Beside s.nextId s k) :
    Option.Rel (fun s k => Beside s.nextId s k) (gs.foldlM Session.feed s) (gs.foldlM (feedOnTheWay false) k) := by
  induction gs generalizing s k with
  | nil => exact .some h
  | cons g gs ih =>
    rw [List.foldlM_cons, List.foldlM_cons]
    rcases rel_cases (h.feed g) with ⟨hs', hk'⟩ | ⟨s', k', hs', hk', hnext⟩
    · rw [hs', hk']
      exact .none
    · rw [hs', hk']
      exact ih hnext

end Beside

/-- The sites of programs. -/
def sitesOf (programs : List (List Stmt)) : List Site := programs.flatMap (Stmt.sitesAll .top)

/-- A session that has accepted the programs told: the distances are those of their sites inside functions. -/
structure Settled (programs : List (List Stmt)) (n : OccurrenceId) (s : Session) : Prop where
  order : ∃ log, s.interpreter.InOrder (sitesOf programs) log n
  noted : ∀ (id : OccurrenceId) (d : Nat), s.interpreter.distances[id]? = some d →
    ∃ σ ∈ sitesOf programs, σ.Inner ∧ σ.id = id ∧ σ.distance? = some d
  read : ∀ p ∈ programs, ∃ n n', Program.Read n n' p
  accepted : ∀ p ∈ programs, ∃ b, Binding.ofProgram p = .ok b

namespace Settled

variable {programs : List (List Stmt)}

theorem initial : Settled [] 0 .initial where
  order := ⟨[], .initial⟩
  noted := by
    intro id d h
    exact absurd (Interpreter.InOrder.initial.known id d h) (Nat.not_lt_zero id)
  read := by rintro p ⟨⟩
  accepted := by rintro p ⟨⟩

theorem later (h : Settled programs n s) (hn : n ≤ n') : Settled programs n' s := by
  obtain ⟨log, horder⟩ := h.order
  exact { h with order := ⟨log, horder.later hn⟩ }

/-- Nothing is told here but of the interpreter. -/
theorem on_eq (h : Settled programs n s) (hi : s'.interpreter = s.interpreter) : Settled programs n s' where
  order := hi ▸ h.order
  noted := hi ▸ h.noted
  read := h.read
  accepted := h.accepted

/-- What is left of the distances after a run. -/
theorem noted_inner (hp : Program.Read n₀ n' program) {i' : Interpreter} (hb : i.bind program = .ok i')
    (m : Machine) {id : OccurrenceId} {d : Nat}
    (hid : ({ i' with machine := m }.forgetTopLevel).distances[id]? = some d) :
    (∃ τ ∈ Stmt.sitesAll .top program, τ.Inner ∧ τ.id = id ∧ τ.distance? = some d) ∨ i.distances[id]? = some d := by
  rw [forgetTopLevel, getElem?_foldl_erase] at hid
  by_cases htop : id ∈ i'.topLevel
  · rw [if_pos htop] at hid
    cases hid
  · rw [if_neg htop] at hid
    refine (InOrder.noted_or_known hp hb hid).imp_left fun hnew => ?_
    obtain ⟨τ, hτ, rfl, hd⟩ := hnew
    refine ⟨τ, hτ, fun hbody => htop ?_, rfl, hd⟩
    rw [(bind_ok hp.formed hb).2.2.1]
    exact List.mem_append_right _ (List.mem_filterMap.2 ⟨τ, hτ, by simp [Binding.notedTopLevel, hbody, hd]⟩)

/-- A program that is accepted adds its sites inside functions, and one that is not adds nothing. -/
theorem runProgram (h : Settled programs n s) (hn : n ≤ n₀) (hp : Program.Read n₀ n' program) {c : Conditions}
    (hr : s.runProgram c program = some s') :
    Settled (programs ++ (if (s.interpreter.bind program).toOption.isSome then some program else none).toList)
      n' s' := by
  obtain ⟨log, horder⟩ := h.order
  cases hb : Binding.ofProgram program with
  | error es =>
    rw [runProgram_of_error (bind_eq_error hb _)] at hr
    rw [bind_eq_error hb]
    cases hr
    have hsame : (Session.reportAll (s.on s.interpreter.forgetTopLevel) (es.map .binding)).interpreter =
        s.interpreter := by
      rw [reportAll_interpreter, on_interpreter, horder.forgetTopLevel_eq]
    have hsettled := (h.later (Nat.le_trans hn hp.ids.le)).on_eq hsame
    rw [show (if (Except.error es : Except _ Interpreter).toOption.isSome then some program else none).toList = []
      from rfl, List.append_nil]
    exact hsettled
  | ok b =>
    have hbind := bind_eq hb s.interpreter
    rw [runProgram_eq hbind, Option.map_eq_some_iff] at hr
    obtain ⟨⟨error, i⟩, hrun, rfl⟩ := hr
    obtain ⟨m, -, hi⟩ := InOrder.interpret_machine hrun
    have hsites : sitesOf (programs ++ [program]) = sitesOf programs ++ Stmt.sitesAll .top program := by
      simp [sitesOf]
    rw [hbind]
    change Settled (programs ++ [program]) n' _
    constructor
    case order => exact ⟨_, hsites ▸ (horder.interpreted hn hp hbind hrun).taken⟩
    case noted =>
      intro id d hid
      rw [hsites]
      have hid : i.distances[id]? = some d := hid
      rw [hi] at hid
      rcases noted_inner hp hbind m hid with ⟨τ, hτ, htau⟩ | hold
      · exact ⟨τ, List.mem_append_right _ hτ, htau⟩
      · obtain ⟨σ, hσ, hsigma⟩ := h.noted id d hold
        exact ⟨σ, List.mem_append_left _ hσ, hsigma⟩
    case read =>
      intro p hmem
      rcases List.mem_append.1 hmem with hmem | hmem
      · exact h.read p hmem
      · rw [List.mem_singleton.1 hmem]
        exact ⟨_, _, hp⟩
    case accepted =>
      intro p hmem
      rcases List.mem_append.1 hmem with hmem | hmem
      · exact h.accepted p hmem
      · rw [List.mem_singleton.1 hmem]
        exact ⟨b, hb⟩

theorem feed (h : Settled programs s.nextId s) {g : Given} (hg : s.feed g = some s') :
    Settled (programs ++ (s.accepted? g).toList) s'.nextId s' := by
  cases hp : g.program? with
  | none =>
    have haccepted : s.accepted? g = none := by simp [accepted?, hp]
    rw [haccepted]
    obtain ⟨s₁, hfeed, hle⟩ := feed_of_none hp s
    have hs : s' = s₁.on s.interpreter := Option.some.inj (hg.symm.trans (hfeed s.interpreter))
    have hsettled : Settled programs s'.nextId s' := by
      rw [hs]
      exact (h.later hle).on_eq rfl
    simpa using hsettled
  | some p =>
    obtain ⟨echo, source⟩ := p
    rw [feed_of_program hp, Option.map_eq_some_iff] at hg
    obtain ⟨s₁, hrun, rfl⟩ := hg
    have hclose : ∀ {ps}, Settled ps s₁.nextId s₁ → Settled ps (g.close s₁).nextId (g.close s₁) := by
      intro ps hsettled
      cases g <;> exact hsettled.on_eq rfl
    apply hclose
    have hs : s.parse source = (s.on s.interpreter).parse source := rfl
    have haccepted : s.accepted? g = (s.parse source).1.bind fun program =>
        if (s.interpreter.bind (if echo then program.map Stmt.echoed else program)).toOption.isSome
          then some (if echo then program.map Stmt.echoed else program) else none := by
      unfold accepted?
      rw [hp]
      rfl
    rw [run_eq_parse] at hrun
    rw [haccepted]
    rw [hs] at hrun ⊢
    rcases parse_cases s echo source with ⟨s₂, hparse, hle⟩ | ⟨program, n', hread, hparse⟩
    · rw [hparse] at hrun ⊢
      cases hrun
      have hsettled : Settled (programs ++ []) s₂.nextId (s₂.on s.interpreter) := by
        rw [List.append_nil]
        exact (h.later hle).on_eq rfl
      exact hsettled
    · rw [hparse] at hrun ⊢
      have hsettled : Settled programs s.nextId ({ s with nextId := n' }.on s.interpreter) := h.on_eq rfl
      have hnext : s₁.nextId = n' := runProgram_nextId hrun
      have hran := hsettled.runProgram (Nat.le_refl _) hread hrun
      rw [hnext]
      exact hran

/-- The distances are those that were noted for the occurrences inside functions. -/
theorem getElem?_distances (h : Settled programs n s) (id : OccurrenceId) (d : Nat) :
    s.interpreter.distances[id]? = some d ↔ ∃ p ∈ programs, ∃ b, Binding.ofProgram p = .ok b ∧ (id, d) ∈ b.distances ∧
      ∃ σ ∈ Stmt.sitesAll .top p, σ.Inner ∧ σ.id = id := by
  constructor
  · intro hid
    obtain ⟨σ, hσ, hin, rfl, hd⟩ := h.noted id d hid
    obtain ⟨p, hp, hσ⟩ := List.mem_flatMap.1 hσ
    obtain ⟨b, hb⟩ := h.accepted p hp
    obtain ⟨n₁, n₂, hread⟩ := h.read p hp
    refine ⟨p, hp, b, hb, ?_, σ, hσ, hin, rfl⟩
    rw [(Binding.ofProgram_ok hread.formed hb).1]
    exact List.mem_filterMap.2 ⟨σ, hσ, by simp [Binding.noted, hd]⟩
  · rintro ⟨p, hp, b, hb, hmem, σ, hσ, hin, rfl⟩
    obtain ⟨n₁, n₂, hread⟩ := h.read p hp
    rw [(Binding.ofProgram_ok hread.formed hb).1] at hmem
    obtain ⟨τ, hτ, hnoted⟩ := List.mem_filterMap.1 hmem
    obtain ⟨d', hd, he⟩ := Option.map_eq_some_iff.1 hnoted
    obtain ⟨hid, rfl⟩ := Prod.mk.inj he
    have heq : τ = σ := hread.site_eq hτ hσ hid
    obtain ⟨log, horder⟩ := h.order
    rw [horder.distances σ (List.mem_flatMap.2 ⟨p, hp, hσ⟩) hin, ← heq, hd]

end Settled

theorem Fed.settled {programs : List (List Stmt)} (h : Fed programs s) : Settled programs s.nextId s := by
  induction h with
  | initial => exact .initial
  | feed _ hg ih => exact ih.feed hg

/-- Nothing is changed by noting distances on the way, as long as they are dropped when the walk ends with errors. -/
theorem Settled.runOnTheWay_eq {programs : List (List Stmt)} (h : Settled programs s.nextId s) (c : Conditions)
    (echo : Bool) (source : String) : s.runOnTheWay true c echo source = s.run c echo source := by
  obtain ⟨log, horder⟩ := h.order
  have hs : s.parse source = (s.on s.interpreter).parse source := rfl
  rw [run_eq_parse]
  unfold runOnTheWay
  rw [hs]
  rcases parse_cases s echo source with ⟨s', hparse, -⟩ | ⟨program, n', hread, hparse⟩
  · rw [hparse]
  · rw [hparse]
    exact runProgramOnTheWay_eq (s := { s with nextId := n' }.on s.interpreter) horder (Nat.le_refl _) hread _

theorem Fed.feedOnTheWay_eq {programs : List (List Stmt)} (h : Fed programs s) (g : Given) :
    s.feedOnTheWay true g = s.feed g := by
  unfold feedOnTheWay
  cases hg : g.program? with
  | none => rfl
  | some p =>
    obtain ⟨echo, source⟩ := p
    rw [feed_of_program hg]
    dsimp only
    rw [h.settled.runOnTheWay_eq]

theorem Fed.feedAll_eq {programs : List (List Stmt)} (gs : List Given) (h : Fed programs s) :
    gs.foldlM (feedOnTheWay true) s = gs.foldlM Session.feed s := by
  induction gs generalizing s programs with
  | nil => rfl
  | cons g gs ih =>
    rw [List.foldlM_cons, List.foldlM_cons, h.feedOnTheWay_eq g]
    cases hg : s.feed g with
    | none => rfl
    | some s' => exact ih (h.feed hg)

/-- What is left of a session besides what it has noted. -/
def unnoted (s : Session) : Session := s.on { s.interpreter with distances := ∅, topLevel := [] }

/-- Two such sessions have written the same and are in the same state. -/
theorem Beside.unnoted_eq (h : Beside n s k) : k.unnoted = s.unnoted := by
  have hbare := congrArg (fun m => (⟨m, ∅, []⟩ : Interpreter)) h.machine
  have hon := congrArg (fun i => s.on i) hbare
  rw [h.same]
  exact hon

/-- Between programs the distances are just those of the occurrences inside functions of the programs accepted so
far, and nothing comes of what is rejected. This is so too if the distances are noted while the walk over a program
goes on and are dropped at its end. If they are never dropped, all that can be seen of the session is the same. -/
theorem forgetting_is_exact_and_unseen :
    (∀ programs s, Fed programs s → s.interpreter.topLevel = [] ∧
      (∀ (id : OccurrenceId) (d : Nat), s.interpreter.distances[id]? = some d ↔
        ∃ p ∈ programs, ∃ b, Binding.ofProgram p = .ok b ∧ (id, d) ∈ b.distances ∧
          ∃ σ ∈ Stmt.sitesAll .top p, σ.Inner ∧ σ.id = id) ∧
      ∀ g s', s.accepted? g = none → s.feed g = some s' → s'.interpreter.distances = s.interpreter.distances) ∧
    ∀ gs : List Given, gs.foldlM (feedOnTheWay true) initial = gs.foldlM feed initial ∧
      (gs.foldlM (feedOnTheWay false) initial).map unnoted = (gs.foldlM feed initial).map unnoted := by
  refine ⟨fun programs s h => ?_, fun gs => ⟨Fed.initial.feedAll_eq gs, ?_⟩⟩
  · obtain ⟨log, horder⟩ := h.settled.order
    refine ⟨horder.topLevel, h.settled.getElem?_distances, fun g s' hrejected hfeed => ?_⟩
    have hfed := h.feed hfeed
    rw [hrejected, Option.toList_none, List.append_nil] at hfed
    apply Std.ExtTreeMap.ext_getElem?
    intro id
    apply Option.ext
    intro d
    exact (hfed.settled.getElem?_distances id d).trans (h.settled.getElem?_distances id d).symm
  · rcases rel_cases (Beside.initial.feedAll gs) with ⟨hs, hk⟩ | ⟨s, k, hs, hk, hbeside⟩
    · rw [hs, hk]
    · rw [hs, hk]
      exact congrArg some hbeside.unnoted_eq

/-- A kept function has its distance when the next source is rejected, after its own function has been walked over. -/
theorem rejected_source_keeps_distance :
    let kept : Given := .source ⟨.ticking, 40⟩ "var g; \x7b var x = 1; fun f() \x7b return x; \x7d g = f; \x7d"
    let rejected : Given := .source ⟨.ticking, 40⟩ "fun h(y) \x7b return y; \x7d return;"
    ∃ s s', initial.feed kept = some s ∧ s.feed rejected = some s' ∧ s.accepted? rejected = none ∧
      s'.interpreter.distances = s.interpreter.distances ∧ s.interpreter.distances[0]? = some 1 := by
  intro kept rejected
  have hkept : (initial.feed kept).isSome := by decide +kernel
  obtain ⟨s, hs⟩ := Option.isSome_iff_exists.1 hkept
  have hdistance : ((initial.feed kept).bind fun s => s.interpreter.distances[0]?) = some 1 := by decide +kernel
  have haccepted : ((initial.feed kept).bind fun s => s.accepted? rejected).isNone := by decide +kernel
  have hrejected : ((initial.feed kept).bind fun s => s.feed rejected).isSome := by decide +kernel
  rw [hs, Option.bind_some] at hdistance haccepted hrejected
  obtain ⟨s', hs'⟩ := Option.isSome_iff_exists.1 hrejected
  have hnone : s.accepted? rejected = none := Option.isNone_iff_eq_none.1 haccepted
  have hsame := (forgetting_is_exact_and_unseen.1 _ s (.feed .initial hs)).2.2 rejected s' hnone hs'
  exact ⟨s, s', hs, hs', hnone, hsame, hdistance⟩

end Session

end LoxLang
