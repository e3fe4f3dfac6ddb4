import LoxLang.Proofs.Run.Values
import LoxLang.Proofs.Run.Trace

namespace LoxLang
open Scoping

/-- What a moment fills is filled in the store. -/
def Moment.Remembered (μ : Moment) (st : Store) : Prop :=
  ∀ s name, s ≠ Machine.globals → μ.Assigns s name → st.Filled s name

/-- The moment has a site where its machine stands, and its distance is that of the site. -/
structure Moment.At (μ : Moment) (σ : Site) : Prop where
  occurrence : σ.occurrence = μ.occurrence
  stands : μ.machine.store.Stands μ.machine.scope σ.context
  distance : μ.distance = σ.distance?

/-- Moments of a run from a store. -/
structure Sound (S : Site → Prop) (st : Store) (log : List Moment) : Prop where
  at_site : ∀ μ ∈ log, ∃ σ, S σ ∧ μ.At σ
  filled : ∀ μ ∈ log, ∀ s name, s ≠ Machine.globals → st.Filled s name → μ.machine.store.Filled s name
  remembered : log.Pairwise fun ν μ => ν.Remembered μ.machine.store

/-- What a part of a run leads to, whether it ends with a value or an error. -/
structure Leads (S : Site → Prop) (current : Option ScopeId) (m m' : Machine) : Prop where
  ok : m'.Ok S
  scope : m'.scope = m.scope
  grows : Store.Grows current m.store m'.store

/-- A value satisfies the condition told, in the store in which it came about. -/
def Eval.Outcome.Safe {α : Type} (S : Site → Prop) (current : Option ScopeId) (m : Machine)
    (Q : α → Store → Prop) : Outcome α → Prop
  | .done a m' => Leads S current m m' ∧ Q a m'.store
  | .failed _ m' => Leads S current m m'
  | .exhausted => True

/-- A computation after which the values of the machine are in order, whatever way it ends, and so are all moments on
the way. There is one rule for each way of putting computations together. -/
structure Safe {α : Type} (S : Site → Prop) (current : Option ScopeId) (m : Machine) (x : Logged α)
    (Q : α → Store → Prop) : Prop where
  sound : Sound S m.store (x m).2
  outcome : (x m).1.Safe S current m Q
  remembered : ∀ m' ∈ (x m).1.machine?, ∀ μ ∈ (x m).2, μ.Remembered m'.store

variable {α β : Type} {S : Site → Prop} {current : Option ScopeId} {m m' m'' : Machine} {st : Store}
  {Q : α → Store → Prop} {R : β → Store → Prop}

theorem Moment.Remembered.grows {μ : Moment} {st' : Store} (h : μ.Remembered st) (hg : Store.Grows current st st') :
    μ.Remembered st' := fun s name hs ha => hg.filled s name hs (h s name hs ha)

namespace Sound

theorem nil (S : Site → Prop) (st : Store) : Sound S st [] :=
  ⟨by simp, by simp, .nil⟩

theorem append {st' : Store} {log log' : List Moment} (h : Sound S st log) (h' : Sound S st' log')
    (hg : Store.Grows current st st') (hr : ∀ μ ∈ log, μ.Remembered st') : Sound S st (log ++ log') where
  at_site := by
    intro μ hμ
    rcases List.mem_append.1 hμ with hμ | hμ
    · exact h.at_site μ hμ
    · exact h'.at_site μ hμ
  filled := by
    intro μ hμ s name hs hf
    rcases List.mem_append.1 hμ with hμ | hμ
    · exact h.filled μ hμ s name hs hf
    · exact h'.filled μ hμ s name hs (hg.filled s name hs hf)
  remembered := by
    refine List.pairwise_append.2 ⟨h.remembered, h'.remembered, fun ν hν μ hμ s name hs ha => ?_⟩
    exact h'.filled μ hμ s name hs (hr ν hν s name hs ha)

end Sound

namespace Leads

theorem refl (h : m.Ok S) : Leads S current m m :=
  ⟨h, rfl, .refl _ _⟩

theorem trans (h : Leads S current m m') (h' : Leads S current m' m'') : Leads S current m m'' :=
  ⟨h'.ok, h'.scope.trans h.scope, h.grows.trans h'.grows⟩

theorem widen (h : Leads S none m m') : Leads S current m m' :=
  ⟨h.ok, h.scope, h.grows.widen⟩

/-- What is named in a scope that is new is nothing to the scopes there were. -/
theorem inside {s : ScopeId} (h : Leads S none m m') (hs : m.store.next ≤ s) (h' : Leads S (some s) m' m'') :
    Leads S none m m'' :=
  ⟨h'.ok, h'.scope.trans h.scope, h.grows.inside hs h'.grows⟩

end Leads

namespace Eval.Outcome

theorem Safe.imp {o : Outcome α} {current' : Option ScopeId} {Q' : α → Store → Prop}
    (h : o.Safe S current m Q) (hl : ∀ m', Leads S current m m' → Leads S current' m'' m')
    (hQ : ∀ a m', Leads S current m m' → Q a m'.store → Q' a m'.store) : o.Safe S current' m'' Q' := by
  cases o with
  | done a m' => exact ⟨hl m' h.1, hQ a m' h.1 h.2⟩
  | failed e m' => exact hl m' h
  | exhausted => trivial

theorem Safe.leads {o : Outcome α} (h : o.Safe S current m Q) (hm : m' ∈ o.machine?) : Leads S current m m' := by
  cases o with
  | done a m' => cases hm; exact h.1
  | failed e m' => cases hm; exact h
  | exhausted => cases hm

end Eval.Outcome

namespace Eval

/-- An error ends both; a value leads on to the second computation. -/
theorem safe_bind {x : Eval α} {f : α → Eval β} (hx : (x m).Safe S current m Q)
    (hf : ∀ a m', Leads S current m m' → Q a m'.store → (f a m').Safe S current m' R) :
    ((x >>= f) m).Safe S current m R := by
  cases h : x m with
  | done a m' =>
    rw [h] at hx
    rw [bind_done h]
    exact (hf a m' hx.1 hx.2).imp (fun _ hl => hx.1.trans hl) fun _ _ _ hR => hR
  | failed e m' =>
    rw [h] at hx
    rw [bind_failed h]
    exact hx
  | exhausted => rw [bind_exhausted h]; trivial

theorem safe_map {x : Eval α} {f : α → β} (hx : (x m).Safe S current m Q)
    (hf : ∀ a st, Q a st → R (f a) st) : ((f <$> x) m).Safe S current m R := by
  rw [map_eq_pure_bind]
  exact safe_bind hx fun a m' hl hQ => ⟨.refl hl.ok, hf a m'.store hQ⟩

end Eval

namespace Safe

theorem pure (h : m.Ok S) {a : α} (hQ : Q a m.store) : Safe S current m (pure a) Q :=
  ⟨.nil S _, ⟨.refl h, hQ⟩, fun _ _ => by rintro μ ⟨⟩⟩

theorem silent {x : Eval α} (h : (x m).Safe S current m Q) : Safe S current m (.silent x) Q :=
  ⟨.nil S _, h, fun _ _ => by rintro μ ⟨⟩⟩

theorem exhausted : Safe S current m (.silent Eval.exhausted) Q :=
  silent trivial

theorem imp {x : Logged α} {Q' : α → Store → Prop} (h : Safe S current m x Q)
    (hQ : ∀ a m', Leads S current m m' → Q a m'.store → Q' a m'.store) : Safe S current m x Q' :=
  ⟨h.sound, h.outcome.imp (fun _ hl => hl) hQ, h.remembered⟩

theorem widen {x : Logged α} (h : Safe S none m x Q) : Safe S current m x Q :=
  ⟨h.sound, h.outcome.imp (fun _ hl => hl.widen) fun _ _ _ hQ => hQ, h.remembered⟩

/-- One computation after another, where both together lead as told. -/
theorem bind_of {x : Logged α} {f : α → Logged β} {current' : α → Option ScopeId} {current'' : Option ScopeId}
    (hx : Safe S current m x Q)
    (hf : ∀ a m', Leads S current m m' → Q a m'.store → Safe S (current' a) m' (f a) R)
    (hfail : ∀ m', Leads S current m m' → Leads S current'' m m')
    (hlead : ∀ a m' m'', Leads S current m m' → Q a m'.store → Leads S (current' a) m' m'' →
      Leads S current'' m m'') : Safe S current'' m (x >>= f) R := by
  obtain ⟨hs, ho, hr⟩ := hx
  rcases h : x m with ⟨⟨a, m'⟩ | ⟨e, m'⟩ | _, log⟩
  · rw [h] at hs ho hr
    obtain ⟨hl, hQ⟩ := ho
    obtain ⟨hs', ho', hr'⟩ := hf a m' hl hQ
    constructor <;> rw [Telling.bind_done h]
    · exact hs.append hs' hl.grows (hr m' rfl)
    · exact ho'.imp (fun m'' hl' => hlead a m' m'' hl hQ hl') fun _ _ _ hR => hR
    · intro m'' hm μ hμ
      rcases List.mem_append.1 hμ with hμ | hμ
      · exact (hr m' rfl μ hμ).grows (ho'.leads hm).grows
      · exact hr' m'' hm μ hμ
  · rw [h] at hs ho hr
    constructor <;> rw [Telling.bind_failed h]
    · exact hs
    · exact hfail m' ho
    · exact hr
  · rw [h] at hs
    constructor <;> rw [Telling.bind_exhausted h]
    · exact hs
    · trivial
    · rintro m' ⟨⟩

/-- Both name things in one scope at most, the same one. -/
theorem bind {x : Logged α} {f : α → Logged β} (hx : Safe S current m x Q)
    (hf : ∀ a m', Leads S current m m' → Q a m'.store → Safe S current m' (f a) R) :
    Safe S current m (x >>= f) R :=
  hx.bind_of hf (fun _ hl => hl) fun _ _ _ hl _ hl' => hl.trans hl'

/-- A computation that makes a scope, and another that gives names to it. -/
theorem bind_inside {x : Logged ScopeId} {f : ScopeId → Logged β} {Q : ScopeId → Store → Prop}
    (hx : Safe S none m x fun s st => m.store.next ≤ s ∧ Q s st)
    (hf : ∀ s m', Leads S none m m' → Q s m'.store → Safe S (some s) m' (f s) R) :
    Safe S none m (x >>= f) R :=
  hx.bind_of (fun s m' hl hQ => hf s m' hl hQ.2) (fun _ hl => hl) fun _ _ _ hl hQ hl' => hl.inside hQ.1 hl'

/-- A computation under a combinator that changes no more than the depths and the scope, and puts these back. -/
theorem under {x : Logged α} {combinator : Eval α → Eval α} {enter : Machine → Machine}
    (restore : Machine → Machine) (h : Safe S current (enter m) x Q)
    (hc : combinator x.plain m = Eval.restoring restore x.plain (enter m))
    (hs : (enter m).store = m.store) (hl : ∀ m', Leads S current (enter m) m' → Leads S current m (restore m'))
    (hr : ∀ m', (restore m').store = m'.store) : Safe S current m (.under combinator enter x) Q := by
  obtain ⟨hsound, ho, hrem⟩ := h
  rw [hs] at hsound
  refine ⟨hsound, ?_, ?_⟩
  · change (combinator x.plain m).Safe S current m Q
    rw [hc]
    unfold Eval.restoring Telling.plain
    cases hx : (x (enter m)).1 with
    | done a m' =>
      rw [hx] at ho
      exact ⟨hl m' ho.1, by rw [hr]; exact ho.2⟩
    | failed e m' =>
      rw [hx] at ho
      exact hl m' ho
    | exhausted => trivial
  · change ∀ m' ∈ (combinator x.plain m).machine?, ∀ μ ∈ (x (enter m)).2, μ.Remembered m'.store
    rw [hc, Eval.machine?_restoring]
    intro m' hm' μ hμ
    obtain ⟨inside, hinside, rfl⟩ := Option.map_eq_some_iff.1 hm'
    rw [hr]
    exact hrem inside hinside μ hμ

/-- In the scope entered names may be added; those of the place outside are as before. -/
theorem inScope {s : ScopeId} {x : Logged α} (h : Safe S (some s) { m with scope := s } x Q) :
    Safe S (some s) m (.inScope s x) Q :=
  under (fun m' => { m' with scope := m.scope }) h rfl rfl
    (fun _ hl => ⟨⟨hl.ok.cells, hl.ok.fields, hl.ok.globals⟩, rfl, hl.grows⟩) fun _ => rfl

theorem inLoop {x : Logged α} (h : Safe S current { m with loopDepth := m.loopDepth + 1 } x Q) :
    Safe S current m (.inLoop x) Q :=
  under (fun m' => { m' with loopDepth := m'.loopDepth - 1 }) h rfl rfl
    (fun _ hl => ⟨⟨hl.ok.cells, hl.ok.fields, hl.ok.globals⟩, hl.scope, hl.grows⟩) fun _ => rfl

theorem outsideLoops {x : Logged α} (h : Safe S current { m with loopDepth := 0 } x Q) :
    Safe S current m (.outsideLoops x) Q :=
  under (fun m' => { m' with loopDepth := m.loopDepth }) h rfl rfl
    (fun _ hl => ⟨⟨hl.ok.cells, hl.ok.fields, hl.ok.globals⟩, hl.scope, hl.grows⟩) fun _ => rfl

/-- A call leaves the scope that may get names alone. -/
theorem inCall {x : Logged α} (h : Safe S current { m with callDepth := m.callDepth + 1 } x Q) :
    Safe S current m (.inCall x) Q :=
  under (fun m' => { m' with callDepth := m'.callDepth - 1 }) h rfl rfl
    (fun _ hl => ⟨⟨hl.ok.cells, hl.ok.fields, hl.ok.globals⟩, hl.scope, hl.grows⟩) fun _ => rfl

end Safe

end LoxLang
