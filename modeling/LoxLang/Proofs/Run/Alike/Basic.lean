import Mathlib.Data.List.Forall2
import LoxLang.Proofs.Run.Computations
import LoxLang.Proofs.Run.Steps

namespace Option.Rel

variable {α β γ δ : Type} {R S : α → β → Prop} {x : Option α} {y : Option β}

theorem imp (h : Option.Rel R x y) (hi : ∀ a b, R a b → S a b) : Option.Rel S x y := by
  cases h with
  | some h => exact .some (hi _ _ h)
  | none => exact .none

theorem isSome_eq (h : Option.Rel R x y) : y.isSome = x.isSome := by
  cases h <;> rfl

theorem map {R' : γ → δ → Prop} {f : α → γ} {g : β → δ} (h : Option.Rel R x y)
    (hi : ∀ a b, R a b → R' (f a) (g b)) : Option.Rel R' (x.map f) (y.map g) := by
  cases h with
  | some h => exact .some (hi _ _ h)
  | none => exact .none

theorem map_eq {f : α → γ} {g : β → γ} (h : Option.Rel R x y) (hi : ∀ a b, R a b → g b = f a) :
    y.map g = x.map f := by
  cases h with
  | some h => exact congrArg Option.some (hi _ _ h)
  | none => rfl

theorem getD {a : α} {b : β} (h : Option.Rel R x y) (ha : R a b) : R (x.getD a) (y.getD b) := by
  cases h with
  | some h => exact h
  | none => exact ha

theorem join {x : Option (Option α)} {y : Option (Option β)} (h : Option.Rel (Option.Rel R) x y) :
    Option.Rel R x.join y.join := by
  cases h with
  | some h => exact h
  | none => exact .none

end Option.Rel

namespace LoxLang

/-- The same names with values that are related. -/
def NameMap.Alike {α : Type} (R : α → α → Prop) (b b' : NameMap α) : Prop :=
  ∀ x, Option.Rel R (b.find? x) (b'.find? x)

/-- Operators and printing tell no difference between the values. -/
inductive Value.Same : Value → Value → Prop
  | plain {v : Value} (h : v.Plain) : Value.Same v v
  | function {f f' : Closure} (hi : f'.id = f.id) (hn : f'.name = f.name) : Value.Same (.function f) (.function f')
  | class {c c' : Class} (hi : c'.id = c.id) (hn : c'.name = c.name) : Value.Same (.class c) (.class c')
  | instance (id : ObjectId) {c c' : Class} (hn : c'.name = c.name) : Value.Same (.instance id c) (.instance id c')

namespace NameMap.Alike

variable {α : Type} {R S : α → α → Prop} {b b' : NameMap α}

theorem imp (h : b.Alike R b') (hi : ∀ a a', R a a' → S a a') : b.Alike S b' := fun x => (h x).imp hi

theorem empty : (NameMap.empty : NameMap α).Alike R .empty := fun _ => .none

theorem set (h : b.Alike R b') (x : String) {a a' : α} (ha : R a a') : (b.set x a).Alike R (b'.set x a') := by
  intro y
  rw [find?_set, find?_set]
  split
  · exact .some ha
  · exact h y

/-- Tables from related entries under the same names, a later one of a name in place of an earlier one. -/
theorem ofList {entries entries' : List (String × α)}
    (h : List.Forall₂ (fun e e' => e'.1 = e.1 ∧ R e.2 e'.2) entries entries') :
    (NameMap.ofList entries).Alike R (NameMap.ofList entries') := by
  have hfold : ∀ b b' : NameMap α, b.Alike R b' →
      (entries.foldl (fun b e => b.set e.1 e.2) b).Alike R (entries'.foldl (fun b e => b.set e.1 e.2) b') := by
    induction h with
    | nil => exact fun _ _ hb => hb
    | cons he _ ih =>
      intro b b' hb
      apply ih
      dsimp only
      rw [he.1]
      exact hb.set _ he.2
  exact hfold _ _ empty

end NameMap.Alike

namespace Value.Same

variable {v v' w w' : Value}

theorem display_eq (h : v.Same v') : v'.display = v.display := by
  cases h with
  | plain h => rfl
  | function hi hn => simp [Value.display, hn]
  | «class» hi hn | «instance» id hn => simp [Value.display, hn]

theorem isTruthy_eq (h : v.Same v') : v'.isTruthy = v.isTruthy := by
  cases h <;> rfl

theorem equals_eq (hv : v.Same v') (hw : w.Same w') : v'.equals w' = v.equals w := by
  cases hv with
  | plain hv =>
    cases hw with
    | plain hw => rfl
    | _ => cases v <;> first | rfl | exact absurd hv id
  | function hi hn =>
    cases hw with
    | plain hw => cases w <;> first | rfl | cases hw
    | function hi' hn' => simp [Value.equals, hi, hi']
    | _ => rfl
  | «class» hi hn =>
    cases hw with
    | plain hw => cases w <;> first | rfl | cases hw
    | «class» hi' hn' => simp [Value.equals, hi, hi']
    | _ => rfl
  | «instance» id hn =>
    cases hw with
    | plain hw => cases w <;> rfl
    | _ => rfl

theorem unary_eq (operator : Token.Kind) (h : v.Same v') : v'.unary operator = v.unary operator := by
  unfold Value.unary
  split
  · cases h <;> rfl
  · rw [h.isTruthy_eq]
  · rfl

theorem add_eq (hv : v.Same v') (hw : w.Same w') : v'.add w' = v.add w := by
  have hdv := hv.display_eq
  have hdw := hw.display_eq
  cases hv with
  | plain hv =>
    cases hw with
    | plain hw => rfl
    | _ => cases v <;> simp_all [Value.add]
  | _ =>
    cases hw with
    | plain hw => cases w <;> simp_all [Value.add]
    | _ => rfl

/-- Numbers, strings and the rest are told apart alike, so the operator gives the same value or fails for the same
cause. -/
theorem binary_eq (operator : Token.Kind) (hv : v.Same v') (hw : w.Same w') :
    Value.binary operator v' w' = Value.binary operator v w := by
  unfold Value.binary
  split
  · rw [hv.equals_eq hw]
  · rw [hv.equals_eq hw]
  · exact hv.add_eq hw
  · cases hv with
    | plain hv =>
      cases hw with
      | plain hw => rfl
      | _ => cases v <;> rfl
    | _ => rfl

end Value.Same

/-- A new scope has the chain that it is made with, and all others keep theirs. -/
theorem Store.chain_addScope (st : Store) (outer : List ScopeId) (t : ScopeId) :
    (st.addScope outer).2.chain t = if t = st.next then st.next :: outer else st.chain t := by
  by_cases ht : t = st.next
  · rw [ht, if_pos rfl, Store.chain_addScope_next]
  · rw [if_neg ht]
    unfold Store.chain Store.addScope
    rw [Array.getElem?_push, if_neg (show ¬t = st.scopes.size from ht)]

namespace Eval

variable {setting : Setting} {fuel : Nat}

/-- The functions of a class are made without a look at scopes. -/
theorem closures_done (s : ScopeId) (fs : List Function) (m : Machine) :
    ∃ es m', Eval.closures s fs m = .done es m' ∧ m'.store = m.store := by
  induction fs generalizing m with
  | nil => exact ⟨[], m, rfl, rfl⟩
  | cons f fs ih =>
    obtain ⟨es, m', hes, hstore⟩ := ih { m with fields := m.fields.push .empty }
    have hid : Eval.newObject m = .done m.fields.size { m with fields := m.fields.push .empty } := rfl
    rw [closures_cons, bind_done hid, bind_done hes]
    exact ⟨_, m', rfl, hstore⟩

/-- The declaration of a class, which goes straight to the cell that is declared for it. -/
def declareClass (name : Token) (declared : List Function) : Eval Flow := do
  let scope ← Eval.read Machine.scope
  Eval.declare scope name.lexeme
  let methods ← Eval.closures scope declared
  let id ← Eval.newObject
  Eval.define scope name.lexeme (.class ⟨id, name.lexeme, .ofList methods⟩)
  pure .normal

/-- The cell that is declared for the class is the one that is assigned to afterwards: nothing in between comes to it.
-/
theorem execute_class {name : Token} {declared : List Function} {m : Machine} (hm : m.scope < m.store.next) :
    Eval.execute setting (fuel + 1) (.class name declared) m = declareClass name declared m := by
  have hhas : (m.store.declare m.scope name.lexeme).Has m.scope name.lexeme :=
    (Store.has_setCell hm _ _ _ _).2 (.inl ⟨rfl, rfl⟩)
  obtain ⟨methods, m', hmethods, hstore⟩ :=
    closures_done m.scope declared { m with store := m.store.declare m.scope name.lexeme }
  have hassign : ∀ v : Value,
      Eval.assign (·.holder m.scope name.lexeme) name v { m' with fields := m'.fields.push .empty } =
        Eval.define m.scope name.lexeme v { m' with fields := m'.fields.push .empty } := by
    intro v
    apply assign_holder_of_has
    dsimp only
    rw [hstore]
    exact hhas
  have hid : Eval.newObject m' = .done m'.fields.size { m' with fields := m'.fields.push .empty } := rfl
  have hscope : Eval.read Machine.scope m = .done m.scope m := rfl
  have hdeclare : Eval.declare m.scope name.lexeme m =
      .done () { m with store := m.store.declare m.scope name.lexeme } := rfl
  rw [execute_class_eq, declareClass, bind_done hscope, bind_done hdeclare, bind_done hmethods, bind_done hid,
    bind_done hscope, bind_done hdeclare, bind_done hmethods, bind_done hid]
  simp only [Bind.bind, hassign]

end Eval

end LoxLang
