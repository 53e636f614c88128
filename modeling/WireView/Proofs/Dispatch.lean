import WireView.TypedView
import WireView.Proofs.Contents

/-!
# Calls on typed views

A call on a view whose item type is known at run time is refused when the type of its operand is
another, and then when no function is in force for its operator; nothing is changed by a refusal.
Otherwise the call is the operation on items of that one type, and an operator means the function
that was registered last for just this type and operator, or the one built in.
-/

namespace WireView

/-- What may be asked of a view, with items in `ι` and other views in `ν`. Bytes to unpack come from
a window. -/
inductive Instruction (ι ν : Type) where
  | get (i : Nat)
  | put (i : Nat) (x : ι)
  | fill (x : Option ι)
  | pack (start : Nat) (room : Option Nat)
  | unpack (start most : Nat)
  | absorb (source : ν)
  | absorbWith (source : ν) (op : Operator)
  | unpackWith (start most : Nat) (op : Operator)

inductive Reply (ι : Type) where
  | item (x : ι)
  | packed (packed : Packed)
  | count (n : Nat)
  | done

def Reply.map {ι κ : Type} (f : ι → κ) : Reply ι → Reply κ
  | item x => item (f x)
  | packed p => packed p
  | count n => count n
  | done => done

def Reply.ofTaken {ι : Type} (taken : Taken) : Reply ι × List UInt8 :=
  (count taken.count, taken.rest)

namespace Instruction

variable {ι κ ν μ : Type} {t : ItemKind}

def map (f : ι → κ) (g : ν → μ) : Instruction ι ν → Instruction κ μ
  | get i => get i
  | put i x => put i (f x)
  | fill x => fill (x.map f)
  | pack start room => pack start room
  | unpack start most => unpack start most
  | absorb source => absorb (g source)
  | absorbWith source op => absorbWith (g source) op
  | unpackWith start most op => unpackWith start most op

def operator? : Instruction ι ν → Option Operator
  | absorbWith _ op | unpackWith _ _ op => some op
  | get _ | put _ _ | fill _ | pack _ _ | unpack _ _ | absorb _ => none

def operandType? : Instruction TypedItem TypedView → Option ItemKind
  | put _ x => some x.type
  | fill x => x.map TypedItem.type
  | absorb source | absorbWith source _ => some source.type
  | get _ | pack _ _ | unpack _ _ | unpackWith _ _ _ => none

/-- An instruction about items of one type, as it is given where types are known at run time. -/
def typed (c : Instruction (Item t) View) : Instruction TypedItem TypedView :=
  c.map (TypedItem.mk t) (TypedView.mk t)

/-- The operation on items of one type, with the functions of the operators. The answer comes with
what is left of the window. -/
def act (view : View) (function : Operator → Item t → Item t → Item t) (window : List UInt8) :
    Instruction (Item t) View → Action t (Reply (Item t) × List UInt8)
  | get i => (fun x => (.item x, window)) <$> Endpoint.get ⟨view, none⟩ i
  | put i x => (fun _ => (.done, window)) <$> Endpoint.put ⟨view, none⟩ i x
  | fill x => (fun _ => (.done, window)) <$> Endpoint.fill ⟨view, none⟩ x
  | pack start room => (fun p => (.packed p, window)) <$> Endpoint.pack ⟨view, none⟩ start room
  | unpack start most => Reply.ofTaken <$> Endpoint.unpack ⟨view, none⟩ start most window
  | absorb source => (fun _ => (.done, window)) <$> Endpoint.absorb ⟨view, none⟩ ⟨source, none⟩
  | absorbWith source op => (fun _ => (.done, window)) <$>
      Endpoint.absorb ⟨view, some ⟨op.name, function op⟩⟩ ⟨source, none⟩
  | unpackWith start most op => Reply.ofTaken <$>
      Endpoint.unpack ⟨view, some ⟨op.name, function op⟩⟩ start most window

end Instruction

/-- The call that an instruction comes to, with its answer and what is left of the window. -/
def TypedView.answer (v : TypedView) (operators : Operators) (window : List UInt8) :
    Instruction TypedItem TypedView → Call (Reply TypedItem × List UInt8)
  | .get i => (fun x => (.item x, window)) <$> v.get i
  | .put i x => (fun _ => (.done, window)) <$> v.put i x
  | .fill x => (fun _ => (.done, window)) <$> v.fill x
  | .pack start room => (fun p => (.packed p, window)) <$> v.pack start room
  | .unpack start most => Reply.ofTaken <$> v.unpack start most window
  | .absorb source => (fun _ => (.done, window)) <$> v.absorb source
  | .absorbWith source op => (fun _ => (.done, window)) <$> v.absorbWith source op operators
  | .unpackWith start most op => Reply.ofTaken <$> v.unpackWith start most window op operators

/-- A store, the operators in force and a window. -/
structure Desk where
  store : Store
  operators : Operators
  window : List UInt8

abbrev Errand (β : Type) := EStateM Fault Desk β

/-- Carries out an instruction with the operators and the window of the desk. -/
def TypedView.instruct (v : TypedView) (c : Instruction TypedItem TypedView) :
    Errand (Reply TypedItem) := fun d =>
  match v.answer d.operators d.window c d.store with
  | .ok (x, window) s => .ok x { d with store := s, window }
  | .error e s => .error e { d with store := s }

/-- The operation on items of one type, at a desk. Memories of other types are not looked at. -/
def Errand.act {t : ItemKind} (view : View) (function : Operator → Item t → Item t → Item t)
    (c : Instruction (Item t) View) : Errand (Reply TypedItem) := fun d =>
  match c.act view function d.window (d.store.get t) with
  | .ok (x, window) m =>
    .ok (x.map (TypedItem.mk t)) { d with store := d.store.set t m, window }
  | .error b m => .error (.breached b) { d with store := d.store.set t m }

namespace Call

variable {β γ : Type} {t : ItemKind}

theorem act_eq (a : Action t β) (s : Store) :
    act t a s = match a (s.get t) with
      | .ok x m => .ok x (s.set t m)
      | .error b m => .error (.breached b) (s.set t m) := by
  simp only [act, within, Routine.act]
  cases a (s.get t) <;> rfl

theorem act_map (f : β → γ) (a : Action t β) : act t (f <$> a) = f <$> act t a := by
  funext s
  simp only [act_eq, Functor.map, EStateM.map]
  cases a (s.get t) <;> rfl

end Call

theorem TypedItem.itemAs_self {t : ItemKind} (x : Item t) : itemAs ⟨t, x⟩ t = .ok x :=
  dif_pos rfl

theorem TypedItem.itemAs_of_ne {x : TypedItem} {t : ItemKind} (other : x.type ≠ t) :
    x.itemAs t = .error (.wrongKind t x.type) :=
  dif_neg other

namespace TypedView

variable {v source : TypedView} {t : ItemKind} {view : View} {operators : Operators}
variable {op : Operator} {f : Item t → Item t → Item t}

theorem viewAs_self : viewAs ⟨t, view⟩ t = .ok view := if_pos rfl

theorem viewAs_of_ne (other : source.type ≠ t) :
    source.viewAs t = .error (.wrongKind t source.type) :=
  if_neg other

theorem find_of_some (known : (operators.get t).entry op = some f) :
    operators.find t op = .ok ⟨op.name, f⟩ := by
  rw [Operators.find, OperatorTable.get?, known]
  rfl

theorem find_of_none (unknown : (operators.get t).entry op = none) :
    operators.find t op = .error .undefinedOperator := by
  rw [Operators.find, OperatorTable.get?, unknown]
  rfl

theorem put_typed (i : Nat) (x : Item t) :
    put ⟨t, view⟩ i ⟨t, x⟩ = .act t (Endpoint.put ⟨view, none⟩ i x) := by
  rw [put, TypedItem.itemAs_self]
  rfl

theorem fill_typed (x : Option (Item t)) :
    fill ⟨t, view⟩ (x.map (TypedItem.mk t)) = .act t (Endpoint.fill ⟨view, none⟩ x) := by
  cases x with
  | none => rfl
  | some x =>
    rw [Option.map_some, fill, TypedItem.itemAs_self]
    rfl

theorem absorb_typed (source : View) :
    absorb ⟨t, view⟩ ⟨t, source⟩ = .act t (Endpoint.absorb ⟨view, none⟩ ⟨source, none⟩) := by
  rw [absorb, viewAs_self]
  rfl

theorem absorbWith_typed (known : (operators.get t).entry op = some f) (source : View) :
    absorbWith ⟨t, view⟩ ⟨t, source⟩ op operators =
      .act t (Endpoint.absorb ⟨view, some ⟨op.name, f⟩⟩ ⟨source, none⟩) := by
  rw [absorbWith, viewAs_self, find_of_some known]
  rfl

theorem unpackWith_typed (known : (operators.get t).entry op = some f) (start most : Nat)
    (window : List UInt8) :
    unpackWith ⟨t, view⟩ start most window op operators =
      .act t (Endpoint.unpack ⟨view, some ⟨op.name, f⟩⟩ start most window) := by
  rw [unpackWith, find_of_some known]
  rfl

/-- Once the types agree and the operators are defined, the call is the typed operation. -/
theorem answer_typed (k : Instruction (Item t) View)
    {function : Operator → Item t → Item t → Item t}
    (known : ∀ op, k.operator? = some op → (operators.get t).entry op = some (function op))
    (window : List UInt8) :
    answer ⟨t, view⟩ operators window k.typed =
      Prod.map (Reply.map (TypedItem.mk t)) id <$> Call.act t (k.act view function window) := by
  cases k with
  | get i =>
    rw [Instruction.act, Call.act_map, Functor.map_map, Instruction.typed, Instruction.map, answer,
      get, Functor.map_map]
    rfl
  | put i x =>
    rw [Instruction.act, Call.act_map, Functor.map_map, ← put_typed]
    rfl
  | fill x =>
    rw [Instruction.act, Call.act_map, Functor.map_map, ← fill_typed]
    rfl
  | pack start room =>
    rw [Instruction.act, Call.act_map, Functor.map_map]
    rfl
  | unpack start most =>
    rw [Instruction.act, Call.act_map, Functor.map_map]
    rfl
  | absorb source =>
    rw [Instruction.act, Call.act_map, Functor.map_map, ← absorb_typed]
    rfl
  | absorbWith source op =>
    rw [Instruction.act, Call.act_map, Functor.map_map, ← absorbWith_typed (known op rfl)]
    rfl
  | unpackWith start most op =>
    rw [Instruction.act, Call.act_map, Functor.map_map, ← unpackWith_typed (known op rfl)]
    rfl

/-- An operand of another type is refused before all else. -/
theorem answer_of_other_type {c : Instruction TypedItem TypedView} {u : ItemKind}
    (operand : c.operandType? = some u) (other : u ≠ v.type) (window : List UInt8) (s : Store) :
    v.answer operators window c s = .error (.refused (.wrongKind v.type u)) s := by
  cases c with
  | put i x =>
    cases operand
    rw [answer, put, TypedItem.itemAs_of_ne other]
    rfl
  | fill x =>
    cases x with
    | none => cases operand
    | some x =>
      cases operand
      rw [answer, fill, TypedItem.itemAs_of_ne other]
      rfl
  | absorb source =>
    cases operand
    rw [answer, absorb, viewAs_of_ne other]
    rfl
  | absorbWith source op =>
    cases operand
    rw [answer, absorbWith, viewAs_of_ne other]
    rfl
  | get i => cases operand
  | pack start room => cases operand
  | unpack start most => cases operand
  | unpackWith start most op => cases operand

/-- An operator that no function is in force for is refused next. -/
theorem answer_of_undefined {c : Instruction TypedItem TypedView}
    (agree : ∀ u, c.operandType? = some u → u = v.type) (folded : c.operator? = some op)
    (unknown : (operators.get v.type).entry op = none) (window : List UInt8) (s : Store) :
    v.answer operators window c s = .error (.refused .undefinedOperator) s := by
  cases c with
  | absorbWith source op =>
    cases folded
    have same := agree _ rfl
    rw [answer, absorbWith, viewAs, if_pos same, find_of_none unknown]
    rfl
  | unpackWith start most op =>
    cases folded
    rw [answer, unpackWith, find_of_none unknown]
    rfl
  | get i => cases folded
  | put i x => cases folded
  | fill x => cases folded
  | pack start room => cases folded
  | unpack start most => cases folded
  | absorb source => cases folded

/-- With operands of one type throughout, the instruction is one about items of that type. -/
theorem exists_typed {c : Instruction TypedItem TypedView}
    (agree : ∀ u, c.operandType? = some u → u = t) :
    ∃ k : Instruction (Item t) View, c = k.typed := by
  cases c with
  | get i => exact ⟨.get i, rfl⟩
  | put i x =>
    obtain ⟨u, x⟩ := x
    obtain rfl : u = t := agree u rfl
    exact ⟨.put i x, rfl⟩
  | fill x =>
    cases x with
    | none => exact ⟨.fill none, rfl⟩
    | some x =>
      obtain ⟨u, x⟩ := x
      obtain rfl : u = t := agree u rfl
      exact ⟨.fill (some x), rfl⟩
  | pack start room => exact ⟨.pack start room, rfl⟩
  | unpack start most => exact ⟨.unpack start most, rfl⟩
  | absorb source =>
    obtain ⟨u, source⟩ := source
    obtain rfl : u = t := agree u rfl
    exact ⟨.absorb source, rfl⟩
  | absorbWith source op =>
    obtain ⟨u, source⟩ := source
    obtain rfl : u = t := agree u rfl
    exact ⟨.absorbWith source op, rfl⟩
  | unpackWith start most op => exact ⟨.unpackWith start most op, rfl⟩

theorem operator?_typed (k : Instruction (Item t) View) : k.typed.operator? = k.operator? := by
  cases k <;> rfl

section desk

variable {c : Instruction TypedItem TypedView} {d : Desk}

/-- A call that fails at once leaves the desk alone. -/
theorem instruct_of_error {e : Fault}
    (failed : v.answer d.operators d.window c d.store = .error e d.store) :
    v.instruct c d = .error e d := by
  rw [instruct, failed]

theorem instruct_typed (k : Instruction (Item t) View)
    {function : Operator → Item t → Item t → Item t}
    (known : ∀ op, k.operator? = some op →
      (d.operators.get t).entry op = some (function op)) :
    instruct ⟨t, view⟩ k.typed d = Errand.act view function k d := by
  rw [instruct, answer_typed k known, Errand.act]
  simp only [Functor.map, EStateM.map, Call.act_eq]
  cases k.act view function d.window (d.store.get t) <;> rfl

/-- No operation on items of one type is refused. -/
theorem act_ne_refused (k : Instruction (Item t) View)
    (function : Operator → Item t → Item t → Item t) (e : Refusal) (d' : Desk) :
    Errand.act view function k d ≠ .error (.refused e) d' := by
  rw [Errand.act]
  cases k.act view function d.window (d.store.get t) with
  | ok x m => exact fun h => by cases h
  | error b m => exact fun h => by cases h

/-- An instruction is refused for an operand of another type, or carried out or refused for an
operator that no function is in force for. -/
theorem instruct_cases (v : TypedView) (c : Instruction TypedItem TypedView) (d : Desk) :
    (∃ u, c.operandType? = some u ∧ u ≠ v.type) ∨
    (∀ u, c.operandType? = some u → u = v.type) ∧
      ((∃ op, c.operator? = some op ∧ (d.operators.get v.type).entry op = none) ∨
      ∃ (k : Instruction (Item v.type) View)
        (function : Operator → Item v.type → Item v.type → Item v.type), c = k.typed ∧
        (∀ op, c.operator? = some op → (d.operators.get v.type).entry op = some (function op)) ∧
        v.instruct c d = Errand.act v.view function k d) := by
  by_cases agree : ∀ u, c.operandType? = some u → u = v.type
  · refine Or.inr ⟨agree, ?_⟩
    by_cases undefined : ∃ op, c.operator? = some op ∧ (d.operators.get v.type).entry op = none
    · exact Or.inl undefined
    · obtain ⟨k, rfl⟩ := exists_typed agree
      let function : Operator → Item v.type → Item v.type → Item v.type :=
        fun op => ((d.operators.get v.type).entry op).getD fun x _ => x
      have known : ∀ op, k.typed.operator? = some op →
          (d.operators.get v.type).entry op = some (function op) := by
        intro op folded
        cases entry : (d.operators.get v.type).entry op with
        | none => exact absurd ⟨op, folded, entry⟩ undefined
        | some f => simp only [function, entry, Option.getD_some]
      refine Or.inr ⟨k, function, rfl, known, ?_⟩
      exact instruct_typed k fun op folded => known op ((operator?_typed k).trans folded)
  · obtain ⟨u, differ⟩ := Classical.not_forall.mp agree
    exact Or.inl ⟨u, Classical.not_imp.mp differ⟩

/-- All that an instruction is refused for. The operand decides first and the operator next, and the
desk is left alone. -/
theorem refused_iff (v : TypedView) (c : Instruction TypedItem TypedView) (d : Desk) (e : Refusal)
    (d' : Desk) :
    v.instruct c d = .error (.refused e) d' ↔ d' = d ∧
      ((∃ u, e = .wrongKind v.type u ∧ c.operandType? = some u ∧ u ≠ v.type) ∨
      e = .undefinedOperator ∧ (∀ u, c.operandType? = some u → u = v.type) ∧
        ∃ op, c.operator? = some op ∧ (d.operators.get v.type).entry op = none) := by
  have byOperand : ∀ u, c.operandType? = some u → u ≠ v.type →
      v.instruct c d = .error (.refused (.wrongKind v.type u)) d := by
    intro u operand other
    exact instruct_of_error (answer_of_other_type operand other d.window d.store)
  have byOperator : ∀ op, (∀ u, c.operandType? = some u → u = v.type) → c.operator? = some op →
      (d.operators.get v.type).entry op = none →
      v.instruct c d = .error (.refused .undefinedOperator) d := by
    intro op agree folded unknown
    exact instruct_of_error (answer_of_undefined agree folded unknown d.window d.store)
  constructor
  · intro failed
    rcases instruct_cases v c d with
      ⟨u, operand, other⟩ | ⟨agree, ⟨op, folded, unknown⟩ | ⟨k, function, -, -, done⟩⟩
    · cases (byOperand u operand other).symm.trans failed
      exact ⟨rfl, Or.inl ⟨u, rfl, operand, other⟩⟩
    · cases (byOperator op agree folded unknown).symm.trans failed
      exact ⟨rfl, Or.inr ⟨rfl, agree, op, folded, unknown⟩⟩
    · exact absurd (done.symm.trans failed) (act_ne_refused k function e d')
  · rintro ⟨rfl, ⟨u, rfl, operand, other⟩ | ⟨rfl, agree, op, folded, unknown⟩⟩
    · exact byOperand u operand other
    · exact byOperator op agree folded unknown

end desk

end TypedView

theorem OperatorTable.entry_define {t : ItemKind} (table : OperatorTable t) (op o : Operator)
    (f : Item t → Item t → Item t) :
    (table.define op f).entry o = if o = op then some f else table.entry o := rfl

inductive Order where
  | register (t : ItemKind) (op : Operator) (f : Item t → Item t → Item t)
  | instruct (view : TypedView) (instruction : Instruction TypedItem TypedView)
  | receive (window : List UInt8)

/-- The function that the order registers for just this type and operator. -/
def Order.registered? (t : ItemKind) (op : Operator) : Order → Option (Item t → Item t → Item t)
  | register u o f => if h : u = t then if o = op then some (h ▸ f) else none else none
  | instruct _ _ | receive _ => none

namespace Desk

variable {t : ItemKind} {op : Operator}

/-- The desk after an order. An instruction may fail, and the desk goes on as it is left. -/
def obey (d : Desk) : Order → Desk
  | .register t op f => { d with operators := d.operators.define t op f }
  | .instruct v c =>
    match v.instruct c d with
    | .ok _ d => d
    | .error _ d => d
  | .receive window => { d with window }

def obeyAll (d : Desk) (orders : List Order) : Desk := orders.foldl obey d

theorem operators_instruct (d : Desk) (v : TypedView) (c : Instruction TypedItem TypedView) :
    (d.obey (.instruct v c)).operators = d.operators := by
  rw [obey, TypedView.instruct]
  cases v.answer d.operators d.window c d.store <;> rfl

/-- An order puts a function in force where it registers one, and changes nothing elsewhere. -/
theorem entry_obey (d : Desk) (o : Order) :
    ((d.obey o).operators.get t).entry op =
      (o.registered? t op).or ((d.operators.get t).entry op) := by
  cases o with
  | register u o f =>
    rw [obey, Order.registered?, Operators.define]
    by_cases same : u = t
    · subst same
      rw [PerKind.get_set, OperatorTable.entry_define, dif_pos rfl]
      by_cases here : o = op
      · rw [if_pos here, if_pos here.symm]
        rfl
      · rw [if_neg here, if_neg fun h => here h.symm]
        rfl
    · rw [PerKind.get_set_of_ne _ _ fun h => same h.symm, dif_neg same]
      rfl
  | instruct v c =>
    rw [operators_instruct]
    rfl
  | receive window => rfl

/-- The last function registered for a type and an operator is in force, or the one from before. -/
theorem entry_obeyAll (d : Desk) (orders : List Order) :
    ((d.obeyAll orders).operators.get t).entry op =
      (orders.filterMap (Order.registered? t op)).getLast?.or
        ((d.operators.get t).entry op) := by
  induction orders generalizing d with
  | nil => rfl
  | cons o orders ih =>
    have later := ih (d.obey o)
    rw [entry_obey] at later
    rw [obeyAll, List.foldl_cons, ← obeyAll, later, List.filterMap_cons]
    cases o.registered? t op with
    | none => rfl
    | some f =>
      rw [List.getLast?_cons]
      cases (orders.filterMap (Order.registered? t op)).getLast? <;> rfl

end Desk

/-- The function in force for an operator of one type after some orders: the last one registered for
just this pair, or the one built in. -/
def inForce (orders : List Order) (t : ItemKind) (op : Operator) :
    Option (Item t → Item t → Item t) :=
  (orders.filterMap (Order.registered? t op)).getLast?.or ((OperatorTable.builtin t).entry op)

namespace TypedView

/-- After any orders, an instruction is refused for its operand when that has another type, and for
its operator when the types agree and no function is in force; it is refused for nothing else, and a
refusal leaves all of the desk as it was. An instruction that is not refused is one about items of
the type of the view, and it is carried out as such, with the functions in force. -/
theorem instruct_dispatches (orders : List Order) (store : Store) (window : List UInt8)
    (v : TypedView) (c : Instruction TypedItem TypedView) :
    let d := Desk.obeyAll ⟨store, .builtin, window⟩ orders
    (∀ u, (∃ d', v.instruct c d = .error (.refused (.wrongKind v.type u)) d') ↔
      c.operandType? = some u ∧ u ≠ v.type) ∧
    ((∃ d', v.instruct c d = .error (.refused .undefinedOperator) d') ↔
      (∀ u, c.operandType? = some u → u = v.type) ∧
      ∃ op, c.operator? = some op ∧ inForce orders v.type op = none) ∧
    (∀ e d', v.instruct c d = .error (.refused e) d' →
      d' = d ∧ ((∃ u, e = .wrongKind v.type u) ∨ e = .undefinedOperator)) ∧
    ((∀ e d', v.instruct c d ≠ .error (.refused e) d') →
      ∃ (k : Instruction (Item v.type) View)
        (function : Operator → Item v.type → Item v.type → Item v.type), c = k.typed ∧
        (∀ op, c.operator? = some op → inForce orders v.type op = some (function op)) ∧
        v.instruct c d = Errand.act v.view function k d) := by
  intro d
  have force : ∀ op, (d.operators.get v.type).entry op = inForce orders v.type op := by
    intro op
    rw [Desk.entry_obeyAll, inForce, Operators.builtin, PerKind.get_tabulate]
  have refused := refused_iff v c d
  have found := instruct_cases v c d
  simp only [force] at refused found
  refine ⟨fun u => ⟨?_, ?_⟩, ⟨?_, ?_⟩, ?_, ?_⟩
  · rintro ⟨d', failed⟩
    obtain ⟨-, ⟨u', same, operand⟩ | ⟨other, -⟩⟩ := (refused _ d').mp failed
    · cases same
      exact operand
    · cases other
  · intro operand
    exact ⟨d, (refused _ d).mpr ⟨rfl, Or.inl ⟨u, rfl, operand⟩⟩⟩
  · rintro ⟨d', failed⟩
    obtain ⟨-, ⟨u, other, -⟩ | ⟨-, undefined⟩⟩ := (refused _ d').mp failed
    · cases other
    · exact undefined
  · intro undefined
    exact ⟨d, (refused _ d).mpr ⟨rfl, Or.inr ⟨rfl, undefined⟩⟩⟩
  · intro e d' failed
    obtain ⟨unchanged, ⟨u, rfl, -⟩ | ⟨rfl, -⟩⟩ := (refused e d').mp failed
    · exact ⟨unchanged, Or.inl ⟨u, rfl⟩⟩
    · exact ⟨unchanged, Or.inr rfl⟩
  · intro served
    rcases found with ⟨u, operand⟩ | ⟨agree, undefined | typed⟩
    · exact absurd ((refused _ d).mpr ⟨rfl, Or.inl ⟨u, rfl, operand⟩⟩) (served _ d)
    · exact absurd ((refused _ d).mpr ⟨rfl, Or.inr ⟨rfl, agree, undefined⟩⟩) (served _ d)
    · exact typed

/-- A function is registered for an operator of characters and two for the same one of 16-bit
integers, where none is built in. A character is refused at an index past the end, and so is another
operator at a start past the end; with the operator that was registered, items are subtracted. -/
theorem instruct_dispatches_of_registered :
    let less : Item .int16 → Item .int16 → Item .int16 := fun x y => x - y
    let orders : List Order := [.register .int16 .logicalAnd fun x _ => x,
      .register .int16 .logicalAnd less, .register .char .logicalAnd fun _ y => y,
      .receive [0, 3]]
    let store : Store := Store.empty.set .int16 ⟨#[#[5, 7]]⟩
    let d := Desk.obeyAll ⟨store, .builtin, []⟩ orders
    let v : TypedView := ⟨.int16, .array ⟨0, 2⟩ ⟨0, 1, 2, by decide, by decide⟩⟩
    v.instruct (.put 9 ⟨.char, 1⟩) d = .error (.refused (.wrongKind .int16 .char)) d ∧
      v.instruct (.unpackWith 9 1 .logicalOr) d = .error (.refused .undefinedOperator) d ∧
      ∃ function, function .logicalAnd = less ∧
        v.instruct (.unpackWith 0 1 .logicalAnd) d =
          Errand.act v.view function (.unpackWith 0 1 .logicalAnd) d := by
  intro less orders store d v
  refine ⟨?_, ?_, ?_⟩
  · obtain ⟨wrongKind, -, unchanged, -⟩ := instruct_dispatches orders store [] v (.put 9 ⟨.char, 1⟩)
    obtain ⟨d', refused⟩ := (wrongKind .char).mpr ⟨rfl, by decide⟩
    obtain ⟨rfl, -⟩ := unchanged _ d' refused
    exact refused
  · obtain ⟨-, undefined, unchanged, -⟩ :=
      instruct_dispatches orders store [] v (.unpackWith 9 1 .logicalOr)
    obtain ⟨d', refused⟩ := undefined.mpr ⟨fun _ h => (nomatch h), .logicalOr, rfl, rfl⟩
    obtain ⟨rfl, -⟩ := unchanged _ d' refused
    exact refused
  · obtain ⟨wrongKind, undefined, unchanged, typed⟩ :=
      instruct_dispatches orders store [] v (.unpackWith 0 1 .logicalAnd)
    have served : ∀ e d', v.instruct (.unpackWith 0 1 .logicalAnd) d ≠ .error (.refused e) d' := by
      intro e d' refused
      rcases (unchanged e d' refused).2 with ⟨u, rfl⟩ | rfl
      · obtain ⟨operand, -⟩ := (wrongKind u).mp ⟨d', refused⟩
        cases operand
      · obtain ⟨-, op, folded, unknown⟩ := undefined.mp ⟨d', refused⟩
        cases folded
        cases unknown
    obtain ⟨k, function, same, known, done⟩ := typed served
    have force : inForce orders .int16 .logicalAnd = some less := rfl
    obtain rfl : k = .unpackWith 0 1 .logicalAnd := by
      cases k <;> cases same
      rfl
    exact ⟨function, Option.some.inj ((known _ rfl).symm.trans force), done⟩

end TypedView

end WireView
