import LoxLang.Machine.Evaluate
import LoxLang.Proofs.Computation
import LoxLang.Proofs.Scope.Bindings
import Mathlib.Data.List.Forall2

/-! # Machines that are alike

Two programs are run on two machines.  The functions of the machines may have different code, perhaps
in different environments, the scopes perhaps have different variables, and functions, classes and
objects different numbers.  A `Likeness` says what goes together, given what is known of the scopes
and numbers.  All else is alike in the two machines: classes and objects, what values show of
themselves, and what was printed.

Often only the code differs and the scopes in which it runs, while everything else has the same
numbers in both machines.  For that it is enough to say which functions and which stores go together
(`Likeness.OfCode`). -/

namespace LoxLang

open Machine

/-- What is known of a scope is known when more is known of others. -/
theorem getElem?_of_grown {ω : Type} {known known' : List ω} (h : known <+: known') {id : ScopeId}
    {a : ω} (ha : known[id]? = some a) : known'[id]? = some a := by
  obtain ⟨added, rfl⟩ := h
  rw [List.getElem?_append_left (List.getElem?_eq_some_iff.mp ha).1, ha]

/-- What is known of a scope, when one more is known, is new or was known. -/
theorem getElem?_concat_cases {ω : Type} {known : List ω} {a b : ω} {id : ScopeId}
    (h : (known ++ [a])[id]? = some b) :
    id = known.length ∧ a = b ∨ id ≠ known.length ∧ known[id]? = some b := by
  by_cases heq : id = known.length
  · subst heq
    rw [List.getElem?_concat_length] at h
    exact .inl ⟨rfl, Option.some.inj h⟩
  · have hlt := (List.getElem?_eq_some_iff.mp h).1
    rw [List.length_append, List.length_singleton, Nat.lt_succ_iff] at hlt
    rw [List.getElem?_append_left (Nat.lt_of_le_of_ne hlt heq)] at h
    exact .inr ⟨heq, h⟩

/-- What functions that go together show of themselves. -/
structure Closure.LooksLike (f f' : Closure) : Prop where
  arity : f'.arity = f.arity
  display : f'.display = f.display

/-- A way in which two machines go together.  What is known of the two is of type `κ`; more becomes
known as they run, and what goes together goes on to do so. -/
structure Likeness (κ : Type) where
  /-- All that was known is known, and perhaps more. -/
  Grows : κ → κ → Prop
  function : κ → Closure → Closure → Prop
  /-- Methods go together that are still to be put in the scope of `this`. -/
  method : κ → Closure → Closure → Prop
  /-- Numbers of functions or of classes go together. -/
  number : κ → Nat → Nat → Prop
  /-- Numbers of objects go together. -/
  object : κ → Nat → Nat → Prop
  /-- Tokens go together at which the same error arises. -/
  place : Token → Token → Prop
  /-- Stores go together, given which values do. -/
  store : (κ → Value → Value → Prop) → κ → Store Value → Store Value → Prop
  /-- The fields of all objects go together, given which values do. -/
  objects : (κ → Value → Value → Prop) → κ → Array (Bindings Value) → Array (Bindings Value) → Prop
  /-- Numbers go together that the next functions get. -/
  nextId : κ → Nat → Nat → Prop
  /-- How often the clocks were read goes together. -/
  readings : Nat → Nat → Prop
  refl : ∀ known, Grows known known
  trans : ∀ {known known' known''}, Grows known known' → Grows known' known'' →
    Grows known known''
  place_refl : ∀ t, place t t
  /-- Numbers are the same in one machine if those that they go with are the same in the other. -/
  number_inj : ∀ {known n n' k k'}, number known n n' → number known k k' → (n' = k' ↔ n = k)
  object_inj : ∀ {known n n' k k'}, object known n n' → object known k k' → (n' = k' ↔ n = k)
  protected id : ∀ {known f f'}, function known f f' → number known f.id f'.id
  looks : ∀ {known f f'}, function known f f' → f.LooksLike f'
  arity : ∀ {known f f'}, method known f f' → f'.arity = f.arity
  function_mono : ∀ {known known' f f'}, function known f f' → Grows known known' →
    function known' f f'
  method_mono : ∀ {known known' f f'}, method known f f' → Grows known known' → method known' f f'
  number_mono : ∀ {known known' n n'}, number known n n' → Grows known known' → number known' n n'
  object_mono : ∀ {known known' n n'}, object known n n' → Grows known known' → object known' n n'

theorem Likeness.Grows.trans {κ : Type} {A : Likeness κ} {known known' known'' : κ}
    (h : A.Grows known known') (h' : A.Grows known' known'') : A.Grows known known'' :=
  A.trans h h'

/-! ## Values -/

section
variable {κ : Type} (A : Likeness κ) (known : κ)

/-- What class statements contribute to classes is alike. -/
structure ClassLevel.Alike (level level' : ClassLevel) : Prop where
  id : A.number known level.id level'.id
  name : level'.name = level.name
  methods : level.methods.Matches (fun name => name) (A.method known) level'.methods

/-- The classes are alike, level by level. -/
structure ClassValue.Alike (c c' : ClassValue) : Prop where
  own : c.own.Alike A known c'.own
  above : List.Forall₂ (ClassLevel.Alike A known) c.above c'.above

/-- The values are alike. -/
inductive Value.Alike : Value → Value → Prop
  | datum (d : Datum) : Alike (.datum d) (.datum d)
  | clock : Alike .clock .clock
  | function {f f' : Closure} (hf : A.function known f f') : Alike (.function f) (.function f')
  | classOf {c c' : ClassValue} (hc : c.Alike A known c') : Alike (.classOf c) (.classOf c')
  | object {id id' : Nat} (hid : A.object known id id') {c c' : ClassValue}
      (hc : c.Alike A known c') : Alike (.object id c) (.object id' c')

/-- What is called is alike. -/
inductive Callee.Alike : Callee → Callee → Prop
  | clock : Alike .clock .clock
  | function {f f' : Closure} (hf : A.function known f f') : Alike (.function f) (.function f')
  | classOf {c c' : ClassValue} (hc : c.Alike A known c') : Alike (.classOf c) (.classOf c')

/-- Statements complete alike. -/
inductive Machine.Completion.Alike : Completion → Completion → Prop
  | normal : Alike .normal .normal
  | returned {v v' : Value} (hv : v.Alike A known v') : Alike (.returned v) (.returned v')

/-- The machines are alike. -/
structure Machine.Alike (m m' : Machine) : Prop where
  store : A.store (Value.Alike A) known m.store m'.store
  objects : A.objects (Value.Alike A) known m.objects m'.objects
  nextId : A.nextId known m.nextId m'.nextId
  output : m'.output = m.output
  readings : A.readings m.readings m'.readings

end

section
variable {κ : Type} {A : Likeness κ} {known known' : κ}

theorem ClassLevel.Alike.mono {level level' : ClassLevel} (h : level.Alike A known level')
    (hknown : A.Grows known known') : level.Alike A known' level' :=
  { h with
    id := A.number_mono h.id hknown
    methods := h.methods.imp fun _ _ hf => A.method_mono hf hknown }

theorem ClassValue.Alike.mono {c c' : ClassValue} (h : c.Alike A known c')
    (hknown : A.Grows known known') : c.Alike A known' c' :=
  ⟨h.own.mono hknown, List.Forall₂.imp (fun _ _ hlevel => hlevel.mono hknown) h.above⟩

theorem Value.Alike.mono {v v' : Value} (h : v.Alike A known v') (hknown : A.Grows known known') :
    v.Alike A known' v' := by
  cases h with
  | datum d => exact .datum d
  | clock => exact .clock
  | function hf => exact .function (A.function_mono hf hknown)
  | classOf hc => exact .classOf (hc.mono hknown)
  | object hid hc => exact .object (A.object_mono hid hknown) (hc.mono hknown)

theorem Value.alike_nil : Value.nil.Alike A known .nil := .datum .nil

/-! ## Looking at values -/

namespace ClassValue.Alike

variable {c c' : ClassValue} (h : c.Alike A known c')
include h

theorem lineage : List.Forall₂ (ClassLevel.Alike A known) c.lineage c'.lineage :=
  .cons h.own h.above

/-- The classes have methods of the same names, which go together. -/
theorem method? (name : String) :
    Option.Rel (A.method known) (c.method? name) (c'.method? name) := by
  unfold ClassValue.method?
  have hlineage := h.lineage
  generalize c.lineage = levels, c'.lineage = levels' at hlineage
  induction hlineage with
  | nil => exact .none
  | @cons level level' levels levels' hlevel _ ih =>
    rw [List.findSome?_cons, List.findSome?_cons]
    generalize hget : level.methods.get? name = x, hget' : level'.methods.get? name = y
    have hrel := hlevel.methods name
    rw [hget, hget'] at hrel
    cases hrel with
    | none => exact ih
    | some hf => exact .some hf

theorem arity_eq : c'.arity = c.arity := by
  unfold ClassValue.arity ClassValue.initializer?
  generalize hget : c.method? initializerName = x, hget' : c'.method? initializerName = y
  have hrel := h.method? initializerName
  rw [hget, hget'] at hrel
  cases hrel with
  | none => rfl
  | some hf => exact A.arity hf

end ClassValue.Alike

theorem Callee.Alike.arity_eq {callee callee' : Callee} (h : callee.Alike A known callee') :
    callee'.arity = callee.arity := by
  cases h with
  | clock => rfl
  | function hf => exact (A.looks hf).arity
  | classOf hc => exact hc.arity_eq

namespace Value.Alike

variable {v v' w w' : Value}

theorem isTruthy_eq (h : v.Alike A known v') : v'.isTruthy = v.isTruthy := by
  cases h <;> rfl

theorem display_eq (h : v.Alike A known v') : v'.display = v.display := by
  cases h with
  | datum d => rfl
  | clock => rfl
  | function hf => exact (A.looks hf).display
  | classOf hc => exact hc.own.name
  | object _ hc => exact congrArg (· ++ " instance") hc.own.name

/-- Values that are alike are equal to the same values. -/
theorem equal_eq (h : v.Alike A known v') (hw : w.Alike A known w') :
    v'.equal w' = v.equal w := by
  cases h with
  | function hf =>
    cases hw with
    | function hg => exact decide_eq_decide.mpr (A.number_inj (A.id hf) (A.id hg))
    | _ => rfl
  | classOf hc =>
    cases hw with
    | classOf hd => exact decide_eq_decide.mpr (A.number_inj hc.own.id hd.own.id)
    | _ => rfl
  | object hid _ =>
    cases hw with
    | object hid' _ => exact decide_eq_decide.mpr (A.object_inj hid hid')
    | _ => rfl
  | _ => cases hw <;> rfl

theorem callee? (h : v.Alike A known v') :
    Option.Rel (Callee.Alike A known) v.callee? v'.callee? := by
  cases h with
  | datum d => exact .none
  | clock => exact .some .clock
  | function hf => exact .some (.function hf)
  | classOf hc => exact .some (.classOf hc)
  | object _ _ => exact .none

theorem unary_eq (h : v.Alike A known v') (op : Token) : v'.unary op = v.unary op := by
  unfold Value.unary
  rw [h.isTruthy_eq]
  cases h <;> rfl

theorem binary_eq (h : v.Alike A known v') (hw : w.Alike A known w') (op : Token) :
    v'.binary op w' = v.binary op w := by
  unfold Value.binary
  rw [h.equal_eq hw]
  cases h with
  | datum d => cases d <;> cases hw <;> rfl
  | _ => cases hw <;> rfl

/-- The value of an operator is a datum. -/
theorem of_unary {op : Token} {u : Value} (h : v.unary op = .ok u) : u.Alike A known u := by
  unfold Value.unary at h
  repeat' split at h
  all_goals cases h <;> exact .datum _

theorem of_binary {op : Token} {u : Value} (h : v.binary op w = .ok u) : u.Alike A known u := by
  unfold Value.binary Value.plus Value.arithmetic at h
  repeat' split at h
  all_goals cases h <;> exact .datum _

end Value.Alike

end

/-! ## Other ways to go together -/

section
variable {κ κ' : Type} {A : Likeness κ} {B : Likeness κ'} {known : κ} {known' : κ'}

/-- What goes together in one way goes together in another. -/
structure Likeness.Implies (A : Likeness κ) (known : κ) (B : Likeness κ') (known' : κ') :
    Prop where
  function : ∀ {f f'}, A.function known f f' → B.function known' f f'
  method : ∀ {f f'}, A.method known f f' → B.method known' f f'
  number : ∀ {n n'}, A.number known n n' → B.number known' n n'
  object : ∀ {n n'}, A.object known n n' → B.object known' n n'

theorem ClassValue.Alike.transfer {c c' : ClassValue} (h : c.Alike A known c')
    (himplies : A.Implies known B known') : c.Alike B known' c' := by
  have hlevel : ∀ {level level' : ClassLevel}, level.Alike A known level' →
      level.Alike B known' level' :=
    fun h => ⟨himplies.number h.id, h.name, h.methods.imp fun _ _ hf => himplies.method hf⟩
  exact ⟨hlevel h.own, h.above.imp fun _ _ h => hlevel h⟩

/-- Values are alike in every way in which the functions, methods and numbers in them go together. -/
theorem Value.Alike.transfer {v v' : Value} (h : v.Alike A known v')
    (himplies : A.Implies known B known') : v.Alike B known' v' := by
  cases h with
  | datum d => exact .datum d
  | clock => exact .clock
  | function hf => exact .function (himplies.function hf)
  | classOf hc => exact .classOf (hc.transfer himplies)
  | object hid hc => exact .object (himplies.object hid) (hc.transfer himplies)

end

/-! ## Different code -/

/-- Objects have fields of the same names, with values that go together. -/
structure Machine.FieldsAlike (alike : Value → Value → Prop)
    (objects objects' : Array (Bindings Value)) : Prop where
  size : objects'.size = objects.size
  fields : ∀ id : Nat, ((objects[id]?).getD Bindings.empty).Matches (fun name => name) alike
    ((objects'[id]?).getD Bindings.empty)

/-- A way in which two machines go together that differ in code and scopes only.  Something is known
of each scope of a machine, and of a new one when it is made. -/
structure Likeness.OfCode (ω : Type) where
  function : List ω → Closure → Closure → Prop
  method : List ω → Closure → Closure → Prop
  store : (List ω → Value → Value → Prop) → List ω → Store Value → Store Value → Prop
  protected id : ∀ {known f f'}, function known f f' → f'.id = f.id
  looks : ∀ {known f f'}, function known f f' → f.LooksLike f'
  arity : ∀ {known f f'}, method known f f' → f'.arity = f.arity
  function_mono : ∀ {known known' f f'}, function known f f' → known <+: known' →
    function known' f f'
  method_mono : ∀ {known known' f f'}, method known f f' → known <+: known' → method known' f f'

namespace Likeness.OfCode

variable {ω : Type}

/-- All numbers are the same in both machines, and tokens may differ in their texts. -/
def toLikeness (C : OfCode ω) : Likeness (List ω) where
  Grows known known' := known <+: known'
  function := C.function
  method := C.method
  number _ n n' := n' = n
  object _ n n' := n' = n
  place t t' := t'.line = t.line
  store := C.store
  objects alike known := Machine.FieldsAlike (alike known)
  nextId _ n n' := n' = n
  readings n n' := n' = n
  refl _ := List.prefix_rfl
  trans h h' := h.trans h'
  place_refl _ := rfl
  number_inj h h' := by rw [h, h']
  object_inj h h' := by rw [h, h']
  id := C.id
  looks := C.looks
  arity := C.arity
  function_mono := C.function_mono
  method_mono := C.method_mono
  number_mono h _ := h
  object_mono h _ := h

variable {C D : OfCode ω} {known known' : List ω} {m m' : Machine}

theorem fields (h : m.Alike C.toLikeness known m') (id : Nat) :
    (m.fields id).Matches (fun name => name) (Value.Alike C.toLikeness known) (m'.fields id) :=
  Machine.FieldsAlike.fields h.objects id

/-- Machines stay alike when their stores change. -/
theorem withStore (h : m.Alike C.toLikeness known m') (hknown : known <+: known')
    {s s' : Store Value} (hs : C.store (Value.Alike C.toLikeness) known' s s') :
    Machine.Alike C.toLikeness known' { m with store := s } { m' with store := s' } :=
  { h with
    store := hs
    objects := ⟨Machine.FieldsAlike.size h.objects,
      fun id => (fields h id).imp fun _ _ hv => hv.mono hknown⟩ }

/-- Other functions and methods may go together as well, if the stores still do. -/
theorem transfer (h : m.Alike C.toLikeness known m')
    (hfunction : ∀ {f f'}, C.function known f f' → D.function known f f')
    (hmethod : ∀ {f f'}, C.method known f f' → D.method known f f')
    (hstore : C.toLikeness.Implies known D.toLikeness known →
      C.store (Value.Alike C.toLikeness) known m.store m'.store →
      D.store (Value.Alike D.toLikeness) known m.store m'.store) : m.Alike D.toLikeness known m' := by
  have himplies : C.toLikeness.Implies known D.toLikeness known := ⟨hfunction, hmethod, id, id⟩
  exact ⟨hstore himplies h.store, ⟨Machine.FieldsAlike.size h.objects,
    fun id => (fields h id).imp fun _ _ hv => hv.transfer himplies⟩, h.nextId, h.output, h.readings⟩

end Likeness.OfCode

end LoxLang
