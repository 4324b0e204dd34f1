import LoxLang.Proofs.Machine.Abreast
import LoxLang.Proofs.Machine.Places
import Mathlib.Logic.Relator

/-! # Machines that differ in numbers

Scopes, objects, functions and classes get their numbers in the order in which they are made, and
they keep them when nothing leads to them any more.  Two machines that hold the same may therefore
differ in numbers, and each may have more than the other of what a block or a call has left behind.
A `Pairing` says which numbers go together, of those that matter.  What goes together has the same
code and texts and leads to what goes together; all numbers that are given out later are new in both
machines.  Of its own numbers a program sees only which are the same. -/

namespace LoxLang

open Machine

/-- All scopes and objects of the first machine are in the second, with the variables and fields that
they had, and what is made gets no number that was given out. -/
structure Machine.Keeps (m m' : Machine) : Prop where
  scopes : ∀ id < m.store.nextId, m'.store.scope id = m.store.scope id
  fields : ∀ id < m.objects.size, m'.fields id = m.fields id
  nextScope : m.store.nextId ≤ m'.store.nextId
  size : m.objects.size ≤ m'.objects.size
  nextId : m.nextId ≤ m'.nextId

/-! ## Numbers that go together -/

/-- Numbers that go together, no number with two others. -/
structure Pairs where
  rel : Nat → Nat → Prop
  unique : Relator.BiUnique rel

namespace Pairs

/-- The numbers are below two others. -/
def Below (p : Pairs) (n n' : Nat) : Prop := ∀ i i', p.rel i i' → i < n ∧ i' < n'

/-- No numbers go together. -/
def empty : Pairs := ⟨fun _ _ => False, nofun, nofun⟩

theorem below_empty (n n' : Nat) : empty.Below n n' := fun _ _ h => h.elim

variable {p : Pairs} {n n' : Nat}

/-- Two numbers more go together, which are new. -/
def add (p : Pairs) (h : p.Below n n') : Pairs where
  rel i i' := p.rel i i' ∨ i = n ∧ i' = n'
  unique := by
    constructor
    · rintro i j k (hi | ⟨rfl, rfl⟩) (hj | ⟨rfl, hk⟩)
      · exact p.unique.1 hi hj
      · exact absurd (h _ _ hi).2 (hk ▸ Nat.lt_irrefl _)
      · exact absurd (h _ _ hj).2 (Nat.lt_irrefl _)
      · rfl
    · rintro i j k (hi | ⟨rfl, rfl⟩) (hj | ⟨hi', rfl⟩)
      · exact p.unique.2 hi hj
      · exact absurd (h _ _ hi).1 (hi' ▸ Nat.lt_irrefl _)
      · exact absurd (h _ _ hj).1 (Nat.lt_irrefl _)
      · rfl

theorem inj (p : Pairs) {i i' j j' : Nat} (hi : p.rel i i') (hj : p.rel j j') : i' = j' ↔ i = j :=
  ⟨fun h => p.unique.1 hi (h ▸ hj), fun h => p.unique.2 hi (h ▸ hj)⟩

theorem rel_add (h : p.Below n n') : (p.add h).rel n n' := .inr ⟨rfl, rfl⟩

theorem below_add (h : p.Below n n') : (p.add h).Below (n + 1) (n' + 1) := by
  rintro i i' (hi | ⟨rfl, rfl⟩)
  · exact ⟨Nat.lt_succ_of_lt (h _ _ hi).1, Nat.lt_succ_of_lt (h _ _ hi).2⟩
  · exact ⟨Nat.lt_succ_self i, Nat.lt_succ_self i'⟩

theorem Below.mono (h : p.Below n n') {k k' : Nat} (hk : n ≤ k) (hk' : n' ≤ k') : p.Below k k' :=
  fun _ _ hi => ⟨Nat.lt_of_lt_of_le (h _ _ hi).1 hk, Nat.lt_of_lt_of_le (h _ _ hi).2 hk'⟩

end Pairs

/-- Which scopes go together in two machines, which objects, and which functions and classes. -/
structure Pairing where
  scopes : Pairs
  objects : Pairs
  numbers : Pairs

/-- What went together still does, and perhaps more. -/
structure Pairing.Grows (p q : Pairing) : Prop where
  scopes : ∀ {i i'}, p.scopes.rel i i' → q.scopes.rel i i'
  objects : ∀ {i i'}, p.objects.rel i i' → q.objects.rel i i'
  numbers : ∀ {i i'}, p.numbers.rel i i' → q.numbers.rel i i'

namespace Pairing

theorem Grows.refl (p : Pairing) : p.Grows p := ⟨id, id, id⟩

theorem Grows.trans {p q r : Pairing} (h : p.Grows q) (h' : q.Grows r) : p.Grows r :=
  ⟨fun hi => h'.scopes (h.scopes hi), fun hi => h'.objects (h.objects hi),
    fun hi => h'.numbers (h.numbers hi)⟩

variable (p : Pairing) {n n' : Nat}

theorem grows_scopes (h : p.scopes.Below n n') : p.Grows { p with scopes := p.scopes.add h } :=
  ⟨.inl, id, id⟩

theorem grows_objects (h : p.objects.Below n n') : p.Grows { p with objects := p.objects.add h } :=
  ⟨id, .inl, id⟩

theorem grows_numbers (h : p.numbers.Below n n') : p.Grows { p with numbers := p.numbers.add h } :=
  ⟨id, id, .inl⟩

end Pairing

/-! ## How the machines are alike -/

/-- The environments lead through scopes that go together. -/
abbrev Pairing.Envs (p : Pairing) : Env → Env → Prop := List.Forall₂ p.scopes.rel

/-- The functions have the same code, in environments that go together. -/
structure Closure.SameCode (p : Pairing) (f f' : Closure) : Prop where
  declaration : f'.declaration = f.declaration
  env : p.Envs f.env f'.env
  isInitializer : f'.isInitializer = f.isInitializer

/-- Scopes that go together have the same variables, and the global scopes go together. -/
structure Store.Renumbered (alike : Pairing → Value → Value → Prop) (p : Pairing)
    (store store' : Store Value) : Prop where
  below : p.scopes.Below store.nextId store'.nextId
  globals : p.scopes.rel 0 0
  scopes : ∀ {id id'}, p.scopes.rel id id' →
    (store.scope id).Matches (fun name => name) (alike p) (store'.scope id')

/-- Objects that go together have the same fields. -/
structure Machine.FieldsRenumbered (alike : Pairing → Value → Value → Prop) (p : Pairing)
    (objects objects' : Array (Bindings Value)) : Prop where
  below : p.objects.Below objects.size objects'.size
  fields : ∀ {id id'}, p.objects.rel id id' → ((objects[id]?).getD Bindings.empty).Matches
    (fun name => name) (alike p) ((objects'[id']?).getD Bindings.empty)

theorem Pairing.Envs.mono {p q : Pairing} {env env' : Env} (h : p.Envs env env')
    (hgrows : p.Grows q) : q.Envs env env' := h.imp fun _ _ => hgrows.scopes

theorem Closure.SameCode.mono {p q : Pairing} {f f' : Closure} (h : f.SameCode p f')
    (hgrows : p.Grows q) : f.SameCode q f' := { h with env := h.env.mono hgrows }

/-- Machines are alike up to numbers, with clocks that show the same from now on. -/
def renumbering (clock clock' : Nat → Float) : Likeness Pairing where
  Grows := Pairing.Grows
  function p f f' := p.numbers.rel f.id f'.id ∧ f.SameCode p f'
  method := Closure.SameCode
  number p := p.numbers.rel
  object p := p.objects.rel
  place t t' := t' = t
  store := Store.Renumbered
  objects := Machine.FieldsRenumbered
  nextId p := p.numbers.Below
  readings n n' := ∀ i, clock' (n' + i) = clock (n + i)
  refl := Pairing.Grows.refl
  trans := Pairing.Grows.trans
  place_refl _ := rfl
  number_inj {p _ _ _ _} := p.numbers.inj
  object_inj {p _ _ _ _} := p.objects.inj
  id h := h.1
  looks h := by
    obtain ⟨_, h⟩ := h
    exact ⟨by rw [Closure.arity, Closure.arity, h.declaration],
      by rw [Closure.display, Closure.display, h.declaration]⟩
  arity h := by rw [Closure.arity, Closure.arity, h.declaration]
  function_mono h hgrows := ⟨hgrows.numbers h.1, h.2.mono hgrows⟩
  method_mono := Closure.SameCode.mono
  number_mono h hgrows := hgrows.numbers h
  object_mono h hgrows := hgrows.objects h

namespace Pairing

section
variable {clock clock' : Nat → Float} {p q : Pairing} {m m' : Machine} {env env' : Env}

/-- What goes together does not depend on the clocks. -/
theorem implies_renumbering (clock clock' clock₁ clock₁' : Nat → Float) (p : Pairing) :
    (renumbering clock clock').Implies p (renumbering clock₁ clock₁') p := ⟨id, id, id, id⟩

/-- Machines stay alike with other clocks that show the same from now on. -/
theorem alike_withClocks (hm : m.Alike (renumbering clock clock') p m') {clock₁ clock₁' : Nat → Float}
    (hclock : ∀ i, clock₁' (m'.readings + i) = clock₁ (m.readings + i)) :
    m.Alike (renumbering clock₁ clock₁') p m' := by
  have himplies := implies_renumbering clock clock' clock₁ clock₁' p
  have hstore : Store.Renumbered (Value.Alike (renumbering clock clock')) p m.store m'.store :=
    hm.store
  have hfields : Machine.FieldsRenumbered (Value.Alike (renumbering clock clock')) p m.objects
    m'.objects := hm.objects
  exact ⟨{ hstore with scopes := fun hid =>
      (hstore.scopes hid).imp fun _ _ hv => hv.transfer himplies },
    { hfields with fields := fun hid =>
      (hfields.fields hid).imp fun _ _ hv => hv.transfer himplies },
    hm.nextId, hm.output, hclock⟩

/-- A machine before its first program is alike to itself, by its global scope. -/
theorem alike_start (clock : Nat → Float) :
    Machine.start.Alike (renumbering clock clock)
      ⟨Pairs.empty.add (Pairs.below_empty 0 0), .empty, .empty⟩ Machine.start := by
  have hnew := Pairs.rel_add (Pairs.below_empty 0 0)
  refine ⟨⟨Pairs.below_add (Pairs.below_empty 0 0), hnew, fun {id id'} hid => ?_⟩,
    ⟨Pairs.below_empty _ _, nofun⟩, Pairs.below_empty _ _, rfl, fun _ => rfl⟩
  obtain ⟨rfl, rfl⟩ := hid.resolve_left False.elim
  exact (Bindings.matches_empty _ _).insert Function.injective_id "clock" Value.Alike.clock

/-! ## What is kept -/

/-- What the second machine has more than a third one is of no account: they are alike if scopes and
objects that were there are as they were, and new ones get other numbers. -/
theorem alike_of_keeps (hm : m.Alike (renumbering clock clock') p m') {m'' : Machine}
    (hkeeps : m'.Keeps m'') (houtput : m''.output = m'.output)
    (hclock : ∀ i, clock' (m''.readings + i) = clock' (m'.readings + i)) :
    m.Alike (renumbering clock clock') p m'' := by
  have hstore : Store.Renumbered (Value.Alike (renumbering clock clock')) p m.store m'.store :=
    hm.store
  have hfields : Machine.FieldsRenumbered (Value.Alike (renumbering clock clock')) p m.objects
    m'.objects := hm.objects
  have hnumbers : p.numbers.Below m.nextId m'.nextId := hm.nextId
  refine ⟨⟨hstore.below.mono (Nat.le_refl _) hkeeps.nextScope, hstore.globals, fun {id id'} hid => ?_⟩,
    ⟨hfields.below.mono (Nat.le_refl _) hkeeps.size, fun {id id'} hid => ?_⟩,
    hnumbers.mono (Nat.le_refl _) hkeeps.nextId, houtput.trans hm.output,
    fun i => (hclock i).trans (hm.readings i)⟩
  · rw [hkeeps.scopes id' (hstore.below _ _ hid).2]
    exact hstore.scopes hid
  · have hsame := hkeeps.fields id' (hfields.below _ _ hid).2
    rw [Machine.fields, Machine.fields] at hsame
    rw [hsame]
    exact hfields.fields hid

/-! ## What is made and changed -/

/-- Scopes stay alike when more goes together elsewhere. -/
theorem store_mono {store store' : Store Value}
    (h : Store.Renumbered (Value.Alike (renumbering clock clock')) p store store')
    (hgrows : p.Grows q) (hscopes : q.scopes = p.scopes) :
    Store.Renumbered (Value.Alike (renumbering clock clock')) q store store' := by
  refine ⟨hscopes ▸ h.below, hgrows.scopes h.globals, fun hid => ?_⟩
  rw [hscopes] at hid
  exact (h.scopes hid).imp fun _ _ hv => hv.mono hgrows

/-- Objects stay alike when more goes together elsewhere. -/
theorem fields_mono {objects objects' : Array (Bindings Value)}
    (h : Machine.FieldsRenumbered (Value.Alike (renumbering clock clock')) p objects objects')
    (hgrows : p.Grows q) (hobjects : q.objects = p.objects) :
    Machine.FieldsRenumbered (Value.Alike (renumbering clock clock')) q objects objects' := by
  refine ⟨hobjects ▸ h.below, fun hid => ?_⟩
  rw [hobjects] at hid
  exact (h.fields hid).imp fun _ _ hv => hv.mono hgrows

/-- What is made gets numbers that go together, and fields that do are changed alike. -/
instance lawful_renumbering : (renumbering clock clock').Lawful where
  freshId p q m m' _ hm := by
    have hbelow : q.numbers.Below m.nextId m'.nextId := hm.nextId
    have hgrows := q.grows_numbers hbelow
    exact .ok hgrows ⟨store_mono hm.store hgrows rfl, fields_mono hm.objects hgrows rfl,
      Pairs.below_add hbelow, hm.output, hm.readings⟩ (Pairs.rel_add hbelow)
  newObject := by
    intro p c c' hc q m m' hgrows hm
    have hfields : Machine.FieldsRenumbered (Value.Alike (renumbering clock clock')) q m.objects
        m'.objects := hm.objects
    have hgrows' := q.grows_objects hfields.below
    refine .ok hgrows' ⟨store_mono hm.store hgrows' rfl, ⟨?_, ?_⟩, hm.nextId, hm.output, hm.readings⟩ ?_
    · simpa using Pairs.below_add hfields.below
    · rintro id id' hid
      show (Machine.fields id { m with objects := m.objects.push Bindings.empty }).Matches _ _
        (Machine.fields id' { m' with objects := m'.objects.push Bindings.empty })
      rw [Machine.fields_push, Machine.fields_push]
      rcases hid with hid | ⟨rfl, rfl⟩
      · exact (hfields.fields hid).imp fun _ _ hv => hv.mono hgrows'
      · -- where the new objects lie nothing was before
        simp [Machine.fields, Bindings.matches_empty]
    · have hnew := Pairs.rel_add hfields.below
      exact Value.Alike.object hnew ((hc.mono hgrows).mono hgrows')
  fields hm hid := Machine.FieldsRenumbered.fields hm.objects hid
  setField := by
    intro p id id' name v v' hid hv q m m' hgrows hm
    have hfields : Machine.FieldsRenumbered (Value.Alike (renumbering clock clock')) q m.objects
        m'.objects := hm.objects
    have hid : q.objects.rel id id' := hgrows.objects hid
    obtain ⟨hlt, hlt'⟩ := hfields.below _ _ hid
    refine .ok (.refl q) { hm with objects := ⟨?_, fun {other other'} hother => ?_⟩ } trivial
    · simpa using hfields.below
    · show (Machine.fields other
        { m with objects := m.objects.modify id fun b => b.insert name v }).Matches _ _
        (Machine.fields other'
          { m' with objects := m'.objects.modify id' fun b => b.insert name v' })
      rw [Machine.fields_modify, Machine.fields_modify]
      by_cases heq : other = id
      · rw [if_pos ⟨heq, hlt⟩, if_pos ⟨(q.objects.inj hother hid).mpr heq, hlt'⟩]
        exact (hfields.fields hid).insert Function.injective_id name (hv.mono hgrows)
      · rw [if_neg fun h => heq h.1, if_neg fun h => heq ((q.objects.inj hother hid).mp h.1)]
        exact hfields.fields hother

/-- A variable corresponds to that of the same name in the scope that goes with its own. -/
theorem corresponds {id id' : ScopeId} (hid : p.scopes.rel id id') (name : String) :
    (renumbering clock clock').Corresponds p id name id' name := by
  refine ⟨fun hgrows hm => Store.Renumbered.scopes hm.store (hgrows.scopes hid) name,
    fun {q m m' v v'} hgrows hm hv => ?_⟩
  have hstore : Store.Renumbered (Value.Alike (renumbering clock clock')) q m.store m'.store :=
    hm.store
  have hid : q.scopes.rel id id' := hgrows.scopes hid
  obtain ⟨hlt, hlt'⟩ := hstore.below _ _ hid
  refine { hm with store := ⟨?_, hstore.globals, fun {other other'} hother => ?_⟩ }
  · rw [Store.nextId_set, Store.nextId_set]
    exact hstore.below
  · rw [Store.scope_set, Store.scope_set]
    by_cases heq : other = id
    · rw [if_pos ⟨heq, hlt⟩, if_pos ⟨(q.scopes.inj hother hid).mpr heq, hlt'⟩]
      exact (hstore.scopes hid).insert Function.injective_id name hv
    · rw [if_neg fun h => heq h.1, if_neg fun h => heq ((q.scopes.inj hother hid).mp h.1)]
      exact hstore.scopes hother

theorem globals_renumbering : (renumbering clock clock').Globals :=
  fun hm name => corresponds (Store.Renumbered.globals hm.store) name

/-! ## Scopes -/

/-- A new scope is made, in both machines. -/
theorem agree_enter {vars vars' : Bindings Value}
    (hvars : vars.Matches (fun name => name) (Value.Alike (renumbering clock clock') p) vars')
    (henv : p.Envs env env') :
    Agree (renumbering clock clock') p Envs (Action.enter vars env) (Action.enter vars' env') := by
  intro q m m' hgrows hm
  have hstore : Store.Renumbered (Value.Alike (renumbering clock clock')) q m.store m'.store :=
    hm.store
  have hgrows' := q.grows_scopes hstore.below
  refine .ok hgrows' ⟨⟨?_, .inl hstore.globals, fun {id id'} hid => ?_⟩,
    fields_mono hm.objects hgrows' rfl, hm.nextId, hm.output, hm.readings⟩
    (.cons (Pairs.rel_add hstore.below) (Envs.mono (henv.mono hgrows) hgrows'))
  · rw [Store.nextId_push, Store.nextId_push]
    exact Pairs.below_add hstore.below
  · rw [Store.scope_push, Store.scope_push]
    rcases hid with hid | ⟨rfl, rfl⟩
    · obtain ⟨hlt, hlt'⟩ := hstore.below _ _ hid
      rw [if_neg (Nat.ne_of_lt hlt), if_neg (Nat.ne_of_lt hlt')]
      exact (hstore.scopes hid).imp fun _ _ hv => hv.mono hgrows'
    · rw [if_pos rfl, if_pos rfl]
      exact hvars.imp fun _ _ hv => (hv.mono hgrows).mono hgrows'

/-- A new scope in which a word has a meaning. -/
theorem agree_enterWord (word : String) {v v' : Value}
    (hv : v.Alike (renumbering clock clock') p v') (henv : p.Envs env env') :
    Agree (renumbering clock clock') p Envs (Action.enter (Bindings.empty.insert word v) env)
      (Action.enter (Bindings.empty.insert word v') env') :=
  agree_enter ((Bindings.matches_empty _ _).insert Function.injective_id word hv) henv

/-- A variable of the innermost scope is made or gets another value. -/
theorem agree_define (henv : p.Envs env env') (name : String) {v v' : Value}
    (hv : v.Alike (renumbering clock clock') p v') :
    Agree (renumbering clock clock') p (fun _ _ _ => True) (Action.define env name v)
      (Action.define env' name v') := by
  cases henv with
  | nil => exact fun q _ _ _ hm => .ok (.refl q) hm trivial
  | cons hid _ => exact agree_defineVariable (corresponds hid name) _ _ hv

/-- As many scopes can be left in both environments. -/
theorem Envs.leave (henv : p.Envs env env') (hops : Int) :
    (env.leave hops = .error .pastGlobalScope ∧ env'.leave hops = .error .pastGlobalScope) ∨
      ∃ id outer id' outer', env.leave hops = .ok (id :: outer) ∧
        env'.leave hops = .ok (id' :: outer') ∧ p.scopes.rel id id' := by
  have hdrop := List.forall₂_drop hops.toNat henv
  unfold Env.leave
  generalize env.drop hops.toNat = outer, env'.drop hops.toNat = outer' at hdrop ⊢
  cases hdrop with
  | nil => exact .inl ⟨rfl, rfl⟩
  | cons hid _ => exact .inr ⟨_, _, _, _, rfl, rfl, hid⟩

/-- The value of a variable some scopes out. -/
theorem agree_getAt (henv : p.Envs env env') (hops : Int) (name : String) :
    Agree (renumbering clock clock') p (Value.Alike (renumbering clock clock'))
      (Action.getAt env hops name) (Action.getAt env' hops name) := by
  rcases henv.leave hops with ⟨herror, herror'⟩ | ⟨id, outer, id', outer', hleave, hleave', hid⟩
  · refine agree_get fun q m m' _ _ => ?_
    unfold Store.getAt
    rw [herror, herror']
    exact agree_fault .pastGlobalScope
  · exact agree_getVariable (corresponds hid name) hleave hleave'

/-! ## References -/

variable (table : BindingTable) (ref : Ref Label)

theorem agree_read (henv : p.Envs env env') :
    Agree (renumbering clock clock') p (Value.Alike (renumbering clock clock'))
      (Action.read table env ref) (Action.read table env' ref) := by
  unfold Action.read
  cases table.hops? ref.label with
  | some hops => exact agree_getAt henv hops ref.name.lexeme
  | none => exact agree_readGlobal globals_renumbering _ _ ref.name

theorem agree_assign (henv : p.Envs env env') {v v' : Value}
    (hv : v.Alike (renumbering clock clock') p v') :
    Agree (renumbering clock clock') p (fun _ _ _ => True) (Action.assign table env ref v)
      (Action.assign table env' ref v') := by
  unfold Action.assign
  cases table.hops? ref.label with
  | some hops =>
    dsimp only
    rcases henv.leave hops with ⟨herror, herror'⟩ | ⟨id, outer, id', outer', hleave, hleave', hid⟩
    · rw [herror, herror']
      exact agree_fault .pastGlobalScope
    · rw [hleave, hleave']
      exact agree_defineVariable (corresponds hid ref.name.lexeme) outer outer' hv
  | none => exact agree_assignGlobal globals_renumbering _ _ ref.name hv

/-- What `super` and `this` are. -/
theorem agree_parent (henv : p.Envs env env') :
    Agree (renumbering clock clock') p
      (fun q above above' => above.1.Alike (renumbering clock clock') q above'.1 ∧
        above.2.Alike (renumbering clock clock') q above'.2)
      (Action.parent table env ref) (Action.parent table env' ref) := by
  unfold Action.parent
  cases table.hops? ref.label with
  | none => exact agree_fault .unboundSuper
  | some hops =>
    refine (agree_getAt henv hops "super").bind fun q above above' hgrows habove => ?_
    refine (agree_getAt (henv.mono hgrows) (hops - 1) "this").bind
      fun r object object' hgrows' hobject => ?_
    exact agree_pure fun _ hgrows'' =>
      ⟨(habove.mono hgrows').mono hgrows'', hobject.mono hgrows''⟩

/-! ## Functions and classes -/

/-- The function that a method becomes gets a number and a scope of its own. -/
theorem takes_renumbering : (renumbering clock clock').Takes := by
  intro p v v' f f' hv hf
  unfold Action.takeMethod
  refine (agree_enterWord "this" hv hf.env).bind fun q env env' _ henv => ?_
  refine agree_freshId.bind fun r id id' hgrows hid => ?_
  exact agree_pure fun s hgrows' => ⟨hgrows'.numbers hid, hf.declaration,
    (henv.mono hgrows).mono hgrows', hf.isInitializer⟩

/-- A class and the variable that holds it. -/
theorem agree_makeClass (henv : p.Envs env env') (name : Token) {parent parent' : Option ClassValue}
    (hparent : Option.Rel (ClassValue.Alike (renumbering clock clock') p) parent parent')
    (ms : List (Function Label)) :
    Agree (renumbering clock clock') p (fun _ _ _ => True) (makeClass env name parent ms)
      (makeClass env' name parent' ms) := by
  have hmethods : ∀ {q : Pairing} {methodEnv methodEnv' : Env}, q.Envs methodEnv methodEnv' →
      List.Forall₂ ((renumbering clock clock').MethodsIn q methodEnv methodEnv') ms ms :=
    fun hmethodEnv => List.forall₂_same.mpr fun _ _ =>
      ⟨rfl, fun _ _ _ hgrows _ => ⟨rfl, hmethodEnv.mono hgrows, rfl⟩⟩
  unfold makeClass
  cases hparent with
  | none =>
    exact agree_defineClass .nil (hmethods henv)
      fun q v v' hgrows hv => agree_define (henv.mono hgrows) name.lexeme hv
  | some hc =>
    refine (agree_enterWord "super" (.classOf hc) henv).bind
      fun q methodEnv methodEnv' hgrows hmethodEnv => ?_
    exact agree_defineClass (hc.mono hgrows).lineage (hmethods hmethodEnv)
      fun r v v' hgrows' hv => agree_define ((henv.mono hgrows).mono hgrows') name.lexeme hv

end

end Pairing

end LoxLang
