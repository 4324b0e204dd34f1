import LoxLang.Proofs.Computation
import LoxLang.Proofs.Machine.Map

/-! # Following an action

An action follows another one if it does the same on a changed machine: behind a text that was
printed before, it ends in the same way, up to the change, and leaves the machine that the other one
leaves, changed and behind that text.  An action that follows itself so never reads or rewrites what
was printed. -/

namespace LoxLang

/-- The same end of an action, with a changed place if it is an error. -/
def Halt.map (φ : Token → Token) : Halt → Halt
  | error e => .error (e.map φ)
  | fault f => .fault f

/-- A machine, changed and behind a text that was printed before. -/
def Machine.retold (χ : Change) (before : String) (m : Machine) : Machine :=
  (m.change χ).behind before

theorem Machine.retold_unlined (m : Machine) :
    m.retold (.ofToken Token.unlined) "" = m.unlined := by
  simp [retold, behind, unlined, change_ofToken, map]

namespace Action

variable {α β γ δ σ : Type}

/-- The same end of an action, changed and behind a text that was printed before. -/
def retell (χ : Change) (before : String) (p : α → β) :
    EStateM.Result Halt Machine α → EStateM.Result Halt Machine β
  | .ok a m => .ok (p a) (m.retold χ before)
  | .error h m => .error (h.map χ.token) (m.retold χ before)

/-- `y` does after the change what `x` does, with a result changed by `p`. -/
def Follows (χ : Change) (before : String) (p : α → β) (x : Action α) (y : Action β) : Prop :=
  ∀ m, y (m.retold χ before) = retell χ before p (x m)

section
variable {χ : Change} {before : String} {p : α → β}

theorem follows_pure (a : α) : Follows χ before p (pure a) (pure (p a)) := fun _ => rfl

theorem follows_fault (f : Fault) :
    Follows χ before p (throw (.fault f)) (throw (.fault f)) := fun _ => rfl

theorem follows_fail (fault : RuntimeFault) (place : Token) :
    Follows χ before p (fail fault place) (fail fault (χ.token place)) := fun _ => rfl

theorem follows_ofExcept {r : Except RuntimeError α} {r' : Except RuntimeError β}
    (h : r' = (r.map p).mapError (RuntimeError.map χ.token)) :
    Follows χ before p (ofExcept r) (ofExcept r') := by
  subst h
  cases r with
  | ok a => exact fun _ => rfl
  | error e => exact fun _ => rfl

theorem follows_ofAccess {r : Except Fault α} {r' : Except Fault β} (h : r' = r.map p) :
    Follows χ before p (ofAccess r) (ofAccess r') := by
  subst h
  cases r with
  | ok a => exact fun _ => rfl
  | error e => exact fun _ => rfl

theorem Follows.bind {x : Action α} {y : Action β} {f : α → Action γ} {k : β → Action δ}
    {q : γ → δ} (hx : Follows χ before p x y) (hf : ∀ a, Follows χ before q (f a) (k (p a))) :
    Follows χ before q (x >>= f) (y >>= k) := by
  intro m
  rw [EStateM.bind_apply, EStateM.bind_apply, hx m]
  cases x m with
  | ok a m' => exact hf a m'
  | error h m' => rfl

/-- What is looked up in the machine is the same up to the change. -/
theorem follows_get {f : Machine → Action α} {k : Machine → Action β}
    (h : ∀ m, Follows χ before p (f m) (k (m.retold χ before))) :
    Follows χ before p (get >>= f) (get >>= k) := fun m => h m m

theorem follows_modify {f k : Machine → Machine}
    (h : ∀ m, k (m.retold χ before) = (f m).retold χ before) :
    Follows χ before (fun a => a) (modify f) (modify k) := by
  intro m
  rw [EStateM.modify_apply, EStateM.modify_apply, h]
  rfl

theorem follows_modifyGet {f : Machine → α × Machine} {k : Machine → β × Machine}
    (h : ∀ m, k (m.retold χ before) = (p (f m).1, (f m).2.retold χ before)) :
    Follows χ before p (modifyGet f) (modifyGet k) := by
  intro m
  rw [EStateM.modifyGet_apply, EStateM.modifyGet_apply, h]
  rfl

/-- Actions that follow each other for all members of a list do so for the list. -/
theorem follows_mapM {change : σ → γ} {f : σ → Action α} {k : γ → Action β} {l : List σ}
    (h : ∀ a ∈ l, Follows χ before p (f a) (k (change a))) :
    Follows χ before (List.map p) (l.mapM f) ((l.map change).mapM k) := by
  induction l with
  | nil => exact follows_pure []
  | cons a l ih =>
    rw [List.map_cons, List.mapM_cons, List.mapM_cons]
    refine (h a List.mem_cons_self).bind fun b => ?_
    refine (ih fun a' ha' => h a' (List.mem_cons_of_mem a ha')).bind fun bs => ?_
    exact follows_pure (b :: bs)

end

/-- The machine that an action leaves, however it ends. -/
def machineOf : EStateM.Result Halt Machine α → Machine
  | .ok _ m => m
  | .error _ m => m

theorem machineOf_retell (χ : Change) (before : String) (p : α → β)
    (r : EStateM.Result Halt Machine α) :
    machineOf (retell χ before p r) = (machineOf r).retold χ before := by
  cases r <;> rfl

/-- An action that is followed behind whatever text was printed before does the same on the machine
that has printed nothing, but for that text. -/
theorem Follows.retell_silent {χ : Change} {p : α → β} {x : Action α} {y : Action β}
    (h : ∀ before, Follows χ before p x y) (m : Machine) :
    retell χ "" p (x m) = retell χ m.output p (x { m with output := "" }) := by
  have hsame : m.retold χ "" = Machine.retold χ m.output { m with output := "" } := by
    simp [Machine.retold, Machine.behind, Machine.change]
  exact (h "" m).symm.trans ((congrArg y hsame).trans (h m.output _))

/-- Such an action only adds to what was printed. -/
theorem Follows.exists_printed {χ : Change} {p : α → β} {x : Action α} {y : Action β}
    (h : ∀ before, Follows χ before p x y) (m : Machine) :
    ∃ printed, (machineOf (x m)).output = m.output ++ printed := by
  have hends := congrArg machineOf (retell_silent h m)
  rw [machineOf_retell, machineOf_retell] at hends
  have houtput := congrArg Machine.output hends
  have hempty : "" ++ (machineOf (x m)).output = (machineOf (x m)).output := String.empty_append
  exact ⟨(machineOf (x { m with output := "" })).output, hempty.symm.trans houtput⟩

/-! ## Single steps -/

section
variable {χ : Change} {before : String}

theorem follows_print (hχ : χ.Lawful) (v : Value) :
    Follows χ before (fun a => a) (print v) (print (v.change χ)) := by
  refine follows_modify fun m => ?_
  rw [Value.display_change hχ]
  simp [Machine.retold, Machine.behind, Machine.change, String.append_assoc]

theorem follows_freshId : Follows χ before (fun n => n) freshId freshId :=
  follows_modifyGet fun _ => rfl

theorem follows_enter (vars : Bindings Value) (env : Env) :
    Follows χ before (fun env => env) (enter vars env) (enter (vars.change χ.prunes (Value.change χ)) env) := by
  refine follows_modifyGet fun m => ?_
  simp [Machine.retold, Machine.behind, Machine.change, Store.change_push]

/-- A new scope in which a word has a meaning. -/
theorem follows_enterWord (word : String) (value : Value) (env : Env) :
    Follows χ before (fun env => env) (enter (Bindings.empty.insert word value) env)
      (enter (Bindings.empty.insert word (value.change χ)) env) := by
  have h : Follows χ before (fun env => env) _ _ :=
    follows_enter (Bindings.empty.insert word value) env
  rwa [Bindings.change_insert, Bindings.change_empty] at h

theorem follows_newObject (c : ClassValue) :
    Follows χ before (Value.change χ) (newObject c) (newObject (c.change χ)) := by
  refine follows_modifyGet fun m => ?_
  simp [Machine.retold, Machine.behind, Machine.change, Value.change]

theorem follows_define (env : Env) (name : String) (value : Value) :
    Follows χ before (fun a => a) (define env name value) (define env name (value.change χ)) := by
  refine follows_modify fun m => ?_
  simp [Machine.retold, Machine.behind, Machine.change, Store.change_define]

theorem follows_getAt (env : Env) (hops : Int) (name : String) :
    Follows χ before (Value.change χ) (getAt env hops name) (getAt env hops name) :=
  follows_get fun m => follows_ofAccess (m.store.getAt_change χ.prunes (Value.change χ) env hops name)

theorem follows_setField (id : Nat) (name : String) (value : Value) :
    Follows χ before (fun a => a) (setField id name value) (setField id name (value.change χ)) := by
  refine follows_modify fun m => ?_
  simp [Machine.retold, Machine.behind, Machine.change, Bindings.change_modify]

theorem follows_readClock {S S' : Setting} (hclock : S'.clock = S.clock) :
    Follows χ before (Value.change χ) (readClock S) (readClock S') :=
  follows_modifyGet fun m => by
    rw [hclock]
    rfl

theorem follows_takeMethod (object : Value) (method : Closure) :
    Follows χ before (Closure.change χ) (takeMethod object method)
      (takeMethod (object.change χ) (method.change χ)) := by
  refine (follows_enterWord "this" object method.env).bind fun env => ?_
  exact follows_freshId.bind fun n => follows_pure { method with id := n, env := env }

theorem follows_property (hχ : χ.Lawful) (id : Nat) (c : ClassValue)
    (name : Token) :
    Follows χ before (Value.change χ) (property id c name) (property id (c.change χ) (χ.token name)) := by
  refine follows_get fun m => ?_
  have hfields : ((m.retold χ before).fields id).get? (χ.token name).lexeme =
      ((m.fields id).get? name.lexeme).map (Value.change χ) := by
    rw [hχ.lexeme, ← Bindings.get?_change χ.prunes, ← Machine.fields_change]
    rfl
  rw [hfields, ClassValue.method?_change, hχ.lexeme]
  cases (m.fields id).get? name.lexeme with
  | some value => exact follows_pure value
  | none =>
    cases c.method? name.lexeme with
    | some method =>
      exact (follows_takeMethod (.object id c) method).bind fun f => follows_pure (Value.function f)
    | none => exact follows_fail _ name

end

/-! ## Reaching variables -/

section
variable {χ : Change} {before : String} {table table' : BindingTable}
  {ref : Ref Label} (hhops : table'.hops? (χ.label ref.label) = table.hops? ref.label) (env : Env)
include hhops

theorem follows_read (hχ : χ.Lawful) :
    Follows χ before (Value.change χ) (read table env ref)
      (read table' env (ref.map χ.label χ.token)) := by
  unfold read
  simp only [Ref.map, hχ.lexeme, hhops]
  cases table.hops? ref.label with
  | some hops => exact follows_getAt env hops ref.name.lexeme
  | none =>
    refine follows_get fun m => ?_
    have hlookup : (m.retold χ before).store.lookup? Machine.globalEnv ref.name.lexeme =
        (m.store.lookup? Machine.globalEnv ref.name.lexeme).map (Value.change χ) :=
      Store.lookup?_change ..
    rw [hlookup]
    cases m.store.lookup? Machine.globalEnv ref.name.lexeme with
    | some value => exact follows_pure value
    | none => exact follows_fail _ ref.name

theorem follows_assign (hχ : χ.Lawful) (value : Value) :
    Follows χ before (fun a => a) (assign table env ref value)
      (assign table' env (ref.map χ.label χ.token) (value.change χ)) := by
  unfold assign
  simp only [Ref.map, hχ.lexeme, hhops]
  cases table.hops? ref.label with
  | some hops =>
    have hleave : Follows χ before (fun env => env) (ofAccess (env.leave hops))
        (ofAccess (env.leave hops)) := follows_ofAccess (by cases env.leave hops <;> rfl)
    exact hleave.bind fun outer => follows_define outer ref.name.lexeme value
  | none =>
    refine follows_get fun m => ?_
    have hhome : (m.retold χ before).store.home? Machine.globalEnv ref.name.lexeme =
        m.store.home? Machine.globalEnv ref.name.lexeme := Store.home?_change ..
    rw [hhome]
    cases m.store.home? Machine.globalEnv ref.name.lexeme with
    | some id => exact follows_define [id] ref.name.lexeme value
    | none => exact follows_fail _ ref.name

theorem follows_parent :
    Follows χ before (Prod.map (Value.change χ) (Value.change χ)) (parent table env ref)
      (parent table' env (ref.map χ.label χ.token)) := by
  unfold parent
  simp only [Ref.map, hhops]
  cases table.hops? ref.label with
  | none => exact follows_fault _
  | some hops =>
    exact (follows_getAt env hops "super").bind fun above =>
      (follows_getAt env (hops - 1) "this").bind fun object => follows_pure (above, object)

end

end Action

/-- By the second access changed references reach what they reach by the first one, up to the
change. -/
structure Access.Follows (χ : Change) (before : String) (access access' : Access) : Prop where
  read : ∀ env ref, Action.Follows χ before (Value.change χ) (access.read env ref)
    (access'.read env (ref.map χ.label χ.token))
  assign : ∀ env ref value, Action.Follows χ before (fun a => a) (access.assign env ref value)
    (access'.assign env (ref.map χ.label χ.token) (value.change χ))
  parent : ∀ env ref, Action.Follows χ before (Prod.map (Value.change χ) (Value.change χ))
    (access.parent env ref) (access'.parent env (ref.map χ.label χ.token))

/-- In the second setting a changed program can look at what the program looks at in the first. -/
structure Setting.Follows (χ : Change) (before : String) (S S' : Setting) : Prop where
  access : S.access.Follows χ before S'.access
  clock : S'.clock = S.clock
  rounds : S'.rounds = S.rounds

/-- Tables that lead references as many scopes out as their changed ones. -/
theorem Access.follows_byHops {χ : Change} {before : String} {table table' : BindingTable}
    (hχ : χ.Lawful)
    (hhops : ∀ label, table'.hops? (χ.label label) = table.hops? label) :
    Access.Follows χ before (.byHops table) (.byHops table') :=
  ⟨fun env _ => Action.follows_read (hhops _) env hχ,
    fun env _ => Action.follows_assign (hhops _) env hχ,
    fun env _ => Action.follows_parent (hhops _) env⟩

namespace Action

theorem follows_superMethod {χ : Change} {before : String} {access access' : Access}
    (haccess : access.Follows χ before access') (hχ : χ.Lawful) (env : Env) (ref : Ref Label) (name : Token) :
    Follows χ before (Value.change χ) (superMethod access env ref name)
      (superMethod access' env (ref.map χ.label χ.token) (χ.token name)) := by
  refine (haccess.parent env ref).bind fun p => ?_
  obtain ⟨above, object⟩ := p
  cases above with
  | classOf c =>
    cases object with
    | object id d =>
      simp only [Prod.map, Value.change, ClassValue.method?_change, hχ.lexeme]
      cases c.method? name.lexeme with
      | some method =>
        exact (follows_takeMethod (.object id d) method).bind fun f =>
          follows_pure (Value.function f)
      | none => exact follows_fail _ name
    | _ => exact follows_fault _
  | _ => exact follows_fault _

end Action

end LoxLang
