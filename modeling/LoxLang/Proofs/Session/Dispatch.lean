import LoxLang.Proofs.Machine.Dispatch
import LoxLang.Proofs.Session.Placed
import LoxLang.Proofs.Session.Renaming

/-! # Methods and `super` in a session

Which method a property of an object is, and which one `super` gives, at every moment of every
session (`methods_dispatch`): the first one in a chain of superclasses, which starts at the class of
the object, or at what the superclass of the class around the place was when its class statement was
executed.  Either way the method is put into a scope of its own, and `this` means in it what it was
taken from for the whole rest of the session. -/

namespace LoxLang

/-- The environment of a function that stands in a program is made of scopes that there are. -/
theorem Mirrors.lt {H : Chronicle} {store : Store Value} {around : Whereabouts Label} {env : Env}
    (h : Mirrors H store around env) (hpos : 0 < store.nextId) : ∀ id ∈ env.head?, id < store.nextId := by
  induction h with
  | globals =>
    rintro _ ⟨⟩
    exact hpos
  | body hid | method hid =>
    rintro _ ⟨⟩
    exact hid.lt
  | initializer _ ih => exact ih

theorem Closure.Located.lt {H : Chronicle} {store : Store Value} {f : Closure}
    (h : f.Located H store) (hpos : 0 < store.nextId) : ∀ id ∈ f.env.head?, id < store.nextId := by
  cases h with
  | function _ henv => exact henv.lt hpos
  | method _ henv hthis =>
    rw [henv]
    rintro _ ⟨⟩
    obtain ⟨_, _, hthis⟩ := hthis.this
    exact Store.lt_of_get? hthis

theorem Task.Leaves.keeps {H : Chronicle} {S : Setting} {m : Machine} {t : Task}
    (h : t.Leaves H S m) : m.store.KeepsWords (t.after S m).store := by
  cases t <;> exact h.2.1

namespace Session

variable {passesOn : Bool} {runs : List (Config × String)} {S : Setting} {task : Task} {m : Machine}

/-- `this` is the value in a scope, whenever in the session the scope is there, and in particular
whenever a function that was put into it is called. -/
structure ThisIs (passesOn : Bool) (runs : List (Config × String)) (t : ScopeId) (o : Value) :
    Prop where
  moments : ∀ S task m, Happens passesOn runs S task m → t < m.store.nextId →
    m.store.get? t "this" = some o
  calls : ∀ S depth f values m, Happens passesOn runs S (.invoke depth f values) m →
    f.env.head? = some t → m.store.get? t "this" = some o

/-- The method of a name is looked up along the chain that starts at a class, and taken from an
object: it gets a new scope in which `this` is the object.  If there is no method, this is an error
at the name. -/
def Finds (passesOn : Bool) (runs : List (Config × String)) (c : ClassValue) (o : Value)
    (name : Token) (m : Machine) (ended : EStateM.Result Halt Machine Value) : Prop :=
  match c.chain.findSome? fun d => d.own.methods.get? name.lexeme with
  | some method => ∃ f m', ended = .ok (.function f) m' ∧ method.TakenFrom m.store.nextId f ∧
      ThisIs passesOn runs m.store.nextId o
  | none => ended = .error (.error ⟨.undefinedProperty name.lexeme, name⟩) m

/-- What a class statement inherits from where it is executed, and the environment of its methods: the
value of the superclass there and then, in a new scope, or nothing. -/
def InheritsThere (S : Setting) (depth : Nat) (env : Env) (m : Machine) :
    Option (Ref Label) → Option ClassValue → Env → Prop
  | none, parent, inside => parent = none ∧ inside = env
  | some ref, parent, inside =>
    ∃ d m₁, Machine.evaluate S depth env (.nameRef ref) m = .ok (.classOf d) m₁ ∧
      parent = some d ∧ inside = m₁.store.nextId :: env

/-- A reference in a program of the session is in the method, and in no class inside that.  Its
environment leads through a scope for each body up to and with that of the method, and then through
the scope of `this`. -/
structure InMethod (passesOn : Bool) (runs : List (Config × String)) (use : RefUse) (ref : Ref Label)
    (env : Env) (f : Function Label) (derived : Bool) (ids : Env) (t : ScopeId) (rest : Env) :
    Prop where
  env : env = ids ++ t :: rest
  place : ∃ (inner : Whereabouts Label) (earlier : List (Stmt Label)) (s : Stmt Label)
    (outer : Whereabouts Label), HasSite passesOn runs ⟨.reference use ref,
        inner ++ .body (.function f true) earlier s :: .methods derived :: outer⟩ ∧
      inner.class? = none ∧ ids.length = inner.scopes.length + 1

/-! ## What is known at a moment -/

theorem Happens.keeps (h : Happens passesOn runs S task m) :
    m.store.KeepsWords (after passesOn runs).machine.store :=
  h.placed.2.1.keeps.trans h.placed.2.2

theorem Happens.inOrder (h : Happens passesOn runs S task m) :
    ∃ T clock rounds Q W, S = ⟨.byHops T, clock, rounds⟩ ∧
      (∀ u : Use Label, Q u → T.hops? u.ref.label = u.hops?) ∧ m.Sound Q W ∧
      task.InOrder Q W m := by
  obtain ⟨earlier, config, program, hexecutes, rfl, hbegins⟩ := h
  obtain ⟨Q, W, htable, hmachine, hready⟩ :=
    (sound_of_runSources (s := after passesOn earlier) rfl).prepared hexecutes.wellFormed
      hexecutes.binds
  obtain ⟨W', _, hm, htask⟩ := hbegins.inOrder htable hmachine hready
  exact ⟨_, _, _, Q, W', rfl, htable, hm, htask⟩

/-- What `this` is found to be in a scope, it is for the whole session. -/
theorem thisIs_of_get? {store : Store Value} {t : ScopeId} {o : Value}
    (hstore : store.KeepsWords (after passesOn runs).machine.store)
    (hget : store.get? t "this" = some o) : ThisIs passesOn runs t o := by
  have hmoments : ∀ S task m, Happens passesOn runs S task m → t < m.store.nextId →
      m.store.get? t "this" = some o := fun S task m h ht =>
    (h.keeps.words t ht "this" (.inl rfl)).symm.trans (hstore.some (.inl rfl) hget)
  refine ⟨hmoments, fun S depth f values m h henv => hmoments _ _ _ h ?_⟩
  obtain ⟨hplace, _⟩ := h.placed
  exact Closure.Located.lt hplace.task.1 hplace.machine.pos t henv

/-- No place of a program that is executed breaks a rule. -/
theorem HasSite.errors_eq_nil {site : Site Label} (h : HasSite passesOn runs site) :
    site.errors = [] := by
  obtain ⟨earlier, config, program, hexecutes, hsite⟩ := h
  have herrors := hexecutes.binds.errors
  have hshaped := Stmt.shaped_relabelAll (n := (after passesOn earlier).nextLabel)
    fun s hs => (hexecutes.wellFormed s hs).shaped
  rw [filterMap_error?_visitProgram hshaped, List.flatMap_eq_nil_iff] at herrors
  exact herrors site hsite

/-! ## Classes, properties and words -/

section
variable {depth : Nat} {env : Env}

/-- What a class statement that completes has made. -/
theorem Happens.class_made {name : Token} {superclass : Option (Ref Label)}
    {methods : List (Function Label)} {c : Machine.Completion} {m' : Machine}
    (h : Happens passesOn runs S (.execute (depth + 1) env (.classOf name superclass methods)) m)
    (hran : Machine.execute S (depth + 1) env (.classOf name superclass methods) m = .ok c m') :
    ∃ id outer made parent inside, env = id :: outer ∧
      m'.store.get? id name.lexeme = some (.classOf made) ∧
      made.MadeFrom name parent methods inside ∧
      made.chain = made :: parent.elim [] ClassValue.chain ∧
      InheritsThere S depth env m superclass parent inside := by
  have hchain : ∀ {made : ClassValue} {parent inside}, made.MadeFrom name parent methods inside →
      made.chain = made :: parent.elim [] ClassValue.chain := by
    intro made parent inside hmade
    rw [made.chain_eq, hmade.superclass]
    cases parent <;> rfl
  obtain ⟨⟨hm, ⟨around, hmirrors, hwf, _⟩, _⟩, _⟩ := h.placed
  obtain ⟨id, outer, rfl⟩ := List.exists_cons_of_ne_nil hmirrors.ne_nil
  have hid : id < m.store.nextId := hmirrors.lt hm.pos id rfl
  cases hwf with
  | classOf hname hsuperclass =>
    cases superclass with
    | none =>
      obtain ⟨made, m₁, hmake, hget, hmade, _⟩ := makeClass_apply hname none methods hid
      rw [Machine.execute, Machine.executeOuter, EStateM.bind_ok hmake] at hran
      cases hran
      exact ⟨id, outer, made, none, _, rfl, hget, hmade, hchain hmade, rfl, rfl⟩
    | some ref =>
      rw [Machine.execute, Machine.executeOuter] at hran
      obtain ⟨v, m₁, hv, hran⟩ := EStateM.bind_eq_ok.mp hran
      cases v with
      | classOf d =>
        have hkeeps := (h.starts (.first rfl)).placed.2.1.keeps
        rw [Task.after, hv] at hkeeps
        have hlt : id < m₁.store.nextId := Nat.lt_of_lt_of_le hid hkeeps.le
        obtain ⟨made, m₂, hmake, hget, hmade, _⟩ := makeClass_apply hname (some d) methods hlt
        have hran : (Machine.makeClass (id :: outer) name (some d) methods >>= fun _ =>
          pure Machine.Completion.normal) m₁ = .ok c m' := hran
        rw [EStateM.bind_ok hmake] at hran
        cases hran
        exact ⟨id, outer, made, some d, _, rfl, hget, hmade, hchain hmade, d, m₁, hv, rfl, rfl⟩
      | _ => cases hran

/-- What a property of an object is. -/
theorem Happens.property {object : Expr Label} {name : Token} {id : Nat} {c : ClassValue}
    {m₁ : Machine} (h : Happens passesOn runs S (.evaluate (depth + 1) env (.get object name)) m)
    (hobject : Machine.evaluate S depth env object m = .ok (.object id c) m₁) :
    match (m₁.fields id).get? name.lexeme with
    | some v => Machine.evaluate S (depth + 1) env (.get object name) m = .ok v m₁
    | none => Finds passesOn runs c (.object id c) name m₁
        (Machine.evaluate S (depth + 1) env (.get object name) m) := by
  have hends := h.placed.2.2
  have hran : Machine.evaluate S (depth + 1) env (.get object name) m =
      Action.property id c name m₁ := by
    rw [Machine.evaluate, Machine.evaluateOuter, EStateM.bind_ok hobject]
  rw [Task.after, hran] at hends
  rw [hran]
  have hproperty := Action.property_apply id c name m₁
  unfold Finds
  split
  · rename_i v hv
    rw [hv] at hproperty
    exact hproperty
  · rename_i hnone
    rw [hnone] at hproperty
    dsimp only at hproperty
    split
    · rename_i method hmethod
      rw [hmethod] at hproperty
      obtain ⟨f, m', htake, hf, hthis⟩ := hproperty
      rw [htake] at hends
      exact ⟨f, m', htake, hf, thisIs_of_get? hends hthis⟩
    · rename_i hmethod
      rw [hmethod] at hproperty
      exact hproperty

/-- A reference to a word is in a method, and the environment leads to the scope of `this`. -/
theorem Happens.inMethod {e : Expr Label} (h : Happens passesOn runs S (.evaluate depth env e) m)
    {use : RefUse} {ref : Ref Label} (he : e.references = [(use, ref)])
    (hword : use = .this ∨ use = .super) :
    ∃ f derived ids t rest outside, InMethod passesOn runs use ref env f derived ids t rest ∧
      (use = .super → derived = true) ∧ (∀ id ∈ ids, m.store.Wordless id) ∧
      LoxLang.Receives (chronicle passesOn runs) m.store f outside derived t rest ∧
      outside ≠ [] := by
  obtain ⟨⟨hm, ⟨around, hmirrors, _, hsites⟩, _⟩, _⟩ := h.placed
  have hsite : HasSite passesOn runs ⟨.reference use ref, around⟩ := by
    refine hsites _ ?_
    rw [Expr.sites, he]
    exact List.mem_singleton_self _
  have herrors := hsite.errors_eq_nil
  have hclass : ∃ derived, around.class? = some derived ∧ (use = .super → derived = true) := by
    rcases hword with rfl | rfl
    · rw [Site.errors_this] at herrors
      cases hclass : around.class? with
      | none => simp [hclass] at herrors
      | some derived => exact ⟨derived, rfl, fun h => by cases h⟩
    · rw [Site.errors_super] at herrors
      rcases hclass : around.class? with _ | _ | _
      · simp [hclass] at herrors
      · simp [hclass] at herrors
      · exact ⟨true, rfl, fun _ => rfl⟩
  obtain ⟨derived, hclass, hderived⟩ := hclass
  obtain ⟨inner, f, earlier, s, outer, rfl, hinner, ids, t, rest, outside, rfl, hlength, hids, hthis,
    houter⟩ := hmirrors.exists_method hclass
  exact ⟨f, derived, ids, t, rest, outside,
    ⟨rfl, inner, earlier, s, outer, hsite, hinner, hlength⟩, hderived, hids, hthis, houter.ne_nil⟩

/-- What `this` is. -/
theorem Happens.this {ref : Ref Label}
    (h : Happens passesOn runs S (.evaluate (depth + 1) env (.thisRef ref)) m) :
    ∃ f derived ids t rest id c, InMethod passesOn runs .this ref env f derived ids t rest ∧
      ThisIs passesOn runs t (.object id c) ∧
      Machine.evaluate S (depth + 1) env (.thisRef ref) m = .ok (.object id c) m := by
  obtain ⟨f, derived, ids, t, rest, outside, hplace, _, hids, hreceives, houtside⟩ :=
    h.inMethod rfl (.inl rfl)
  obtain ⟨id, c, hthis⟩ := hreceives.this
  refine ⟨f, derived, ids, t, rest, id, c, hplace, thisIs_of_get? h.keeps hthis, ?_⟩
  obtain ⟨T, clock, rounds, Q, W, rfl, htable, hm, htask⟩ := h.inOrder
  rcases htask with ⟨around, context, hstands, hready⟩ | ⟨_, heq⟩
  · obtain ⟨hlexeme, hQ⟩ := hready.thisRef
    rw [hplace.env] at hstands ⊢
    have hrest : rest ≠ [] := by
      have hinherits := hreceives.inherits
      cases derived with
      | false => exact hinherits ▸ houtside
      | true =>
        obtain ⟨p, c, rfl, _⟩ := hinherits
        exact List.cons_ne_nil _ _
    have hhops := hstands.hops?_word hm (.inl rfl) hrest
      (fun other hother => (hids other hother).none _ (.inl rfl)) hthis
    have htable := htable _ hQ
    rw [Use.hops?, hlexeme] at htable
    exact Action.read_word (htable.trans hhops) (hlexeme ▸ hthis)
  · cases heq

/-- What `super` gives. -/
theorem Happens.super {ref : Ref Label} {name : Token}
    (h : Happens passesOn runs S (.evaluate (depth + 1) env (.superRef ref name)) m) :
    ∃ f ids t p outside className parent methods c id d,
      InMethod passesOn runs .super ref env f true ids t (p :: outside) ∧ f ∈ methods ∧
      Derives passesOn runs p outside className parent methods c ∧
      ThisIs passesOn runs t (.object id d) ∧
      Finds passesOn runs c (.object id d) name m
        (Machine.evaluate S (depth + 1) env (.superRef ref name) m) := by
  obtain ⟨f, derived, ids, t, rest, outside, hplace, hderived, hids, hreceives, houtside⟩ :=
    h.inMethod rfl (.inr rfl)
  obtain rfl : derived = true := hderived rfl
  obtain ⟨id, d, hthis⟩ := hreceives.this
  obtain ⟨p, c, rfl, hsuper, className, parent, methods, hf, hderives⟩ := hreceives.inherits
  refine ⟨f, ids, t, p, outside, className, parent, methods, c, id, d, hplace, hf, hderives,
    thisIs_of_get? h.keeps hthis, ?_⟩
  have hends := h.placed.2.2
  obtain ⟨T, clock, rounds, Q, W, rfl, htable, hm, htask⟩ := h.inOrder
  rcases htask with ⟨around, context, hstands, hready⟩ | ⟨_, heq⟩
  · obtain ⟨hlexeme, _, hQ⟩ := hready.superRef
    rw [hplace.env] at hstands hends ⊢
    have hstands' : Stands W m.store around.classBody context ((ids ++ [t]) ++ p :: outside) := by
      rw [List.append_assoc]
      exact hstands
    have hhops := hstands'.hops?_word hm (.inr rfl) houtside (fun other hother => by
      rcases List.mem_append.mp hother with hother | hother
      · exact (hids other hother).none _ (.inr rfl)
      · exact List.mem_singleton.mp hother ▸ hreceives.super) hsuper
    have htable := htable _ hQ
    rw [Use.hops?, hlexeme] at htable
    have hparent : Action.parent T (ids ++ t :: p :: outside) ref m =
        .ok (.classOf c, .object id d) m :=
      Action.parent_word (by simpa using htable.trans hhops) hthis hsuper
    have hmethod := Action.superMethod_apply name hparent
    rw [Task.after, Machine.evaluate, Machine.evaluateOuter] at hends
    rw [Machine.evaluate, Machine.evaluateOuter]
    unfold Finds
    split
    · rename_i method hfound
      rw [hfound] at hmethod
      obtain ⟨g, m', htake, hg, hthis'⟩ := hmethod
      rw [htake] at hends
      exact ⟨g, m', htake, hg, thisIs_of_get? hends hthis'⟩
    · rename_i hfound
      rw [hfound] at hmethod
      exact hmethod
  · cases heq

end

/-- **Methods and `super`.**  Take any moment of any session.

A class statement that completes makes a class whose chain of superclasses is the class and then the
chain of what its superclass was there and then.  A property of an object is its field, if it has
one, and else the method of the first class that has one in the chain of the class of the object,
put into a scope in which `this` is the object, for the whole rest of the session; or it is an error.
In a method `this` is the object that the method was taken from.  And `super`, wherever in a method
it stands, in blocks and functions inside it as well, gives the method of the first class that has
one in the chain that starts at the class that the superclass of the class around the method was when
its class statement was executed, taken from the object that `this` is in the method; or it is an
error. -/
theorem methods_dispatch (passesOn : Bool) (runs : List (Config × String)) :
    (∀ S depth env name superclass methods m c m',
      Happens passesOn runs S (.execute (depth + 1) env (.classOf name superclass methods)) m →
      Machine.execute S (depth + 1) env (.classOf name superclass methods) m = .ok c m' →
      ∃ id outer made parent inside, env = id :: outer ∧
        m'.store.get? id name.lexeme = some (.classOf made) ∧
        made.MadeFrom name parent methods inside ∧
        made.chain = made :: parent.elim [] ClassValue.chain ∧
        InheritsThere S depth env m superclass parent inside) ∧
    (∀ S depth env object name m id c m₁,
      Happens passesOn runs S (.evaluate (depth + 1) env (.get object name)) m →
      Machine.evaluate S depth env object m = .ok (.object id c) m₁ →
      match (m₁.fields id).get? name.lexeme with
      | some v => Machine.evaluate S (depth + 1) env (.get object name) m = .ok v m₁
      | none => Finds passesOn runs c (.object id c) name m₁
          (Machine.evaluate S (depth + 1) env (.get object name) m)) ∧
    (∀ S depth env ref m, Happens passesOn runs S (.evaluate (depth + 1) env (.thisRef ref)) m →
      ∃ f derived ids t rest id c, InMethod passesOn runs .this ref env f derived ids t rest ∧
        ThisIs passesOn runs t (.object id c) ∧
        Machine.evaluate S (depth + 1) env (.thisRef ref) m = .ok (.object id c) m) ∧
    ∀ S depth env ref name m,
      Happens passesOn runs S (.evaluate (depth + 1) env (.superRef ref name)) m →
      ∃ f ids t p outside className parent methods c id d,
        InMethod passesOn runs .super ref env f true ids t (p :: outside) ∧ f ∈ methods ∧
        Derives passesOn runs p outside className parent methods c ∧
        ThisIs passesOn runs t (.object id d) ∧
        Finds passesOn runs c (.object id d) name m
          (Machine.evaluate S (depth + 1) env (.superRef ref name) m) :=
  ⟨fun _ _ _ _ _ _ _ _ _ h hran => h.class_made hran, fun _ _ _ _ _ _ _ _ _ h => h.property,
    fun _ _ _ _ _ h => h.this, fun _ _ _ _ _ _ h => h.super⟩

/-- A method of a class with a superclass is called, and looks for the method that it replaces. -/
def inheritedSource : String :=
  "class A \x7b m() \x7b\x7d \x7d class B < A \x7b m() \x7b super.m; \x7d \x7d B().m();"

/-- A function begins with a use of `super`. -/
def beginsWithSuper (f : Function Label) : Bool :=
  match f.body with
  | .expression (.superRef _ _) :: _ => true
  | _ => false

theorem exists_of_beginsWithSuper {f : Function Label} (h : beginsWithSuper f) :
    ∃ ref name later, f.body = .expression (.superRef ref name) :: later := by
  unfold beginsWithSuper at h
  split at h
  · rename_i ref name later hbody
    exact ⟨ref, name, later, hbody⟩
  · cases h

theorem methods_dispatch_inherited :
    ∃ S depth env ref name m, Happens true [(shortly, inheritedSource)] S
        (.evaluate (depth + 1) env (.superRef ref name)) m ∧
      ∃ f ids t p outside className parent methods c id d,
        InMethod true [(shortly, inheritedSource)] .super ref env f true ids t (p :: outside) ∧
        f ∈ methods ∧
        Derives true [(shortly, inheritedSource)] p outside className parent methods c ∧
        ThisIs true [(shortly, inheritedSource)] t (.object id d) ∧
        Finds true [(shortly, inheritedSource)] c (.object id d) name m
          (Machine.evaluate S (depth + 1) env (.superRef ref name) m) := by
  have hthrough : ((start true).run shortly inheritedSource).1 = none := by decide +kernel
  obtain ⟨program, haccepted, hbinds⟩ := accepted_of_through hthrough (by decide +kernel)
  have hcalled : let program := firstProgram shortly inheritedSource
      (lastCalled? ⟨.byHops (BindingTable.empty.recordAll
          ((visitProgram program).filterMap Finding.binding?)), shortly.clock, shortly.rounds⟩
        45 program Machine.start).any (fun called => called.1.declaration.params.isEmpty &&
          beginsWithSuper called.1.declaration) := by decide +kernel
  rw [firstProgram_eq haccepted true] at hcalled
  obtain ⟨⟨f, m⟩, hlast, hcalled⟩ := (Option.any_eq_true _ _).mp hcalled
  obtain ⟨hparams, hbody⟩ := Bool.and_eq_true_iff.mp hcalled
  obtain ⟨ref, name, later, hstatements⟩ := exists_of_beginsWithSuper hbody
  have hparams : f.declaration.params = [] := List.isEmpty_iff.mp hparams
  have hinvoke : Happens true [(shortly, inheritedSource)] ((start true).setting shortly program)
      (.invoke 47 f []) m :=
    ⟨[], shortly, program, ⟨⟨inheritedSource, [], rfl, haccepted⟩, hbinds⟩, rfl,
      begins_lastCalled hlast hparams⟩
  have hvars : Machine.matchArguments f.declaration.params [] = .ok [] := by rw [hparams]; rfl
  have h := (hinvoke.starts (.body hvars rfl
    (show f.declaration.body = [] ++ _ :: later from hstatements) rfl)).starts (.first rfl)
  exact ⟨_, 44, _, ref, name, _, h, (methods_dispatch true _).2.2.2 _ _ _ _ _ _ h⟩

end Session
end LoxLang
