import LoxLang.Proofs.Machine.Abreast
import LoxLang.Proofs.Scope.Inside
import LoxLang.Proofs.Syntax.Turn
import Mathlib.Data.List.Nodup

/-! # Machines with empty scopes in between

A program with turns of loops is run, and next to it the program it unfolds to, in which a block
stands for each turn.  The second machine makes a scope for each such block.  Nothing is declared in
it, so it stays empty; but it lies in the environments of the block, and of the functions that are
made there, so that references have more hops to their variables.

Each scope of the first machine has a counterpart in the second one, with variables of the same
names and values that are alike; all other scopes of the second machine are empty.  Two environments
run `Along` each other if they pass counterparts, in step with the scopes that are open, but for
empty scopes in between.  Where the hops of a reference are those that its place asks for, in both
programs, it then leads to counterparts (`Along.leads`). -/

namespace LoxLang

open Binder (Surroundings FunctionContext ClassContext)
open Machine

/-- For each scope of the machine the one of the other machine that it goes with. -/
abbrev Counterparts := List ScopeId

/-! ## Environments -/

/-- The environments pass counterparts where the same scope is open in both programs; where one more
is open in the second program, in which nothing is ever declared, its environment passes a scope
more.  In `Along places top` it is said whether the innermost scope is a shared one. -/
inductive Along (places : Counterparts) : Bool → Context → Context → Env → Env → Prop
  | globals (h : places[0]? = some 0) : Along places true [] [] globalEnv globalEnv
  | shared {top : Bool} (scope : OpenScope) {context context' : Context} {env env' : Env}
      {id id' : ScopeId} (hid : places[id]? = some id')
      (houter : Along places top context context' env env') :
      Along places true (scope :: context) (scope :: context') (id :: env) (id' :: env')
  | extra {top : Bool} {context context' : Context} {env env' : Env} (id' : ScopeId)
      (h : Along places top context context' env env') :
      Along places false context (.fresh [] :: context') env (id' :: env')

/-- Two numbers of hops lead from the environments to counterparts, or there are none. -/
inductive Leads (places : Counterparts) (env env' : Env) : Option Nat → Option Nat → Prop
  | global : Leads places env env' none none
  | scope {hops hops' : Nat} {id id' : ScopeId} (hid : env[hops]? = some id)
      (hid' : env'[hops']? = some id') (h : places[id]? = some id') :
      Leads places env env' (some hops) (some hops')

section
variable {places places' : Counterparts} {top : Bool} {context context' : Context} {env env' : Env}

namespace Leads

variable {hops? hops?' : Option Nat}

theorem shared (h : Leads places env env' hops? hops?') (id id' : ScopeId) :
    Leads places (id :: env) (id' :: env') (hops?.map (· + 1)) (hops?'.map (· + 1)) := by
  cases h with
  | global => exact .global
  | scope hid hid' h => exact .scope hid hid' h

theorem extra (h : Leads places env env' hops? hops?') (id' : ScopeId) :
    Leads places env (id' :: env') hops? (hops?'.map (· + 1)) := by
  cases h with
  | global => exact .global
  | scope hid hid' h => exact .scope hid hid' h

end Leads

namespace Along

theorem mono (h : Along places top context context' env env') (hplaces : places <+: places') :
    Along places' top context context' env env' := by
  induction h with
  | globals h => exact .globals (getElem?_of_grown hplaces h)
  | shared scope hid _ ih => exact .shared scope (getElem?_of_grown hplaces hid) ih
  | extra id' _ ih => exact .extra id' ih

/-- **A name leads to counterparts**, whatever scopes are in between. -/
theorem leads (h : Along places top context context' env env') (name : String) :
    Leads places env env' (context.hops? name) (context'.hops? name) := by
  induction h with
  | globals => exact .global
  | @shared _ scope _ _ _ _ id id' hid _ ih =>
    rw [Context.hops?_cons, Context.hops?_cons]
    cases scope.has name with
    | true => exact .scope rfl rfl hid
    | false => exact ih.shared id id'
  | extra id' _ ih =>
    rw [Context.hops?_cons, OpenScope.has_fresh]
    exact ih.extra id'

theorem mark (h : Along places true context context' env env') (name : String) (d : Bool) :
    Along places true (context.mark name d) (context'.mark name d) env env' := by
  cases h with
  | globals h => exact .globals h
  | shared scope hid houter => exact .shared _ hid houter

/-- Names are declared in a shared scope. -/
theorem introduceAll (h : Along places top context context' env env') {names : List Token}
    (hnames : names = [] ∨ top = true) :
    Along places top (context.introduceAll names) (context'.introduceAll names) env env' := by
  rcases hnames with rfl | rfl
  · exact h
  · induction names generalizing context context' with
    | nil => exact h
    | cons name names ih => exact ih (h.mark name.lexeme true)

/-- The innermost scopes are counterparts, if they are shared. -/
theorem head (h : Along places true context context' env env') :
    ∃ id id' outer outer', env = id :: outer ∧ env' = id' :: outer' ∧ places[id]? = some id' := by
  cases h with
  | globals h => exact ⟨0, 0, [], [], rfl, rfl, h⟩
  | shared _ hid _ => exact ⟨_, _, _, _, rfl, rfl, hid⟩

end Along

end

/-! ## How the machines are alike -/

/-- In a derived class the nearest `this` lies directly inside the nearest `super`. -/
def Context.Derives (classBody : ClassContext) (context : Context) : Prop :=
  classBody = .derived →
    ∃ hops, context.hops? "super" = some (hops + 1) ∧ context.hops? "this" = some hops

namespace Context.Derives

variable {classBody : ClassContext} {context : Context}

theorem mark (h : context.Derives classBody) {name : Token} (hname : name.IsName) (d : Bool) :
    Derives classBody (context.mark name.lexeme d) := by
  intro hderived
  rw [hops?_mark_of_ne hname.1.symm, hops?_mark_of_ne hname.2.symm]
  exact h hderived

theorem introduceAll {names : List Token} (h : context.Derives classBody)
    (hnames : ∀ name ∈ names, name.IsName) : Derives classBody (context.introduceAll names) := by
  induction names generalizing context with
  | nil => exact h
  | cons name names ih =>
    obtain ⟨hname, hnames⟩ := List.forall_mem_cons.mp hnames
    exact ih (h.mark hname true) hnames

theorem fresh (h : context.Derives classBody) (names : List Token) :
    Derives classBody (.fresh names :: context) := by
  intro hderived
  obtain ⟨hops, hsuper, hthis⟩ := h hderived
  exact ⟨hops + 1, by simp [hsuper], by simp [hthis]⟩

/-- In a class without a superclass there is nothing to ask. -/
theorem plain (context : Context) : Derives .plain context := nofun

theorem derived (context : Context) :
    Derives .derived (.ofWord "this" :: .ofWord "super" :: context) :=
  fun _ => ⟨0, by simp [OpenScope.has_ofWord], by simp [OpenScope.has_ofWord]⟩

end Context.Derives

/-- The environments belong to two places of the programs that go together. -/
structure Sides (places : Counterparts) (classBody : ClassContext) (top : Bool)
    (context context' : Context) (env env' : Env) : Prop where
  along : Along places top context context' env env'
  derives : context.Derives classBody
  derives' : context'.Derives classBody

namespace Sides

variable {places places' : Counterparts} {classBody : ClassContext} {top : Bool}
  {context context' : Context} {env env' : Env}

theorem mono (h : Sides places classBody top context context' env env')
    (hplaces : places <+: places') : Sides places' classBody top context context' env env' :=
  { h with along := h.along.mono hplaces }

theorem globals (h : places[0]? = some 0) :
    Sides places .outside true [] [] globalEnv globalEnv := ⟨.globals h, nofun, nofun⟩

/-- A variable is declared, in both programs, before its initial value is there. -/
theorem mark (h : Sides places classBody true context context' env env') {name : Token}
    (hname : name.IsName) (d : Bool) :
    Sides places classBody true (context.mark name.lexeme d) (context'.mark name.lexeme d) env
      env' :=
  ⟨h.along.mark _ d, h.derives.mark hname d, h.derives'.mark hname d⟩

theorem introduceAll (h : Sides places classBody top context context' env env') {names : List Token}
    (hnames : ∀ name ∈ names, name.IsName) (htop : names = [] ∨ top = true) :
    Sides places classBody top (context.introduceAll names) (context'.introduceAll names) env
      env' :=
  ⟨h.along.introduceAll htop, h.derives.introduceAll hnames, h.derives'.introduceAll hnames⟩

/-- One more scope is open in the second program. -/
theorem extra (h : Sides places classBody top context context' env env') (id' : ScopeId) :
    Sides places classBody false context (.fresh [] :: context') env (id' :: env') :=
  ⟨h.along.extra id', h.derives, h.derives'.fresh []⟩

end Sides

section
variable (Q Q' : Demand Label)

/-- The second function is the first one unfolded, and both are ready at their places, inside some
more scopes of words.  Their references satisfy the conditions `Q` and `Q'`. -/
structure Closure.UnfoldsAt (more : Context) (places : Counterparts) (around : Surroundings)
    (kind : FunctionContext) (context context' : Context) (f f' : Closure) : Prop where
  id : f'.id = f.id
  isInitializer : f'.isInitializer = f.isInitializer
  inside : kind ≠ .outside
  along : Along places true context context' f.env f'.env
  derives : Context.Derives around.classBody (more ++ context)
  derives' : Context.Derives around.classBody (more ++ context')
  unfolds : Function.Unfolds f.declaration f'.declaration
  ready : f.declaration.Ready Q around kind (more ++ context)
  ready' : f'.declaration.Ready Q' around kind (more ++ context')

/-- The second function is the first one unfolded, at some places. -/
def Closure.Unfolds (more : Context) (places : Counterparts) (f f' : Closure) : Prop :=
  ∃ around kind context context', f.UnfoldsAt Q Q' more places around kind context context' f'

end

/-- Each scope of a store has a counterpart in the second one, no two the same, and the second store
has no variables but in the counterparts. -/
structure Store.Interposed (alike : Counterparts → Value → Value → Prop) (places : Counterparts)
    (store store' : Store Value) : Prop where
  length : places.length = store.nextId
  nodup : places.Nodup
  lt : ∀ id' ∈ places, id' < store'.nextId
  globals : places[0]? = some 0
  scopes : ∀ id id', places[id]? = some id' →
    (store.scope id).Matches (fun name => name) (alike places) (store'.scope id')
  others : ∀ id', id' ∉ places → store'.scope id' = Bindings.empty

section
variable {Q Q' : Demand Label} {more : Context} {places places' : Counterparts} {f f' : Closure}

theorem Closure.Unfolds.mono (h : f.Unfolds Q Q' more places f') (hplaces : places <+: places') :
    f.Unfolds Q Q' more places' f' := by
  obtain ⟨around, kind, context, context', h⟩ := h
  exact ⟨around, kind, context, context', { h with along := h.along.mono hplaces }⟩

theorem Closure.Unfolds.looks (h : f.Unfolds Q Q' more places f') : f.LooksLike f' := by
  obtain ⟨_, _, _, _, h⟩ := h
  refine ⟨?_, ?_⟩
  · rw [Closure.arity, Closure.arity, h.unfolds.params_eq]
  · rw [Closure.display, Closure.display, h.unfolds.name_eq]

end

/-- Machines are alike up to empty scopes in between.  A method is still to be put in the scope of
`this`. -/
def unfoldingOfCode (Q Q' : Demand Label) : Likeness.OfCode ScopeId where
  function := Closure.Unfolds Q Q' []
  method := Closure.Unfolds Q Q' [.ofWord "this"]
  store := Store.Interposed
  id h := by
    obtain ⟨_, _, _, _, h⟩ := h
    exact h.id
  looks := Closure.Unfolds.looks
  arity h := h.looks.arity
  function_mono := Closure.Unfolds.mono
  method_mono := Closure.Unfolds.mono

@[inherit_doc unfoldingOfCode]
abbrev unfolding (Q Q' : Demand Label) : Likeness Counterparts := (unfoldingOfCode Q Q').toLikeness

section
variable {Q Q' R R' : Demand Label} {places : Counterparts}
  (hQ : Q.StrongerInside R) (hQ' : Q'.StrongerInside R')

include hQ hQ'

theorem Closure.Unfolds.imp {more : Context} {f f' : Closure} (h : f.Unfolds Q Q' more places f') :
    f.Unfolds R R' more places f' := by
  obtain ⟨around, kind, context, context', h⟩ := h
  exact ⟨around, kind, context, context', { h with
    ready := h.ready.imp h.inside hQ
    ready' := h.ready'.imp h.inside hQ' }⟩

/-- Of the references of the functions in a machine, which are all inside functions, other
conditions may be known. -/
theorem Machine.Alike.imp_unfolding {m m' : Machine} (h : m.Alike (unfolding Q Q') places m') :
    m.Alike (unfolding R R') places m' := by
  refine Likeness.OfCode.transfer (D := unfoldingOfCode R R') h (Closure.Unfolds.imp hQ hQ')
    (Closure.Unfolds.imp hQ hQ') fun himplies hstore => ?_
  have hstore : Store.Interposed (Value.Alike (unfolding Q Q')) places m.store m'.store := hstore
  exact { hstore with scopes := fun id id' hid =>
    (hstore.scopes id id' hid).imp fun _ _ hv => hv.transfer himplies }

end

/-- A machine before its first program is alike to itself. -/
theorem Machine.alike_start (Q Q' : Demand Label) :
    Machine.start.Alike (unfolding Q Q') [0] Machine.start := by
  have hclock : (Bindings.empty.insert "clock" Value.clock).Matches (fun name => name)
      (Value.Alike (unfolding Q Q') [0]) (Bindings.empty.insert "clock" Value.clock) :=
    (Bindings.matches_empty _ _).insert Function.injective_id "clock" .clock
  refine ⟨⟨rfl, List.nodup_cons.mpr ⟨List.not_mem_nil, List.nodup_nil⟩, ?_, rfl, ?_, ?_⟩,
    ⟨rfl, fun _ => Bindings.matches_empty _ _⟩, rfl, rfl, rfl⟩
  · exact List.forall_mem_singleton.mpr Nat.one_pos
  · intro id id' hid
    cases id with
    | zero =>
      obtain rfl : 0 = id' := Option.some.inj hid
      exact hclock
    | succ id => cases hid
  · intro id' hid'
    have hne : id' ≠ (Store.empty : Store Value).nextId :=
      fun heq => hid' (List.mem_singleton.mpr heq)
    rw [Machine.start, Store.scope_push, if_neg hne]
    rfl

/-! ## Scopes -/

section
variable {Q Q' : Demand Label} {places : Counterparts} {top : Bool}
  {context context' : Context} {env env' : Env}

/-- A variable corresponds to that of the same name in the counterpart. -/
theorem corresponds_counterpart {id id' : ScopeId} (hid : places[id]? = some id') (name : String) :
    (unfolding Q Q').Corresponds places id name id' name := by
  refine ⟨fun hknown hm =>
    Store.Interposed.scopes hm.store id id' (getElem?_of_grown hknown hid) name,
    fun {known m m' v v'} hknown hm hv => ?_⟩
  have hstore : Store.Interposed (Value.Alike (unfolding Q Q')) known m.store m'.store := hm.store
  have hid := getElem?_of_grown hknown hid
  have hmem := List.mem_of_getElem? hid
  refine Likeness.OfCode.withStore hm List.prefix_rfl
    { hstore with length := ?_, lt := ?_, scopes := ?_, others := ?_ }
  · rw [Store.nextId_set, hstore.length]
  · rw [Store.nextId_set]
    exact hstore.lt
  · intro other other' hother
    rw [Store.scope_set, Store.scope_set]
    by_cases heq : other = id
    · subst heq
      obtain rfl : id' = other' := Option.some.inj (hid.symm.trans hother)
      have hlt := (List.getElem?_eq_some_iff.mp hid).1
      rw [if_pos ⟨rfl, hstore.length ▸ hlt⟩, if_pos ⟨rfl, hstore.lt id' hmem⟩]
      exact (hstore.scopes other id' hid).insert Function.injective_id name hv
    · -- scopes that differ have counterparts that differ
      have hne : other' ≠ id' := fun heq' => heq
        ((List.getElem?_inj (List.getElem?_eq_some_iff.mp hother).1 hstore.nodup).mp
          (hother.trans (heq' ▸ hid.symm)))
      rw [if_neg fun h => heq h.1, if_neg fun h => hne h.1]
      exact hstore.scopes other other' hother
  · intro other hother
    have hne : other ≠ id' := fun heq => hother (heq ▸ hmem)
    rw [Store.scope_set, if_neg fun h => hne h.1]
    exact hstore.others other hother

/-- A new scope is made, in both machines, for one that is open in both programs. -/
theorem agree_enterShared {vars vars' : Bindings Value}
    (hvars : vars.Matches (fun name => name) (Value.Alike (unfolding Q Q') places) vars')
    (henv : Along places top context context' env env') :
    Agree (unfolding Q Q') places
      (fun places' inner inner' =>
        ∀ scope, Along places' true (scope :: context) (scope :: context') inner inner')
      (Action.enter vars env) (Action.enter vars' env') := by
  intro known m m' hknown hm
  have hstore : Store.Interposed (Value.Alike (unfolding Q Q')) known m.store m'.store := hm.store
  have hgrows : known <+: known ++ [m'.store.nextId] := List.prefix_append known _
  have hnew : (known ++ [m'.store.nextId])[m.store.nextId]? = some m'.store.nextId := by
    rw [← hstore.length, List.getElem?_concat_length]
  have hnotMem : m'.store.nextId ∉ known := fun h => Nat.lt_irrefl _ (hstore.lt _ h)
  have hinterposed : Store.Interposed (Value.Alike (unfolding Q Q')) (known ++ [m'.store.nextId])
      (m.store.push vars) (m'.store.push vars') := by
    refine ⟨?_, ?_, ?_, getElem?_of_grown hgrows hstore.globals, ?_, ?_⟩
    · rw [Store.nextId_push, List.length_append, hstore.length, List.length_singleton]
    · rw [← List.concat_eq_append]
      exact List.Nodup.concat hnotMem hstore.nodup
    · rw [Store.nextId_push]
      refine List.forall_mem_append.mpr ⟨fun id' hid' => Nat.lt_succ_of_lt (hstore.lt id' hid'), ?_⟩
      rw [List.forall_mem_singleton]
      exact Nat.lt_succ_self _
    · intro id id' hid
      rw [Store.scope_push, Store.scope_push]
      -- the two new scopes go together, and those that were there go with what they went with
      rw [← hstore.length]
      rcases getElem?_concat_cases hid with ⟨rfl, rfl⟩ | ⟨hne, hid⟩
      · rw [if_pos rfl, if_pos rfl]
        exact hvars.imp fun _ _ h => h.mono (hknown.trans hgrows)
      · rw [if_neg hne, if_neg (Nat.ne_of_lt (hstore.lt id' (List.mem_of_getElem? hid)))]
        exact (hstore.scopes id id' hid).imp fun _ _ h => h.mono hgrows
    · intro id' hid'
      rw [List.mem_append, List.mem_singleton, not_or] at hid'
      rw [Store.scope_push, if_neg hid'.2]
      exact hstore.others id' hid'.1
  exact .ok hgrows (Likeness.OfCode.withStore hm hgrows hinterposed)
    fun scope => .shared scope hnew ((henv.mono hknown).mono hgrows)

/-- A new scope in which a word has a meaning. -/
theorem agree_enterSharedWord (word : String) {v v' : Value}
    (hv : v.Alike (unfolding Q Q') places v') (henv : Along places top context context' env env') :
    Agree (unfolding Q Q') places
      (fun places' inner inner' =>
        ∀ scope, Along places' true (scope :: context) (scope :: context') inner inner')
      (Action.enter (Bindings.empty.insert word v) env)
      (Action.enter (Bindings.empty.insert word v') env') :=
  agree_enterShared ((Bindings.matches_empty _ _).insert Function.injective_id word hv) henv

/-- A new scope is made in the second machine only, without variables. -/
theorem agree_enterExtra {α β : Type} {P : Counterparts → α → β → Prop} {x : Action α}
    {g : Env → Action β} (env' : Env)
    (h : ∀ id', Agree (unfolding Q Q') places P x (g (id' :: env'))) :
    Agree (unfolding Q Q') places P x (Action.enter Bindings.empty env' >>= g) := by
  intro known m m' hknown hm
  have hstore : Store.Interposed (Value.Alike (unfolding Q Q')) known m.store m'.store := hm.store
  have hinterposed : Store.Interposed (Value.Alike (unfolding Q Q')) known m.store
      (m'.store.push Bindings.empty) := by
    refine { hstore with lt := fun id' hid' => ?_, scopes := fun id id' hid => ?_, others := ?_ }
    · rw [Store.nextId_push]
      exact Nat.lt_succ_of_lt (hstore.lt id' hid')
    · rw [Store.scope_push, if_neg (Nat.ne_of_lt (hstore.lt id' (List.mem_of_getElem? hid)))]
      exact hstore.scopes id id' hid
    · intro id' hid'
      rw [Store.scope_push]
      split
      · rfl
      · exact hstore.others id' hid'
  exact h m'.store.nextId known m { m' with store := m'.store.push Bindings.empty } hknown
    { hm with store := hinterposed }

/-- A variable of the innermost scope is made or gets another value. -/
theorem agree_defineAlong (henv : Along places true context context' env env') (name : String)
    {v v' : Value} (hv : v.Alike (unfolding Q Q') places v') :
    Agree (unfolding Q Q') places (fun _ _ _ => True) (Action.define env name v)
      (Action.define env' name v') := by
  obtain ⟨id, id', outer, outer', rfl, rfl, hid⟩ := henv.head
  exact agree_defineVariable (corresponds_counterpart hid name) outer outer' hv

theorem globals_unfolding (Q Q' : Demand Label) : (unfolding Q Q').Globals := by
  intro known m m' hm name
  have hstore : Store.Interposed (Value.Alike (unfolding Q Q')) known m.store m'.store := hm.store
  exact corresponds_counterpart hstore.globals name

/-! ## References -/

variable {table table' : BindingTable} {ref : Ref Label}

/-- Reading a name by the hops that its places ask for. -/
theorem agree_readAlong (henv : Along places top context context' env env')
    (hhops : table.hops? ref.label = context.hops? ref.name.lexeme)
    (hhops' : table'.hops? ref.label = context'.hops? ref.name.lexeme) :
    Agree (unfolding Q Q') places (Value.Alike (unfolding Q Q')) (Action.read table env ref)
      (Action.read table' env' ref) := by
  have hleads := henv.leads ref.name.lexeme
  unfold Action.read
  rw [hhops, hhops']
  generalize context.hops? _ = hops?, context'.hops? _ = hops?' at hleads ⊢
  cases hleads with
  | global => exact agree_readGlobal (globals_unfolding Q Q') _ _ ref.name
  | scope hid hid' h =>
    exact agree_getVariable (corresponds_counterpart h _) (Env.leave_of_getElem? hid)
      (Env.leave_of_getElem? hid')

/-- Assigning to a name by the hops that its places ask for. -/
theorem agree_assignAlong (henv : Along places top context context' env env')
    (hhops : table.hops? ref.label = context.hops? ref.name.lexeme)
    (hhops' : table'.hops? ref.label = context'.hops? ref.name.lexeme) {v v' : Value}
    (hv : v.Alike (unfolding Q Q') places v') :
    Agree (unfolding Q Q') places (fun _ _ _ => True) (Action.assign table env ref v)
      (Action.assign table' env' ref v') := by
  have hleads := henv.leads ref.name.lexeme
  unfold Action.assign
  rw [hhops, hhops']
  generalize context.hops? _ = hops?, context'.hops? _ = hops?' at hleads ⊢
  cases hleads with
  | global => exact agree_assignGlobal (globals_unfolding Q Q') _ _ ref.name hv
  | scope hid hid' h =>
    dsimp only
    rw [Env.leave_of_getElem? hid, Env.leave_of_getElem? hid']
    exact agree_defineVariable (corresponds_counterpart h _) _ _ hv

/-- The value of a word that is defined in scopes around both places. -/
theorem agree_wordAlong (henv : Along places top context context' env env') {word : String}
    {hops hops' : Nat} (hhops : context.hops? word = some hops)
    (hhops' : context'.hops? word = some hops') :
    Agree (unfolding Q Q') places (Value.Alike (unfolding Q Q')) (Action.getAt env hops word)
      (Action.getAt env' hops' word) := by
  have hleads := henv.leads word
  rw [hhops, hhops'] at hleads
  cases hleads with
  | scope hid hid' h =>
    exact agree_getVariable (corresponds_counterpart h _) (Env.leave_of_getElem? hid)
      (Env.leave_of_getElem? hid')

/-- What `super` and `this` are, by the hops that the places of `super` ask for. -/
theorem agree_parentAlong {classBody : ClassContext}
    (henv : Sides places classBody top context context' env env') (hderived : classBody = .derived)
    (hhops : table.hops? ref.label = context.hops? "super")
    (hhops' : table'.hops? ref.label = context'.hops? "super") :
    Agree (unfolding Q Q') places
      (fun places' p p' => p.1.Alike (unfolding Q Q') places' p'.1 ∧
        p.2.Alike (unfolding Q Q') places' p'.2)
      (Action.parent table env ref) (Action.parent table' env' ref) := by
  -- the scope of `this` lies directly inside that of `super`, also with empty scopes around both
  obtain ⟨hops, hsuper, hthis⟩ := henv.derives hderived
  obtain ⟨hops', hsuper', hthis'⟩ := henv.derives' hderived
  have hless : ∀ hops : Nat, ((hops + 1 : Nat) : Int) - 1 = (hops : Nat) := fun _ => by omega
  unfold Action.parent
  rw [hhops, hhops', hsuper, hsuper']
  dsimp only
  rw [hless, hless]
  refine (agree_wordAlong henv.along hsuper hsuper').bind
    fun places₁ above above' hplaces habove => ?_
  refine (agree_wordAlong (henv.along.mono hplaces) hthis hthis').bind
    fun places₂ object object' hplaces' hobject => ?_
  exact agree_pure fun _ hplaces'' =>
    ⟨(habove.mono hplaces').mono hplaces'', hobject.mono hplaces''⟩

/-! ## Functions and classes -/

/-- The scope of `this` that a method was still to be put in is entered. -/
theorem takes_unfolding (Q Q' : Demand Label) : (unfolding Q Q').Takes := by
  intro places v v' f f' hv hf
  obtain ⟨around, kind, context, context', hf⟩ := hf
  unfold Action.takeMethod
  refine (agree_enterSharedWord "this" hv hf.along).bind
    fun places₁ inner inner' hplaces hinner => ?_
  refine agree_freshId.bind ?_
  rintro places₂ _ id hplaces' rfl
  exact agree_pure fun places₃ hplaces'' => ⟨around, kind, .ofWord "this" :: context,
    .ofWord "this" :: context', rfl, hf.isInitializer, hf.inside,
    ((hinner _).mono hplaces').mono hplaces'', hf.derives, hf.derives', hf.unfolds, hf.ready,
    hf.ready'⟩

/-- A method that sets up objects yields the object. -/
theorem agree_thisAlong {f f' : Closure} (hf : f.Unfolds Q Q' [] places f') :
    Agree (unfolding Q Q') places (Value.Alike (unfolding Q Q')) (Action.getAt f.env 0 "this")
      (Action.getAt f'.env 0 "this") := by
  obtain ⟨_, _, _, _, hf⟩ := hf
  obtain ⟨id, id', outer, outer', henv, henv', hid⟩ := hf.along.head
  rw [henv, henv']
  exact agree_getVariable (corresponds_counterpart hid "this") rfl rfl

/-- Methods go together that are made in environments that run along each other. -/
theorem methodsAlong {around : Surroundings} {ms ms' : List (Function Label)}
    (henv : Along places true context context' env env')
    (hderives : Context.Derives around.classBody (.ofWord "this" :: context))
    (hderives' : Context.Derives around.classBody (.ofWord "this" :: context'))
    (hms : List.Forall₂ Function.Unfolds ms ms')
    (hready : ∀ m ∈ ms, m.Ready Q around m.methodContext (.ofWord "this" :: context))
    (hready' : ∀ m ∈ ms', m.Ready Q' around m.methodContext (.ofWord "this" :: context')) :
    List.Forall₂ ((unfolding Q Q').MethodsIn places env env') ms ms' := by
  induction hms with
  | nil => exact .nil
  | @cons m m' _ _ hm _ ih =>
    obtain ⟨hmready, hready⟩ := List.forall_mem_cons.mp hready
    obtain ⟨hmready', hready'⟩ := List.forall_mem_cons.mp hready'
    rw [hm.methodContext_eq] at hmready'
    refine .cons ⟨congrArg Token.lexeme hm.name_eq, fun places' id id' hplaces hid => ?_⟩
      (ih hready hready')
    exact ⟨around, m.methodContext, context, context', hid, hm.isInitializer_eq,
      m.methodContext_ne, henv.mono hplaces, hderives, hderives', hm, hmready, hmready'⟩

variable {around : Surroundings} {name : Token} {ms ms' : List (Function Label)}

/-- A class without a superclass, and the variable that holds it. -/
theorem agree_plainClass (henv : Along places true context context' env env')
    (hs : (Stmt.classOf name none ms).Ready Q around context)
    (hs' : (Stmt.classOf name none ms').Ready Q' around context')
    (hms : List.Forall₂ Function.Unfolds ms ms') :
    Agree (unfolding Q Q') places (fun _ _ _ => True) (makeClass env name none ms)
      (makeClass env' name none ms') :=
  agree_defineClass .nil
    (methodsAlong (henv.mark name.lexeme true) (.plain _) (.plain _) hms hs.classOf.2 hs'.classOf.2)
    fun _ _ _ hplaces hv => agree_defineAlong (henv.mono hplaces) name.lexeme hv

/-- A class with a superclass, and the variable that holds it. -/
theorem agree_derivedClass (henv : Along places true context context' env env') {parent : Ref Label}
    (hs : (Stmt.classOf name (some parent) ms).Ready Q around context)
    (hs' : (Stmt.classOf name (some parent) ms').Ready Q' around context')
    (hms : List.Forall₂ Function.Unfolds ms ms') {c c' : ClassValue}
    (hc : c.Alike (unfolding Q Q') places c') :
    Agree (unfolding Q Q') places (fun _ _ _ => True) (makeClass env name (some c) ms)
      (makeClass env' name (some c') ms') := by
  obtain ⟨_, _, _, _, _, hready⟩ := hs.subclassOf
  obtain ⟨_, _, _, _, _, hready'⟩ := hs'.subclassOf
  -- the methods stand among the names declared so far, with that of the class
  refine (agree_enterSharedWord "super" (.classOf hc) (henv.mark name.lexeme true)).bind
    fun places₁ inner inner' hplaces hinner => ?_
  exact agree_defineClass (hc.mono hplaces).lineage
    (methodsAlong (hinner (.ofWord "super")) (.derived _) (.derived _) hms hready hready')
    fun places₂ v v' hplaces' hv =>
      agree_defineAlong (henv.mono (hplaces.trans hplaces')) name.lexeme hv

end

end LoxLang
