import LoxLang.Proofs.Computation
import LoxLang.Proofs.Machine.Sound

/-! # Two runs in step

`Runs Q W m x y P` is what is proved of every part of a run: begun on a machine in order, `x` and
`y` do the same; if they end with a result, the machine is in order and `P` holds, and if they do
not, then because of a runtime error of the program or of one of the two limits that a run has.
With `x = y` this says that a run never goes wrong; with another way to reach variables in `y` it
says that the other way amounts to the same. -/

namespace LoxLang

/-- A runtime error, or a limit that was reached. -/
def Halt.Legal : Halt → Prop
  | .error _ => True
  | .fault f => f = .tooDeep ∨ f = .outOfRounds

variable {α β : Type}

/-- Two actions do the same on a machine, and leave a machine in order. -/
def Runs (Q : Demand Label) (W : Plan) (m : Machine) (x y : Action α)
    (P : Plan → Store Value → α → Prop) : Prop :=
  y m = x m ∧
    match x m with
    | .ok a m' => ∃ W', Grows W m.store W' m'.store ∧ m'.Sound Q W' ∧ P W' m'.store a
    | .error h m' => h.Legal ∧ ∃ W', m'.Sound Q W'

section
variable {Q : Demand Label} {W : Plan} {m : Machine} {x y : Action α}
  {P P' : Plan → Store Value → α → Prop}

theorem runs_pure (hm : m.Sound Q W) {a : α} (ha : P W m.store a) :
    Runs Q W m (pure a) (pure a) P := ⟨rfl, W, .refl _ _, hm, ha⟩

theorem runs_throw (hm : m.Sound Q W) {h : Halt} (hh : h.Legal) :
    Runs Q W m (throw h : Action α) (throw h) P := ⟨rfl, hh, W, hm⟩

theorem runs_tooDeep (hm : m.Sound Q W) :
    Runs Q W m (throw (.fault .tooDeep) : Action α) (throw (.fault .tooDeep)) P :=
  runs_throw hm (.inl rfl)

theorem Runs.imp (h : Runs Q W m x y P)
    (hP : ∀ W' store' a, Grows W m.store W' store' → P W' store' a → P' W' store' a) :
    Runs Q W m x y P' := by
  obtain ⟨heq, h⟩ := h
  refine ⟨heq, ?_⟩
  split at h
  · obtain ⟨W', hgrows, hm, ha⟩ := h
    exact ⟨W', hgrows, hm, hP W' _ _ hgrows ha⟩
  · exact h

theorem Runs.bind {f g : α → Action β} {R : Plan → Store Value → β → Prop}
    (h : Runs Q W m x y P)
    (hf : ∀ W' m' a, Grows W m.store W' m'.store → m'.Sound Q W' → P W' m'.store a →
      Runs Q W' m' (f a) (g a) R) :
    Runs Q W m (x >>= f) (y >>= g) R := by
  obtain ⟨heq, h⟩ := h
  unfold Runs
  rw [EStateM.bind_apply, EStateM.bind_apply, heq]
  split at h
  · rename_i a m' hx
    obtain ⟨W', hgrows, hm, ha⟩ := h
    obtain ⟨heq', hres⟩ := hf W' m' a hgrows hm ha
    rw [hx]
    refine ⟨heq', ?_⟩
    show match f a m' with | .ok _ _ => _ | .error _ _ => _
    split at hres
    · obtain ⟨W'', hgrows', hm', hb⟩ := hres
      exact ⟨W'', hgrows.trans hgrows', hm', hb⟩
    · exact hres
  · rename_i hx
    rw [hx]
    exact ⟨rfl, h⟩

theorem runs_get {f g : Machine → Action α} (h : Runs Q W m (f m) (g m) P) :
    Runs Q W m (get >>= f) (get >>= g) P := h

theorem runs_fail (hm : m.Sound Q W) (fault : RuntimeFault) (place : Token) :
    Runs Q W m (Action.fail fault place : Action α) (Action.fail fault place) P :=
  runs_throw hm trivial

theorem runs_ofExcept (hm : m.Sound Q W) {r : Except RuntimeError α}
    (hr : ∀ a, r = .ok a → P W m.store a) :
    Runs Q W m (Action.ofExcept r) (Action.ofExcept r) P := by
  cases r with
  | ok a => exact runs_pure hm (hr a rfl)
  | error e => exact runs_throw hm trivial

/-- A step whose effect is known leaves a machine in order if that effect does. -/
theorem runs_of_apply {a : α} {m' : Machine} {W' : Plan} (hx : x m = .ok a m')
    (hgrows : Grows W m.store W' m'.store) (hm : m'.Sound Q W') (ha : P W' m'.store a) :
    Runs Q W m x x P := by
  refine ⟨rfl, ?_⟩
  rw [hx]
  exact ⟨W', hgrows, hm, ha⟩

end

/-! ## Single steps -/

section
variable {Q : Demand Label} {W : Plan} {m : Machine}

theorem runs_print (hm : m.Sound Q W) (v : Value) :
    Runs Q W m (Action.print v) (Action.print v) fun _ _ _ => True :=
  runs_of_apply rfl (.refl _ _) { hm with } trivial

theorem runs_freshId (hm : m.Sound Q W) :
    Runs Q W m Action.freshId Action.freshId fun W' store' _ => W' = W ∧ store' = m.store :=
  runs_of_apply rfl (.refl _ _) { hm with } ⟨rfl, rfl⟩

theorem runs_readClock (hm : m.Sound Q W) (setting setting' : Setting)
    (hclock : setting'.clock = setting.clock) :
    Runs Q W m (Action.readClock setting) (Action.readClock setting')
      fun W' store' v => v.Sound Q W' store' := by
  unfold Action.readClock
  rw [hclock]
  exact runs_of_apply rfl (.refl _ _) { hm with } trivial

theorem Machine.fields_push (m : Machine) (id : Nat) :
    ({ m with objects := m.objects.push Bindings.empty } : Machine).fields id = m.fields id := by
  simp only [Machine.fields, Array.getElem?_push]
  split
  · rename_i h
    simp [h]
  · rfl

theorem runs_newObject (hm : m.Sound Q W) {c : ClassValue} (hc : c.Sound Q W m.store) :
    Runs Q W m (Action.newObject c) (Action.newObject c)
      fun W' store' v => (∃ id, v = .object id c) ∧ v.Sound Q W' store' := by
  refine runs_of_apply rfl (.refl _ _) ?_ ⟨⟨_, rfl⟩, hc⟩
  refine { hm with fields := fun id name v hv => ?_ }
  rw [Machine.fields_push] at hv
  exact hm.fields id name v hv

theorem Machine.get?_fields_modify {m : Machine} {id other : Nat} {name name' : String}
    {value v : Value}
    (h : (({ m with objects := m.objects.modify id (fun b => b.insert name value) } :
      Machine).fields other).get? name' = some v) :
    v = value ∨ (m.fields other).get? name' = some v := by
  simp only [Machine.fields, Array.getElem?_modify] at h
  split at h
  · rename_i heq
    subst heq
    cases hb : m.objects[id]? with
    | none => simp [hb] at h
    | some b =>
      simp only [hb, Option.map_some, Option.getD_some, Bindings.get?_insert] at h
      split at h
      · exact .inl (Option.some.inj h).symm
      · refine .inr ?_
        simpa [Machine.fields, hb] using h
  · exact .inr h

theorem runs_setField (hm : m.Sound Q W) (id : Nat) (name : String) {value : Value}
    (hvalue : value.Sound Q W m.store) :
    Runs Q W m (Action.setField id name value) (Action.setField id name value)
      fun W' store' _ => W' = W ∧ store' = m.store := by
  refine runs_of_apply rfl (.refl _ _) { hm with fields := fun other name' v hv => ?_ } ⟨rfl, rfl⟩
  rcases Machine.get?_fields_modify hv with rfl | hv
  · exact hvalue
  · exact hm.fields other name' v hv

/-- A variable is made or gets another value.  It has to be planned for its scope, and its value has
to be in order once the variable is there. -/
theorem runs_define (hm : m.Sound Q W) {id : ScopeId} {outer : Env} {name : Token} {value : Value}
    (hid : id < m.store.nextId) (hname : name.IsName)
    (hplan : id ≠ 0 → ∃ names, W[id]? = some names ∧ name.lexeme ∈ names)
    (hvalue : ∀ store', Grows W m.store W store' → (store'.scope id).contains name.lexeme →
      value.Sound Q W store') :
    Runs Q W m (Action.define (id :: outer) name.lexeme value)
      (Action.define (id :: outer) name.lexeme value)
      fun W' store' _ => W' = W ∧ (store'.scope id).contains name.lexeme := by
  have hgrows := Grows.set W m.store id name.lexeme value
  have hget : ∀ other name' v,
      (m.store.set id name.lexeme value).get? other name' = some v →
        (other = id ∧ name' = name.lexeme ∧ v = value) ∨ m.store.get? other name' = some v := by
    intro other name' v hv
    simp only [Store.get?, Store.scope_set] at hv
    split at hv
    · rename_i hother
      rw [Bindings.get?_insert] at hv
      split at hv
      · exact .inl ⟨hother.1, ‹_›, (Option.some.inj hv).symm⟩
      · exact .inr (hother.1 ▸ hv)
    · exact .inr hv
  have hhere : ((m.store.set id name.lexeme value).scope id).contains name.lexeme := by
    simp [Store.scope_set, hid, Bindings.contains_insert]
  have hsound := hvalue _ hgrows hhere
  refine runs_of_apply rfl hgrows ⟨?_, ?_, fun other name' v hv => ?_, fun other hother name' h => ?_,
    fun other name' v hv => (hm.fields other name' v hv).grow hgrows, fun other v hv => ?_,
    fun other v hv => ?_⟩ ⟨rfl, hhere⟩
  · exact hm.length.trans (Store.nextId_set ..).symm
  · exact Nat.lt_of_lt_of_eq hm.pos (Store.nextId_set ..).symm
  · rcases hget other name' v hv with ⟨_, _, rfl⟩ | hv
    · exact hsound
    · exact (hm.values other name' v hv).grow hgrows
  · obtain ⟨v, hv⟩ := Option.isSome_iff_exists.mp h
    rcases hget other name' v hv with ⟨rfl, rfl, _⟩ | hv
    · exact hplan hother
    · exact hm.planned other hother name' (Option.isSome_iff_exists.mpr ⟨v, hv⟩)
  · rcases hget other "this" v hv with ⟨_, hthis, _⟩ | hv
    · exact absurd hthis.symm hname.1
    · exact hm.this other v hv
  · rcases hget other "super" v hv with ⟨_, hsuper, _⟩ | hv
    · exact absurd hsuper.symm hname.2
    · exact hm.super other v hv

/-- A new scope of the machine has been made for an open scope. -/
def Entered (scope : OpenScope) (env : Env) (W : Plan) (store : Store Value) (env' : Env) : Prop :=
  ∃ id, env' = id :: env ∧ id ≠ 0 ∧ W[id]? = some scope.whole ∧
    ∀ name, scope.declared.get? name = some true → (store.scope id).contains name

theorem Entered.shape {scope : OpenScope} {env env' : Env} {store : Store Value}
    (h : Entered scope env W store env') {context : Context} (hshape : Shape W context env) :
    Shape W (scope :: context) env' := by
  obtain ⟨id, rfl, hid, hplan, _⟩ := h
  exact .scope hid hplan hshape

theorem Entered.grow {scope : OpenScope} {env env' : Env} {store store' : Store Value} {W' : Plan}
    (h : Entered scope env W store env') (hgrows : Grows W store W' store') :
    Entered scope env W' store' env' := by
  obtain ⟨id, rfl, hid, hplan, hnames⟩ := h
  obtain ⟨added, rfl⟩ := hgrows.plan
  obtain ⟨hlt, _⟩ := List.getElem?_eq_some_iff.mp hplan
  exact ⟨id, rfl, hid, (List.getElem?_append_left hlt).trans hplan,
    fun name hname => hgrows.names id name (hnames name hname)⟩

theorem Entered.present {scope : OpenScope} {env env' : Env} {store : Store Value}
    (h : Entered scope env W store env') {context : Context} (hpresent : Present store context env) :
    Present store (scope :: context) env' := by
  obtain ⟨id, rfl, _, _, hnames⟩ := h
  exact hpresent.cons hnames

/-- A new scope is made for an open one, with values for all names that are defined there. -/
theorem runs_enter (hm : m.Sound Q W) (env : Env) (scope : OpenScope) {vars : Bindings Value}
    (hwhole : ∀ name, vars.contains name → name ∈ scope.whole)
    (hdefined : ∀ name, scope.declared.get? name = some true → vars.contains name)
    (hvars : ∀ name v, vars.get? name = some v → v.Sound Q W m.store)
    (hthis : ∀ v, vars.get? "this" = some v → ∃ i c, v = .object i c)
    (hsuper : ∀ v, vars.get? "super" = some v → ∃ c, v = .classOf c) :
    Runs Q W m (Action.enter vars env) (Action.enter vars env) (Entered scope env) := by
  have hgrows := Grows.push W m.store scope.whole vars
  have hget : ∀ id name v, (m.store.push vars).get? id name = some v →
      vars.get? name = some v ∨ m.store.get? id name = some v := by
    intro id name v hv
    simp only [Store.get?, Store.scope_push] at hv
    split at hv
    · exact .inl hv
    · exact .inr hv
  have hhere : (W ++ [scope.whole])[m.store.nextId]? = some scope.whole := by
    rw [← hm.length, List.getElem?_concat_length]
  refine runs_of_apply rfl hgrows ⟨?_, ?_, fun id name v hv => ?_, fun id hid name h => ?_,
    fun id name v hv => (hm.fields id name v hv).grow hgrows, fun id v hv => ?_,
    fun id v hv => ?_⟩ ⟨m.store.nextId, rfl, Nat.ne_of_gt hm.pos, hhere, fun name hname => ?_⟩
  · show (W ++ [scope.whole]).length = (m.store.push vars).nextId
    rw [List.length_append, hm.length, Store.nextId_push]
    rfl
  · exact Nat.lt_of_lt_of_eq (Nat.succ_pos _) (Store.nextId_push ..).symm
  · rcases hget id name v hv with hv | hv
    · exact (hvars name v hv).grow hgrows
    · exact (hm.values id name v hv).grow hgrows
  · have h : ((m.store.push vars).scope id).contains name := h
    rw [Store.scope_push] at h
    split at h
    · rename_i heq
      exact ⟨_, heq ▸ hhere, hwhole name h⟩
    · obtain ⟨names, hnames, hmem⟩ := hm.planned id hid name h
      obtain ⟨hlt, _⟩ := List.getElem?_eq_some_iff.mp hnames
      exact ⟨names, (List.getElem?_append_left hlt).trans hnames, hmem⟩
  · exact (hget id "this" v hv).elim (hthis v) (hm.this id v)
  · exact (hget id "super" v hv).elim (hsuper v) (hm.super id v)
  · show ((m.store.push vars).scope m.store.nextId).contains name
    rw [Store.scope_push, if_pos rfl]
    exact hdefined name hname

/-- A new scope without variables. -/
theorem runs_enterEmpty (hm : m.Sound Q W) (env : Env) (names : List Token) :
    Runs Q W m (Action.enter Bindings.empty env) (Action.enter Bindings.empty env)
      (Entered (.fresh names) env) := by
  refine runs_enter hm env _ (fun name h => ?_) (fun name h => ?_) (fun name v h => ?_)
    (fun v h => ?_) fun v h => ?_
  all_goals cases h

/-- A new scope in which a word has a meaning. -/
theorem runs_enterWord (hm : m.Sound Q W) (env : Env) {word : String} {value : Value}
    (hvalue : value.Sound Q W m.store) (hthis : word = "this" → ∃ i c, value = .object i c)
    (hsuper : word = "super" → ∃ c, value = .classOf c) :
    Runs Q W m (Action.enter (Bindings.empty.insert word value) env)
      (Action.enter (Bindings.empty.insert word value) env) (Entered (.ofWord word) env) := by
  have hget : ∀ name v, (Bindings.empty.insert word value).get? name = some v →
      name = word ∧ v = value := by
    intro name v hv
    rw [Bindings.get?_insert] at hv
    split at hv
    · exact ⟨‹_›, (Option.some.inj hv).symm⟩
    · cases hv
  refine runs_enter hm env _ (fun name hname => ?_) (fun name hname => ?_) (fun name v hv => ?_)
    (fun v hv => ?_) fun v hv => ?_
  · obtain ⟨v, hv⟩ := Option.isSome_iff_exists.mp hname
    simp [OpenScope.ofWord, (hget name v hv).1]
  · rw [OpenScope.get?_ofWord] at hname
    split at hname
    · rename_i heq
      simp [heq, Bindings.contains_insert]
    · cases hname
  · rw [(hget name v hv).2]
    exact hvalue
  · obtain ⟨hword, rfl⟩ := hget "this" v hv
    exact hthis hword.symm
  · obtain ⟨hword, rfl⟩ := hget "super" v hv
    exact hsuper hword.symm

/-- Taking a method from an object gives a function that can be called. -/
theorem runs_takeMethod (hm : m.Sound Q W) {f : Closure} (hf : f.Takeable Q W m.store) {id : Nat}
    {c : ClassValue} (hc : c.Sound Q W m.store) :
    Runs Q W m (Action.takeMethod (.object id c) f) (Action.takeMethod (.object id c) f)
      fun W' store' g => g.Callable Q W' store' ∧ g.declaration = f.declaration := by
  obtain ⟨around, kind, context, hf⟩ := hf
  have hobject : (Value.object id c).Sound Q W m.store := hc
  have henter : Runs Q W m (Action.enter (Bindings.empty.insert "this" (.object id c)) f.env) _ _ :=
    runs_enterWord hm f.env hobject (fun _ => ⟨id, c, rfl⟩) fun h => absurd h (by decide)
  refine henter.bind fun W' m' env hgrows hm' hentered => (runs_freshId hm').bind ?_
  rintro W'' m'' n hgrows' hm'' ⟨rfl, hstore⟩
  refine runs_pure hm'' ⟨⟨around, kind, .ofWord "this" :: context, ?_⟩, rfl⟩
  rw [hstore]
  have hpresent := hentered.present (hf.present.mono hgrows.names)
  refine ⟨⟨hentered.shape (hf.shape.mono hgrows.plan), hpresent, hf.defined, hf.coherent⟩,
    hf.defined.cons fun name => ?_, hf.inside, hf.ready, fun _ => ⟨_, rfl, ?_⟩⟩
  · rw [OpenScope.get?_ofWord]
    split <;> nofun
  · rw [OpenScope.get?_ofWord, if_pos rfl]

theorem runs_property (hm : m.Sound Q W) (id : Nat) {c : ClassValue} (hc : c.Sound Q W m.store)
    (name : Token) :
    Runs Q W m (Action.property id c name) (Action.property id c name)
      fun W' store' v => v.Sound Q W' store' := by
  refine runs_get ?_
  split
  · rename_i v hv
    exact runs_pure hm (hm.fields id name.lexeme v hv)
  · split
    · rename_i f hf
      exact (runs_takeMethod hm (hc.method? hf) hc).bind
        fun W' m' g _ hm' hg => runs_pure hm' hg.1
    · exact runs_fail hm _ _

end

end LoxLang
