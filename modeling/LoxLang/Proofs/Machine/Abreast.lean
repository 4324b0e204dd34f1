import LoxLang.Proofs.Machine.Access
import LoxLang.Proofs.Machine.Alike

/-! # Two runs abreast

`Agree A known P x y` is what is proved of every part of two runs on machines that are alike in the
way `A`: begun on such machines, when at least so much is known of them, both end in the same way,
with machines that are alike again, and with results that `P` relates if they have any.  What was
known still is; more may be known of what is new.  Errors are the same, at tokens that go together,
and that the second run finds a name missing means that the first one does.

For each form of an expression or a statement there is a lemma that takes this from its parts to the
whole. -/

namespace LoxLang

open Machine

/-- Why two actions have no result is the same, but for names of variables and where an error
arises, at tokens that go together. -/
inductive Halt.Alike (same : Token → Token → Prop) : Halt → Halt → Prop
  | error (fault : RuntimeFault) {place place' : Token} (hplace : same place place') :
      Alike same (.error ⟨fault, place⟩) (.error ⟨fault, place'⟩)
  | fault (f : Fault) : Alike same (.fault f) (.fault f)
  | missingName (name name' : String) :
      Alike same (.fault (.missingName name)) (.fault (.missingName name'))

section
variable {κ α β γ δ : Type}

/-- Two actions that began when so much was known have ended alike. -/
inductive Abreast (A : Likeness κ) (known : κ) (P : κ → α → β → Prop) :
    EStateM.Result Halt Machine α → EStateM.Result Halt Machine β → Prop
  | ok {known' : κ} {a : α} {b : β} {m m' : Machine} (hknown : A.Grows known known')
      (hm : m.Alike A known' m') (hab : P known' a b) : Abreast A known P (.ok a m) (.ok b m')
  | error {known' : κ} {h h' : Halt} {m m' : Machine} (hm : m.Alike A known' m')
      (hh : h.Alike A.place h') : Abreast A known P (.error h m) (.error h' m')

/-- Two actions end alike on machines that are alike. -/
def Agree (A : Likeness κ) (known : κ) (P : κ → α → β → Prop) (x : Action α)
    (y : Action β) : Prop :=
  ∀ known' m m', A.Grows known known' → m.Alike A known' m' → Abreast A known' P (x m) (y m')

variable {A : Likeness κ} {known known' : κ} {x : Action α} {y : Action β}
  {P P' : κ → α → β → Prop}

namespace Agree

theorem mono (h : Agree A known P x y) (hknown : A.Grows known known') : Agree A known' P x y :=
  fun known'' m m' hknown' hm => h known'' m m' (hknown.trans hknown') hm

theorem imp (h : Agree A known P x y)
    (hP : ∀ known' a b, A.Grows known known' → P known' a b → P' known' a b) :
    Agree A known P' x y := by
  intro known' m m' hknown hm
  have hended := h known' m m' hknown hm
  generalize x m = ra, y m' = rb at hended
  cases hended with
  | ok hknown' hm hab => exact .ok hknown' hm (hP _ _ _ (hknown.trans hknown') hab)
  | error hm hh => exact .error hm hh

theorem bind {f : α → Action γ} {g : β → Action δ} {R : κ → γ → δ → Prop}
    (h : Agree A known P x y)
    (hf : ∀ known' a b, A.Grows known known' → P known' a b → Agree A known' R (f a) (g b)) :
    Agree A known R (x >>= f) (y >>= g) := by
  intro known' m m' hknown hm
  have hended := h known' m m' hknown hm
  rw [EStateM.bind_apply, EStateM.bind_apply]
  generalize x m = ra, y m' = rb at hended
  cases hended with
  | @ok known'' a b n n' hknown' hn hab =>
    have hgoes := hf known'' a b (hknown.trans hknown') hab known'' n n' (A.refl _) hn
    dsimp only
    generalize f a n = rc, g b n' = rd at hgoes
    cases hgoes with
    | ok hknown'' ho hcd => exact .ok (hknown'.trans hknown'') ho hcd
    | error ho hh => exact .error ho hh
  | error hn hh => exact .error hn hh

end Agree

theorem agree_pure {a : α} {b : β} (hab : ∀ known', A.Grows known known' → P known' a b) :
    Agree A known P (pure a) (pure b) :=
  fun known' _ _ hknown hm => .ok (A.refl _) hm (hab known' hknown)

theorem agree_fault (f : Fault) :
    Agree A known P (throw (.fault f) : Action α) (throw (.fault f) : Action β) :=
  fun _ _ _ _ hm => .error hm (.fault f)

theorem agree_fail (fault : RuntimeFault) {place place' : Token} (hplace : A.place place place') :
    Agree A known P (Action.fail fault place : Action α) (Action.fail fault place' : Action β) :=
  fun _ _ _ _ hm => .error hm (.error fault hplace)

theorem agree_missingName (name name' : String) :
    Agree A known P (throw (.fault (.missingName name)) : Action α)
      (throw (.fault (.missingName name')) : Action β) :=
  fun _ _ _ _ hm => .error hm (.missingName name name')

theorem agree_get {f : Machine → Action α} {g : Machine → Action β}
    (h : ∀ known' m m', A.Grows known known' → m.Alike A known' m' → Agree A known' P (f m) (g m')) :
    Agree A known P (get >>= f) (get >>= g) :=
  fun known' m m' hknown hm => h known' m m' hknown hm known' m m' (A.refl _) hm

theorem agree_value {v v' : Value} (hv : v.Alike A known v') :
    Agree A known (Value.Alike A) (pure v) (pure v') := agree_pure fun _ hknown => hv.mono hknown

/-- What is computed is the same. -/
theorem agree_ofExcept {u : Except RuntimeError Value}
    (hu : ∀ known v, u = .ok v → v.Alike A known v) :
    Agree A known (Value.Alike A) (Action.ofExcept u) (Action.ofExcept u) := by
  cases u with
  | ok v => exact agree_value (hu known v rfl)
  | error e => exact agree_fail e.fault (A.place_refl _)

/-! ## Sequences -/

theorem agree_mapM {σ τ : Type} {f : σ → Action α} {g : τ → Action β} {l : List σ} {l' : List τ}
    (h : List.Forall₂ (fun c c' => Agree A known P (f c) (g c')) l l')
    (hP : ∀ {known known' a b}, P known a b → A.Grows known known' → P known' a b) :
    Agree A known (fun known' => List.Forall₂ (P known')) (l.mapM f) (l'.mapM g) := by
  induction h with
  | nil => exact agree_pure fun _ _ => .nil
  | cons hc _ ih =>
    rw [List.mapM_cons, List.mapM_cons]
    refine hc.bind fun known₁ a b hknown hab => ?_
    refine (ih.mono hknown).bind fun known₂ as bs hknown' habs => ?_
    exact agree_pure fun known₃ hknown'' =>
      .cons (hP hab (hknown'.trans hknown'')) (habs.imp fun _ _ h => hP h hknown'')

theorem agree_forM {σ τ : Type} {f : σ → Action PUnit} {g : τ → Action PUnit} {l : List σ}
    {l' : List τ}
    (h : List.Forall₂ (fun c c' => Agree A known (fun _ _ _ => True) (f c) (g c')) l l') :
    Agree A known (fun _ _ _ => True) (l.forM f) (l'.forM g) := by
  induction h with
  | nil => exact agree_pure fun _ _ => trivial
  | cons hc _ ih => exact hc.bind fun _ _ _ hknown _ => ih.mono hknown

/-- Two ways to complete that are alike, after which the same is done. -/
theorem Agree.andThen {z z' : Action Completion} {x y : Action Completion}
    (h : Agree A known (Completion.Alike A) x y)
    (hz : Agree A known (Completion.Alike A) z z') :
    Agree A known (Completion.Alike A)
      (do
        match ← x with
        | .normal => z
        | .returned value => return .returned value)
      (do
        match ← y with
        | .normal => z'
        | .returned value => return .returned value) := by
  refine h.bind fun known' c c' hknown hc => ?_
  cases hc with
  | normal => exact hz.mono hknown
  | returned hv => exact agree_pure fun _ hknown' => .returned (hv.mono hknown')

theorem agree_runAll {σ τ : Type} {run : σ → Action Completion} {run' : τ → Action Completion}
    {ss : List σ} {ss' : List τ}
    (h : List.Forall₂ (fun s s' => Agree A known (Completion.Alike A) (run s) (run' s')) ss ss') :
    Agree A known (Completion.Alike A) (runAll run ss) (runAll run' ss') := by
  induction h with
  | nil => exact agree_pure fun _ _ => .normal
  | cons hs _ ih => exact hs.andThen ih

theorem agree_runWhile {test test' : Action Bool} {body body' : Action Completion}
    (htest : Agree A known (fun _ b b' => b' = b) test test')
    (hbody : Agree A known (Completion.Alike A) body body') (rounds : Nat) :
    Agree A known (Completion.Alike A) (runWhile test body rounds)
      (runWhile test' body' rounds) := by
  induction rounds with
  | zero => exact agree_fault .outOfRounds
  | succ rounds ih =>
    refine htest.bind ?_
    rintro known' _ b hknown rfl
    cases b with
    | false => exact agree_pure fun _ _ => .normal
    | true => exact (hbody.mono hknown).andThen (ih.mono hknown)

end

/-! ## Single steps -/

/-- Giving a field a value changes the fields of one object, if it is there. -/
theorem Machine.fields_modify (m : Machine) (id other : Nat) (name : String) (value : Value) :
    ({ m with objects := m.objects.modify id (fun b => b.insert name value) } :
      Machine).fields other =
      if other = id ∧ id < m.objects.size then (m.fields id).insert name value
      else m.fields other := by
  simp only [Machine.fields, Array.getElem?_modify]
  by_cases h : other = id
  · subst h
    by_cases hlt : other < m.objects.size
    · simp [hlt]
    · simp [hlt]
  · simp [h, Ne.symm h]

theorem Store.home?_globalEnv (store : Store Value) (name : String) :
    store.home? globalEnv name = if (store.scope 0).contains name then some 0 else none := by
  unfold home? globalEnv
  rw [List.find?_cons]
  cases (store.scope 0).contains name <;> rfl

section
variable {κ : Type} {A : Likeness κ} {known : κ}

theorem agree_print {v v' : Value} (hv : v.Alike A known v') :
    Agree A known (fun _ _ _ => True) (Action.print v) (Action.print v') := by
  refine fun known' m m' hknown hm => .ok (A.refl _) { hm with output := ?_ } trivial
  show m'.output ++ v'.display ++ "\n" = m.output ++ v.display ++ "\n"
  rw [hm.output, hv.display_eq]

/-- The clocks show the same if they are looked at equally often, or otherwise at the times that go
together. -/
theorem agree_readClock {setting setting' : Setting}
    (hclock : ∀ n n', A.readings n n' → setting'.clock n' = setting.clock n ∧
      A.readings (n + 1) (n' + 1)) :
    Agree A known (Value.Alike A) (Action.readClock setting) (Action.readClock setting') := by
  intro known' m m' _ hm
  obtain ⟨hshown, hnext⟩ := hclock _ _ hm.readings
  refine .ok (A.refl _) { hm with readings := hnext } ?_
  rw [hshown]
  exact .datum _

/-- Machines that are alike stay alike when functions and objects get their numbers, and when
objects do their fields. -/
class Likeness.Lawful (A : Likeness κ) : Prop where
  freshId : ∀ known, Agree A known A.number Action.freshId Action.freshId
  newObject : ∀ {known c c'}, c.Alike A known c' →
    Agree A known (Value.Alike A) (Action.newObject c) (Action.newObject c')
  fields : ∀ {known m m' id id'}, Machine.Alike A known m m' → A.object known id id' →
    (m.fields id).Matches (fun name => name) (Value.Alike A known) (m'.fields id')
  setField : ∀ {known id id'} (name : String) {v v' : Value}, A.object known id id' →
    v.Alike A known v' → Agree A known (fun _ _ _ => True) (Action.setField id name v)
      (Action.setField id' name v')

theorem agree_freshId [A.Lawful] : Agree A known A.number Action.freshId Action.freshId :=
  Likeness.Lawful.freshId known

/-- Where numbers are the same in both machines, new ones get known of nothing. -/
instance Likeness.OfCode.lawful {ω : Type} (C : Likeness.OfCode ω) : C.toLikeness.Lawful where
  freshId _ _ _ _ _ hm :=
    .ok List.prefix_rfl { hm with nextId := congrArg (· + 1) hm.nextId } hm.nextId
  newObject := by
    intro known c c' hc known' m m' hknown hm
    have hsize : m'.objects.size = m.objects.size := Machine.FieldsAlike.size hm.objects
    refine .ok List.prefix_rfl { hm with objects := ⟨?_, fun id => ?_⟩ } ?_
    · simp [hsize]
    · show (Machine.fields id { m with objects := m.objects.push Bindings.empty }).Matches _ _
        (Machine.fields id { m' with objects := m'.objects.push Bindings.empty })
      rw [Machine.fields_push, Machine.fields_push]
      exact fields hm id
    · exact .object (A := C.toLikeness) hsize (hc.mono hknown)
  fields := by
    rintro known m m' _ id hm rfl
    exact fields hm id
  setField := by
    rintro known _ id name v v' rfl hv known' m m' hknown hm
    have hsize : m'.objects.size = m.objects.size := Machine.FieldsAlike.size hm.objects
    refine .ok List.prefix_rfl { hm with objects := ⟨?_, fun other => ?_⟩ } trivial
    · simp [hsize]
    · show (Machine.fields other
        { m with objects := m.objects.modify id fun b => b.insert name v }).Matches _ _
        (Machine.fields other
          { m' with objects := m'.objects.modify id fun b => b.insert name v' })
      rw [Machine.fields_modify, Machine.fields_modify, hsize]
      split
      · exact (fields hm id).insert Function.injective_id name (hv.mono hknown)
      · exact fields hm other

/-- The same clock is looked at equally often in both machines. -/
theorem Likeness.OfCode.agree_readClock {ω : Type} (C : Likeness.OfCode ω) {known : List ω}
    {setting setting' : Setting} (hclock : setting'.clock = setting.clock) :
    Agree C.toLikeness known (Value.Alike C.toLikeness) (Action.readClock setting)
      (Action.readClock setting') := by
  refine LoxLang.agree_readClock ?_
  rintro _ n rfl
  exact ⟨congrFun hclock n, rfl⟩

/-! ## Variables -/

/-- Two variables correspond: in machines that are alike both are missing or both have values that
are alike, and giving both values that are alike keeps the machines alike. -/
structure Likeness.Corresponds (A : Likeness κ) (known : κ) (id : ScopeId) (name : String)
    (id' : ScopeId) (name' : String) : Prop where
  get : ∀ {known' : κ} {m m' : Machine}, A.Grows known known' → m.Alike A known' m' →
    Option.Rel (Value.Alike A known') (m.store.get? id name) (m'.store.get? id' name')
  set : ∀ {known' : κ} {m m' : Machine} {v v' : Value}, A.Grows known known' →
    m.Alike A known' m' → v.Alike A known' v' →
      Machine.Alike A known' { m with store := m.store.set id name v }
        { m' with store := m'.store.set id' name' v' }

section
variable {id id' : ScopeId} {name name' : String} (h : A.Corresponds known id name id' name')
include h

/-- A variable of the innermost scope is made or gets another value. -/
theorem agree_defineVariable (outer outer' : Env) {v v' : Value} (hv : v.Alike A known v') :
    Agree A known (fun _ _ _ => True) (Action.define (id :: outer) name v)
      (Action.define (id' :: outer') name' v') :=
  fun _ _ _ hknown hm => .ok (A.refl _) (h.set hknown hm (hv.mono hknown)) trivial

/-- The value of a variable some scopes out. -/
theorem agree_getVariable {env env' outer outer' : Env} {hops hops' : Int}
    (hid : env.leave hops = .ok (id :: outer)) (hid' : env'.leave hops' = .ok (id' :: outer')) :
    Agree A known (Value.Alike A) (Action.getAt env hops name) (Action.getAt env' hops' name') := by
  refine agree_get fun known' m m' hknown hm => ?_
  have hrel := h.get hknown hm
  unfold Store.getAt
  rw [hid, hid']
  dsimp only [Bind.bind, Except.bind, List.head?_cons, Option.bind]
  generalize m.store.get? id name = x, m'.store.get? id' name' = y at hrel ⊢
  cases hrel with
  | none => exact agree_missingName _ _
  | some hv => exact agree_value hv

end

/-- In machines that are alike each global variable corresponds to itself. -/
def Likeness.Globals (A : Likeness κ) : Prop :=
  ∀ {known : κ} {m m' : Machine}, m.Alike A known m' → ∀ name,
    A.Corresponds known 0 name 0 name

/-- Reading a global variable, which has to be there. -/
theorem agree_readGlobal (hglobals : A.Globals) (name : String) (fault : RuntimeFault)
    (place : Token) :
    Agree A known (Value.Alike A)
      (do
        match (← get).store.lookup? globalEnv name with
        | some value => return value
        | none => Action.fail fault place)
      (do
        match (← get).store.lookup? globalEnv name with
        | some value => return value
        | none => Action.fail fault place) := by
  refine agree_get fun known' m m' _ hm => ?_
  have hrel := (hglobals hm name).get (A.refl _) hm
  rw [Store.lookup?_globalEnv, Store.lookup?_globalEnv]
  generalize m.store.get? 0 name = x, m'.store.get? 0 name = y at hrel ⊢
  cases hrel with
  | none => exact agree_fail _ (A.place_refl _)
  | some hv => exact agree_value hv

/-- Assigning to a global variable, which has to be there. -/
theorem agree_assignGlobal (hglobals : A.Globals) (name : String) (fault : RuntimeFault)
    (place : Token) {v v' : Value} (hv : v.Alike A known v') :
    Agree A known (fun _ _ _ => True)
      (do
        match (← get).store.home? globalEnv name with
        | some id => Action.define [id] name v
        | none => Action.fail fault place)
      (do
        match (← get).store.home? globalEnv name with
        | some id => Action.define [id] name v'
        | none => Action.fail fault place) := by
  refine agree_get fun known' m m' hknown hm => ?_
  have hglobal := hglobals hm name
  have hcontains : (m'.store.scope 0).contains name = (m.store.scope 0).contains name := by
    have hrel := hglobal.get (A.refl _) hm
    unfold Bindings.contains
    unfold Store.get? at hrel
    generalize (m.store.scope 0).get? name = x, (m'.store.scope 0).get? name = y at hrel ⊢
    cases hrel <;> rfl
  rw [Store.home?_globalEnv, Store.home?_globalEnv, hcontains]
  cases (m.store.scope 0).contains name with
  | false => exact agree_fail _ (A.place_refl _)
  | true => exact agree_defineVariable hglobal [] [] (hv.mono hknown)

/-! ## Calls -/

/-- The parameters of a function, under changed names in one of the runs. -/
theorem agree_matchArguments (change : String → String) {params params' : List Token}
    (hparams : List.Forall₂ (fun p p' => p'.lexeme = change p.lexeme) params params')
    {as as' : List Value} (has : List.Forall₂ (Value.Alike A known) as as') :
    Agree A known
      (fun known' => List.Forall₂ fun p p' => p'.1 = change p.1 ∧ p.2.Alike A known' p'.2)
      (Action.ofAccess (matchArguments params as))
      (Action.ofAccess (matchArguments params' as')) := by
  have hmatched : (∃ name name', matchArguments params as = .error (.missingName name) ∧
        matchArguments params' as' = .error (.missingName name')) ∨
      ∃ vars vars', matchArguments params as = .ok vars ∧ matchArguments params' as' = .ok vars' ∧
        List.Forall₂ (fun p p' => p'.1 = change p.1 ∧ p.2.Alike A known p'.2) vars vars' := by
    induction hparams generalizing as as' with
    | nil => exact .inr ⟨[], [], rfl, rfl, .nil⟩
    | @cons p p' _ _ hp _ ih =>
      cases has with
      | nil => exact .inl ⟨p.lexeme, p'.lexeme, rfl, rfl⟩
      | cons ha has =>
        rw [matchArguments, matchArguments]
        rcases ih has with ⟨name, name', herror, herror'⟩ | ⟨vars, vars', hok, hok', hvars⟩
        · rw [herror, herror']
          exact .inl ⟨name, name', rfl, rfl⟩
        · rw [hok, hok']
          exact .inr ⟨_, _, rfl, rfl, .cons ⟨hp, ha⟩ hvars⟩
  rcases hmatched with ⟨name, name', herror, herror'⟩ | ⟨vars, vars', hok, hok', hvars⟩
  · rw [herror, herror']
    exact agree_missingName name name'
  · rw [hok, hok']
    exact agree_pure fun _ hknown => hvars.imp fun _ _ h => ⟨h.1, h.2.mono hknown⟩

/-- The value of a call. -/
theorem agree_resultOf {f f' : Closure} (hkind : f'.isInitializer = f.isInitializer)
    (hthis : Agree A known (Value.Alike A) (Action.getAt f.env 0 "this")
      (Action.getAt f'.env 0 "this"))
    {c c' : Completion} (hc : Completion.Alike A known c c') :
    Agree A known (Value.Alike A) (resultOf f c) (resultOf f' c') := by
  unfold resultOf
  rw [hkind]
  split
  · exact hthis
  · cases hc with
    | normal => exact agree_value Value.alike_nil
    | returned hv => exact agree_value hv

/-! ## Objects and classes -/

/-- Methods that go together, taken from objects that are alike, are functions that go together. -/
def Likeness.Takes (A : Likeness κ) : Prop :=
  ∀ {known : κ} {v v' : Value} {f f' : Closure}, v.Alike A known v' → A.method known f f' →
    Agree A known A.function (Action.takeMethod v f) (Action.takeMethod v' f')

theorem agree_property [A.Lawful] (htakes : A.Takes) {id id' : Nat} (hid : A.object known id id')
    {c c' : ClassValue} (hc : c.Alike A known c') (name : Token) :
    Agree A known (Value.Alike A) (Action.property id c name) (Action.property id' c' name) := by
  refine agree_get fun known' m m' hknown hm => ?_
  have hid := A.object_mono hid hknown
  have hfield := Likeness.Lawful.fields hm hid name.lexeme
  generalize (m.fields id).get? name.lexeme = x, (m'.fields id').get? name.lexeme = y
    at hfield ⊢
  cases hfield with
  | some hv => exact agree_value hv
  | none =>
    have hmethod := (hc.mono hknown).method? name.lexeme
    generalize c.method? name.lexeme = x, c'.method? name.lexeme = y at hmethod ⊢
    cases hmethod with
    | none => exact agree_fail _ (A.place_refl _)
    | some hf =>
      exact (htakes (.object hid (hc.mono hknown)) hf).bind
        fun _ g g' _ hg => agree_value (.function hg)

theorem agree_superMethod (htakes : A.Takes) {access access' : Access} {env env' : Env}
    {ref ref' : Ref Label}
    (hparent : Agree A known
      (fun known' p p' => p.1.Alike A known' p'.1 ∧ p.2.Alike A known' p'.2)
      (access.parent env ref) (access'.parent env' ref')) (name : Token) :
    Agree A known (Value.Alike A) (Action.superMethod access env ref name)
      (Action.superMethod access' env' ref' name) := by
  refine hparent.bind ?_
  rintro known' ⟨above, object⟩ ⟨above', object'⟩ _ ⟨habove, hobject⟩
  cases habove with
  | @classOf c c' hc =>
    cases hobject with
    | object hid hd =>
      have hmethod := hc.method? name.lexeme
      dsimp only
      generalize c.method? name.lexeme = x, c'.method? name.lexeme = y at hmethod ⊢
      cases hmethod with
      | none => exact agree_fail _ (A.place_refl _)
      | some hf =>
        exact (htakes (.object hid hd) hf).bind fun _ g g' _ hg => agree_value (.function hg)
    | _ => exact agree_fault _
  | _ => exact agree_fault _

/-- What is asked of methods before they are made in two environments. -/
def Likeness.MethodsIn (A : Likeness κ) (known : κ) (env env' : Env)
    (f f' : Function Label) : Prop :=
  f'.name.lexeme = f.name.lexeme ∧ ∀ known' id id', A.Grows known known' →
    A.number known' id id' →
    A.method known' ⟨id, f, env, f.isInitializer⟩ ⟨id', f', env', f'.isInitializer⟩

theorem agree_makeMethods [A.Lawful] {env env' : Env} {ms ms' : List (Function Label)}
    (hms : List.Forall₂ (A.MethodsIn known env env') ms ms') :
    Agree A known (fun known' => Bindings.Matches (fun name => name) (A.method known'))
      (makeMethods env ms) (makeMethods env' ms') := by
  have hmade : ∀ f f', A.MethodsIn known env env' f f' →
      Agree A known (fun known' (p p' : String × Closure) => p'.1 = p.1 ∧ A.method known' p.2 p'.2)
        (do
          let method : Closure := ⟨← Action.freshId, f, env, f.isInitializer⟩
          return (f.name.lexeme, method))
        (do
          let method : Closure := ⟨← Action.freshId, f', env', f'.isInitializer⟩
          return (f'.name.lexeme, method)) := by
    intro f f' hf
    refine agree_freshId.bind fun known' id id' hknown hid => ?_
    exact agree_pure fun known'' hknown' =>
      ⟨hf.1, hf.2 known'' id id' (hknown.trans hknown') (A.number_mono hid hknown')⟩
  refine (agree_mapM (hms.imp hmade)
    fun h hknown => ⟨h.1, A.method_mono h.2 hknown⟩).bind fun known' pairs pairs' _ hpairs => ?_
  exact agree_pure fun known'' hknown => Bindings.Matches.ofList Function.injective_id
    (hpairs.imp fun _ _ h => ⟨h.1, A.method_mono h.2 hknown⟩)

/-- A class is made of methods and put in a variable. -/
theorem agree_defineClass [A.Lawful] {env env' methodEnv methodEnv' : Env} {label name name' : String}
    {above above' : List ClassLevel}
    (habove : List.Forall₂ (ClassLevel.Alike A known) above above')
    {ms ms' : List (Function Label)}
    (hms : List.Forall₂ (A.MethodsIn known methodEnv methodEnv') ms ms')
    (hdefine : ∀ known' v v', A.Grows known known' → v.Alike A known' v' →
      Agree A known' (fun _ _ _ => True) (Action.define env name v)
        (Action.define env' name' v')) :
    Agree A known (fun _ _ _ => True)
      (do
        let methods ← makeMethods methodEnv ms
        let own : ClassLevel := ⟨← Action.freshId, label, methods⟩
        Action.define env name (.classOf ⟨own, above⟩))
      (do
        let methods ← makeMethods methodEnv' ms'
        let own : ClassLevel := ⟨← Action.freshId, label, methods⟩
        Action.define env' name' (.classOf ⟨own, above'⟩)) := by
  refine (agree_makeMethods hms).bind fun known₁ methods methods' hknown hmethods => ?_
  refine agree_freshId.bind fun known₂ id id' hknown' hid => ?_
  have hclass : ClassValue.Alike A known₂ ⟨⟨id, label, methods⟩, above⟩
      ⟨⟨id', label, methods'⟩, above'⟩ :=
    ⟨⟨hid, rfl, hmethods.imp fun _ _ h => A.method_mono h hknown'⟩,
      habove.imp fun _ _ h => h.mono (hknown.trans hknown')⟩
  exact hdefine known₂ _ _ (hknown.trans hknown') (.classOf hclass)

/-- An object is made and set up. -/
theorem agree_makeObject [A.Lawful] (htakes : A.Takes) {invoke invoke' : Closure → Action Value}
    (hinvoke : ∀ known' f f', A.Grows known known' → A.function known' f f' →
      Agree A known' (Value.Alike A) (invoke f) (invoke' f'))
    {c c' : ClassValue} (hc : c.Alike A known c') :
    Agree A known (Value.Alike A)
      (do
        let object ← Action.newObject c
        match c.initializer? with
        | some method =>
          let _ ← invoke (← Action.takeMethod object method)
          return object
        | none => return object)
      (do
        let object ← Action.newObject c'
        match c'.initializer? with
        | some method =>
          let _ ← invoke' (← Action.takeMethod object method)
          return object
        | none => return object) := by
  refine (Likeness.Lawful.newObject hc).bind fun known₁ v v' hknown hv => ?_
  have hinitializer := (hc.mono hknown).method? initializerName
  unfold ClassValue.initializer?
  generalize c.method? initializerName = x, c'.method? initializerName = y at hinitializer ⊢
  cases hinitializer with
  | none => exact agree_value hv
  | some hf =>
    refine (htakes hv hf).bind fun known₂ g g' hknown' hg => ?_
    refine (hinvoke known₂ g g' (hknown.trans hknown') hg).bind fun known₃ _ _ hknown'' _ => ?_
    exact agree_value ((hv.mono hknown').mono hknown'')

/-! ## Forms of expressions -/

variable {x x' y y' : Action Value}

theorem agree_unary (hx : Agree A known (Value.Alike A) x x') (op : Token) :
    Agree A known (Value.Alike A) (do Action.ofExcept ((← x).unary op))
      (do Action.ofExcept ((← x').unary op)) := by
  refine hx.bind fun known' v v' _ hv => ?_
  rw [hv.unary_eq]
  exact agree_ofExcept fun _ u hu => .of_unary hu

theorem agree_binary (hx : Agree A known (Value.Alike A) x x')
    (hy : Agree A known (Value.Alike A) y y') (op : Token) :
    Agree A known (Value.Alike A)
      (do
        let left ← x
        let right ← y
        Action.ofExcept (left.binary op right))
      (do
        let left ← x'
        let right ← y'
        Action.ofExcept (left.binary op right)) := by
  refine hx.bind fun known₁ v v' hknown hv => ?_
  refine (hy.mono hknown).bind fun known₂ w w' hknown' hw => ?_
  rw [(hv.mono hknown').binary_eq hw]
  exact agree_ofExcept fun _ u hu => .of_binary hu

theorem agree_logical (hx : Agree A known (Value.Alike A) x x')
    (hy : Agree A known (Value.Alike A) y y') (decides : Bool) :
    Agree A known (Value.Alike A)
      (do
        let left ← x
        if left.isTruthy == decides then return left else y)
      (do
        let left ← x'
        if left.isTruthy == decides then return left else y') := by
  refine hx.bind fun known' v v' hknown hv => ?_
  rw [hv.isTruthy_eq]
  split
  · exact agree_value hv
  · exact hy.mono hknown

theorem agree_call {es es' : Action (List Value)} {call call' : Callee → List Value → Action Value}
    (hx : Agree A known (Value.Alike A) x x')
    (hes : Agree A known (fun known' => List.Forall₂ (Value.Alike A known')) es es')
    (hcall : ∀ known' c c' as as', A.Grows known known' → c.Alike A known' c' →
      List.Forall₂ (Value.Alike A known') as as' →
      Agree A known' (Value.Alike A) (call c as) (call' c' as')) (paren : Token) :
    Agree A known (Value.Alike A)
      (do
        let callee ← x
        let arguments ← es
        match callee.callee? with
        | none => Action.fail .notCallable paren
        | some callee =>
          if arguments.length = callee.arity then call callee arguments
          else Action.fail (.wrongArgumentCount callee.arity arguments.length) paren)
      (do
        let callee ← x'
        let arguments ← es'
        match callee.callee? with
        | none => Action.fail .notCallable paren
        | some callee =>
          if arguments.length = callee.arity then call' callee arguments
          else Action.fail (.wrongArgumentCount callee.arity arguments.length) paren) := by
  refine hx.bind fun known₁ v v' hknown hv => ?_
  refine (hes.mono hknown).bind fun known₂ as as' hknown' has => ?_
  have hcallee := (hv.mono hknown').callee?
  generalize v.callee? = c, v'.callee? = c' at hcallee ⊢
  cases hcallee with
  | none => exact agree_fail .notCallable (A.place_refl _)
  | some hc =>
    dsimp only
    rw [hc.arity_eq, ← has.length_eq]
    split
    · exact hcall known₂ _ _ as as' (hknown.trans hknown') hc has
    · exact agree_fail _ (A.place_refl _)

theorem agree_getProperty [A.Lawful] (htakes : A.Takes)
    (hx : Agree A known (Value.Alike A) x x')
    (name : Token) :
    Agree A known (Value.Alike A)
      (do
        match ← x with
        | .object id c => Action.property id c name
        | _ => Action.fail .propertyOfNoObject name)
      (do
        match ← x' with
        | .object id c => Action.property id c name
        | _ => Action.fail .propertyOfNoObject name) := by
  refine hx.bind fun known' v v' _ hv => ?_
  cases hv with
  | object hid hc => exact agree_property htakes hid hc name
  | _ => exact agree_fail _ (A.place_refl _)

theorem agree_setProperty [A.Lawful] (hx : Agree A known (Value.Alike A) x x')
    (hy : Agree A known (Value.Alike A) y y') (name : Token) :
    Agree A known (Value.Alike A)
      (do
        match ← x with
        | .object id _ =>
          let value ← y
          Action.setField id name.lexeme value
          return value
        | _ => Action.fail .fieldOfNoObject name)
      (do
        match ← x' with
        | .object id _ =>
          let value ← y'
          Action.setField id name.lexeme value
          return value
        | _ => Action.fail .fieldOfNoObject name) := by
  refine hx.bind fun known₁ v v' hknown hv => ?_
  cases hv with
  | object hid hc =>
    refine (hy.mono hknown).bind fun known₂ w w' hknown' hw => ?_
    have hid := A.object_mono hid hknown'
    exact (Likeness.Lawful.setField name.lexeme hid hw).bind fun _ _ _ hknown'' _ =>
      agree_value (hw.mono hknown'')
  | _ => exact agree_fail _ (A.place_refl _)

/-! ## Forms of statements -/

/-- A step after which a statement completes normally. -/
theorem Agree.done {α β : Type} {P : κ → α → β → Prop} {x : Action α} {y : Action β}
    (h : Agree A known P x y) :
    Agree A known (Completion.Alike A) (do let _ ← x; return .normal)
      (do let _ ← y; return .normal) :=
  h.bind fun _ _ _ _ _ => agree_pure fun _ _ => .normal

theorem agree_printed (hx : Agree A known (Value.Alike A) x x') :
    Agree A known (Completion.Alike A)
      (do
        Action.print (← x)
        return .normal)
      (do
        Action.print (← x')
        return .normal) :=
  hx.bind fun _ _ _ _ hv => (agree_print hv).done

theorem agree_test (hx : Agree A known (Value.Alike A) x x') :
    Agree A known (fun _ b b' => b' = b) (return (← x).isTruthy) (return (← x').isTruthy) :=
  hx.bind fun _ _ _ _ hv => agree_pure fun _ _ => hv.isTruthy_eq

theorem agree_branch {z z' w w' : Action Completion} (hx : Agree A known (Value.Alike A) x x')
    (hz : Agree A known (Completion.Alike A) z z') (hw : Agree A known (Completion.Alike A) w w') :
    Agree A known (Completion.Alike A) (do if (← x).isTruthy then z else w)
      (do if (← x').isTruthy then z' else w') := by
  refine hx.bind fun known' v v' hknown hv => ?_
  rw [hv.isTruthy_eq]
  split
  · exact hz.mono hknown
  · exact hw.mono hknown

theorem agree_returned (hx : Agree A known (Value.Alike A) x x') :
    Agree A known (Completion.Alike A) (do return .returned (← x))
      (do return .returned (← x')) :=
  hx.bind fun _ _ _ _ hv => agree_pure fun _ hknown => .returned (hv.mono hknown)

end

end LoxLang
