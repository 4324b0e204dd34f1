import LoxLang.Proofs.Machine.Follows
import LoxLang.Proofs.Machine.Located
import LoxLang.Proofs.Machine.Lockstep
import LoxLang.Proofs.Machine.Moments

/-! # Located all the way

Whatever a task does, functions and methods stay where their environments say that they stand, and
words keep their meaning.  `Leaves` says this of an action.  Each task leaves a machine so if the
tasks that it begins do (`Task.leaves_of_started`), on which it begins them as it should
(`Starts.located`); by induction on the levels of nesting, all do (`Task.leaves`). -/

namespace LoxLang

open Machine

variable {α β σ : Type} {H : Chronicle} {m m' : Machine}

/-! ## Actions -/

/-- An action leaves functions where they stand and words with their meaning; its result, if there
is one, satisfies a condition. -/
def Leaves (H : Chronicle) (m : Machine) (x : Action α) (P : Store Value → α → Prop) : Prop :=
  (Action.machineOf (x m)).Located H ∧ m.store.KeepsWords (Action.machineOf (x m)).store ∧
    ∀ a m', x m = .ok a m' → P m'.store a

section
variable {x : Action α} {P P' : Store Value → α → Prop}

theorem leaves_of_ok {a : α} (hx : x m = .ok a m') (hm : m'.Located H)
    (hkeeps : m.store.KeepsWords m'.store) (ha : P m'.store a) : Leaves H m x P := by
  refine ⟨by rw [hx]; exact hm, by rw [hx]; exact hkeeps, fun b m'' h => ?_⟩
  rw [hx] at h
  cases h
  exact ha

theorem leaves_pure (hm : m.Located H) {a : α} (ha : P m.store a) : Leaves H m (pure a) P :=
  leaves_of_ok rfl hm (.refl _) ha

theorem leaves_throw (hm : m.Located H) (h : Halt) : Leaves H m (throw h) P :=
  ⟨hm, .refl _, nofun⟩

theorem Leaves.imp (h : Leaves H m x P)
    (hP : ∀ a m', x m = .ok a m' → P m'.store a → P' m'.store a) : Leaves H m x P' :=
  ⟨h.1, h.2.1, fun a m' hx => hP a m' hx (h.2.2 a m' hx)⟩

theorem Leaves.of_ok (h : Leaves H m x P) {a : α} (hx : x m = .ok a m') :
    m'.Located H ∧ m.store.KeepsWords m'.store ∧ P m'.store a := by
  obtain ⟨hm, hkeeps, hP⟩ := h
  rw [hx] at hm hkeeps
  exact ⟨hm, hkeeps, hP a m' hx⟩

theorem Leaves.bind {f : α → Action β} {R : Store Value → β → Prop} (h : Leaves H m x P)
    (hf : ∀ a m', x m = .ok a m' → m'.Located H → m.store.KeepsWords m'.store → P m'.store a →
      Leaves H m' (f a) R) : Leaves H m (x >>= f) R := by
  unfold Leaves
  rw [EStateM.bind_apply]
  cases hx : x m with
  | error e m' =>
    obtain ⟨hm, hkeeps, _⟩ := h
    rw [hx] at hm hkeeps
    exact ⟨hm, hkeeps, nofun⟩
  | ok a m' =>
    obtain ⟨hm, hkeeps, ha⟩ := h.of_ok hx
    obtain ⟨hm', hkeeps', hR⟩ := hf a m' hx hm hkeeps ha
    exact ⟨hm', hkeeps.trans hkeeps', hR⟩

/-- What a first action leaves, it leaves to the end if the next one leaves things so, too. -/
theorem Leaves.bind_keeps {f : α → Action β} {R : Store Value → β → Prop} (h : Leaves H m x P)
    (hf : ∀ a m', x m = .ok a m' → m'.Located H → m.store.KeepsWords m'.store → P m'.store a →
      Leaves H m' (f a) R) :
    (Action.machineOf (x m)).store.KeepsWords (Action.machineOf ((x >>= f) m)).store := by
  rw [EStateM.bind_apply]
  cases hx : x m with
  | error e m' => exact .refl _
  | ok a m' =>
    obtain ⟨hm, hkeeps, ha⟩ := h.of_ok hx
    exact (hf a m' hx hm hkeeps ha).2.1

theorem leaves_get {f : Machine → Action α} (h : Leaves H m (f m) P) :
    Leaves H m (get >>= f) P := h

theorem leaves_ofExcept (hm : m.Located H) {r : Except RuntimeError α}
    (hr : ∀ a, r = .ok a → P m.store a) : Leaves H m (Action.ofExcept r) P := by
  cases r with
  | ok a => exact leaves_pure hm (hr a rfl)
  | error e => exact leaves_throw hm _

theorem leaves_ofAccess (hm : m.Located H) {r : Except Fault α}
    (hr : ∀ a, r = .ok a → P m.store a) : Leaves H m (Action.ofAccess r) P := by
  cases r with
  | ok a => exact leaves_pure hm (hr a rfl)
  | error e => exact leaves_throw hm _

end

/-! ## Sequences -/

/-- Actions for the members of a list, each after those before it. -/
theorem leaves_mapM {f : σ → Action β} {P : Store Value → β → Prop}
    (hP : ∀ {store store' b}, store.KeepsWords store' → P store b → P store' b) {l : List σ}
    (hm : m.Located H)
    (h : ∀ earlier a later, l = earlier ++ a :: later → ∀ bs m', earlier.mapM f m = .ok bs m' →
      m'.Located H → m.store.KeepsWords m'.store → Leaves H m' (f a) P) :
    Leaves H m (l.mapM f) fun store bs => ∀ b ∈ bs, P store b := by
  induction l generalizing m with
  | nil => exact leaves_pure hm (List.forall_mem_nil _)
  | cons a l ih =>
    rw [List.mapM_cons]
    refine (h [] a l rfl [] m rfl hm (.refl _)).bind fun b m₁ hb hm₁ hkeeps hPb => ?_
    refine (ih hm₁ fun earlier a' later hl bs m' hbs hm' hkeeps' => ?_).bind
      fun bs m₂ _ hm₂ hkeeps' hPbs => ?_
    · refine h (a :: earlier) a' later (by rw [hl]; rfl) (b :: bs) m' ?_ hm' (hkeeps.trans hkeeps')
      rw [List.mapM_cons, EStateM.bind_ok hb, EStateM.bind_ok hbs]
      rfl
    · exact leaves_pure hm₂ (List.forall_mem_cons.mpr ⟨hP hkeeps' hPb, hPbs⟩)

/-- What a statement returns stands where its environments say. -/
def Machine.Completion.Located (H : Chronicle) (store : Store Value) : Completion → Prop
  | .normal => True
  | .returned v => v.Located H store

/-- Statements are executed, each after those before it. -/
theorem leaves_runAll {run : σ → Action Completion} {ss : List σ} (hm : m.Located H)
    (h : ∀ earlier s later, ss = earlier ++ s :: later → ∀ m',
      runAll run earlier m = .ok .normal m' → m'.Located H → m.store.KeepsWords m'.store →
      Leaves H m' (run s) (Completion.Located H)) :
    Leaves H m (runAll run ss) (Completion.Located H) := by
  induction ss generalizing m with
  | nil => exact leaves_pure hm trivial
  | cons s ss ih =>
    unfold runAll
    refine (h [] s ss rfl m rfl hm (.refl _)).bind fun c m₁ hc hm₁ hkeeps hloc => ?_
    cases c with
    | returned v => exact leaves_pure hm₁ hloc
    | normal =>
      refine ih hm₁ fun earlier t later hss m' hran hm' hkeeps' => ?_
      refine h (s :: earlier) t later (by rw [hss]; rfl) m' ?_ hm' (hkeeps.trans hkeeps')
      rw [runAll, EStateM.bind_ok hc]
      exact hran

/-- A loop goes round. -/
theorem leaves_runWhile {S : Setting} {depth : Nat} {env : Env} {condition : Expr Label}
    {body : Stmt Label} {rounds : Nat} (hm : m.Located H)
    (htest : ∀ m' left, Relation.ReflTransGen (Turn S depth env condition body) (rounds, m)
      (left + 1, m') → m'.Located H → m.store.KeepsWords m'.store →
      Leaves H m' (evaluate S depth env condition) fun store v => v.Located H store)
    (hbody : ∀ m₁ v m' left, Relation.ReflTransGen (Turn S depth env condition body) (rounds, m)
      (left + 1, m₁) → evaluate S depth env condition m₁ = .ok v m' → v.isTruthy →
      m'.Located H → m.store.KeepsWords m'.store →
      Leaves H m' (execute S depth env body) (Completion.Located H)) :
    Leaves H m (runWhile (return (← evaluate S depth env condition).isTruthy)
      (execute S depth env body) rounds) (Completion.Located H) := by
  induction rounds generalizing m with
  | zero => exact leaves_throw hm _
  | succ rounds ih =>
    unfold runWhile
    rw [bind_assoc]
    refine (htest m rounds .refl hm (.refl _)).bind fun v m₁ hv hm₁ hkeeps _ => ?_
    rw [pure_bind]
    split
    · rename_i htrue
      refine (hbody m v m₁ rounds .refl hv htrue hm₁ hkeeps).bind fun c m₂ hc hm₂ hkeeps' hloc => ?_
      cases c with
      | returned w => exact leaves_pure hm₂ hloc
      | normal =>
        have hturn : Turn S depth env condition body (rounds + 1, m) (rounds, m₂) :=
          ⟨v, m₁, rfl, hv, htrue, hc⟩
        have hkeeps := hkeeps.trans hkeeps'
        exact ih hm₂
          (fun m' left hturns hm' h => htest m' left (.head hturn hturns) hm' (hkeeps.trans h))
          fun n w m' left hturns hw hw' hm' h =>
            hbody n w m' left (.head hturn hturns) hw hw' hm' (hkeeps.trans h)
    · exact leaves_pure hm₁ trivial

/-! ## Single steps -/

section
variable (hm : m.Located H)
include hm

/-- A step that changes neither variables nor fields. -/
theorem Machine.Located.congr (hstore : m'.store = m.store) (hobjects : m'.objects = m.objects) :
    m'.Located H := by
  have hfields : ∀ id, m'.fields id = m.fields id := fun id => by
    rw [Machine.fields, Machine.fields, hobjects]
  exact ⟨hstore ▸ hm.pos, hstore ▸ hm.values, fun id name v hv =>
    hstore ▸ hm.fields id name v (hfields id ▸ hv)⟩

theorem leaves_print (v : Value) : Leaves H m (Action.print v) fun _ _ => True :=
  leaves_of_ok rfl (hm.congr rfl rfl) (.refl _) trivial

theorem leaves_freshId : Leaves H m Action.freshId fun _ _ => True :=
  leaves_of_ok rfl (hm.congr rfl rfl) (.refl _) trivial

theorem leaves_readClock (S : Setting) :
    Leaves H m (Action.readClock S) fun store v => v.Located H store :=
  leaves_of_ok rfl (hm.congr rfl rfl) (.refl _) trivial

theorem leaves_newObject {c : ClassValue} (hc : c.Located H m.store) :
    Leaves H m (Action.newObject c) fun store v =>
      c.Located H store ∧ ∃ id, v = .object id c := by
  refine leaves_of_ok rfl ⟨hm.pos, hm.values, fun id name v hv => ?_⟩ (.refl _) ⟨hc, _, rfl⟩
  rw [Machine.fields_push] at hv
  exact hm.fields id name v hv

theorem leaves_setField (id : Nat) (name : String) {v : Value} (hv : v.Located H m.store) :
    Leaves H m (Action.setField id name v) fun store _ => v.Located H store := by
  refine leaves_of_ok rfl ⟨hm.pos, hm.values, fun other name' w hw => ?_⟩ (.refl _) hv
  rcases Machine.get?_fields_modify hw with rfl | hw
  · exact hv
  · exact hm.fields other name' w hw

theorem leaves_define {name : String} (hname : ¬ IsWord name) (env : Env) {v : Value}
    (hv : v.Located H m.store) : Leaves H m (Action.define env name v) fun _ _ => True := by
  cases env with
  | nil => exact leaves_of_ok rfl hm (.refl _) trivial
  | cons id outer =>
    have hkeeps : m.store.KeepsWords (m.store.set id name v) := .set _ _ hname _
    refine leaves_of_ok rfl ⟨?_, fun other name' w hw => ?_, fun other name' w hw => ?_⟩ hkeeps
      trivial
    · exact Nat.lt_of_lt_of_le hm.pos hkeeps.le
    · have hw : (m.store.set id name v).get? other name' = some w := hw
      refine Value.Located.later (.refl H) hkeeps ?_
      rw [Store.get?, Store.scope_set] at hw
      split at hw
      · rename_i hother
        rw [Bindings.get?_insert] at hw
        split at hw
        · exact Option.some.inj hw ▸ hv
        · exact hm.values id name' w hw
      · exact hm.values other name' w hw
    · exact (hm.fields other name' w hw).later (.refl H) hkeeps

/-- A scope is made, with what stands where its environments say. -/
theorem leaves_enter {vars : Bindings Value}
    (hvars : ∀ name v, vars.get? name = some v → v.Located H m.store) (env : Env) :
    Leaves H m (Action.enter vars env) fun store env' => env' = m.store.nextId :: env ∧
      m.store.nextId < store.nextId ∧
      ∀ name, store.get? m.store.nextId name = vars.get? name := by
  have hkeeps : m.store.KeepsWords (m.store.push vars) := .push _ _
  have hnew : ∀ name, (m.store.push vars).get? m.store.nextId name = vars.get? name := by
    intro name
    rw [Store.get?, Store.scope_push, if_pos rfl]
  refine leaves_of_ok rfl ⟨?_, fun id name v hv => ?_, fun id name v hv => ?_⟩ hkeeps
    ⟨rfl, by simp, hnew⟩
  · exact Nat.lt_of_lt_of_le hm.pos hkeeps.le
  · have hv : (m.store.push vars).get? id name = some v := hv
    refine Value.Located.later (.refl H) hkeeps ?_
    by_cases hid : id = m.store.nextId
    · subst hid
      exact hvars name v ((hnew name).symm.trans hv)
    · rw [Store.get?, Store.scope_push, if_neg hid] at hv
      exact hm.values id name v hv
  · exact (hm.fields id name v hv).later (.refl H) hkeeps

/-- A scope without words is made. -/
theorem leaves_enterBody {vars : Bindings Value} (hwords : ∀ word, IsWord word → vars.get? word = none)
    (hvars : ∀ name v, vars.get? name = some v → v.Located H m.store) (env : Env) :
    Leaves H m (Action.enter vars env) fun store env' =>
      ∃ id, env' = id :: env ∧ store.Wordless id := by
  refine (leaves_enter hm hvars env).imp ?_
  rintro env' m' _ ⟨rfl, hlt, hget⟩
  exact ⟨_, rfl, hlt, fun word hword => (hget word).trans (hwords word hword)⟩

theorem leaves_getAt (env : Env) (hops : Int) (name : String) :
    Leaves H m (Action.getAt env hops name) fun store v => v.Located H store := by
  refine leaves_get (leaves_ofAccess hm fun v hv => ?_)
  unfold Store.getAt at hv
  cases hleave : env.leave hops with
  | error f => rw [hleave] at hv; cases hv
  | ok outer =>
    rw [hleave] at hv
    dsimp only [Bind.bind, Except.bind] at hv
    split at hv
    · rename_i value hvalue
      cases hv
      obtain ⟨id, _, hget⟩ := Option.bind_eq_some_iff.mp hvalue
      exact hm.values id name _ hget
    · cases hv

theorem leaves_read (table : BindingTable) (env : Env) (ref : Ref Label) :
    Leaves H m (Action.read table env ref) fun store v => v.Located H store := by
  unfold Action.read
  cases table.hops? ref.label with
  | some hops => exact leaves_getAt hm env hops _
  | none =>
    refine leaves_get ?_
    rw [Store.lookup?_globalEnv]
    split
    · rename_i v hv
      exact leaves_pure hm (hm.values 0 _ v hv)
    · exact leaves_throw hm _

theorem leaves_assign (table : BindingTable) (env : Env) {ref : Ref Label}
    (hname : ref.name.IsName) {v : Value} (hv : v.Located H m.store) :
    Leaves H m (Action.assign table env ref v) fun _ _ => True := by
  unfold Action.assign
  cases table.hops? ref.label with
  | some hops =>
    refine (leaves_ofAccess (P := fun store _ => v.Located H store) hm fun _ _ => hv).bind
      fun outer m' _ hm' _ hv' => ?_
    exact leaves_define hm' hname.not_isWord outer hv'
  | none =>
    refine leaves_get ?_
    split
    · exact leaves_define hm hname.not_isWord _ hv
    · exact leaves_throw hm _

theorem leaves_parent (table : BindingTable) (env : Env) (ref : Ref Label) :
    Leaves H m (Action.parent table env ref) fun store p =>
      p.1.Located H store ∧ p.2.Located H store := by
  unfold Action.parent
  cases table.hops? ref.label with
  | none => exact leaves_throw hm _
  | some hops =>
    refine (leaves_getAt hm env hops "super").bind fun above m₁ _ hm₁ _ habove => ?_
    refine (leaves_getAt hm₁ env (hops - 1) "this").bind fun object m₂ _ hm₂ hkeeps hobject => ?_
    exact leaves_pure hm₂ ⟨habove.later (.refl H) hkeeps, hobject⟩

/-! ## Objects and classes -/

theorem leaves_takeMethod {id : Nat} {c : ClassValue} (hc : c.Located H m.store) {f : Closure}
    {around : Whereabouts Label} {derived : Bool} {env : Env}
    (hf : f.LocatedMethod H m.store around derived env) :
    Leaves H m (Action.takeMethod (.object id c) f) fun store g => g.Located H store := by
  have hvars : ∀ name v, (Bindings.empty.insert "this" (Value.object id c)).get? name = some v →
      v.Located H m.store := by
    intro name v hv
    rw [Bindings.get?_insert] at hv
    split at hv
    · exact Option.some.inj hv ▸ hc
    · cases hv
  refine (leaves_enter hm hvars f.env).bind fun inner m₁ _ hm₁ hkeeps hinner => ?_
  obtain ⟨rfl, _, hget⟩ := hinner
  refine (leaves_freshId hm₁).bind fun n m₂ hn hm₂ _ _ => ?_
  cases hn
  refine leaves_pure hm₂ (.method hf.wellFormed rfl ⟨⟨id, c, ?_⟩, ?_, ?_⟩
    (hf.outer.later (.refl H) hkeeps) hf.sites)
  · exact (hget "this").trans (Bindings.get?_insert_self ..)
  · exact (hget "super").trans (by rw [Bindings.get?_insert, if_neg (by decide)]; rfl)
  · exact hf.inherits.later (.refl H) hkeeps

theorem leaves_property {id : Nat} {c : ClassValue} (hc : c.Located H m.store) (name : Token) :
    Leaves H m (Action.property id c name) fun store v => v.Located H store := by
  refine leaves_get ?_
  split
  · rename_i v hv
    exact leaves_pure hm (hm.fields id _ v hv)
  · split
    · rename_i f hf
      obtain ⟨around, derived, env, hmethod⟩ := hc.method? hf
      exact (leaves_takeMethod hm hc hmethod).bind fun g m' _ hm' _ hg => leaves_pure hm' hg
    · exact leaves_throw hm _

theorem leaves_superMethod (table : BindingTable) (env : Env) (ref : Ref Label) (name : Token) :
    Leaves H m (Action.superMethod (.byHops table) env ref name) fun store v =>
      v.Located H store := by
  refine (leaves_parent hm table env ref).bind ?_
  rintro ⟨above, object⟩ m₁ _ hm₁ _ ⟨habove, hobject⟩
  split
  · rename_i c id d heq
    cases heq
    split
    · rename_i f hf
      obtain ⟨around, derived, env', hmethod⟩ := ClassValue.Located.method? habove hf
      exact (leaves_takeMethod hm₁ hobject hmethod).bind fun g m' _ hm' _ hg => leaves_pure hm' hg
    · exact leaves_throw hm₁ _
  · exact leaves_throw hm₁ _

theorem leaves_makeMethods (env : Env) (methods : List (Function Label)) :
    Leaves H m (makeMethods env methods) fun _ bs => ∀ name f, bs.get? name = some f →
      f.env = env ∧ f.declaration ∈ methods := by
  unfold makeMethods
  refine (leaves_mapM (P := fun _ (p : String × Closure) => p.2.env = env ∧
    p.2.declaration ∈ methods) (fun _ h => h) hm fun earlier f later hl bs m' _ hm' _ => ?_).bind
      fun pairs m' _ hm' _ hpairs => ?_
  · refine (leaves_freshId hm').bind fun n m₂ _ hm₂ _ _ => leaves_pure hm₂ ⟨rfl, ?_⟩
    rw [hl]
    exact List.mem_append_right _ List.mem_cons_self
  · exact leaves_pure hm' fun name f hf => hpairs _ (Bindings.mem_of_get?_ofList hf)

omit hm in
theorem Function.mem_sitesAll {ι : Type} {around : Whereabouts ι} {fs : List (Function ι)}
    {f : Function ι} (hf : f ∈ fs) {site : Site ι} (hsite : site ∈ Function.sites true around f) :
    site ∈ Function.sitesAll around fs := by
  induction fs with
  | nil => cases hf
  | cons g fs ih =>
    rw [Function.sitesAll, List.mem_append]
    rcases List.mem_cons.mp hf with rfl | hf
    · exact .inl hsite
    · exact .inr (ih hf)

theorem leaves_makeClass {around : Whereabouts Label} {env : Env}
    (henv : Mirrors H m.store around env) {name : Token} (hname : name.IsName)
    (parent : Option ClassValue) {methods : List (Function Label)}
    (hwf : ∀ f ∈ methods, f.WellFormed)
    (hsites : ∀ site ∈ Function.sitesAll (.methods parent.isSome :: around) methods,
      H.HasSite site)
    (hparent : ∀ c ∈ parent, c.Located H m.store ∧
      ∀ f ∈ methods, H.Derives m.store.nextId env f c) :
    Leaves H m (makeClass env name parent methods) fun _ _ => True := by
  -- with and without a superclass the same is done, once the scope around the methods is there
  have hrest : ∀ (above : List ClassLevel) (rest : Env) (m₁ : Machine), m₁.Located H →
      m.store.KeepsWords m₁.store →
      (∀ level ∈ above, ∀ name f, level.methods.get? name = some f →
        ∃ around derived env, f.LocatedMethod H m₁.store around derived env) →
      (∀ f ∈ methods, Inherits H m₁.store f env parent.isSome rest) →
      Leaves H m₁ (do
        let methods ← makeMethods rest methods
        let own : ClassLevel := ⟨← Action.freshId, name.lexeme, methods⟩
        Action.define env name.lexeme (.classOf ⟨own, above⟩)) fun _ _ => True := by
    intro above rest m₁ hm₁ hkeeps habove hinherits
    refine (leaves_makeMethods hm₁ rest methods).bind fun bs m₂ _ hm₂ hkeeps' hbs => ?_
    refine (leaves_freshId hm₂).bind fun n m₃ hn hm₃ _ _ => ?_
    cases hn
    refine leaves_define hm₃ hname.not_isWord env fun level hlevel name f hf => ?_
    rcases List.mem_cons.mp hlevel with rfl | hlevel
    · obtain ⟨rfl, hmem⟩ := hbs name f hf
      exact ⟨around, parent.isSome, env, hwf _ hmem,
        (hinherits _ hmem).later (.refl H) hkeeps',
        henv.later (.refl H) (hkeeps.trans hkeeps'),
        fun site hsite => hsites site (Function.mem_sitesAll hmem hsite)⟩
    · obtain ⟨around, derived, env', hmethod⟩ := habove level hlevel name f hf
      exact ⟨around, derived, env', hmethod.wellFormed, hmethod.inherits.later (.refl H) hkeeps',
        hmethod.outer.later (.refl H) hkeeps', hmethod.sites⟩
  unfold makeClass
  cases parent with
  | none => exact hrest [] env m hm (.refl _) (List.forall_mem_nil _) fun _ _ => rfl
  | some c =>
    obtain ⟨hc, hderives⟩ := hparent c rfl
    have hvars : ∀ name v, (Bindings.empty.insert "super" (Value.classOf c)).get? name = some v →
        v.Located H m.store := by
      intro name v hv
      rw [Bindings.get?_insert] at hv
      split at hv
      · exact Option.some.inj hv ▸ hc
      · cases hv
    refine (leaves_enter hm hvars env).bind fun rest m₁ _ hm₁ hkeeps hinner => ?_
    obtain ⟨rfl, _, hget⟩ := hinner
    refine hrest c.lineage _ m₁ hm₁ hkeeps (hc.later (.refl H) hkeeps) fun f hf => ?_
    exact ⟨_, c, rfl, (hget "super").trans (Bindings.get?_insert_self ..), hderives f hf⟩

end

end LoxLang
