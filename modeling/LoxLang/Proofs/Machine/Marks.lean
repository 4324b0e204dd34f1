import LoxLang.Proofs.Machine.Abreast
import LoxLang.Proofs.Syntax.Renaming

/-! # Machines that differ in names of local scopes

A program is run, and next to it the same program with names changed in some local scopes.  Some
scopes of the two machines then have their variables under changed names.  `Marks` says which; all
else is alike in the two: the functions up to names in their bodies, and where everything lies. -/

namespace LoxLang

open Machine

/-- For each scope of the machine whether names change in it. -/
abbrev Marks := List Bool

/-- The scopes of an environment are marked as the scopes around a place of the program. -/
def Marked (marks : Marks) (inside : List Bool) (env : Env) : Prop :=
  ∀ i id, env[i]? = some id → marks[id]? = some (inside.getD i false)

namespace Marked

variable {marks marks' : Marks} {inside : List Bool} {env : Env}

theorem mono (h : Marked marks inside env) (hmarks : marks <+: marks') :
    Marked marks' inside env :=
  fun i id hid => getElem?_of_grown hmarks (h i id hid)

theorem globals (h : marks[0]? = some false) : Marked marks [] globalEnv := by
  intro i id hid
  cases i with
  | zero =>
    obtain rfl : 0 = id := by simpa [globalEnv] using hid
    exact h
  | succ i => simp [globalEnv] at hid

/-- A scope is entered. -/
theorem enter {id : ScopeId} {here : Bool} (h : Marked marks inside env)
    (hid : marks[id]? = some here) : Marked marks (here :: inside) (id :: env) := by
  intro i id' hid'
  cases i with
  | zero =>
    obtain rfl : id = id' := by simpa using hid'
    exact hid
  | succ i => exact h i id' (by simpa using hid')

/-- Scopes are left. -/
theorem drop (h : Marked marks inside env) (n : Nat) :
    Marked marks (inside.drop n) (env.drop n) := by
  intro i id hid
  rw [List.getElem?_drop] at hid
  rw [h (n + i) id hid, List.getD_eq_getElem?_getD, List.getD_eq_getElem?_getD, List.getElem?_drop]

end Marked

/-! ## How the machines are alike -/

section
variable (r : Renaming)

/-- The functions are alike, each in the environment with some more scopes inside it, in which names
change or do not. -/
structure Closure.Renamed (more : List Bool) (marks : Marks) (f f' : Closure) : Prop where
  id : f'.id = f.id
  env : f'.env = f.env
  isInitializer : f'.isInitializer = f.isInitializer
  wellFormed : f.declaration.WellFormed
  declaration : ∃ inside, Marked marks inside f.env ∧
    Function.Renamed r (more ++ inside) f.declaration f'.declaration

/-- The stores have their variables under changed names in the marked scopes.  In the scope of the
global variables no name changes. -/
structure Store.Renamed (alike : Marks → Value → Value → Prop) (marks : Marks)
    (store store' : Store Value) : Prop where
  length : marks.length = store.nextId
  length' : marks.length = store'.nextId
  globals : marks[0]? = some false
  scopes : ∀ id here, marks[id]? = some here →
    (store.scope id).Matches (r.name here) (alike marks) (store'.scope id)

variable {r} {more : List Bool} {marks marks' : Marks} {f f' : Closure}

theorem Closure.Renamed.mono (h : f.Renamed r more marks f') (hmarks : marks <+: marks') :
    f.Renamed r more marks' f' := by
  obtain ⟨inside, hmarked, hdeclaration⟩ := h.declaration
  exact { h with declaration := ⟨inside, hmarked.mono hmarks, hdeclaration⟩ }

theorem Closure.Renamed.looks (h : f.Renamed r more marks f') : f.LooksLike f' := by
  obtain ⟨inside, _, hdeclaration⟩ := h.declaration
  refine ⟨?_, ?_⟩
  · unfold Closure.arity
    generalize f.declaration = g, f'.declaration = g' at hdeclaration
    cases hdeclaration with
    | intro here name params hbody => exact List.length_map _
  · rw [Closure.display, Closure.display, hdeclaration.name_eq]

/-- Machines are alike up to names in the marked scopes.  A method is still to be put in the scope
of `this`, in which no name changes. -/
def Renaming.ofCode (r : Renaming) : Likeness.OfCode Bool where
  function := Closure.Renamed r []
  method := Closure.Renamed r [false]
  store := Store.Renamed r
  id h := h.id
  looks := Closure.Renamed.looks
  arity h := h.looks.arity
  function_mono := Closure.Renamed.mono
  method_mono := Closure.Renamed.mono

@[inherit_doc Renaming.ofCode]
abbrev Renaming.likeness (r : Renaming) : Likeness Marks := r.ofCode.toLikeness

end

/-! ## Scopes -/

section
variable {r : Renaming} {marks : Marks} {inside : List Bool} {env : Env}

/-- A variable of a scope corresponds to that of the same scope under the changed name. -/
theorem Renaming.Lawful.corresponds (hr : r.Lawful) {id : ScopeId} {here : Bool}
    (hid : marks[id]? = some here) (name : String) :
    r.likeness.Corresponds marks id name id (r.name here name) := by
  refine ⟨fun hknown hm =>
    Store.Renamed.scopes hm.store id here (getElem?_of_grown hknown hid) name,
    fun {known m m' v v'} hknown hm hv => ?_⟩
  have hstore : Store.Renamed r (Value.Alike r.likeness) known m.store m'.store := hm.store
  have hid := getElem?_of_grown hknown hid
  refine Likeness.OfCode.withStore hm List.prefix_rfl
    { hstore with length := ?_, length' := ?_, scopes := fun other here' hother => ?_ }
  · rw [Store.nextId_set, hstore.length]
  · rw [Store.nextId_set, hstore.length']
  · have hlt := (List.getElem?_eq_some_iff.mp hid).1
    rw [Store.scope_set, Store.scope_set]
    by_cases heq : other = id
    · subst heq
      obtain rfl : here = here' := Option.some.inj (hid.symm.trans hother)
      rw [if_pos ⟨rfl, hstore.length ▸ hlt⟩, if_pos ⟨rfl, hstore.length' ▸ hlt⟩]
      exact (hstore.scopes other here hid).insert (hr.name_injective here) name hv
    · rw [if_neg fun h => heq h.1, if_neg fun h => heq h.1]
      exact hstore.scopes other here' hother

theorem Renaming.Lawful.globals (hr : r.Lawful) : r.likeness.Globals := by
  intro known m m' hm name
  have hstore : Store.Renamed r (Value.Alike r.likeness) known m.store m'.store := hm.store
  exact hr.corresponds hstore.globals name

/-- A new scope is made, in both machines. -/
theorem agree_enter (here : Bool) {vars vars' : Bindings Value}
    (hvars : vars.Matches (r.name here) (Value.Alike r.likeness marks) vars')
    (henv : Marked marks inside env) :
    Agree r.likeness marks
      (fun marks' env' env'' => env'' = env' ∧ Marked marks' (here :: inside) env')
      (Action.enter vars env) (Action.enter vars' env) := by
  intro known m m' hknown hm
  have hstore : Store.Renamed r (Value.Alike r.likeness) known m.store m'.store := hm.store
  have hid : m'.store.nextId = m.store.nextId := hstore.length'.symm.trans hstore.length
  have hnew : (known ++ [here])[m.store.nextId]? = some here := by
    rw [← hstore.length, List.getElem?_concat_length]
  have hgrows : known <+: known ++ [here] := List.prefix_append known [here]
  refine .ok hgrows (Likeness.OfCode.withStore hm hgrows ⟨?_, ?_, ?_, fun id here' hhere => ?_⟩) ⟨?_, ?_⟩
  · rw [Store.nextId_push, List.length_append, hstore.length]
    rfl
  · rw [Store.nextId_push, List.length_append, hstore.length']
    rfl
  · exact getElem?_of_grown hgrows hstore.globals
  · rw [Store.scope_push, Store.scope_push, hid]
    -- the new scope lies at the same place in both machines, behind all that are marked
    rw [← hstore.length]
    rcases getElem?_concat_cases hhere with ⟨rfl, rfl⟩ | ⟨hne, hhere⟩
    · rw [if_pos rfl, if_pos rfl]
      exact hvars.imp fun _ _ h => h.mono (hknown.trans hgrows)
    · rw [if_neg hne, if_neg hne]
      exact (hstore.scopes id here' hhere).imp fun _ _ h => h.mono hgrows
  · show m'.store.nextId :: env = m.store.nextId :: env
    rw [hid]
  · exact ((henv.mono hknown).mono hgrows).enter hnew

/-- A new scope in which a word has a meaning; no name of it changes. -/
theorem agree_enterWord (word : String) {v v' : Value} (hv : v.Alike r.likeness marks v')
    (henv : Marked marks inside env) :
    Agree r.likeness marks
      (fun marks' env' env'' => env'' = env' ∧ Marked marks' (false :: inside) env')
      (Action.enter (Bindings.empty.insert word v) env)
      (Action.enter (Bindings.empty.insert word v') env) :=
  agree_enter false ((Bindings.matches_empty _ _).insert Function.injective_id word hv) henv

/-- A variable of the innermost scope is made or gets another value. -/
theorem agree_define (hr : r.Lawful) (henv : Marked marks inside env) (name : String)
    {v v' : Value} (hv : v.Alike r.likeness marks v') :
    Agree r.likeness marks (fun _ _ _ => True) (Action.define env name v)
      (Action.define env (r.name (inside.headD false) name) v') := by
  cases env with
  | nil => exact fun _ _ _ _ hm => .ok List.prefix_rfl hm trivial
  | cons id outer =>
    have hid : marks[id]? = some (inside.headD false) := by
      rw [henv 0 id rfl]
      cases inside <;> rfl
    exact agree_defineVariable (hr.corresponds hid name) outer outer hv

/-- The environment that is left after some scopes is marked as what is around them. -/
theorem Marked.leave (henv : Marked marks inside env) (hops : Int) :
    env.leave hops = .error .pastGlobalScope ∨ ∃ id outer, env.leave hops = .ok (id :: outer) ∧
      marks[id]? = some (inside.getD hops.toNat false) := by
  have hdrop : (env.drop hops.toNat)[0]? = env[hops.toNat + 0]? := List.getElem?_drop
  unfold Env.leave
  generalize env.drop hops.toNat = outer at hdrop ⊢
  cases outer with
  | nil => exact .inl rfl
  | cons id outer => exact .inr ⟨id, outer, rfl, henv hops.toNat id hdrop.symm⟩

/-- The value of a variable some scopes out. -/
theorem agree_getAt (hr : r.Lawful) (henv : Marked marks inside env) (hops : Int)
    (name : String) :
    Agree r.likeness marks (Value.Alike r.likeness) (Action.getAt env hops name)
      (Action.getAt env hops (r.name (inside.getD hops.toNat false) name)) := by
  rcases henv.leave hops with herror | ⟨id, outer, hleave, hid⟩
  · refine agree_get fun known m m' _ _ => ?_
    unfold Store.getAt
    rw [herror]
    exact agree_fault .pastGlobalScope
  · exact agree_getVariable (hr.corresponds hid name) hleave hleave

/-! ## References -/

/-- Reading a name, which changes if it is one of a scope where names do. -/
theorem agree_read (hr : r.Lawful) (henv : Marked marks inside env) (ref : Ref Label) :
    Agree r.likeness marks (Value.Alike r.likeness) (Action.read r.table env ref)
      (Action.read r.table env (r.reference inside ref)) := by
  unfold Action.read
  rw [Renaming.label_reference]
  unfold Renaming.reference
  cases r.table.hops? ref.label with
  | some hops => exact agree_getAt hr henv hops ref.name.lexeme
  | none => exact agree_readGlobal hr.globals _ _ ref.name

/-- Assigning to a name, which changes if it is one of a scope where names do. -/
theorem agree_assign (hr : r.Lawful) (henv : Marked marks inside env) (ref : Ref Label)
    {v v' : Value} (hv : v.Alike r.likeness marks v') :
    Agree r.likeness marks (fun _ _ _ => True) (Action.assign r.table env ref v)
      (Action.assign r.table env (r.reference inside ref) v') := by
  unfold Action.assign
  rw [Renaming.label_reference]
  unfold Renaming.reference
  cases r.table.hops? ref.label with
  | some hops =>
    rcases henv.leave hops with herror | ⟨id, outer, hleave, hid⟩
    · dsimp only
      rw [herror]
      exact agree_fault .pastGlobalScope
    · dsimp only
      rw [hleave]
      exact agree_defineVariable (hr.corresponds hid ref.name.lexeme) outer outer hv
  | none => exact agree_assignGlobal hr.globals _ _ ref.name hv

/-- What `super` and `this` are; neither word changes. -/
theorem agree_parent (hr : r.Lawful) (henv : Marked marks inside env) (ref : Ref Label) :
    Agree r.likeness marks
      (fun marks' p p' => p.1.Alike r.likeness marks' p'.1 ∧ p.2.Alike r.likeness marks' p'.2)
      (Action.parent r.table env ref) (Action.parent r.table env ref) := by
  unfold Action.parent
  cases r.table.hops? ref.label with
  | none => exact agree_fault .unboundSuper
  | some hops =>
    have hsuper := agree_getAt hr henv hops "super"
    rw [hr.name_super] at hsuper
    refine hsuper.bind fun marks₁ above above' hmarks habove => ?_
    have hthis := agree_getAt hr (henv.mono hmarks) (hops - 1) "this"
    rw [hr.name_this] at hthis
    refine hthis.bind fun marks₂ object object' hmarks' hobject => ?_
    exact agree_pure fun _ hmarks'' =>
      ⟨(habove.mono hmarks').mono hmarks'', hobject.mono hmarks''⟩

/-! ## Functions and classes -/

/-- The scope of `this` that a method was still to be put in is entered. -/
theorem takes_likeness (r : Renaming) : r.likeness.Takes := by
  intro marks v v' f f' hv hf
  have hf : f.Renamed r [false] marks f' := hf
  obtain ⟨inside, hmarked, hdeclaration⟩ := hf.declaration
  unfold Action.takeMethod
  rw [hf.env]
  refine (agree_enterWord "this" hv hmarked).bind ?_
  rintro marks' env _ hmarks ⟨rfl, henv⟩
  refine agree_freshId.bind ?_
  rintro marks₂ _ id hmarks' rfl
  exact agree_pure fun _ hmarks'' => ⟨rfl, rfl, hf.isInitializer, hf.wellFormed, false :: inside,
    (henv.mono hmarks').mono hmarks'', hdeclaration⟩

/-- A method that sets up objects yields the object, in whose scope no name changes. -/
theorem agree_thisOf (hr : r.Lawful) {f f' : Closure} (hf : f.Renamed r [] marks f') :
    Agree r.likeness marks (Value.Alike r.likeness) (Action.getAt f.env 0 "this")
      (Action.getAt f'.env 0 "this") := by
  obtain ⟨inside, hmarked, _⟩ := hf.declaration
  have hthis := agree_getAt hr hmarked 0 "this"
  rw [hf.env]
  rwa [hr.name_this] at hthis

theorem Stmt.RenamedAll.forall₂ {inside : List Bool} {ss ss' : List (Stmt Label)}
    (h : Stmt.RenamedAll r inside ss ss') (hss : ∀ s ∈ ss, s.WellFormed) :
    List.Forall₂ (fun s s' => s.WellFormed ∧ Stmt.Renamed r inside s s') ss ss' := by
  induction ss generalizing ss' with
  | nil =>
    cases h
    exact .nil
  | cons s ss ih =>
    obtain ⟨hs, hss⟩ := List.forall_mem_cons.mp hss
    cases h with
    | cons hrenamed hrest => exact .cons ⟨hs, hrenamed⟩ (ih hrest hss)

theorem Function.RenamedAll.forall₂ {inside : List Bool} {ms ms' : List (Function Label)}
    (h : Function.RenamedAll r inside ms ms') (hms : ∀ m ∈ ms, m.WellFormed) :
    List.Forall₂ (fun m m' => m.WellFormed ∧ Function.Renamed r inside m m') ms ms' := by
  induction ms generalizing ms' with
  | nil =>
    cases h
    exact .nil
  | cons m ms ih =>
    obtain ⟨hm, hms⟩ := List.forall_mem_cons.mp hms
    cases h with
    | cons hrenamed hrest => exact .cons ⟨hm, hrenamed⟩ (ih hrest hms)

/-- A class and the variable that holds it; its name does not change. -/
theorem agree_makeClass (hr : r.Lawful) (henv : Marked marks inside env) {name : Token}
    (hname : r.Keeps inside name) {parent parent' : Option ClassValue}
    (hparent : Option.Rel (ClassValue.Alike r.likeness marks) parent parent')
    {ms ms' : List (Function Label)} (hwf : ∀ m ∈ ms, m.WellFormed)
    (hms : Function.RenamedAll r (false :: if parent.isSome then false :: inside else inside)
      ms ms') :
    Agree r.likeness marks (fun _ _ _ => True) (makeClass env name parent ms)
      (makeClass env name parent' ms') := by
  have hmethods : ∀ {marks' methodEnv within}, Marked marks' within methodEnv →
      Function.RenamedAll r (false :: within) ms ms' →
      List.Forall₂ (r.likeness.MethodsIn marks' methodEnv methodEnv) ms ms' := by
    intro marks' methodEnv within hmarked hms
    refine (hms.forall₂ hwf).imp fun f f' hf => ⟨hf.2.name_eq ▸ rfl, ?_⟩
    rintro marks'' id _ hmarks rfl
    have hinitializer : f'.isInitializer = f.isInitializer := by
      unfold FunctionOf.isInitializer
      rw [hf.2.name_eq]
    exact ⟨rfl, rfl, hinitializer, hf.1, within, hmarked.mono hmarks, hf.2⟩
  have hdefine : ∀ marks' v v', marks <+: marks' → v.Alike r.likeness marks' v' →
      Agree r.likeness marks' (fun _ _ _ => True) (Action.define env name.lexeme v)
        (Action.define env name.lexeme v') := by
    intro marks' v v' hmarks hv
    have hdefine := agree_define hr (henv.mono hmarks) name.lexeme hv
    rwa [hname] at hdefine
  unfold makeClass
  cases hparent with
  | none => exact agree_defineClass .nil (hmethods henv hms) hdefine
  | some hc =>
    refine (agree_enterWord "super" (.classOf hc) henv).bind ?_
    rintro marks' _ methodEnv hmarks ⟨rfl, hmethodEnv⟩
    exact agree_defineClass (hc.mono hmarks).lineage (hmethods hmethodEnv hms)
      fun marks'' v v' hmarks' => hdefine marks'' v v' (hmarks.trans hmarks')

end

end LoxLang
