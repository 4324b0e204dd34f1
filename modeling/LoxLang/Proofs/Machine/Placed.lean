import LoxLang.Proofs.Machine.Leaves
import LoxLang.Proofs.Machine.Parts

/-! # Tasks stand where their environments say

A task that is begun while a program runs is at a place of the program that its environment mirrors,
and what it calls was made at such a place.  If this holds of a task, it holds of all tasks that it
begins (`Starts.located`), provided that these leave functions and words as they should; and then the
task leaves them so itself (`Task.leaves_of_started`).  By induction on the levels of nesting that are
left, all tasks do (`Task.leaves`). -/

namespace LoxLang

open Machine

variable {H : Chronicle} {S : Setting} {m m' : Machine}

/-! ## Tasks -/

/-- A task is at a place of a program that its environment mirrors. -/
def Task.Located (H : Chronicle) (store : Store Value) : Task → Prop
  | .evaluate _ env e =>
    ∃ around, Mirrors H store around env ∧ e.WellFormed ∧ ∀ site ∈ e.sites around, H.HasSite site
  | .call _ callee values => callee.Located H store ∧ ∀ v ∈ values, v.Located H store
  | .invoke _ f values => f.Located H store ∧ ∀ v ∈ values, v.Located H store
  | .execute _ env s =>
    ∃ around, Mirrors H store around env ∧ s.WellFormed ∧ ∀ site ∈ s.sites around, H.HasSite site

/-- A task leaves functions where they stand and words with their meaning. -/
def Task.Leaves (H : Chronicle) (S : Setting) (m : Machine) : Task → Prop
  | .evaluate depth env e =>
    LoxLang.Leaves H m (Machine.evaluate S depth env e) fun store v => v.Located H store
  | .call depth callee values =>
    LoxLang.Leaves H m (Machine.call S depth callee values) fun store v => v.Located H store
  | .invoke depth f values =>
    LoxLang.Leaves H m (Machine.invoke S depth f values) fun store v => v.Located H store
  | .execute depth env s =>
    LoxLang.Leaves H m (Machine.execute S depth env s) (Completion.Located H)

/-- The tasks that a task begins leave functions and words as they should, if they are begun as
they should. -/
def Task.StartedLeave (H : Chronicle) (S : Setting) (t : Task) (m : Machine) : Prop :=
  ∀ u n, Starts S (t, m) (u, n) → n.Located H → u.Located H n.store → u.Leaves H S n

/-! ## Parts of code -/

section
variable {ι : Type}

theorem Expr.WellFormed.operand {e part : Expr ι} (h : e.WellFormed) (hpart : part ∈ e.operands) :
    part.WellFormed := by
  cases h with
  | literal | nameRef | thisRef | superRef => cases hpart
  | assign _ h | unary h | group h | get h => exact List.mem_singleton.mp hpart ▸ h
  | binary h h' | logical h h' | set h h' =>
    rcases List.mem_pair.mp hpart with rfl | rfl
    · exact h
    · exact h'
  | call h h' =>
    rcases List.mem_cons.mp hpart with rfl | hpart
    · exact h
    · exact h' part hpart

theorem Expr.sites_operand {e part : Expr ι} (hpart : part ∈ e.operands) {around : Whereabouts ι}
    {site : Site ι} (hsite : site ∈ part.sites around) : site ∈ e.sites around := by
  refine List.map_subset _ (fun r hr => ?_) hsite
  cases e with
  | literal | nameRef | thisRef | superRef | unknown => cases hpart
  | assign ref value | unary op value | group value | get value name =>
    obtain rfl := List.mem_singleton.mp hpart
    simp [Expr.references, hr]
  | binary left op right | logical left op right | set left name right =>
    rcases List.mem_pair.mp hpart with rfl | rfl <;> simp [Expr.references, hr]
  | call callee paren arguments =>
    rw [Expr.references, Expr.referencesAll_eq, List.mem_append, List.mem_flatMap]
    rcases List.mem_cons.mp hpart with rfl | hpart
    · exact .inl hr
    · exact .inr ⟨part, hpart, hr⟩

/-- Before a part of an expression that is evaluated, those before it are. -/
theorem Expr.goesOn_before {e part : Expr ι} {earlier later : List (Expr ι)} {values : List Value}
    (hparts : e.operands = earlier ++ part :: later) (hlength : values.length < earlier.length) :
    e.GoesOn values := by
  have hcount := congrArg List.length hparts
  cases e with
  | logical left op right | set left op right =>
    rw [Expr.operands, List.length_append] at hcount
    simp only [List.length_cons, List.length_nil] at hcount
    obtain rfl : values = [] := List.length_eq_zero_iff.mp (by omega)
    trivial
  | _ => trivial

theorem Stmt.mem_sitesAll {owner : BodyOf ι} {around : Whereabouts ι} {before earlier later : List (Stmt ι)}
    {s : Stmt ι} {site : Site ι}
    (hsite : site ∈ s.sites (.body owner (before ++ earlier) s :: around)) :
    site ∈ Stmt.sitesAll owner around before (earlier ++ s :: later) := by
  induction earlier generalizing before with
  | nil =>
    rw [List.append_nil] at hsite
    exact List.mem_append_left _ hsite
  | cons first earlier ih =>
    refine List.mem_append_right _ (ih ?_)
    rwa [List.append_assoc]

theorem Stmt.sitesAll_prefix {owner : BodyOf ι} {around : Whereabouts ι}
    {before earlier later : List (Stmt ι)} {site : Site ι}
    (hsite : site ∈ Stmt.sitesAll owner around before earlier) :
    site ∈ Stmt.sitesAll owner around before (earlier ++ later) := by
  induction earlier generalizing before with
  | nil => cases hsite
  | cons first earlier ih =>
    rw [Stmt.sitesAll, List.mem_append] at hsite
    rw [List.cons_append, Stmt.sitesAll, List.mem_append]
    exact hsite.imp_right ih

theorem Stmt.WellFormed.first? {s : Stmt ι} (h : s.WellFormed) {e : Expr ι}
    (hfirst : s.first? = some e) : e.WellFormed := by
  cases h with
  | expression h | print h | ifThen h | ifElse h => exact Option.some.inj hfirst ▸ h
  | @var name initial _ hinitial =>
    cases initial with
    | none => cases hfirst
    | some value => cases hfirst; exact hinitial _ rfl
  | @returnFrom keyword value hvalue =>
    cases value with
    | none => cases hfirst
    | some value => cases hfirst; exact hvalue _ rfl
  | @classOf name superclass methods _ hsuperclass =>
    cases superclass with
    | none => cases hfirst
    | some parent => exact Option.some.inj hfirst ▸ .nameRef (hsuperclass parent rfl)
  | _ => cases hfirst

theorem Stmt.WellFormed.branch? {s taken : Stmt ι} (h : s.WellFormed) {truth : Bool}
    (hbranch : s.branch? truth = some taken) : taken.WellFormed := by
  cases h with
  | ifThen _ h => cases truth <;> cases hbranch; exact h
  | ifElse _ h _ h' => cases truth <;> cases hbranch <;> assumption
  | _ => cases hbranch

theorem Stmt.sites_branch? {s taken : Stmt ι} {truth : Bool}
    (hbranch : s.branch? truth = some taken) {around : Whereabouts ι} {site : Site ι}
    (hsite : site ∈ taken.sites around) : site ∈ s.sites around := by
  cases s with
  | ifThen => cases truth <;> cases hbranch; simp [Stmt.sites, hsite]
  | ifElse => cases truth <;> cases hbranch <;> simp [Stmt.sites, hsite]
  | _ => cases hbranch

end

/-- What is evaluated first when a statement is executed is at a place that the environment
mirrors. -/
theorem Task.Located.first {depth depth' : Nat} {env : Env} {s : Stmt Label} {e : Expr Label}
    {store : Store Value} (h : (Task.execute depth env s).Located H store)
    (hfirst : s.first? = some e) : (Task.evaluate depth' env e).Located H store := by
  obtain ⟨around, hmirrors, hwf, hsites⟩ := h
  have he := hwf.first? hfirst
  cases s with
  | expression value | print value => cases hfirst; exact ⟨around, hmirrors, he, hsites⟩
  | var name initial =>
    cases initial with
    | none => cases hfirst
    | some value =>
      cases hfirst
      exact ⟨.initializer name :: around, .initializer hmirrors, he,
        fun site h => hsites site (List.mem_cons_of_mem _ h)⟩
  | ifThen condition body | ifElse condition body other =>
    cases hfirst
    exact ⟨around, hmirrors, he, fun site h => hsites site (by simp [Stmt.sites, h])⟩
  | returnFrom keyword value =>
    cases value with
    | none => cases hfirst
    | some value =>
      cases hfirst
      exact ⟨around, hmirrors, he, fun site h => hsites site (List.mem_cons_of_mem _ h)⟩
  | classOf name superclass methods =>
    cases superclass with
    | none => cases hfirst
    | some parent =>
      cases hfirst
      refine ⟨around, hmirrors, he, fun site h => hsites site ?_⟩
      obtain rfl := List.mem_singleton.mp h
      simp [Stmt.sites]
  | _ => cases hfirst

theorem Task.Located.operand {depth depth' : Nat} {env : Env} {e part : Expr Label}
    {store : Store Value} (h : (Task.evaluate depth env e).Located H store)
    (hpart : part ∈ e.operands) : (Task.evaluate depth' env part).Located H store := by
  obtain ⟨around, hmirrors, hwf, hsites⟩ := h
  exact ⟨around, hmirrors, hwf.operand hpart,
    fun site h => hsites site (Expr.sites_operand hpart h)⟩

theorem Task.Located.later {t : Task} {store store' : Store Value} (h : t.Located H store)
    (hstore : store.KeepsWords store') : t.Located H store' := by
  cases t with
  | evaluate depth env e | execute depth env e =>
    obtain ⟨around, hmirrors, hrest⟩ := h
    exact ⟨around, hmirrors.later (.refl H) hstore, hrest⟩
  | call depth callee values =>
    exact ⟨h.1.later (.refl H) hstore, fun v hv => (h.2 v hv).later (.refl H) hstore⟩
  | invoke depth f values =>
    exact ⟨h.1.later (.refl H) hstore, fun v hv => (h.2 v hv).later (.refl H) hstore⟩

/-! ## What is done before a task is begun -/

section
variable {t : Task} (hsub : t.StartedLeave H S m) {depth : Nat} {env : Env}
include hsub

/-- Parts of an expression, each of which the task begins after those before it. -/
theorem leaves_operands {n : Machine} {es : List (Expr Label)}
    (hstarts : ∀ earlier e later, es = earlier ++ e :: later → ∀ vs n',
      earlier.mapM (evaluate S depth env) n = .ok vs n' →
      Starts S (t, m) (.evaluate depth env e, n'))
    (hes : ∀ e ∈ es, (Task.evaluate depth env e).Located H n.store) (hn : n.Located H) :
    Leaves H n (es.mapM (evaluate S depth env)) fun store vs => ∀ v ∈ vs, v.Located H store := by
  refine leaves_mapM (P := fun store (v : Value) => v.Located H store) (fun hkeeps hv =>
    hv.later (.refl H) hkeeps) hn fun earlier e later hl vs n' hvs hn' hkeeps => ?_
  refine hsub _ _ (hstarts earlier e later hl vs n' hvs) hn' ((hes e ?_).later hkeeps)
  rw [hl]
  exact List.mem_append_right _ List.mem_cons_self

/-- Statements of a body, each of which the task begins after those before it. -/
theorem leaves_statements {n : Machine} {owner : BodyOf Label} {outer : Whereabouts Label}
    {ss : List (Stmt Label)}
    (hstarts : ∀ earlier s later, ss = earlier ++ s :: later → ∀ n',
      runAll (execute S depth env) earlier n = .ok .normal n' →
      Starts S (t, m) (.execute depth env s, n'))
    (henv : ∀ earlier s, Mirrors H n.store (.body owner earlier s :: outer) env)
    (hwf : ∀ s ∈ ss, s.WellFormed)
    (hsites : ∀ site ∈ Stmt.sitesAll owner outer [] ss, H.HasSite site) (hn : n.Located H) :
    Leaves H n (runAll (execute S depth env) ss) (Completion.Located H) := by
  refine leaves_runAll hn fun earlier s later hl n' hran hn' hkeeps => ?_
  subst hl
  refine hsub _ _ (hstarts earlier s later rfl n' hran) hn' ⟨_, (henv earlier s).later (.refl H)
    hkeeps, hwf s (List.mem_append_right _ List.mem_cons_self), fun site h => hsites site ?_⟩
  exact Stmt.mem_sitesAll h

/-- After some statements of a body, the next one is begun as it should be. -/
theorem located_next {n : Machine} {owner : BodyOf Label} {outer : Whereabouts Label}
    {ss earlier later : List (Stmt Label)} {s : Stmt Label} (hss : ss = earlier ++ s :: later)
    (hstarts : ∀ earlier s later, ss = earlier ++ s :: later → ∀ n',
      runAll (execute S depth env) earlier n = .ok .normal n' →
      Starts S (t, m) (.execute depth env s, n'))
    (henv : ∀ earlier s, Mirrors H n.store (.body owner earlier s :: outer) env)
    (hwf : ∀ s ∈ ss, s.WellFormed)
    (hsites : ∀ site ∈ Stmt.sitesAll owner outer [] ss, H.HasSite site) (hn : n.Located H)
    (hran : runAll (execute S depth env) earlier n = .ok .normal m') :
    m'.Located H ∧ n.store.KeepsWords m'.store ∧
      (Task.execute depth env s).Located H m'.store := by
  subst hss
  have hleaves : Leaves H n (runAll (execute S depth env) earlier) (Completion.Located H) :=
    leaves_statements hsub (fun before u after hl n' => hstarts before u (after ++ s :: later)
      (by rw [hl, List.append_assoc]; rfl) n') henv
    (fun u hu => hwf u (List.mem_append_left _ hu))
    (fun site h => hsites site (Stmt.sitesAll_prefix h)) hn
  obtain ⟨hm', hkeeps, _⟩ := hleaves.of_ok hran
  exact ⟨hm', hkeeps, _, (henv earlier s).later (.refl H) hkeeps,
    hwf s (List.mem_append_right _ List.mem_cons_self),
    fun site h => hsites site (Stmt.mem_sitesAll h)⟩

end

/-- The parts of an expression before one that is evaluated. -/
theorem leaves_earlier {depth : Nat} {env : Env} {e part : Expr Label}
    {earlier later : List (Expr Label)} (hsub : (Task.evaluate (depth + 1) env e).StartedLeave H S m)
    (hparts : e.operands = earlier ++ part :: later) (hm : m.Located H)
    (ht : (Task.evaluate (depth + 1) env e).Located H m.store) :
    Leaves H m (earlier.mapM (evaluate S depth env)) fun store vs =>
      ∀ v ∈ vs, v.Located H store := by
  refine leaves_operands hsub (fun before x after hl vs n hvs => ?_)
    (fun x hx => ht.operand (by rw [hparts]; exact List.mem_append_left _ hx)) hm
  have hparts' : e.operands = before ++ x :: (after ++ part :: later) := by
    rw [hparts, hl, List.append_assoc]
    rfl
  refine .operand hparts' hvs (Expr.goesOn_before hparts ?_)
  rw [EStateM.length_mapM hvs, hl, List.length_append, List.length_cons]
  omega

/-- However often a loop has gone round, functions and words are as they should be. -/
theorem located_turns {depth : Nat} {env : Env} {condition : Expr Label} {body : Stmt Label}
    (hsub : (Task.execute (depth + 1) env (.whileLoop condition body)).StartedLeave H S m)
    (hm : m.Located H)
    (hcondition : (Task.evaluate depth env condition).Located H m.store)
    (hbody : (Task.execute depth env body).Located H m.store) {last : Nat × Machine}
    (hturns : Relation.ReflTransGen (Turn S depth env condition body) (S.rounds, m) last) :
    last.2.Located H ∧ m.store.KeepsWords last.2.store := by
  induction hturns with
  | refl => exact ⟨hm, .refl _⟩
  | @tail now next hturns hturn ih =>
    obtain ⟨rounds, n⟩ := now
    obtain ⟨v, m₁, rfl, hv, htrue, hc⟩ := hturn
    obtain ⟨hn, hkeeps⟩ := ih
    obtain ⟨hm₁, hkeeps₁, _⟩ :=
      Leaves.of_ok (hsub _ _ (.condition hturns) hn (hcondition.later hkeeps)) hv
    obtain ⟨hm₂, hkeeps₂, _⟩ := Leaves.of_ok (hsub _ _ (.turn hturns hv htrue) hm₁
      (hbody.later (hkeeps.trans hkeeps₁))) hc
    exact ⟨hm₂, (hkeeps.trans hkeeps₁).trans hkeeps₂⟩

/-! ## What a task begins -/

theorem mem_of_matchArguments {params : List Token} {arguments : List Value}
    {vars : List (String × Value)} (h : matchArguments params arguments = .ok vars) :
    ∀ p ∈ vars, p.1 ∈ params.map Token.lexeme ∧ p.2 ∈ arguments := by
  induction params generalizing arguments vars with
  | nil =>
    cases h
    exact List.forall_mem_nil _
  | cons param params ih =>
    cases arguments with
    | nil => cases h
    | cons a arguments =>
      rw [matchArguments] at h
      cases hrest : matchArguments params arguments with
      | error f => rw [hrest] at h; cases h
      | ok rest =>
        rw [hrest] at h
        cases h
        refine List.forall_mem_cons.mpr ⟨⟨List.mem_cons_self, List.mem_cons_self⟩, fun p hp => ?_⟩
        obtain ⟨hname, hvalue⟩ := ih hrest p hp
        exact ⟨List.mem_cons_of_mem _ hname, List.mem_cons_of_mem _ hvalue⟩

/-- The scope for the parameters of a function, in which no word has a meaning. -/
theorem leaves_enterParameters (hm : m.Located H) {f : Closure} (hf : f.declaration.WellFormed)
    {values : List Value} (hvalues : ∀ v ∈ values, v.Located H m.store)
    {vars : List (String × Value)} (hvars : matchArguments f.declaration.params values = .ok vars) :
    Leaves H m (Action.enter (Bindings.ofList vars) f.env) fun store env =>
      ∃ id, env = id :: f.env ∧ store.Wordless id := by
  have hmem := mem_of_matchArguments hvars
  refine leaves_enterBody hm (fun word hword => ?_) (fun name v hv =>
    hvalues v (hmem _ (Bindings.mem_of_get?_ofList hv)).2) f.env
  cases hv : (Bindings.ofList vars).get? word with
  | none => rfl
  | some v =>
    obtain ⟨p, hp, heq⟩ := List.mem_map.mp (hmem _ (Bindings.mem_of_get?_ofList hv)).1
    exact absurd (heq ▸ hword) (hf.params p hp).not_isWord

theorem Function.mem_sites {ι : Type} {f : Function ι} {isMethod : Bool} {around : Whereabouts ι}
    {site : Site ι} (h : site ∈ Stmt.sitesAll (.function f isMethod) around [] f.body) :
    site ∈ Function.sites isMethod around f := by
  obtain ⟨name, params, body⟩ := f
  exact List.mem_append_right _ h

/-- The body of a function that is called stands where its environment says. -/
theorem Closure.Located.body {f : Closure} {store store' : Store Value} (h : f.Located H store)
    (hstore : store.KeepsWords store') {id : ScopeId} (hid : store'.Wordless id) :
    ∃ isMethod outer, (∀ earlier s, Mirrors H store'
        (.body (.function f.declaration isMethod) earlier s :: outer) (id :: f.env)) ∧
      f.declaration.WellFormed ∧
      ∀ site ∈ Stmt.sitesAll (.function f.declaration isMethod) outer [] f.declaration.body,
        H.HasSite site := by
  cases h with
  | @function around hwf henv hsites _ =>
    exact ⟨false, around, fun _ _ => .body hid (fun _ h => nomatch h)
      (henv.later (.refl H) hstore), hwf, fun site h => hsites site (Function.mem_sites h)⟩
  | @method around derived t rest env hwf henv hthis houter hsites =>
    refine ⟨true, .methods derived :: around, fun _ _ => ?_, hwf,
      fun site h => hsites site (Function.mem_sites h)⟩
    rw [henv]
    exact .method hid (hthis.later (.refl H) hstore) (houter.later (.refl H) hstore)

/-- **A task at its place begins tasks at their places**, if those begun before leave functions and
words as they should. -/
theorem Starts.located {t u : Task} (h : Starts S (t, m) (u, m')) (hsub : t.StartedLeave H S m)
    (hm : m.Located H) (ht : t.Located H m.store) :
    m'.Located H ∧ m.store.KeepsWords m'.store ∧ u.Located H m'.store := by
  cases h with
  | operand hparts hvalues _ =>
    obtain ⟨hm', hkeeps, _⟩ := (leaves_earlier hsub hparts hm ht).of_ok hvalues
    refine ⟨hm', hkeeps, (ht.operand ?_).later hkeeps⟩
    rw [hparts]
    exact List.mem_append_right _ List.mem_cons_self
  | @call depth env callee paren arguments v called values _ m₁ _ hcallee hvalues hcalled _ =>
    have hfirst : Starts S (.evaluate (depth + 1) env (.call callee paren arguments), m)
        (.evaluate depth env callee, m) :=
      .operand (show _ = [] ++ callee :: arguments from rfl) rfl trivial
    -- the callee and each argument are begun by the call, which is why `hsub` speaks of them
    obtain ⟨hm₁, hkeeps, hv⟩ :=
      Leaves.of_ok (hsub _ _ hfirst hm (ht.operand List.mem_cons_self)) hcallee
    have hleaves : Leaves H m₁ (arguments.mapM (evaluate S depth env)) fun store vs =>
        ∀ v ∈ vs, v.Located H store := leaves_operands hsub
      (fun before x after hl vs n' hvs => by
        have hbefore : (callee :: before).mapM (evaluate S depth env) m = .ok (v :: vs) n' := by
          rw [List.mapM_cons, EStateM.bind_ok hcallee, EStateM.bind_ok hvs]
          rfl
        have hparts : (Expr.call callee paren arguments).operands =
            (callee :: before) ++ x :: after := congrArg (callee :: ·) hl
        exact .operand hparts hbefore trivial)
      (fun x hx => (ht.operand (List.mem_cons_of_mem _ hx)).later hkeeps) hm₁
    obtain ⟨hm', hkeeps', hvs⟩ := hleaves.of_ok hvalues
    exact ⟨hm', hkeeps.trans hkeeps', (hv.later (.refl H) hkeeps').callee? hcalled, hvs⟩
  | function => exact ⟨hm, .refl _, ht⟩
  | initializer hobject hmethod htake =>
    obtain ⟨hcallee, hvalues⟩ := ht
    obtain ⟨hm₁, hkeeps, hc, id, rfl⟩ := (leaves_newObject hm hcallee).of_ok hobject
    obtain ⟨around, derived, env, hlocated⟩ := hc.method? hmethod
    obtain ⟨hm', hkeeps', hf⟩ := (leaves_takeMethod hm₁ hc hlocated).of_ok htake
    have hkeeps := hkeeps.trans hkeeps'
    exact ⟨hm', hkeeps, hf, fun v hv => (hvalues v hv).later (.refl H) hkeeps⟩
  | @body depth f values vars env earlier later s _ m₁ _ hvars henter hbody hearlier =>
    obtain ⟨hf, hvalues⟩ := ht
    have hwf : f.declaration.WellFormed := by cases hf <;> assumption
    -- the body stands in the scope of the parameters, inside the place of the declaration
    obtain ⟨hm₁, hkeeps, id, rfl, hid⟩ :=
      (leaves_enterParameters hm hwf hvalues hvars).of_ok henter
    obtain ⟨isMethod, outer, hmirrors, _, hsites⟩ := hf.body hkeeps hid
    obtain ⟨hm', hkeeps', hs⟩ := located_next hsub hbody
      (fun _ _ _ hl _ hran => .body hvars henter hl hran) hmirrors hwf.body hsites hm₁ hearlier
    exact ⟨hm', hkeeps.trans hkeeps', hs⟩
  | first hfirst => exact ⟨hm, .refl _, ht.first hfirst⟩
  | @branch depth env s taken condition v _ _ hfirst hcondition hbranch =>
    obtain ⟨hm', hkeeps, _⟩ :=
      Leaves.of_ok (hsub _ _ (.first hfirst) hm (ht.first hfirst)) hcondition
    obtain ⟨around, hmirrors, hwf, hsites⟩ := ht
    exact ⟨hm', hkeeps, around, hmirrors.later (.refl H) hkeeps, hwf.branch? hbranch,
      fun site h => hsites site (Stmt.sites_branch? hbranch h)⟩
  | @block depth env inner earlier later s _ m₁ _ henter hearlier =>
    obtain ⟨around, hmirrors, hwf, hsites⟩ := ht
    cases hwf with
    | block hbody =>
      obtain ⟨hm₁, hkeeps, id, rfl, hid⟩ :=
        (leaves_enterBody hm (fun _ _ => rfl) (fun _ _ h => by simp at h) env).of_ok henter
      have henv : ∀ before u, Mirrors H m₁.store (.body .block before u :: around) (id :: env) :=
        fun _ _ => .body hid (fun _ h => nomatch h) (hmirrors.later (.refl H) hkeeps)
      obtain ⟨hm', hkeeps', hs⟩ := located_next hsub rfl
        (fun before u after hl _ hran => by rw [hl]; exact .block henter hran) henv hbody hsites hm₁
        hearlier
      exact ⟨hm', hkeeps.trans hkeeps', hs⟩
  | @condition depth env condition body _ _ _ hturns =>
    obtain ⟨around, hmirrors, hwf, hsites⟩ := ht
    cases hwf with
    | whileLoop hcondition hbody _ =>
      -- however many turns the loop has taken, its parts stand at the places they stood at first
      have hsite : (Task.evaluate depth env condition).Located H m.store :=
        ⟨around, hmirrors, hcondition, fun site h => hsites site (List.mem_append_left _ h)⟩
      obtain ⟨hm', hkeeps⟩ := located_turns hsub hm hsite
        ⟨around, hmirrors, hbody, fun site h => hsites site (List.mem_append_right _ h)⟩ hturns
      exact ⟨hm', hkeeps, hsite.later hkeeps⟩
  | @turn depth env condition body v _ m₁ _ _ hturns hcondition htrue =>
    obtain ⟨around, hmirrors, hwf, hsites⟩ := ht
    cases hwf with
    | whileLoop hwfc hwfb _ =>
      have hc : (Task.evaluate depth env condition).Located H m.store :=
        ⟨around, hmirrors, hwfc, fun site h => hsites site (List.mem_append_left _ h)⟩
      have hb : (Task.execute depth env body).Located H m.store :=
        ⟨around, hmirrors, hwfb, fun site h => hsites site (List.mem_append_right _ h)⟩
      obtain ⟨hm₁, hkeeps⟩ := located_turns hsub hm hc hb hturns
      obtain ⟨hm', hkeeps', _⟩ :=
        Leaves.of_ok (hsub _ _ (.condition hturns) hm₁ (hc.later hkeeps)) hcondition
      have hkeeps := hkeeps.trans hkeeps'
      exact ⟨hm', hkeeps, hb.later hkeeps⟩

/-! ## What a task leaves -/

/-- It is known of a class statement that makes a class with a superclass. -/
def Task.Known (H : Chronicle) (S : Setting) (m : Machine) (t : Task) : Prop :=
  ∀ {depth env name parent methods c m₁}, t = .execute (depth + 1) env
      (.classOf name (some parent) methods) →
    Machine.evaluate S depth env (.nameRef parent) m = .ok (.classOf c) m₁ →
    ∀ f ∈ methods, H.Derives m₁.store.nextId env f c

theorem leaves_resultOf (hm : m.Located H) (f : Closure) {c : Completion}
    (hc : c.Located H m.store) :
    Leaves H m (resultOf f c) fun store v => v.Located H store := by
  unfold resultOf
  split
  · exact leaves_getAt hm f.env 0 "this"
  · cases c with
    | normal => exact leaves_pure hm trivial
    | returned v => exact leaves_pure hm hc

section
variable {table : BindingTable} (hS : S.access = .byHops table) {depth : Nat} {env : Env}

/-- An expression that ends early yields the value of a part, if it yields one. -/
theorem Expr.leaves_early {e : Expr Label} {values : List Value} {x : Action Value}
    (hx : e.early? values = some x) (hm : m.Located H)
    (hvalues : ∀ v ∈ values, v.Located H m.store) :
    Leaves H m x fun store v => v.Located H store := by
  unfold Expr.early? at hx
  split at hx
  · rename_i left
    split at hx
    · cases hx
      exact leaves_pure hm (hvalues left List.mem_cons_self)
    · cases hx
  · split at hx
    · cases hx
    · cases hx
      exact leaves_throw hm _
  · cases hx

include hS in
/-- With the values of all parts, an expression is evaluated to the end. -/
theorem Expr.leaves_finish {e : Expr Label} {n : Machine} {values : List Value}
    (hwf : e.WellFormed) (hn : n.Located H) (hvalues : ∀ v ∈ values, v.Located H n.store)
    (hran : e.operands.mapM (evaluate S depth env) m = .ok values n)
    (hstart : ∀ u n, Starts S (.evaluate (depth + 1) env e, m) (u, n) → u.Leaves H S n) :
    Leaves H n (e.finish S depth env values) fun store v => v.Located H store := by
  unfold Expr.finish
  split
  · exact leaves_pure hn trivial
  · rename_i ref
    rw [hS]
    exact leaves_read hn table env ref
  · rename_i ref
    rw [hS]
    exact leaves_read hn table env ref
  · rename_i ref method
    rw [hS]
    exact leaves_superMethod hn table env ref method
  · rename_i ref operand value
    cases hwf with
    | assign hname =>
      have hv := hvalues value List.mem_cons_self
      rw [hS]
      refine (leaves_assign hn table env hname hv).bind fun _ m₂ _ hm₂ hkeeps _ => ?_
      exact leaves_pure hm₂ (hv.later (.refl H) hkeeps)
  · exact leaves_ofExcept hn fun u hu => Value.located_of_unary hu
  · exact leaves_ofExcept hn fun u hu => Value.located_of_binary hu
  · exact leaves_pure hn (hvalues _ (List.mem_cons_of_mem _ List.mem_cons_self))
  · exact leaves_pure hn (hvalues _ List.mem_cons_self)
  · split
    · exact leaves_throw hn _
    · rename_i called hcalled
      split
      · rename_i hlength
        rw [Expr.operands, List.mapM_cons] at hran
        obtain ⟨v, m₁, hv, hran⟩ := EStateM.bind_eq_ok.mp hran
        obtain ⟨vs, m₂, hvs, hran⟩ := EStateM.bind_eq_ok.mp hran
        cases hran
        exact hstart _ _ (.call hv hvs hcalled hlength)
      · exact leaves_throw hn _
  · split
    · exact leaves_property hn (hvalues _ List.mem_cons_self) _
    · exact leaves_throw hn _
  · refine (leaves_setField hn _ _ (hvalues _ (List.mem_cons_of_mem _ List.mem_cons_self))).bind
      fun _ m₂ _ hm₂ _ hv => leaves_pure hm₂ hv
  · exact leaves_throw hn _
  · exact leaves_throw hn _

include hS in
/-- What is left to do after some parts of an expression leaves functions and words so. -/
theorem Expr.leaves_rest {e : Expr Label} {n : Machine} {earlier parts : List (Expr Label)}
    {values : List Value} (hwf : e.WellFormed) (hparts : e.operands = earlier ++ parts)
    (hran : earlier.mapM (evaluate S depth env) m = .ok values n) (hn : n.Located H)
    (hvalues : ∀ v ∈ values, v.Located H n.store)
    (hstart : ∀ u n, Starts S (.evaluate (depth + 1) env e, m) (u, n) → u.Leaves H S n) :
    Leaves H n (e.rest S depth env parts values) fun store v => v.Located H store := by
  induction parts generalizing n earlier values with
  | nil =>
    rw [List.append_nil] at hparts
    exact leaves_finish hS hwf hn hvalues (hparts ▸ hran) hstart
  | cons part parts ih =>
    unfold Expr.rest
    split
    · rename_i x hx
      exact leaves_early hx hn hvalues
    · rename_i hgoes
      -- the next part is begun as a task of its own, and its value is put behind the others
      refine Leaves.bind (hstart _ _ (.operand hparts hran (goesOn_iff.mpr hgoes)))
        fun v m' hv hm' hkeeps hloc => ?_
      have hparts' : e.operands = earlier ++ [part] ++ parts := by
        rw [hparts, List.append_assoc]
        rfl
      refine ih hparts' (EStateM.mapM_concat hran hv) hm' fun w hw => ?_
      rcases List.mem_append.mp hw with hw | hw
      · exact (hvalues w hw).later (.refl H) hkeeps
      · exact List.mem_singleton.mp hw ▸ hloc

include hS in
theorem leaves_evaluate {e : Expr Label} (hm : m.Located H)
    (ht : (Task.evaluate (depth + 1) env e).Located H m.store)
    (hstart : ∀ u n, Starts S (.evaluate (depth + 1) env e, m) (u, n) → u.Leaves H S n) :
    (Task.evaluate (depth + 1) env e).Leaves H S m := by
  obtain ⟨_, _, hwf, _⟩ := ht
  show Leaves H m (Machine.evaluate S (depth + 1) env e) _
  rw [evaluate_eq]
  exact Expr.leaves_rest hS hwf (List.nil_append _).symm rfl hm (List.forall_mem_nil _) hstart

theorem leaves_call {callee : Callee} {values : List Value} (hm : m.Located H)
    (ht : (Task.call (depth + 1) callee values).Located H m.store)
    (hstart : ∀ u n, Starts S (.call (depth + 1) callee values, m) (u, n) → u.Leaves H S n) :
    (Task.call (depth + 1) callee values).Leaves H S m := by
  unfold Task.Leaves Machine.call
  cases callee with
  | clock => exact leaves_readClock hm S
  | function f => exact hstart _ _ .function
  | classOf c =>
    refine (leaves_newObject hm ht.1).bind fun object m₁ hobject hm₁ _ hloc => ?_
    obtain ⟨hc, id, rfl⟩ := hloc
    split
    · rename_i method hmethod
      obtain ⟨around, derived, env, hlocated⟩ := hc.method? hmethod
      refine (leaves_takeMethod hm₁ hc hlocated).bind fun f m₂ htake hm₂ hkeeps _ => ?_
      refine Leaves.bind (hstart _ _ (.initializer hobject hmethod htake))
        fun v m₃ _ hm₃ hkeeps' _ => ?_
      exact leaves_pure hm₃ (hc.later (.refl H) (hkeeps.trans hkeeps'))
    · exact leaves_pure hm₁ hc

theorem leaves_invoke {f : Closure} {values : List Value} (hm : m.Located H)
    (ht : (Task.invoke (depth + 1) f values).Located H m.store)
    (hstart : ∀ u n, Starts S (.invoke (depth + 1) f values, m) (u, n) → u.Leaves H S n) :
    (Task.invoke (depth + 1) f values).Leaves H S m := by
  obtain ⟨hf, hvalues⟩ := ht
  have hwf : f.declaration.WellFormed := by cases hf <;> assumption
  unfold Task.Leaves Machine.invoke
  refine (leaves_ofAccess (P := fun _ vars => matchArguments f.declaration.params values = .ok vars)
    hm fun vars h => h).bind fun vars m₀ hran _ _ hvars => ?_
  rw [hvars] at hran
  cases hran
  refine (leaves_enterParameters hm hwf hvalues hvars).bind fun env m₁ henter hm₁ hkeeps _ => ?_
  refine (leaves_runAll hm₁ fun earlier s later hl n hran _ _ =>
    hstart _ _ (.body hvars henter hl hran)).bind fun c m₂ _ hm₂ _ hc => ?_
  exact leaves_resultOf hm₂ f hc

/-- A statement that begins with an expression goes on so. -/
theorem Stmt.leaves_goOn {s : Stmt Label} {e : Expr Label} {v : Value} {n : Machine}
    (hfirst : s.first? = some e) (hm : m.store.KeepsWords n.store)
    (ht : (Task.execute (depth + 1) env s).Located H m.store)
    (hknown : (Task.execute (depth + 1) env s).Known H S m)
    (hstart : ∀ u n, Starts S (.execute (depth + 1) env s, m) (u, n) → u.Leaves H S n)
    (hv : Machine.evaluate S depth env e m = .ok v n) (hn : n.Located H)
    (hloc : v.Located H n.store) :
    Leaves H n (s.goOn S depth env v) (Completion.Located H) := by
  obtain ⟨around, hmirrors, hwf, hsites⟩ := ht
  cases hwf with
  | expression => exact leaves_pure hn trivial
  | print => exact (leaves_print hn v).bind fun _ m₂ _ hm₂ _ _ => leaves_pure hm₂ trivial
  | var hname =>
    exact (leaves_define hn hname.not_isWord env hloc).bind
      fun _ m₂ _ hm₂ _ _ => leaves_pure hm₂ trivial
  | ifThen =>
    cases htruth : v.isTruthy with
    | true =>
      rw [Stmt.goOn, if_pos htruth]
      exact hstart _ _ (.branch hfirst hv (by rw [htruth]; rfl))
    | false =>
      rw [Stmt.goOn, htruth]
      exact leaves_pure hn trivial
  | ifElse =>
    cases htruth : v.isTruthy with
    | true =>
      rw [Stmt.goOn, if_pos htruth]
      exact hstart _ _ (.branch hfirst hv (by rw [htruth]; rfl))
    | false =>
      rw [Stmt.goOn, if_neg (by simp [htruth])]
      exact hstart _ _ (.branch hfirst hv (by rw [htruth]; rfl))
  | returnFrom => exact leaves_pure hn hloc
  | @classOf name superclass methods hname hsuperclass hparams hbodies =>
    cases superclass with
    | none => cases hfirst
    | some parent =>
      cases hfirst
      cases v with
      | classOf c =>
        have hwf : ∀ f ∈ methods, f.WellFormed := fun f hf => ⟨hparams f hf, hbodies f hf⟩
        refine (leaves_makeClass hn (hmirrors.later (.refl H) hm) hname (some c) hwf
          (fun site h => hsites site ?_) ?_).bind fun _ m₂ _ hm₂ _ _ => leaves_pure hm₂ trivial
        · exact List.mem_cons_of_mem _ (List.mem_cons_of_mem _ (List.mem_cons_of_mem _ h))
        · rintro _ ⟨⟩
          exact ⟨hloc, hknown rfl hv⟩
      | _ => exact leaves_throw hn _
  | _ => cases hfirst

theorem leaves_execute {s : Stmt Label} (hm : m.Located H)
    (ht : (Task.execute (depth + 1) env s).Located H m.store)
    (hknown : (Task.execute (depth + 1) env s).Known H S m)
    (hstart : ∀ u n, Starts S (.execute (depth + 1) env s, m) (u, n) → u.Leaves H S n) :
    (Task.execute (depth + 1) env s).Leaves H S m := by
  show Leaves H m (Machine.execute S (depth + 1) env s) _
  cases hfirst : s.first? with
  | some e =>
    rw [execute_eq S depth env hfirst]
    exact Leaves.bind (hstart _ _ (.first hfirst)) fun v n hv hn hkeeps hloc =>
      s.leaves_goOn hfirst hkeeps ht hknown hstart hv hn hloc
  | none =>
    obtain ⟨around, hmirrors, hwf, hsites⟩ := ht
    unfold Machine.execute
    cases hwf with
    | expression | print | ifThen | ifElse => cases hfirst
    | @var name initial hname =>
      cases initial with
      | some e => cases hfirst
      | none =>
        exact (leaves_define hm hname.not_isWord env (v := .nil) trivial).bind
          fun _ m₁ _ hm₁ _ _ => leaves_pure hm₁ trivial
    | @block body =>
      refine (leaves_enterBody hm (fun _ _ => rfl) (fun _ _ h => by simp at h) env).bind
        fun inner m₁ henter hm₁ _ _ => ?_
      refine leaves_runAll hm₁ fun earlier s later hl n hran _ _ => ?_
      subst hl
      exact hstart _ _ (.block henter hran)
    | whileLoop =>
      exact leaves_runWhile hm (fun n _ hturns _ _ => hstart _ _ (.condition hturns))
        fun n v n' _ hturns hv htrue _ _ => hstart _ _ (.turn hturns hv htrue)
    | @function declaration hname hparams hbody =>
      refine (leaves_freshId hm).bind fun n m₁ hn hm₁ hkeeps _ => ?_
      refine (leaves_define hm₁ hname.not_isWord env
        (v := .function ⟨n, declaration, env, false⟩) ?_).bind
          fun _ m₂ _ hm₂ _ _ => leaves_pure hm₂ trivial
      exact Closure.Located.function ⟨hparams, hbody⟩ (hmirrors.later (.refl H) hkeeps)
        (fun site h => hsites site (List.mem_cons_of_mem _ h)) rfl
    | @returnFrom keyword value =>
      cases value with
      | some e => cases hfirst
      | none => exact leaves_pure hm trivial
    | @classOf name superclass methods hname hsuperclass hparams hbodies =>
      cases superclass with
      | some parent => cases hfirst
      | none =>
        have hmethods : ∀ f ∈ methods, f.WellFormed := fun f hf => ⟨hparams f hf, hbodies f hf⟩
        refine (leaves_makeClass hm hmirrors hname none hmethods (fun site h =>
          hsites site (List.mem_cons_of_mem _ h)) fun _ hc => by cases hc).bind
            fun _ m₁ _ hm₁ _ _ => leaves_pure hm₁ trivial

end

/-- The levels of nesting that are left for a task. -/
def Task.depth : Task → Nat
  | .evaluate depth _ _ | .call depth _ _ | .invoke depth _ _ | .execute depth _ _ => depth

/-- A task has one level more than those that it begins. -/
theorem Starts.depth_eq {t u : Task} (h : Starts S (t, m) (u, m')) : t.depth = u.depth + 1 := by
  cases h <;> rfl

/-- **Every task at its place leaves functions where they stand and words with their meaning**, if
what the class statements do is known. -/
theorem Task.leaves {table : BindingTable} (hS : S.access = .byHops table) {t : Task}
    (hknown : ∀ u n, Relation.ReflTransGen (Starts S) (t, m) (u, n) → u.Known H S n)
    (hm : m.Located H) (ht : t.Located H m.store) : t.Leaves H S m := by
  induction hdepth : t.depth generalizing t m with
  | zero =>
    cases t with
    | evaluate | call | invoke | execute => cases hdepth; exact leaves_throw hm (.fault .tooDeep)
  | succ depth ih =>
    have hsub : t.StartedLeave H S m := fun u n hstart hn hu =>
      ih (fun w o h => hknown w o (.head hstart h)) hn hu
        (Nat.succ.inj (hstart.depth_eq.symm.trans hdepth))
    have hstart : ∀ u n, Starts S (t, m) (u, n) → u.Leaves H S n := by
      intro u n hstart
      obtain ⟨hn, _, hu⟩ := hstart.located hsub hm ht
      exact hsub u n hstart hn hu
    cases t with
    | evaluate depth env e => cases hdepth; exact leaves_evaluate hS hm ht hstart
    | call depth callee values => cases hdepth; exact leaves_call hm ht hstart
    | invoke depth f values => cases hdepth; exact leaves_invoke hm ht hstart
    | execute depth env s =>
      cases hdepth
      exact leaves_execute hm ht (hknown _ _ .refl) hstart

end LoxLang
