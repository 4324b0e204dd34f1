import LoxLang.Proofs.Machine.Placed

/-! # Words after a task

What a task that is begun leaves behind, the task that begins it passes on: whatever it still does
changes no word (`Starts.keeps`).  So at every moment of a run the words mean what they mean at its
end, in all scopes that are there by then (`Begins.keeps`).  -/

namespace LoxLang

open Machine

variable {H : Chronicle} {S : Setting} {m m' : Machine} {σ : Type}

/-- The machine after a task that is begun on a machine. -/
def Task.after (S : Setting) (m : Machine) : Task → Machine
  | .evaluate depth env e => Action.machineOf (Machine.evaluate S depth env e m)
  | .call depth callee values => Action.machineOf (Machine.call S depth callee values m)
  | .invoke depth f values => Action.machineOf (Machine.invoke S depth f values m)
  | .execute depth env s => Action.machineOf (Machine.execute S depth env s m)

/-! ## Sequences -/

theorem runAll_append {run : σ → Action Completion} {earlier : List σ}
    (h : runAll run earlier m = .ok .normal m') (later : List σ) :
    runAll run (earlier ++ later) m = runAll run later m' := by
  induction earlier generalizing m with
  | nil =>
    cases h
    rfl
  | cons s earlier ih =>
    obtain ⟨c, m₁, hc, h⟩ := EStateM.bind_eq_ok.mp h
    cases c with
    | returned v => cases h
    | normal => exact (EStateM.bind_ok hc).trans (ih h)

/-- What a statement of a body leaves behind, the whole body does. -/
theorem keeps_runAll {run : σ → Action Completion} {ss earlier later : List σ} {s : σ}
    (h : ∀ earlier s later, ss = earlier ++ s :: later → ∀ n,
      runAll run earlier m = .ok .normal n → Leaves H n (run s) (Completion.Located H))
    (hss : ss = earlier ++ s :: later) (hran : runAll run earlier m = .ok .normal m') :
    (Action.machineOf (run s m')).store.KeepsWords (Action.machineOf (runAll run ss m)).store := by
  subst hss
  rw [runAll_append hran]
  refine (h earlier s later rfl m' hran).bind_keeps (R := Completion.Located H)
    fun c n hc hn _ hloc => ?_
  cases c with
  | returned v => exact leaves_pure hn hloc
  | normal =>
    refine leaves_runAll hn fun before x after hl n' hran' _ _ => ?_
    refine h (earlier ++ s :: before) x after (by rw [hl, List.append_assoc]; rfl) n' ?_
    rw [runAll_append hran, runAll, EStateM.bind_ok hc]
    exact hran'

section
variable {depth : Nat} {env : Env} {condition : Expr Label} {body : Stmt Label}

/-- A loop after some turns is the same loop with fewer rounds. -/
theorem runWhile_turns {start last : Nat × Machine}
    (h : Relation.ReflTransGen (Turn S depth env condition body) start last) :
    runWhile (return (← evaluate S depth env condition).isTruthy) (execute S depth env body)
        start.1 start.2 =
      runWhile (return (← evaluate S depth env condition).isTruthy) (execute S depth env body)
        last.1 last.2 := by
  induction h using Relation.ReflTransGen.head_induction_on with
  | refl => rfl
  | @head before after hturn _ ih =>
    obtain ⟨rounds, m⟩ := before
    obtain ⟨v, m₁, rfl, hv, htrue, hc⟩ := hturn
    rw [← ih, runWhile, bind_assoc, EStateM.bind_ok hv, pure_bind, if_pos htrue, EStateM.bind_ok hc]

variable {rounds left : Nat}
  (htest : ∀ n left, Relation.ReflTransGen (Turn S depth env condition body) (rounds, m)
    (left + 1, n) → Leaves H n (evaluate S depth env condition) fun store v => v.Located H store)
  (hbody : ∀ n v n' left, Relation.ReflTransGen (Turn S depth env condition body) (rounds, m)
    (left + 1, n) → evaluate S depth env condition n = .ok v n' → v.isTruthy →
    Leaves H n' (execute S depth env body) (Completion.Located H))
include htest hbody

/-- What a turn of a loop leaves behind, the whole loop does. -/
theorem leaves_turn {v : Value} {n : Machine} (hturns : Relation.ReflTransGen
      (Turn S depth env condition body) (rounds, m) (left + 1, m'))
    (hv : evaluate S depth env condition m' = .ok v n) (htrue : v.isTruthy) {c : Completion}
    {n' : Machine} (hc : execute S depth env body n = .ok c n') (hn' : n'.Located H)
    (hloc : c.Located H n'.store) :
    Leaves H n' (match c with
      | .normal => runWhile (return (← evaluate S depth env condition).isTruthy)
          (execute S depth env body) left
      | .returned value => return .returned value) (Completion.Located H) := by
  cases c with
  | returned w => exact leaves_pure hn' hloc
  | normal =>
    have hturns' : Relation.ReflTransGen (Turn S depth env condition body) (rounds, m) (left, n') :=
      hturns.tail ⟨v, n, rfl, hv, htrue, hc⟩
    exact leaves_runWhile hn' (fun o left' h _ _ => htest o left' (hturns'.trans h))
      fun o w o' left' h hw hw' _ _ => hbody o w o' left' (hturns'.trans h) hw hw'

theorem keeps_condition (hturns : Relation.ReflTransGen (Turn S depth env condition body)
      (rounds, m) (left + 1, m')) :
    (Action.machineOf (evaluate S depth env condition m')).store.KeepsWords
      (Action.machineOf (runWhile (return (← evaluate S depth env condition).isTruthy)
        (execute S depth env body) rounds m)).store := by
  have h := runWhile_turns hturns
  dsimp only at h
  rw [h, runWhile, bind_assoc]
  refine (htest m' left hturns).bind_keeps (R := Completion.Located H) fun v n hv hn _ _ => ?_
  rw [pure_bind]
  split
  · rename_i htrue
    exact (hbody m' v n left hturns hv htrue).bind fun c n' hc hn' _ hloc =>
      leaves_turn htest hbody hturns hv htrue hc hn' hloc
  · exact leaves_pure hn trivial

theorem keeps_turn {v : Value} {n : Machine} (hturns : Relation.ReflTransGen
      (Turn S depth env condition body) (rounds, m) (left + 1, m'))
    (hv : evaluate S depth env condition m' = .ok v n) (htrue : v.isTruthy) :
    (Action.machineOf (execute S depth env body n)).store.KeepsWords
      (Action.machineOf (runWhile (return (← evaluate S depth env condition).isTruthy)
        (execute S depth env body) rounds m)).store := by
  have h := runWhile_turns hturns
  dsimp only at h
  rw [h, runWhile, bind_assoc, EStateM.bind_ok hv, pure_bind, if_pos htrue]
  exact (hbody m' v n left hturns hv htrue).bind_keeps fun c n' hc hn' _ hloc =>
    leaves_turn htest hbody hturns hv htrue hc hn' hloc

end

/-! ## Tasks -/

theorem Stmt.goOn_branch? {s taken : Stmt Label} {v : Value}
    (hbranch : s.branch? v.isTruthy = some taken) (depth : Nat) (env : Env) :
    s.goOn S depth env v = Machine.execute S depth env taken := by
  cases s with
  | ifThen condition body =>
    cases htruth : v.isTruthy with
    | true =>
      rw [htruth] at hbranch
      cases hbranch
      rw [Stmt.goOn, if_pos htruth]
    | false => rw [htruth] at hbranch; cases hbranch
  | ifElse condition body other =>
    cases htruth : v.isTruthy <;> rw [htruth] at hbranch <;> cases hbranch <;>
      simp [Stmt.goOn, htruth]
  | _ => cases hbranch

/-- **What a task that is begun leaves behind, the task that begins it passes on**: it changes no
word after that. -/
theorem Starts.keeps {table : BindingTable} (hS : S.access = .byHops table) {t u : Task}
    (h : Starts S (t, m) (u, m')) (hm : m.Located H) (ht : t.Located H m.store)
    (hknown : t.Known H S m) (hstart : ∀ u n, Starts S (t, m) (u, n) → u.Leaves H S n) :
    (u.after S m').store.KeepsWords (t.after S m).store := by
  have hthis := hstart _ _ h
  have hsub : t.StartedLeave H S m := fun u n h _ _ => hstart u n h
  cases h with
  | @operand depth env e part earlier later values _ _ hparts hvalues hgoes =>
    obtain ⟨_, _, hearlier⟩ := (leaves_earlier hsub hparts hm ht).of_ok hvalues
    obtain ⟨_, _, hwf, _⟩ := ht
    have hbefore : ∀ more : List Value, more.length < earlier.length → e.GoesOn ([] ++ more) :=
      fun more => Expr.goesOn_before hparts
    -- of the expression, what is behind this part is left to do, and it changes no word
    rw [Task.after, Task.after, evaluate_eq, hparts, Expr.rest_mapM S depth env _ hbefore,
      EStateM.bind_ok hvalues, List.nil_append, Expr.rest_cons S depth env hgoes]
    refine Leaves.bind_keeps (R := fun store v => v.Located H store) hthis
      fun v n hv hn hkeeps hloc => ?_
    have hparts' : e.operands = earlier ++ [part] ++ later := by
      rw [hparts, List.append_assoc]
      rfl
    refine Expr.leaves_rest hS hwf hparts' (EStateM.mapM_concat hvalues hv) hn ?_ hstart
    exact List.forall_mem_append.mpr ⟨fun w hw =>
      (hearlier w hw).later (.refl H) hkeeps, List.forall_mem_singleton.mpr hloc⟩
  | @call depth env callee paren arguments v called values _ m₁ _ hcallee hvalues hcalled hlength =>
    rw [Task.after, Task.after]
    -- a call ends where the call of its callee ends
    have hcall : evaluate S (depth + 1) env (.call callee paren arguments) m =
        Machine.call S depth called values m' := by
      rw [evaluate, evaluateOuter, EStateM.bind_ok hcallee, EStateM.bind_ok hvalues, hcalled]
      dsimp only
      rw [if_pos hlength]
    rw [hcall]
    exact .refl _
  | function => exact .refl _
  | @initializer depth c method f object values _ m₁ _ hobject hmethod htake =>
    rw [Task.after, Task.after, Machine.call, callOuter, EStateM.bind_ok hobject, hmethod]
    dsimp only
    rw [EStateM.bind_ok htake]
    exact Leaves.bind_keeps (R := fun _ _ => True) hthis
      fun v n _ hn _ _ => leaves_pure hn trivial
  | @body depth f values vars env earlier later s _ m₁ _ hvars henter hbody hearlier =>
    obtain ⟨hf, hvalues⟩ := ht
    have hwf : f.declaration.WellFormed := by cases hf <;> assumption
    obtain ⟨hm₁, _, _⟩ := (leaves_enterParameters hm hwf hvalues hvars).of_ok henter
    rw [Task.after, Task.after, Machine.invoke, invokeOuter, hvars,
      EStateM.bind_ok (rfl : Action.ofAccess (.ok vars) m = .ok vars m), EStateM.bind_ok henter]
    -- the statements behind this one may still run, and each is begun by the same body
    have hstarted : ∀ before x after, f.declaration.body = before ++ x :: after → ∀ n,
        runAll (execute S depth env) before m₁ = .ok .normal n →
        Leaves H n (execute S depth env x) (Completion.Located H) :=
      fun before x after hl n hran => hstart _ _ (.body hvars henter hl hran)
    refine (keeps_runAll hstarted hbody hearlier).trans ?_
    refine Leaves.bind_keeps (R := fun store v => v.Located H store)
      (leaves_runAll hm₁ fun before x after hl n hran _ _ => hstarted before x after hl n hran)
      fun c n _ hn _ hc => leaves_resultOf hn f hc
  | @first depth env s e _ hfirst =>
    rw [Task.after, Task.after, execute_eq S depth env hfirst]
    exact Leaves.bind_keeps (R := Completion.Located H) hthis
      fun v n hv hn hkeeps hloc => s.leaves_goOn hfirst hkeeps ht hknown hstart hv hn hloc
  | @branch depth env s taken condition v _ _ hfirst hcondition hbranch =>
    rw [Task.after, Task.after, execute_eq S depth env hfirst, EStateM.bind_ok hcondition,
      Stmt.goOn_branch? hbranch]
    exact .refl _
  | @block depth env inner earlier later s _ m₁ _ henter hearlier =>
    rw [Task.after, Task.after, execute, executeOuter, EStateM.bind_ok henter]
    refine keeps_runAll (H := H) (fun before x after hl n hran => ?_) rfl hearlier
    rw [hl] at hstart
    exact hstart _ _ (.block henter hran)
  | @condition depth env condition body _ _ left hturns =>
    rw [Task.after, Task.after, execute, executeOuter]
    exact keeps_condition (fun n _ hturns => hstart _ _ (.condition hturns))
      (fun n v n' _ hturns hv htrue => hstart _ _ (.turn hturns hv htrue)) hturns
  | @turn depth env condition body v _ m₁ _ left hturns hcondition htrue =>
    rw [Task.after, Task.after, execute, executeOuter]
    exact keeps_turn (fun n _ hturns => hstart _ _ (.condition hturns))
      (fun n v n' _ hturns hv htrue => hstart _ _ (.turn hturns hv htrue)) hturns hcondition htrue

/-! ## Moments -/

/-- A task is begun at its place, and what class statements do is known of it and of all that come
from it. -/
structure Task.InPlace (H : Chronicle) (S : Setting) (t : Task) (m : Machine) : Prop where
  machine : m.Located H
  task : t.Located H m.store
  known : ∀ u n, Relation.ReflTransGen (Starts S) (t, m) (u, n) → u.Known H S n

section
variable {table : BindingTable} (hS : S.access = .byHops table) {t u : Task}
include hS

theorem Task.InPlace.leaves (h : t.InPlace H S m) : t.Leaves H S m :=
  Task.leaves hS h.known h.machine h.task

/-- What a task begins is at its place, too; words are kept until then, and from its end on. -/
theorem Task.InPlace.starts (h : t.InPlace H S m) (hstart : Starts S (t, m) (u, m')) :
    u.InPlace H S m' ∧ m.store.KeepsWords m'.store ∧
      (u.after S m').store.KeepsWords (t.after S m).store := by
  have hplaced : ∀ {u n}, Starts S (t, m) (u, n) → u.InPlace H S n ∧ m.store.KeepsWords n.store := by
    intro u n hstart
    have hsub : t.StartedLeave H S m := fun w o hw ho hloc =>
      InPlace.leaves hS ⟨ho, hloc, fun x p hx => h.known x p (.head hw hx)⟩
    obtain ⟨hn, hkeeps, hu⟩ := hstart.located hsub h.machine h.task
    exact ⟨⟨hn, hu, fun w o hw => h.known w o (.head hstart hw)⟩, hkeeps⟩
  obtain ⟨hu, hkeeps⟩ := hplaced hstart
  exact ⟨hu, hkeeps, hstart.keeps hS h.machine h.task (h.known t m .refl)
    fun w o hw => (hplaced hw).1.leaves hS⟩

/-- So it is with all that comes from a task. -/
theorem Task.InPlace.started (h : t.InPlace H S m)
    (hstarts : Relation.ReflTransGen (Starts S) (t, m) (u, m')) :
    u.InPlace H S m' ∧ m.store.KeepsWords m'.store ∧
      (u.after S m').store.KeepsWords (t.after S m).store := by
  generalize hlast : (u, m') = last at hstarts
  induction hstarts generalizing u m' with
  | refl =>
    cases hlast
    exact ⟨h, .refl _, .refl _⟩
  | @tail mid _ _ hstart ih =>
    subst hlast
    obtain ⟨hmid, hkeeps, hends⟩ := ih rfl
    obtain ⟨hu, hkeeps', hends'⟩ := hmid.starts hS hstart
    exact ⟨hu, hkeeps.trans hkeeps', hends'.trans hends⟩

end

/-! ## Runs -/

section
variable {depth : Nat}

/-- The first statement of a program is executed at its place. -/
theorem inPlace_first {s : Stmt Label} {ss : List (Stmt Label)} (hm : m.Located H)
    (hwf : ∀ s' ∈ s :: ss, s'.WellFormed) (hsites : ∀ site ∈ sitesOf (s :: ss), H.HasSite site)
    (hknown : ∀ t n, Begins S depth (s :: ss) m t n → t.Known H S n) :
    (Task.execute depth globalEnv s).InPlace H S m where
  machine := hm
  task := ⟨[], .globals, hwf s List.mem_cons_self, fun site h =>
    hsites site (List.mem_append_left _ h)⟩
  known := fun u n h => hknown u n (begins_of_starts h)

variable {table : BindingTable} (hS : S.access = .byHops table) {program : List (Stmt Label)}
  (hm : m.Located H) (hwf : ∀ s ∈ program, s.WellFormed)
  (hsites : ∀ site ∈ sitesOf program, H.HasSite site)
  (hknown : ∀ t n, Begins S depth program m t n → t.Known H S n)
include hS hm hwf hsites hknown

/-- A run leaves functions where they stand and words with their meaning. -/
theorem leaves_runProgram : Leaves H m (runProgram S depth program) fun _ _ => True := by
  induction program generalizing m with
  | nil => exact leaves_pure hm trivial
  | cons s ss ih =>
    have hs : (Task.execute depth globalEnv s).InPlace H S m :=
      inPlace_first hm hwf hsites hknown
    have hleaves : Leaves H m (execute S depth globalEnv s >>= fun _ => runProgram S depth ss)
        fun _ _ => True := Leaves.bind (hs.leaves hS) fun c m₁ hc hm₁ _ _ =>
      ih hm₁ (fun s' hs' => hwf s' (List.mem_cons_of_mem _ hs'))
        (fun site h => hsites site (List.mem_append_right _ h))
        fun t n h => hknown t n (begins_of_later hc h)
    unfold Leaves at hleaves ⊢
    rw [runProgram_cons]
    exact hleaves

/-- **At every moment of a run its task is at its place**, and from its end on the words mean what
they mean at the end of the run. -/
theorem Begins.placed {t : Task} (h : Begins S depth program m t m') :
    t.InPlace H S m' ∧ m.store.KeepsWords m'.store ∧
      (t.after S m').store.KeepsWords
        (Action.machineOf (runProgram S depth program m)).store := by
  induction program generalizing m with
  | nil =>
    obtain ⟨earlier, s, later, n, hprogram, _⟩ := h
    simp at hprogram
  | cons s ss ih =>
    have hs : (Task.execute depth globalEnv s).InPlace H S m :=
      inPlace_first hm hwf hsites hknown
    have hwf' : ∀ s' ∈ ss, s'.WellFormed := fun s' hs' => hwf s' (List.mem_cons_of_mem _ hs')
    have hsites' : ∀ site ∈ sitesOf ss, H.HasSite site := fun site h =>
      hsites site (List.mem_append_right _ h)
    rw [runProgram_cons]
    rcases h.cons with hstarts | ⟨c, m₁, hc, h⟩
    · obtain ⟨ht, hkeeps, hends⟩ := hs.started hS hstarts
      refine ⟨ht, hkeeps, hends.trans ?_⟩
      exact Leaves.bind_keeps (R := fun _ _ => True) (hs.leaves hS) fun c m₁ hc hm₁ _ _ =>
        leaves_runProgram hS hm₁ hwf' hsites' fun t n h => hknown t n (begins_of_later hc h)
    · obtain ⟨hm₁, hkeeps, _⟩ := Leaves.of_ok (hs.leaves hS) hc
      obtain ⟨ht, hkeeps', hends⟩ := ih hm₁ hwf' hsites'
        (fun t n h => hknown t n (begins_of_later hc h)) h
      rw [EStateM.bind_ok hc]
      exact ⟨ht, hkeeps.trans hkeeps', hends⟩

end

end LoxLang
