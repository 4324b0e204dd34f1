import LoxLang.Proofs.Machine.Places
import LoxLang.Proofs.Machine.Renumbered
import LoxLang.Proofs.Machine.Rounds
import LoxLang.Proofs.Session.Kept
import LoxLang.Proofs.Session.Verdict

/-! # What a run can depend on

How a run ends and what it prints depends on the source and on what is left of the runs before it:
the variables and objects of the machine with the functions and classes in them, these by the places
of their references.  `Session.remains` is just that.  What was reported or printed is not part of
it, nor the labels that were given out, nor the bindings of programs that were rejected.  A run is
compared to the run of the placed program on what remains (`executed_eq_byPlace`), which has nothing
else to look at.

Of what remains only that counts to which the global variables lead, and the numbers under which it
is there do not (`LeavesAlike`).  Sessions that leave the like of each other go on in the same way
(`run_of_leavesAlike`); and what a run has made beside what was there, and nothing leads to any more,
leaves a session like the one before (`leavesAlike_of_keeps`). -/

namespace LoxLang

theorem Verdict.ofExecution_retell (t : BindingTable) (before : String)
    (r : EStateM.Result Halt Machine Unit) :
    ofExecution (Action.retell t.placing before (fun a => a) r) = ofExecution r := by
  cases r with
  | ok a m => rfl
  | error h m => cases h <;> rfl

/-- Runs that have ended alike, the first not for want of a name, have ended in the same way, with
the same output and on machines that are alike but for what was printed. -/
theorem Abreast.ends_alike {clock clock' : Nat → Float} {p : Pairing}
    {P : Pairing → Unit → Unit → Prop} {r r' : EStateM.Result Halt Machine Unit}
    (h : Abreast (renumbering clock clock') p P r r')
    (hnamed : ∀ name, Verdict.ofExecution r ≠ .cutOff (.missingName name)) :
    Verdict.ofExecution r' = .ofExecution r ∧
      (Action.machineOf r').output = (Action.machineOf r).output ∧
      ∃ q, Machine.Alike (renumbering clock clock') q { Action.machineOf r with output := "" }
        { Action.machineOf r' with output := "" } := by
  cases h with
  | @ok q _ _ _ _ _ hm _ => exact ⟨rfl, hm.output, q, { hm with output := rfl }⟩
  | @error q halt halt' m m' hm hhalt =>
    refine ⟨?_, hm.output, q, { hm with output := rfl }⟩
    cases hhalt with
    | error fault hplace =>
      obtain rfl := hplace
      rfl
    | fault f => rfl
    | missingName name name' => exact absurd rfl (hnamed name)

/-- Whether the binding pass gets through a program does not depend on its labels. -/
theorem fault_bindProgram_relabelAll (depth : Nat) (program : List (Stmt Unit)) (n n' : Label)
    (table table' : BindingTable) :
    (bindProgram depth (Stmt.relabelAll n program).1 table).fault =
      (bindProgram depth (Stmt.relabelAll n' program).1 table').fault := by
  rw [Stmt.relabelAll_eq_shift n, Stmt.relabelAll_eq_shift n',
    fault_bindProgram_map _ _ _ _ table table, fault_bindProgram_map _ _ _ _ table' table]

namespace Session

/-- What is left for the next run to depend on: variables, objects and the functions and classes in
them, references by their places, and the numbers that new functions and readings of the clock go on
from; not what was printed. -/
def remains (s : Session) : Machine := { s.machine.change s.table.placing with output := "" }

/-- Two sessions leave the like of each other: the same up to numbers, in all that the global
variables lead to, with clocks that show the same from now on. -/
def LeavesAlike (clock clock' : Nat → Float) (s s' : Session) : Prop :=
  ∃ p, s.remains.Alike (renumbering clock clock') p s'.remains

/-- A labelled program by places, as the binding pass finds them. -/
def placed (program : List (Stmt Unit)) (s : Session) : List (Stmt Label) :=
  (Stmt.relabelAll s.nextLabel program).1.map (Stmt.map (s.boundTable program).place id)

/-- The run of a placed program on what remains. -/
def executedByPlace (config : Config) (program : List (Stmt Unit)) (s : Session) :
    EStateM.Result Halt Machine Unit :=
  Machine.runProgram ⟨.byPlace, config.clock, config.rounds⟩ config.nesting (s.placed program)
    s.remains

section
variable {config : Config} {source : String} {program : List (Stmt Unit)} {s s' : Session}

/-- The binding of a program changes nothing for what the machine holds. -/
theorem Sound.change_boundTable (hs : s.Sound .nothing) (program : List (Stmt Unit)) :
    s.machine.change (s.boundTable program).placing = s.machine.change s.table.placing := by
  obtain ⟨W, hm⟩ := hs.machine
  refine hm.change_placing fun u _ hu => ?_
  exact (recorded_boundTable program hu.1).hops_eq.trans hu.1.hops_eq.symm

/-- What later runs bind changes nothing for what the machine holds. -/
theorem Sound.change_continues (hs : s.Sound .nothing) (hcontinues : s.Continues s') :
    s.machine.change s'.table.placing = s.machine.change s.table.placing := by
  obtain ⟨W, hm⟩ := hs.machine
  refine hm.change_placing fun u _ hu => ?_
  rw [BindingTable.hops?, BindingTable.hops?, hcontinues.find?_eq hu.1.lt]

/-- A run that leaves the machine alone leaves what remains alone. -/
theorem remains_of_continues (hs : s.Sound .nothing) (hcontinues : s.Continues s')
    (hmachine : s'.machine = s.machine) : s'.remains = s.remains := by
  rw [remains, remains, hmachine, hs.change_continues hcontinues]

/-- The machine after the execution of a program is in order. -/
theorem Sound.executed {E E' : Demand Label} (hs : s.Sound E) (hE : E.StrongerInside E')
    (hwf : ∀ st ∈ program, st.WellFormed) (hbinds : s.Binds config program)
    (hmet : Met E' (Stmt.relabelAll s.nextLabel program).1) :
    ∃ W, (Action.machineOf (s.executed config program)).Sound (s.Demands E' program) W := by
  obtain ⟨W, _, hends⟩ := hs.runs_executed hE hwf hbinds hmet
  rw [← Session.executed] at hends
  cases hend : s.executed config program with
  | ok a m =>
    rw [hend] at hends
    obtain ⟨W', _, hm, _⟩ := hends
    exact ⟨W', hm⟩
  | error h m =>
    rw [hend] at hends
    exact hends.2

/-- **A run is the run of the placed program on what remains**: it ends in the same way, prints the
same behind what was printed before, and leaves the same. -/
theorem executed_eq_byPlace (hs : s.Sound .nothing)
    (haccepted : Accepted config source program) (hbinds : s.Binds config program) :
    Verdict.ofExecution (s.executed config program) =
        .ofExecution (s.executedByPlace config program) ∧
      (Action.machineOf (s.executed config program)).output =
        s.machine.output ++ (Action.machineOf (s.executedByPlace config program)).output ∧
      (s.run config source).2.remains =
        { Action.machineOf (s.executedByPlace config program) with output := "" } := by
  let table := s.boundTable program
  let silent : Machine := { s.machine with output := "" }
  let run := Machine.runProgram ⟨.byHops table, config.clock, config.rounds⟩ config.nesting
    (Stmt.relabelAll s.nextLabel program).1
  have hfollows : ∀ before, Action.Follows table.placing before (fun a => a) run
      (Machine.runProgram ⟨.byPlace, config.clock, config.rounds⟩ config.nesting
        (s.placed program)) := by
    intro before
    have hsetting : Setting.Follows table.placing before
        ⟨.byHops table, config.clock, config.rounds⟩ ⟨.byPlace, config.clock, config.rounds⟩ :=
      ⟨Access.follows_byPlace table before, rfl, rfl⟩
    exact follows_runProgram table.lawful_placing hsetting _
  -- What was printed before has no part in the run, and the new bindings none in what remains.
  have hsilent : Action.retell table.placing "" (fun a => a) (s.executed config program) =
      Action.retell table.placing s.machine.output (fun a => a) (run silent) :=
    Action.Follows.retell_silent hfollows s.machine
  have hremains : silent.retold table.placing "" = s.remains := by
    have hchange := hs.change_boundTable program
    rw [remains, ← hchange]
    rfl
  have hplaced : s.executedByPlace config program =
      Action.retell table.placing "" (fun a => a) (run silent) := by
    rw [executedByPlace, ← hremains]
    exact hfollows "" silent
  have hmachine := congrArg Action.machineOf hsilent
  rw [Action.machineOf_retell, Action.machineOf_retell] at hmachine
  rw [hplaced, Action.machineOf_retell, Verdict.ofExecution_retell]
  refine ⟨?_, ?_, ?_⟩
  · have hverdict := congrArg Verdict.ofExecution hsilent
    rwa [Verdict.ofExecution_retell, Verdict.ofExecution_retell] at hverdict
  · have houtput := congrArg Machine.output hmachine
    simpa [Machine.retold, Machine.behind, Machine.change] using houtput
  · obtain ⟨W, hsound⟩ := hs.executed (.refl _) haccepted.wellFormed hbinds (met_nothing _)
    have hdropped : (Action.machineOf (s.executed config program)).change
        table.dropTopLevel.placing =
          (Action.machineOf (s.executed config program)).change table.placing :=
      hsound.change_placing fun u hu hrecorded =>
        (hrecorded.1.dropTopLevel hu).hops_eq.trans hrecorded.1.hops_eq.symm
    have hafter : (s.run config source).2.machine =
        Action.machineOf (s.executed config program) ∧
        (s.run config source).2.table = table.dropTopLevel := by
      rw [run_of_accepted haccepted hbinds]
      rcases s.executed config program with _ | ⟨_ | _, _⟩ <;> exact ⟨rfl, rfl⟩
    rw [remains, hafter.1, hafter.2, hdropped]
    exact congrArg (fun m : Machine => { m with output := "" }) hmachine

/-- What a session is asked to run is bound in the same way in another one. -/
theorem Binds.of_session (h : s.Binds config program) (s' : Session) {config' : Config}
    (hnesting : config'.nesting = config.nesting) : s'.Binds config' program := by
  constructor
  · rw [hnesting, fault_bindProgram_relabelAll _ _ _ s.nextLabel _ s.table]
    exact h.fault
  · rw [error?_visitProgram_relabelAll, ← error?_visitProgram_relabelAll s.nextLabel]
    exact h.errors

theorem executedByPlace_alike (hs : s.Sound .nothing) (hs' : s'.Sound .nothing)
    (hbinds : s.Binds config program) {clock : Nat → Float} {p : Pairing}
    (h : s.remains.Alike (renumbering config.clock clock) p s'.remains) :
    Abreast (renumbering config.clock clock) p (fun _ _ _ => True)
      (s.executedByPlace config program)
      (s'.executedByPlace { config with clock := clock } program) := by
  have herrors := hbinds.errors
  rw [error?_visitProgram_relabelAll] at herrors
  have hplaced : s'.placed program = s.placed program :=
    map_place_relabelAll hs'.table hs.table herrors
  rw [executedByPlace, executedByPlace, hplaced]
  exact agree_runProgram config.clock clock config.rounds config.nesting (s.placed program) h

/-- **Sessions that leave the like of each other run a source in the same way**: it ends in the same
way and prints the same, and then they leave the like of each other again. -/
theorem run_of_leavesAlike (hs : s.Sound .nothing) (hsettled : s.Settled)
    (hs' : s'.Sound .nothing) (hsettled' : s'.Settled) {clock : Nat → Float}
    (h : s.LeavesAlike config.clock clock s') (source : String) :
    let config' := { config with clock := clock }
    ∃ v m m' printed, s.Ends config source v m ∧ s'.Ends config' source v m' ∧
      m.output = s.machine.output ++ printed ∧ m'.output = s'.machine.output ++ printed ∧
      (s.run config source).2.LeavesAlike config.clock clock (s'.run config' source).2 := by
  intro config'
  obtain ⟨v, m, hends, hfault, hmachine, _⟩ := run_ends config source s
  obtain ⟨v', m', hends', _, hmachine', _⟩ := run_ends config' source s'
  have hkept := hsettled.continues_run config source
  have hkept' := hsettled'.continues_run config' source
  obtain ⟨hlegal, _⟩ := hs.run config source
  -- The two runs get equally far, and only one that gets to its execution touches the machine.
  have hunexecuted : m = s.machine → s'.Ends config' source v s'.machine →
      ∃ v m m' printed, s.Ends config source v m ∧ s'.Ends config' source v m' ∧
        m.output = s.machine.output ++ printed ∧ m'.output = s'.machine.output ++ printed ∧
        (s.run config source).2.LeavesAlike config.clock clock (s'.run config' source).2 := by
    intro hsame hother
    obtain ⟨_, hsame'⟩ := hother.unique hends'
    refine ⟨v, m, _, "", hends, hother, ?_, String.append_empty.symm, ?_⟩
    · rw [hsame, String.append_empty]
    · rw [LeavesAlike, remains_of_continues hs hkept (hmachine.trans hsame),
        remains_of_continues hs' hkept' (hmachine'.trans hsame'.symm)]
      exact h
  cases hends with
  | tooDeepToRead hparse => exact hunexecuted rfl (.tooDeepToRead hparse)
  | misread hparse hsome => exact hunexecuted rfl (.misread hparse hsome)
  | @tooDeepToBind program haccepted f hbinding =>
    have haccepted' : Accepted config' source program := haccepted
    refine hunexecuted rfl (.tooDeepToBind haccepted' ?_)
    rw [← hbinding]
    exact fault_bindProgram_relabelAll ..
  | @misbound program haccepted hbinding hsome =>
    have haccepted' : Accepted config' source program := haccepted
    refine hunexecuted rfl (.misbound haccepted' ?_ hsome)
    rw [← hbinding]
    exact fault_bindProgram_relabelAll ..
  | @executed program haccepted hbinds =>
    have haccepted' : Accepted config' source program := haccepted
    have hbinds' : s'.Binds config' program := hbinds.of_session s' rfl
    obtain ⟨hverdict, hprinted, hafter⟩ := executed_eq_byPlace hs haccepted hbinds
    obtain ⟨hverdict', hprinted', hafter'⟩ :=
      executed_eq_byPlace hs' haccepted' hbinds'
    obtain ⟨p, hp⟩ := h
    have hrun := executedByPlace_alike hs hs' hbinds hp
    have hnamed : ∀ name, Verdict.ofExecution (s.executedByPlace config program) ≠
        .cutOff (.missingName name) := by
      intro name hname
      rw [hfault, hverdict, hname] at hlegal
      rcases hlegal with hlegal | hlegal | hlegal <;> cases hlegal
    obtain ⟨hsame, hout, q, hq⟩ := hrun.ends_alike hnamed
    rw [hout] at hprinted'
    refine ⟨_, _, _, _, .executed haccepted hbinds, ?_, hprinted, hprinted', q, ?_⟩
    · rw [hverdict, ← hsame, ← hverdict']
      exact .executed haccepted' hbinds'
    · rw [hafter, hafter']
      exact hq

/-! ## Sessions that leave the like of themselves -/

/-- Sessions leave the like of each other also with other clocks that show the same from now on. -/
theorem LeavesAlike.withClocks {clock clock' clock₁ clock₁' : Nat → Float}
    (h : s.LeavesAlike clock clock' s')
    (hclock : ∀ i, clock₁' (s'.machine.readings + i) = clock₁ (s.machine.readings + i)) :
    s.LeavesAlike clock₁ clock₁' s' := by
  obtain ⟨p, hp⟩ := h
  exact ⟨p, Pairing.alike_withClocks hp hclock⟩

theorem leavesAlike_start (passesOn : Bool) (clock : Nat → Float) :
    (start passesOn).LeavesAlike clock clock (start passesOn) := by
  have hremains : (start passesOn).remains = Machine.start := by
    simp only [remains, start, Machine.start, Machine.change, Store.change, Store.push,
      Store.empty, List.push_toArray, List.map_toArray]
    rfl
  rw [LeavesAlike, hremains]
  exact ⟨_, Pairing.alike_start clock⟩

/-- A session that leaves the like of itself does so after a run. -/
theorem leavesAlike_run (hs : s.Sound .nothing) (hsettled : s.Settled)
    (h : ∀ clock, s.LeavesAlike clock clock s) (config : Config) (source : String)
    (clock : Nat → Float) :
    (s.run config source).2.LeavesAlike clock clock (s.run config source).2 := by
  obtain ⟨_, _, _, _, _, _, _, _, hafter⟩ :=
    run_of_leavesAlike hs hsettled hs hsettled (h config.clock) source
  exact LeavesAlike.withClocks hafter fun _ => rfl

/-- What is kept is kept by places. -/
theorem keeps_change {m m' : Machine} (h : m.Keeps m') (χ : Change) :
    (m.change χ).Keeps (m'.change χ) := by
  refine ⟨fun id hid => ?_, fun id hid => ?_, ?_, ?_, h.nextId⟩
  · rw [Machine.change, Store.nextId_change] at hid
    rw [Machine.change, Machine.change, Store.scope_change, Store.scope_change, h.scopes id hid]
  · rw [Machine.change, Array.size_map] at hid
    rw [Machine.fields_change, Machine.fields_change, h.fields id hid]
  · simpa [Machine.change] using h.nextScope
  · simpa [Machine.change] using h.size

/-- **What a run adds to what was there, and nothing leads to, is of no account**: if all variables
and fields are as they were, the session leaves the like of what it left before. -/
theorem leavesAlike_of_keeps (hs : s.Sound .nothing) (hcontinues : s.Continues s')
    {clock : Nat → Float} (h : s.LeavesAlike clock clock s)
    (hkeeps : s.machine.Keeps s'.machine)
    (hclock : ∀ i, clock (s'.machine.readings + i) = clock (s.machine.readings + i)) :
    s.LeavesAlike clock clock s' := by
  have hplaces := keeps_change hkeeps s'.table.placing
  rw [hs.change_continues hcontinues] at hplaces
  have hremains : s.remains.Keeps s'.remains := { hplaces with }
  obtain ⟨p, hp⟩ := h
  exact ⟨p, Pairing.alike_of_keeps hp hremains rfl hclock⟩

/-! ## The limit of loops -/

section
variable {rounds : Nat} (hrounds : config.rounds ≤ rounds)
include hrounds

theorem executeVia_of_rounds {code : List (Stmt Label)}
    (h : (s.executeVia Access.byHops config code).1 ≠ .error .outOfRounds) :
    s.executeVia Access.byHops { config with rounds := rounds } code =
      s.executeVia Access.byHops config code := by
  unfold executeVia at h ⊢
  rcases prolongs_runProgram (.byHops s.table) config.clock hrounds config.nesting code s.machine
    with ⟨m, hout⟩ | hsame
  · rw [hout] at h
    exact absurd rfl h
  · dsimp only
    rw [hsame]

theorem bindAndExecute_of_rounds {code : List (Stmt Label)}
    (h : (s.bindAndExecute Access.byHops config code).1 ≠ some .outOfRounds) :
    s.bindAndExecute Access.byHops { config with rounds := rounds } code =
      s.bindAndExecute Access.byHops config code := by
  unfold bindAndExecute at h ⊢
  dsimp only [bind] at h ⊢
  cases hfault : (bindProgram config.nesting code s.table).fault with
  | some f => rfl
  | none =>
    rw [hfault] at h
    dsimp only at h ⊢
    split
    · rfl
    · rename_i herror
      rw [if_neg herror] at h
      rw [executeVia_of_rounds hrounds]
      intro hout
      generalize executeVia Access.byHops config code _ = ended at h hout
      obtain ⟨_, s⟩ := ended
      cases hout
      exact h rfl

/-- **The limit of loops shows in nothing** but in runs that it stops. -/
theorem run_of_rounds (h : (s.run config source).1 ≠ some .outOfRounds) :
    s.run { config with rounds := rounds } source = s.run config source := by
  have hread : ∀ s : Session, s.read { config with rounds := rounds } source =
      s.read config source := fun _ => rfl
  unfold run runVia at h ⊢
  rw [hread]
  generalize read config source { s with log := s.log.clear } = found at h ⊢
  obtain ⟨_ | _ | program, s⟩ := found
  · rfl
  · rfl
  · dsimp only at h ⊢
    rw [bindAndExecute_of_rounds hrounds h]

end

end

end Session
end LoxLang
