import LoxLang.Proofs.Command.Answers

/-! # Talking at the prompt

At the prompt one line is processed after another.  The text that comes out is, line by line, what
asks for the line and what the line prints, and the reports are those of the lines one after another
(`converse_talk`).  How a line ends and what it prints depends on the line and on what the lines
before it have left, up to numbers and up to what nothing leads to any more (`Talk.of_leavesAlike`).
After a line with errors a conversation goes on as if it had never been typed, unless it has changed
a variable or a field that was there (`leavesAlike_of_keeps`). -/

namespace LoxLang
namespace Console

/-! ## One line -/

section
variable {config : Config} {source : String} {s s' : Session} {v : Verdict} {printed : String}

theorem remains_process (config : Config) (source : String) (s : Session) :
    (process config .run source s).2.remains = (s.run config source).2.remains :=
  (idle_process config .run source s).remains_eq

/-- Processing in run mode leaves the machine as the run does. -/
theorem machine_process (config : Config) (source : String) (s : Session) :
    ∃ output, (process config .run source s).2.machine =
      { (s.run config source).2.machine with output := output } :=
  (idle_process config .run source s).machine

/-- **What a line makes beside what was there is of no account**, if all variables and fields are as
they were. -/
theorem leavesAlike_of_keeps (hs : Reached s)
    (hkeeps : s.machine.Keeps (process config .run source s).2.machine) {clock : Nat → Float}
    (hclock : ∀ i, clock ((process config .run source s).2.machine.readings + i) =
      clock (s.machine.readings + i)) :
    s.LeavesAlike clock clock (process config .run source s).2 := by
  obtain ⟨output, hmachine⟩ := machine_process config source s
  rw [hmachine] at hkeeps hclock
  rw [Session.LeavesAlike, remains_process]
  exact Session.leavesAlike_of_keeps hs.sound.1 (hs.sound.2.continues_run config source)
    (hs.leavesAlike clock) { hkeeps with } hclock

/-- A source that is rejected leaves the like of what was left before. -/
theorem Answers.leavesAlike_of_rejected {ds : List Diagnostic}
    (h : Answers config source s (.rejected ds) printed) (hs : Reached s) (clock : Nat → Float) :
    s.LeavesAlike clock clock (process config .run source s).2 := by
  have hsame := h.ends.of_rejected.2.1
  refine leavesAlike_of_keeps hs ?_ fun i => ?_
  · rw [hsame]
    exact ⟨fun _ _ => rfl, fun _ _ => rfl, Nat.le_refl _, Nat.le_refl _, Nat.le_refl _⟩
  · rw [hsame]

/-- **An answer depends only on what was left**, and decides what is left. -/
theorem Answers.of_leavesAlike (h : Answers config source s v printed) (hs : Reached s)
    (hs' : Reached s') {clock : Nat → Float} (halike : s.LeavesAlike config.clock clock s') :
    let config' := { config with clock := clock }
    Answers config' source s' v printed ∧ (process config .run source s).2.LeavesAlike config.clock
      clock (process config' .run source s').2 := by
  intro config'
  obtain ⟨v₁, m, m', printed₁, hends, hends', hout, hout', hafter⟩ :=
    Session.run_of_leavesAlike hs.sound.1 hs.sound.2 hs'.sound.1 hs'.sound.2 halike source
  obtain ⟨v', printed', h'⟩ := answers_process config' source s'
  obtain ⟨rfl, hm⟩ := hends.unique h.ends
  obtain ⟨rfl, hm'⟩ := hends'.unique h'.ends
  rw [hm, h.out, String.append_right_inj] at hout
  rw [hm', h'.out, String.append_right_inj] at hout'
  subst hout hout'
  refine ⟨h', ?_⟩
  rw [Session.LeavesAlike, remains_process, remains_process]
  exact hafter

/-- Only the limit of loops breaks a line off. -/
theorem Answers.exit_ne (h : Answers config source s v printed) (hs : Reached s)
    (hv : v ≠ .cutOff .outOfRounds) (f : Fault) :
    (process config .run source s).1 ≠ .brokenOff f := by
  rw [h.exit]
  cases v with
  | cutOff f' =>
    rcases h.of_cutOff hs with rfl | rfl
    · exact nofun
    · exact absurd rfl hv
  | rejected _ | failed _ | finished => exact nofun

end

/-! ## Line after line -/

/-- Lines lead from one session to another, none of them broken off: each is asked for, ends in some
way and prints some text. -/
inductive Talk (config : Config) :
    Session → List String → List (Verdict × String) → Session → Prop
  | nil (s : Session) : Talk config s [] [] s
  | cons {s s' : Session} {line : String} {lines : List String} {v : Verdict} {printed : String}
      {answers : List (Verdict × String)} (hline : Answers config line (ask s) v printed)
      (hv : v ≠ .cutOff .outOfRounds)
      (hlines : Talk config (process config .run line (ask s)).2 lines answers s') :
      Talk config s (line :: lines) ((v, printed) :: answers) s'

/-- What comes out line by line, each line's own text behind the text that asks for the line. -/
def shown (answers : List (Verdict × String)) : String :=
  String.join (answers.map fun a => promptText ++ a.2)

/-- What is passed on as reports line by line. -/
def reported (answers : List (Verdict × String)) : String :=
  String.join (answers.map fun a => a.1.notice)

section
variable {config : Config} {line : String} {lines : List String} {s : Session}

/-- The conversation goes on after a line that is not broken off. -/
theorem converse_cons (h : ∀ f, (process config .run line s).1 ≠ .brokenOff f) :
    converse config .run (line :: lines) s =
      converse config .run lines (ask (process config .run line s).2) := by
  rw [converse]
  split
  · rename_i f _ hprocess
    exact absurd (congrArg Prod.fst hprocess) (h f)
  · rename_i hprocess
    rw [hprocess]

theorem converse_brokenOff {f : Fault} (h : (process config .run line s).1 = .brokenOff f) :
    (converse config .run (line :: lines) s).1 = .brokenOff f := by
  rw [converse]
  split
  · rename_i hprocess
    rw [← h, hprocess]
  · rename_i hnone hprocess
    rw [hprocess] at h
    exact absurd h (hnone f)

/-- **A conversation that is not broken off** has an answer for each line, and nothing else comes
out. -/
theorem converse_talk (hs : Reached s)
    (h : (converse config .run lines (ask s)).1 ≠ .brokenOff .outOfRounds) :
    ∃ answers s', Talk config s lines answers s' ∧
      converse config .run lines (ask s) = (.success, (ask s').print "\n") ∧
      s'.machine.output = s.machine.output ++ shown answers ∧
      s'.log.written = s.log.written.map (· ++ reported answers) := by
  induction lines generalizing s with
  | nil =>
    have hnothing : (· ++ reported []) = (id : String → String) :=
      funext fun text => String.append_empty
    refine ⟨[], s, .nil s, rfl, String.append_empty.symm, ?_⟩
    rw [hnothing, Option.map_id]
    rfl
  | cons line lines ih =>
    have hasked : Reached (ask s) := hs.print promptText
    obtain ⟨v, printed, hline⟩ := answers_process config line (ask s)
    have hv : v ≠ .cutOff .outOfRounds := by
      rintro rfl
      exact h (converse_brokenOff hline.exit)
    have hgoes : converse config .run (line :: lines) (ask s) = _ :=
      converse_cons (hline.exit_ne hasked hv)
    rw [hgoes] at h ⊢
    obtain ⟨answers, s', hlines, hend, hout, herr⟩ := ih (hasked.process config .run line) h
    refine ⟨(v, printed) :: answers, s', .cons hline hv hlines, hend, ?_, ?_⟩
    · have hout' : (ask s).machine.output = s.machine.output ++ promptText := rfl
      rw [hout, hline.out, hout']
      simp [shown, String.append_assoc]
    · rw [herr, hline.err, Option.map_map]
      refine congrArg (Option.map · s.log.written) (funext fun text => ?_)
      simp [reported, String.append_assoc]

/-- The limit of loops shows in a conversation only if it breaks it off. -/
theorem converse_of_rounds {rounds : Nat} (hrounds : config.rounds ≤ rounds) (hs : Reached s)
    (h : (converse config .run lines s).1 ≠ .brokenOff .outOfRounds) :
    converse { config with rounds := rounds } .run lines s = converse config .run lines s := by
  induction lines generalizing s with
  | nil => rfl
  | cons line lines ih =>
    have hline : (process config .run line s).1 ≠ .brokenOff .outOfRounds :=
      fun hbroken => h (converse_brokenOff hbroken)
    have hsame := process_of_rounds hrounds hline
    obtain ⟨v, printed, hanswers⟩ := answers_process config line s
    have hnext : ∀ f, (process config .run line s).1 ≠ .brokenOff f := hanswers.exit_ne hs
      fun hv => hline (hanswers.exit.trans (congrArg Verdict.exit hv))
    have hgoes : converse { config with rounds := rounds } .run (line :: lines) s = _ :=
      converse_cons (hsame ▸ hnext)
    rw [converse_cons hnext] at h ⊢
    rw [hgoes, hsame]
    exact ih ((hs.process config .run line).print promptText) h

theorem Talk.unique {s₁ s₂ : Session} {answers answers' : List (Verdict × String)}
    (h : Talk config s lines answers s₁) (h' : Talk config s lines answers' s₂) :
    answers' = answers ∧ s₂ = s₁ := by
  induction h generalizing answers' with
  | nil s =>
    cases h'
    exact ⟨rfl, rfl⟩
  | cons hline _ _ ih =>
    cases h' with
    | cons hline' _ hlines' =>
      obtain ⟨rfl, rfl⟩ := hline.unique hline'
      obtain ⟨rfl, rfl⟩ := ih hlines'
      exact ⟨rfl, rfl⟩

/-- Lines that are typed where the like was left are answered in the same way. -/
theorem Talk.of_leavesAlike {s' s₁ : Session} {answers : List (Verdict × String)}
    (h : Talk config s lines answers s₁) (hs : Reached s) (hs' : Reached s') {clock : Nat → Float}
    (halike : s.LeavesAlike config.clock clock s') :
    ∃ s₁', Talk { config with clock := clock } s' lines answers s₁' ∧
      s₁.LeavesAlike config.clock clock s₁' := by
  induction h generalizing s' with
  | nil s => exact ⟨s', .nil s', halike⟩
  | @cons s _ line _ _ _ _ hline hv _ ih =>
    obtain ⟨hline', hafter⟩ :=
      hline.of_leavesAlike (hs.print promptText) (hs'.print promptText) halike
    obtain ⟨s₁', hlines', hend⟩ := ih ((hs.print promptText).process config .run line)
      ((hs'.print promptText).process { config with clock := clock } .run line) hafter
    exact ⟨s₁', .cons hline' hv hlines', hend⟩

end

/-- A prompt that no limit of loops breaks off shows what each line prints behind what asks for it,
and in the end what asks for a line and a line end. -/
theorem prompt_talk (config : Config) (lines : List String)
    (h : (prompt config .run lines).exit ≠ .brokenOff .outOfRounds) :
    ∃ answers s', Talk config start lines answers s' ∧
      prompt config .run lines = ⟨.success, shown answers ++ "> \n", reported answers⟩ := by
  obtain ⟨answers, s', htalk, hend, hout, herr⟩ := converse_talk .start h
  refine ⟨answers, s', htalk, ?_⟩
  have hout' : s'.machine.output = shown answers := hout.trans String.empty_append
  have herr' : s'.log.written = some (reported answers) :=
    herr.trans (congrArg some String.empty_append)
  rw [prompt, hend]
  show Outcome.mk .success (s'.machine.output ++ promptText ++ "\n") (s'.log.written.getD "") = _
  rw [hout', herr', String.append_assoc]
  rfl

/-- **What becomes of a source, and of lines at the prompt.**  In a session that any source texts
have led to, a source that is processed in run mode, and that no limit of loops breaks off, ends in
just one of four ways, the same under every higher limit, and the exit and the reports show in which.
It is rejected, with all lexical and all syntactic errors or, if there are none of these, all errors
of names and jumps, and nothing is executed or printed.  Or a statement fails with a runtime error;
what was printed until then stays.  Or it nests too deep.  Or it is executed to its end.

At the prompt the output is, line by line, what asks for the line and the line's own output, and in
the end what asks for a line and a line end; the command exits with success.  How lines end and what
they print depends on them and on what the lines before them have left, in all that the global
variables lead to and up to numbers: not on what was reported, and not on what a line has made and
left behind where nothing leads to it. -/
theorem prompt_answers :
    (∀ s, Reached s → ∀ config source,
      (process config .run source s).1 ≠ .brokenOff .outOfRounds →
      let after := (process config .run source s).2
      (∀ rounds, config.rounds ≤ rounds →
        process { config with rounds := rounds } .run source s = process config .run source s) ∧
      ∃ v printed, Answers config source s v printed ∧
        (∀ v' printed', Answers config source s v' printed' → v' = v ∧ printed' = printed) ∧
        (∀ v' : Verdict, v'.exit = v.exit → v'.notice = v.notice → v.Alike v') ∧
        ((∃ ds, v = .rejected ds ∧ ds ≠ [] ∧ printed = "" ∧ after.machine = s.machine ∧
            (∀ clock, s.LeavesAlike clock clock after) ∧
            ((∃ program errors,
                parse config.nesting (Source.tokenize source).tokens = .ok ⟨program, errors⟩ ∧
                ds = sourceReports source errors) ∨
              ∃ program, Accepted config source program ∧ ds = scopeReports program)) ∨
          (∃ e, v = .failed e ∧ ∃ program earlier st later m₁ before within,
            Accepted config source program ∧ s.Binds config program ∧
            (Stmt.relabelAll s.nextLabel program).1 = earlier ++ st :: later ∧
            Machine.runProgram (s.setting config program) config.nesting earlier s.machine =
              .ok () m₁ ∧
            Machine.execute (s.setting config program) config.nesting Machine.globalEnv st m₁ =
              .error (.error e) after.machine ∧
            m₁.output = s.machine.output ++ before ∧ printed = before ++ within) ∨
          v = .cutOff .tooDeep ∨
          (v = .finished ∧ ∃ program, Accepted config source program ∧ s.Binds config program ∧
            s.executed config program = .ok () after.machine))) ∧
    (∀ config lines, (prompt config .run lines).exit ≠ .brokenOff .outOfRounds →
      (∀ rounds, config.rounds ≤ rounds →
        prompt { config with rounds := rounds } .run lines = prompt config .run lines) ∧
      ∃ answers s', Talk config start lines answers s' ∧
        prompt config .run lines = ⟨.success, shown answers ++ "> \n", reported answers⟩) ∧
    (∀ s s', Reached s → Reached s' → ∀ config clock, s.LeavesAlike config.clock clock s' →
      ∀ lines answers s₁, Talk config s lines answers s₁ →
        ∃ s₁', Talk { config with clock := clock } s' lines answers s₁' ∧
          s₁.LeavesAlike config.clock clock s₁') ∧
    ∀ s, Reached s → ∀ config source, let after := (process config .run source s).2
      s.machine.Keeps after.machine → ∀ clock,
      (∀ i, clock (after.machine.readings + i) = clock (s.machine.readings + i)) →
        s.LeavesAlike clock clock after := by
  refine ⟨fun s hs config source hkept => ?_, fun config lines hkept => ?_,
    fun s s' hs hs' config clock halike lines answers s₁ h => h.of_leavesAlike hs hs' halike,
    fun s hs config source hkeeps clock hclock => leavesAlike_of_keeps hs hkeeps hclock⟩
  · obtain ⟨v, printed, h⟩ := answers_process config source s
    refine ⟨fun rounds hrounds => process_of_rounds hrounds hkept, v, printed, h,
      fun v' printed' h' => h.unique h',
      fun v' hexit hnotice => Verdict.alike_of_observed hexit hnotice, ?_⟩
    cases v with
    | rejected ds =>
      obtain ⟨hsome, hmachine, hreports⟩ := h.ends.of_rejected
      have hsame := h.out
      rw [hmachine] at hsame
      have hprinted : printed = "" := String.append_eq_left_iff.mp hsame.symm
      exact .inl ⟨ds, rfl, hsome, hprinted, hmachine, h.leavesAlike_of_rejected hs, hreports⟩
    | failed e =>
      obtain ⟨program, earlier, st, later, m₁, before, within, haccepted, hbinds, hprogram, hearlier,
        hst, hbefore, hout⟩ := h.ends.of_failed
      have hprinted := (String.append_right_inj _).mp (h.out.symm.trans hout)
      exact .inr (.inl ⟨e, rfl, program, earlier, st, later, m₁, before, within, haccepted, hbinds,
        hprogram, hearlier, hst, hbefore, hprinted⟩)
    | cutOff f =>
      rcases h.of_cutOff hs with rfl | rfl
      · exact .inr (.inr (.inl rfl))
      · exact absurd h.exit hkept
    | finished => exact .inr (.inr (.inr ⟨rfl, h.ends.of_finished⟩))
  · have hasked : Reached (ask start) := Reached.start.print promptText
    refine ⟨fun rounds hrounds => ?_, prompt_talk config lines hkept⟩
    rw [prompt, converse_of_rounds hrounds hasked hkept]
    rfl

/-! ### Lines that leave nothing -/

/-- A line that makes a variable, one that is rejected, one that fails in a block, and one that
prints. -/
def slippingLines : List String :=
  ["var a = \"one\";\n", "print a +;\n", "{ var b = nil + nil; }\n", "print a;\n"]

/-- The session at the prompt after the first of the lines. -/
def madeSession : Session := (process Session.shortly .run "var a = \"one\";\n" (ask start)).2

/-- The session after the second of the lines. -/
def slippedSession : Session := (process Session.shortly .run "print a +;\n" madeSession).2

/-- The session after the third of the lines. -/
def failedSession : Session :=
  (process Session.shortly .run "{ var b = nil + nil; }\n" slippedSession).2

/-- Whether the global variables are the clock and what the first of the lines makes. -/
def holdsOne (s : Session) : Bool :=
  match s.machine.globals.entries with
  | [("clock", .clock), ("a", .datum (.text "one"))] => true
  | _ => false

theorem globals_of_holdsOne {s s' : Session} (h : holdsOne s) (h' : holdsOne s') :
    s'.machine.globals = s.machine.globals := by
  have hentries : ∀ {s}, holdsOne s →
      s.machine.globals = ⟨[("clock", .clock), ("a", .datum (.text "one"))]⟩ := by
    intro s h
    unfold holdsOne at h
    split at h
    · rename_i heq
      exact congrArg Bindings.mk heq
    · cases h
  rw [hentries h, hentries h']

/-- The block has made a scope, in which nothing came to be, and all else is as it was. -/
theorem keeps_failedSession : slippedSession.machine.Keeps failedSession.machine := by
  have hglobals : failedSession.machine.globals = slippedSession.machine.globals :=
    globals_of_holdsOne (by decide +kernel) (by decide +kernel)
  refine ⟨fun id hid => ?_, fun id hid => ?_, by decide +kernel, by decide +kernel,
    by decide +kernel⟩
  · have hone : slippedSession.machine.store.nextId = 1 := by decide +kernel
    rw [hone, Nat.lt_one_iff] at hid
    subst hid
    exact hglobals
  · have hnone : slippedSession.machine.objects.size = 0 := by decide +kernel
    rw [hnone] at hid
    exact absurd hid (Nat.not_lt_zero id)

theorem prompt_answers_slipping :
    (∃ answers s', Talk Session.shortly start slippingLines answers s' ∧
      shown answers ++ "> \n" = "> > > > one\n> \n") ∧
    Reached madeSession ∧ Reached failedSession ∧ slippedSession.log.hasError ∧
      failedSession.log.hasRuntimeError ∧
      failedSession.machine.store.nextId ≠ madeSession.machine.store.nextId ∧
      ∃ answers s₁ s₁', Talk Session.shortly madeSession ["print a;\n"] answers s₁ ∧
        Talk Session.shortly failedSession ["print a;\n"] answers s₁' := by
  obtain ⟨hone, hlines, htwo, hkeeps⟩ := prompt_answers
  have hmade : Reached madeSession := (Reached.start.print promptText).process ..
  have hslipped : Reached slippedSession := hmade.process ..
  have hfailed : Reached failedSession := hslipped.process ..
  have hrejects : (process Session.shortly .run "print a +;\n" madeSession).1 = .badInput := by
    decide +kernel
  have hgoes : (prompt Session.shortly .run slippingLines).exit ≠ .brokenOff .outOfRounds := by
    decide +kernel
  have hout : (prompt Session.shortly .run slippingLines).out = "> > > > one\n> \n" := by
    decide +kernel
  have hgoes' : (converse Session.shortly .run ["print a;\n"] (ask madeSession)).1 ≠
      .brokenOff .outOfRounds := by decide +kernel
  -- the line that is rejected leaves the like of what was left, and so does the one that fails
  have hrejected : madeSession.LeavesAlike (fun _ => 0) (fun _ => 0) slippedSession := by
    obtain ⟨_, v, printed, h, _, _, hways⟩ := hone madeSession hmade Session.shortly
      "print a +;\n" (fun h => nomatch hrejects.symm.trans h)
    rcases hways with ⟨_, _, _, _, _, hleaves, _⟩ | ⟨_, rfl, _⟩ | rfl | ⟨rfl, _⟩
    · exact hleaves _
    all_goals cases h.exit.symm.trans hrejects
  have hfails : slippedSession.LeavesAlike (fun _ => 0) (fun _ => 0) failedSession := by
    have hkept := keeps_failedSession
    unfold failedSession at hkept ⊢
    exact hkeeps slippedSession hslipped Session.shortly _ hkept _ fun _ => rfl
  obtain ⟨_, answers, s', htalk, hprompt⟩ := hlines Session.shortly slippingLines hgoes
  rw [hprompt] at hout
  obtain ⟨answers', s₁, htalk₁, _⟩ := converse_talk hmade hgoes'
  obtain ⟨s₂, htalk₂, _⟩ := htwo _ _ hmade hslipped Session.shortly _ hrejected _ _ _ htalk₁
  obtain ⟨s₃, htalk₃, _⟩ := htwo _ _ hslipped hfailed Session.shortly _ hfails _ _ _ htalk₂
  exact ⟨⟨answers, s', htalk, hout⟩, hmade, hfailed, by decide +kernel, by decide +kernel,
    by decide +kernel, answers', s₁, s₃, htalk₁, htalk₃⟩

end Console
end LoxLang
