import LoxLang.Proofs.Scope.StaticScope
import LoxLang.Proofs.Session.Joining

/-! # What runs leave behind

A run adds bindings to the table and drops those of references outside all functions again, however
it ends.  So the table only grows at its end, by bindings of references inside functions, and what a
function asks for when it is called is there as long as the session lasts (`entries_run`).

A source with errors before execution changes nothing that a program can see: variables, objects and
output stay as they are.  But if its errors are found by the binding pass, the bindings of its
functions stay in the table, although no function was made of them (`run_rejected`). -/

namespace LoxLang

/-! ## Bindings inside functions -/

/-- Whether a place is inside a function or method. -/
def Site.inFunction {ι : Type} (site : Site ι) : Bool := site.around.function?.isSome

/-- The bindings of the references inside the functions of a program, in the order of their
places. -/
def bindingsInFunctions (program : List (Stmt Label)) : List Binding :=
  ((sitesOf program).filter Site.inFunction).filterMap Site.binding?

theorem Site.topLevel_of_binding? {site : Site Label} {b : Binding}
    (h : site.binding? = some b) : b.topLevel = !site.inFunction := by
  obtain ⟨occurrence, around⟩ := site
  cases occurrence with
  | reference use ref =>
    obtain ⟨hops, _, rfl⟩ := Option.map_eq_some_iff.mp h
    simp [inFunction]
  | _ => cases h

/-- The bindings that are not dropped are those of places inside functions. -/
theorem filter_topLevel_binding? (sites : List (Site Label)) :
    (sites.filterMap Site.binding?).filter (fun b => !b.topLevel) =
      (sites.filter Site.inFunction).filterMap Site.binding? := by
  induction sites with
  | nil => rfl
  | cons site sites ih =>
    cases hb : site.binding? with
    | none =>
      rw [List.filterMap_cons_none hb, ih, List.filter_cons]
      split
      · rw [List.filterMap_cons_none hb]
      · rfl
    | some b =>
      have hlevel := Site.topLevel_of_binding? hb
      rw [List.filterMap_cons_some hb, List.filter_cons, List.filter_cons, ih, hlevel,
        Bool.not_not]
      split
      · rw [List.filterMap_cons_some hb]
      · rfl

/-! ## Functions that a machine holds -/

/-- A value has a function in it: it is the function, or a class or an object with the function as
a method, its own or inherited. -/
def Value.Holds (f : Closure) : Value → Prop
  | .datum _ | .clock => False
  | .function g => g = f
  | .classOf c | .object _ c => ∃ level ∈ c.lineage, ∃ name, level.methods.get? name = some f

/-- A function is in a variable of some scope or in a field of some object. -/
def Machine.Holds (f : Closure) (m : Machine) : Prop :=
  ∃ id name v, (m.store.get? id name = some v ∨ (m.fields id).get? name = some v) ∧ v.Holds f

theorem Machine.Sound.ready_of_holds {Q : Demand Label} {W : Plan} {m : Machine}
    (hm : m.Sound Q W) {f : Closure} (hf : m.Holds f) :
    ∃ around kind context, kind ≠ .outside ∧ f.declaration.Ready Q around kind context := by
  obtain ⟨id, name, v, hv, hf⟩ := hf
  have hsound : v.Sound Q W m.store := hv.elim (hm.values id name v) (hm.fields id name v)
  cases v with
  | datum | clock => cases hf
  | function g =>
    obtain rfl : g = f := hf
    obtain ⟨around, kind, context, hat⟩ := hsound
    exact ⟨_, _, _, hat.inside, hat.ready⟩
  | classOf c | object _ c =>
    obtain ⟨level, hlevel, name, hmethod⟩ := hf
    obtain ⟨around, kind, context, hat⟩ := hsound level hlevel name f hmethod
    exact ⟨_, _, _, hat.inside, hat.ready⟩

/-- A reference that the binding pass finds in a labelled program stands at a place of it, and has
the binding of the place. -/
theorem exists_site_of_use {n : Label} {program : List (Stmt Unit)}
    (hwf : ∀ st ∈ program, st.WellFormed) {u : Use Label}
    (hu : .use u ∈ visitProgram (Stmt.relabelAll n program).1) :
    ∃ site ∈ sitesOf (Stmt.relabelAll n program).1, site.label? = some u.ref.label ∧
      site.binding? = u.binding? := by
  have hfills := fills_sitesOf n program
  have hrecorded := recorded_of_visitProgram (t := .empty) (List.forall_mem_nil _) program hu
  have hnew : n ≤ u.ref.label := (within_visitProgram n program).bounds _ (by
    rw [labelsOf_eq]
    exact List.mem_map_of_mem (mem_usesOf.mpr hu)) |>.1
  have hmem : u.ref.label ∈ labelsAt (sitesOf (Stmt.relabelAll n program).1) :=
    hfills.mem_of_bounds hnew hrecorded.lt
  obtain ⟨site, hsite, hlabel⟩ := List.mem_filterMap.mp hmem
  refine ⟨site, hsite, hlabel, ?_⟩
  have hentries := BindingTable.entries_recordAll_of_new (t := .empty)
    (nodup_labels_of_labelsAt hfills.nodup) fun _ _ _ h => absurd h List.not_mem_nil
  rw [← find?_binding?_of_mem hfills.nodup hsite hlabel, ← hrecorded.find_eq,
    filterMap_binding?_visitProgram (Stmt.wellFormed_relabelAll hwf), BindingTable.find?, hentries]
  rfl

namespace Session

/-! ## One run -/

section
variable {config : Config} {source : String} {program : List (Stmt Unit)} {s s' s'' : Session}

/-- Execution leaves the table alone, and what was reported before it. -/
theorem executeVia_keeps (access : BindingTable → Access) (config : Config)
    (program : List (Stmt Label)) (s : Session) :
    (s.executeVia access config program).2.table = s.table ∧
      (s.executeVia access config program).2.nextLabel = s.nextLabel ∧
      (s.executeVia access config program).2.log.hasError = s.log.hasError := by
  unfold executeVia
  split <;> exact ⟨rfl, rfl, rfl⟩

/-- What a run does to machine and table, by how far it gets.  A source that is not accepted by the
grammar, or nests too deep for it, does nothing.  The bindings of an accepted one are recorded and
dropped again; nothing is executed if there are errors. -/
theorem run_cases (config : Config) (source : String) (s : Session) :
    ((s.run config source).2.machine = s.machine ∧ (s.run config source).2.table = s.table ∧
        (s.run config source).2.nextLabel = s.nextLabel ∧
        ((s.run config source).2.log.hasError → ∀ program, ¬ Accepted config source program)) ∨
      ∃ program, Accepted config source program ∧
        (s.run config source).2.table = (bindProgram config.nesting
          (Stmt.relabelAll s.nextLabel program).1 s.table).table.dropTopLevel ∧
        (s.run config source).2.nextLabel = (Stmt.relabelAll s.nextLabel program).2 ∧
        ((s.run config source).2.log.hasError →
          (s.run config source).2.machine = s.machine ∧ (bindProgram config.nesting
            (Stmt.relabelAll s.nextLabel program).1 s.table).fault = none) := by
  unfold run runVia
  rcases read_cases config source { s with log := s.log.clear } with
    hread | ⟨log, ⟨hread, herror⟩ | ⟨program, hread, hlog, haccepted⟩⟩
  · rw [hread]
    exact .inl ⟨rfl, rfl, rfl, nofun⟩
  · refine .inl ?_
    have hnot : ∀ program, ¬ Accepted config source program := by
      intro program haccepted
      have hsome : read config source { s with log := s.log.clear } =
          (.ok (some program), { s with log := s.log.clear }) := read_of_accepted haccepted s
      cases hread.symm.trans hsome
    rw [hread]
    exact ⟨rfl, rfl, rfl, fun _ => hnot⟩
  · rw [hread]
    refine .inr ⟨program, haccepted, ?_⟩
    simp only [adopt, bindAndExecute, bind]
    generalize bindProgram config.nesting (Stmt.relabelAll s.nextLabel program).1 s.table = found
    obtain ⟨table, errors, fault⟩ := found
    cases fault with
    | some f => exact ⟨rfl, rfl, fun h => absurd (hlog.symm.trans h) Bool.false_ne_true⟩
    | none =>
      dsimp only
      split
      · exact ⟨rfl, rfl, fun _ => ⟨rfl, rfl⟩⟩
      · rename_i hclean
        obtain ⟨htable, hlabel, herror⟩ := executeVia_keeps Access.byHops config
          (Stmt.relabelAll s.nextLabel program).1 ⟨s.machine, table,
            (Stmt.relabelAll s.nextLabel program).2,
            log.reportAll (errors.map ScopeError.diagnostic)⟩
        split
        all_goals
          rename_i hexec
          rw [hexec] at htable hlabel herror
          exact ⟨congrArg BindingTable.dropTopLevel htable, hlabel,
            fun h => absurd (herror.symm.trans h) hclean⟩

/-- Between runs the table has bindings inside functions only, of labels that were given out. -/
structure Settled (s : Session) : Prop where
  below : s.table.Below s.nextLabel
  inside : ∀ b ∈ s.table.entries, b.topLevel = false

/-- A session goes on: labels are given out, and bindings inside functions with such labels come
behind those that are there. -/
structure Continues (s s' : Session) : Prop where
  le : s.nextLabel ≤ s'.nextLabel
  added : ∃ bs, s'.table.entries = s.table.entries ++ bs ∧
    ∀ b ∈ bs, s.nextLabel ≤ b.label ∧ b.label < s'.nextLabel ∧ b.topLevel = false

theorem settled_start (passesOn : Bool) : (start passesOn).Settled :=
  ⟨List.forall_mem_nil _, List.forall_mem_nil _⟩

theorem Continues.refl (s : Session) : s.Continues s :=
  ⟨Nat.le_refl _, [], (List.append_nil _).symm, List.forall_mem_nil _⟩

theorem Continues.trans (h : s.Continues s') (h' : s'.Continues s'') : s.Continues s'' := by
  obtain ⟨hle, bs, hbs, hadded⟩ := h
  obtain ⟨hle', bs', hbs', hadded'⟩ := h'
  refine ⟨Nat.le_trans hle hle', bs ++ bs', by rw [hbs', hbs, List.append_assoc], ?_⟩
  refine List.forall_mem_append.mpr ⟨fun b hb => ?_, fun b hb => ?_⟩
  · obtain ⟨hlo, hhi, hlevel⟩ := hadded b hb
    exact ⟨hlo, Nat.lt_of_lt_of_le hhi hle', hlevel⟩
  · obtain ⟨hlo, hhi, hlevel⟩ := hadded' b hb
    exact ⟨Nat.le_trans hle hlo, hhi, hlevel⟩

theorem Settled.continues (hs : s.Settled) (h : s.Continues s') : s'.Settled := by
  obtain ⟨hle, bs, hbs, hadded⟩ := h
  constructor
  · intro b hb
    rw [hbs, List.mem_append] at hb
    rcases hb with hb | hb
    · exact Nat.lt_of_lt_of_le (hs.below b hb) hle
    · exact (hadded b hb).2.1
  · intro b hb
    rw [hbs, List.mem_append] at hb
    rcases hb with hb | hb
    · exact hs.inside b hb
    · exact (hadded b hb).2.2

/-- Under a label that was given out, nothing changes. -/
theorem Continues.find?_eq (h : s.Continues s') {label : Label} (hlabel : label < s.nextLabel) :
    s'.table.find? label = s.table.find? label := by
  obtain ⟨_, bs, hbs, hadded⟩ := h
  have hnone : bs.find? (fun b => b.label == label) = none := by
    refine List.find?_eq_none.mpr fun b hb heq => ?_
    have hle : s.nextLabel ≤ b.label := (hadded b hb).1
    rw [eq_of_beq heq] at hle
    exact absurd hle (Nat.not_le_of_lt hlabel)
  rw [BindingTable.find?, hbs, List.find?_append, hnone, Option.or_none]
  rfl

/-- Of new bindings that are recorded, those inside functions stay. -/
theorem Settled.entries_dropTopLevel (hs : s.Settled) {bs : List Binding}
    (hnodup : (bs.map Binding.label).Nodup) (hnew : ∀ b ∈ bs, s.nextLabel ≤ b.label) :
    (s.table.recordAll bs).dropTopLevel.entries =
      s.table.entries ++ bs.filter (fun b => !b.topLevel) := by
  have hrecord : (s.table.recordAll bs).entries = s.table.entries ++ bs :=
    BindingTable.entries_recordAll_of_new hnodup fun b hb c hc =>
      Nat.ne_of_lt (Nat.lt_of_lt_of_le (hs.below c hc) (hnew b hb))
  have hkeep : s.table.entries.filter (fun b => !b.topLevel) = s.table.entries :=
    List.filter_eq_self.mpr fun b hb => by rw [hs.inside b hb, Bool.not_false]
  rw [BindingTable.dropTopLevel, hrecord, List.filter_append, hkeep]

/-- What the binding pass adds to a settled session, as far as it gets. -/
theorem Settled.bindProgram_entries (hs : s.Settled) (hwf : ∀ st ∈ program, st.WellFormed)
    (depth : Nat) :
    ∃ bs, bs <+: (sitesOf (Stmt.relabelAll s.nextLabel program).1).filterMap Site.binding? ∧
      (bindProgram depth (Stmt.relabelAll s.nextLabel program).1 s.table).table.entries =
        s.table.entries ++ bs ∧
      (bindProgram depth (Stmt.relabelAll s.nextLabel program).1
        s.table).table.dropTopLevel.entries =
        s.table.entries ++ bs.filter (fun b => !b.topLevel) ∧
      ((bindProgram depth (Stmt.relabelAll s.nextLabel program).1 s.table).fault = none →
        bs = (sitesOf (Stmt.relabelAll s.nextLabel program).1).filterMap Site.binding?) := by
  have hwf := Stmt.wellFormed_relabelAll (n := s.nextLabel) hwf
  obtain ⟨gs, hbegun, htable, hend⟩ := bindProgram_spec (Stmt.known_of_wellFormed hwf) depth
    s.table
  have hbs : gs.filterMap Finding.binding? <+:
      (sitesOf (Stmt.relabelAll s.nextLabel program).1).filterMap Site.binding? := by
    rw [← filterMap_binding?_visitProgram hwf]
    exact hbegun.filterMap _
  have hfills := fills_sitesOf s.nextLabel program
  have hnodup : ((gs.filterMap Finding.binding?).map Binding.label).Nodup :=
    (nodup_labels_of_labelsAt hfills.nodup).sublist (hbs.sublist.map _)
  have hnew : ∀ b ∈ gs.filterMap Finding.binding?, s.nextLabel ≤ b.label := fun b hb =>
    hfills.le_of_mem (mem_labelsAt_of_binding? (hbs.subset hb))
  refine ⟨_, hbs, ?_, ?_, fun hfault => ?_⟩
  · rw [htable]
    exact BindingTable.entries_recordAll_of_new hnodup fun b hb c hc =>
      Nat.ne_of_lt (Nat.lt_of_lt_of_le (hs.below c hc) (hnew b hb))
  · rw [htable, hs.entries_dropTopLevel hnodup hnew]
  · rw [hfault] at hend
    rw [hend.1, filterMap_binding?_visitProgram hwf]

/-- The bindings of an accepted program that the binding pass gets through, before and after those
outside functions are dropped. -/
theorem Settled.entries_of_fault_eq_none (hs : s.Settled)
    (haccepted : Accepted config source program)
    (hfault : (bindProgram config.nesting (Stmt.relabelAll s.nextLabel program).1
      s.table).fault = none) :
    (bindProgram config.nesting (Stmt.relabelAll s.nextLabel program).1 s.table).table.entries =
        s.table.entries ++
          (sitesOf (Stmt.relabelAll s.nextLabel program).1).filterMap Site.binding? ∧
      (bindProgram config.nesting (Stmt.relabelAll s.nextLabel program).1
          s.table).table.dropTopLevel.entries =
        s.table.entries ++ bindingsInFunctions (Stmt.relabelAll s.nextLabel program).1 := by
  obtain ⟨bs, _, hentries, hdropped, hall⟩ :=
    hs.bindProgram_entries haccepted.wellFormed config.nesting
  obtain rfl := hall hfault
  rw [filter_topLevel_binding?] at hdropped
  exact ⟨hentries, hdropped⟩

/-- **Every run only adds bindings inside functions**, with new labels. -/
theorem Settled.continues_run (hs : s.Settled) (config : Config) (source : String) :
    s.Continues (s.run config source).2 := by
  rcases run_cases config source s with ⟨_, htable, hlabel, _⟩ | ⟨program, haccepted, htable,
    hlabel, _⟩
  · refine ⟨Nat.le_of_eq hlabel.symm, [], ?_, List.forall_mem_nil _⟩
    rw [htable, List.append_nil]
  · have hwf := Stmt.wellFormed_relabelAll (n := s.nextLabel) haccepted.wellFormed
    have hwithin := within_visitProgram s.nextLabel program
    obtain ⟨bs, hbegun, _, hdropped, _⟩ :=
      hs.bindProgram_entries haccepted.wellFormed config.nesting
    refine ⟨hwithin.le.trans_eq hlabel.symm, _, by rw [htable, hdropped], ?_⟩
    intro b hb
    obtain ⟨hb, hlevel⟩ := List.mem_filter.mp hb
    rw [← filterMap_binding?_visitProgram hwf] at hbegun
    obtain ⟨hlo, hhi⟩ := le_label_of_binding? hwithin b (hbegun.subset hb)
    exact ⟨hlo, Nat.lt_of_lt_of_eq hhi hlabel.symm, by simpa using hlevel⟩

theorem Settled.continues_runSources (hs : s.Settled) (sources : List (Config × String)) :
    s.Continues (s.runSources sources).2 := by
  induction sources generalizing s with
  | nil => exact .refl s
  | cons first rest ih =>
    have hrun := hs.continues_run first.1 first.2
    exact hrun.trans (ih (hs.continues hrun))

/-- A session that any runs have led to is settled. -/
theorem settled_of_runSources {passesOn : Bool} {history : List (Config × String)}
    (hs : ((start passesOn).runSources history).2 = s) : s.Settled :=
  hs ▸ (settled_start passesOn).continues ((settled_start passesOn).continues_runSources history)

/-- However the execution of an accepted program ends, the bindings outside functions are dropped
then. -/
theorem table_run_of_accepted (h : Accepted config source program)
    (hbinds : s.Binds config program) :
    (s.run config source).2.table = (bindProgram config.nesting
        (Stmt.relabelAll s.nextLabel program).1 s.table).table.dropTopLevel ∧
      (s.run config source).2.nextLabel = (Stmt.relabelAll s.nextLabel program).2 := by
  rw [run_of_accepted h hbinds, hbinds.bind_eq h.wellFormed]
  cases s.executed config program with
  | ok a m => exact ⟨rfl, rfl⟩
  | error e m => cases e <;> exact ⟨rfl, rfl⟩

end

/-! ## Functions that a session holds -/

/-- A labelled program is that of an accepted source among those that were run. -/
def Ran (runs : List (Config × String)) (labelled : List (Stmt Label)) : Prop :=
  ∃ ran ∈ runs, ∃ program n, Accepted ran.1 ran.2 program ∧
    labelled = (Stmt.relabelAll n program).1

/-- A reference of a program that was run. -/
def RanUse (runs : List (Config × String)) (u : Use Label) : Prop :=
  ∃ labelled, Ran runs labelled ∧ .use u ∈ visitProgram labelled

theorem sound_runSources_among {runs sources : List (Config × String)} {s : Session}
    (hs : s.Sound (.ofUses (RanUse runs))) (hsources : ∀ ran ∈ sources, ran ∈ runs) :
    (s.runSources sources).2.Sound (.ofUses (RanUse runs)) := by
  induction sources generalizing s with
  | nil => exact hs
  | cons first rest ih =>
    obtain ⟨hfirst, hrest⟩ := List.forall_mem_cons.mp hsources
    refine ih ?_ hrest
    refine (runVia_inStep (agrees_recorded _) hs ?_).2.2
    exact fun program haccepted _ _ => met_ofUses fun u hu =>
      ⟨_, ⟨first, hfirst, program, s.nextLabel, haccepted, rfl⟩, hu⟩

/-- The references of a function that the machine holds after some runs stand at places of the
programs that were run, and the table has the bindings of these places. -/
theorem find?_of_holds (passesOn : Bool) (runs : List (Config × String)) {f : Closure}
    (hf : ((start passesOn).runSources runs).2.machine.Holds f) :
    ∃ around kind context, kind ≠ .outside ∧
      ∀ u, .use u ∈ Function.visit around kind context f.declaration →
        ∃ labelled, Ran runs labelled ∧ ∃ site ∈ sitesOf labelled,
          site.label? = some u.ref.label ∧
          ((start passesOn).runSources runs).2.table.find? u.ref.label = site.binding? := by
  have hsound := sound_runSources_among (sound_start (.ofUses (RanUse runs)) passesOn) fun _ h => h
  obtain ⟨W, hmachine⟩ := hsound.machine
  obtain ⟨around, kind, context, hinside, hready⟩ := hmachine.ready_of_holds hf
  refine ⟨around, kind, context, hinside, fun u hu => ?_⟩
  obtain ⟨hrecorded, _, ⟨ran, hran, program, n, haccepted, rfl⟩, hfound⟩ := hready.good _ hu
  obtain ⟨site, hsite, hlabel, hbinding⟩ := exists_site_of_use haccepted.wellFormed hfound
  exact ⟨_, ⟨ran, hran, program, n, haccepted, rfl⟩, site, hsite, hlabel,
    hrecorded.find_eq.trans hbinding.symm⟩

theorem runSources_append (sources more : List (Config × String)) (s : Session) :
    (s.runSources (sources ++ more)).2 = ((s.runSources sources).2.runSources more).2 := by
  induction sources generalizing s with
  | nil => rfl
  | cons first rest ih => exact ih _

/-! ## After an accepted source -/

/-- **What a run leaves in the table.**  In a session that any runs have led to, let a source be
accepted and its program break no rule about names.  Then, however its execution ends, the table
after the run is the one before it and behind that the bindings of the references inside functions,
in the order in which the binding pass recorded them together with all others; nothing in it is
outside functions.  After any further runs each reference inside a function of the program still has
its binding, and so has every reference of every function that the machine holds: it stands in a
program that was run, and the table has the binding of its place. -/
theorem entries_run (passesOn : Bool) (history : List (Config × String)) (config : Config)
    (source : String) (program : List (Stmt Unit)) {s : Session}
    (hs : ((start passesOn).runSources history).2 = s)
    (haccepted : Accepted config source program) (hbinds : s.Binds config program) :
    let labelled := (Stmt.relabelAll s.nextLabel program).1
    let after := (s.run config source).2
    (bindProgram config.nesting labelled s.table).table.entries =
        s.table.entries ++ (sitesOf labelled).filterMap Site.binding? ∧
      after.table.entries = s.table.entries ++ bindingsInFunctions labelled ∧
      (∀ b ∈ after.table.entries, b.topLevel = false) ∧
      ∀ later, let now := (after.runSources later).2
        (∀ site ∈ sitesOf labelled, site.inFunction → ∀ label, site.label? = some label →
          now.table.find? label = site.binding?) ∧
        ∀ f, now.machine.Holds f → ∃ around kind context, kind ≠ .outside ∧
          ∀ u, .use u ∈ Function.visit around kind context f.declaration →
            ∃ ran, Ran (history ++ (config, source) :: later) ran ∧ ∃ site ∈ sitesOf ran,
              site.label? = some u.ref.label ∧
              now.table.find? u.ref.label = site.binding? := by
  intro labelled after
  have hsettled := settled_of_runSources hs
  have hrun : s.Continues after := hsettled.continues_run config source
  have hsettled' : after.Settled := hsettled.continues hrun
  obtain ⟨hentries, hdropped⟩ := hsettled.entries_of_fault_eq_none haccepted hbinds.fault
  obtain ⟨htable, hlabels⟩ := table_run_of_accepted haccepted hbinds
  have hafter : after.table.entries = s.table.entries ++ bindingsInFunctions labelled := by
    rw [htable]
    exact hdropped
  refine ⟨hentries, hafter, hsettled'.inside, fun later => ⟨?_, fun f hf => ?_⟩⟩
  · intro site hsite hinside label hlabel
    have hmem : label ∈ labelsAt (sitesOf labelled) :=
      List.mem_filterMap.mpr ⟨site, hsite, hlabel⟩
    have hfills : Label.Fills s.nextLabel after.nextLabel (labelsAt (sitesOf labelled)) := by
      rw [hlabels]
      exact fills_sitesOf s.nextLabel program
    have hold : s.table.entries.find? (fun b => b.label == label) = none :=
      BindingTable.find?_eq_none_of_below hsettled.below (hfills.le_of_mem hmem)
    have hnodup : (labelsAt ((sitesOf labelled).filter Site.inFunction)).Nodup :=
      hfills.nodup.sublist (List.filter_sublist.filterMap _)
    -- later runs leave the label alone, and earlier ones have not given it out
    rw [(hsettled'.continues_runSources later).find?_eq (hfills.lt_of_mem hmem),
      BindingTable.find?, hafter, List.find?_append, hold, Option.none_or]
    exact find?_binding?_of_mem hnodup (List.mem_filter.mpr ⟨hsite, hinside⟩) hlabel
  · have hnow : ((start passesOn).runSources (history ++ (config, source) :: later)).2 =
        (after.runSources later).2 := by
      rw [runSources_append, hs]
      rfl
    rw [← hnow] at hf ⊢
    exact find?_of_holds passesOn _ hf

/-- A function that counts, made in a block, and then an error. -/
def countingSource : String :=
  "\x7b var n = 1; fun up() \x7b n = n + 1; return n; \x7d print up(); print missing; \x7d"

theorem entries_run_counting :
    ∃ program, ((start true).runSources [(shortly, "var seen = \"kept\";")]).2 = seenSession ∧
      Accepted shortly countingSource program ∧ seenSession.Binds shortly program ∧
      (seenSession.run shortly countingSource).2.table.size = 3 ∧
      (seenSession.run shortly countingSource).2.table.entries = seenSession.table.entries ++
        bindingsInFunctions (Stmt.relabelAll seenSession.nextLabel program).1 := by
  have hseen : ((start true).runSources [(shortly, "var seen = \"kept\";")]).2 = seenSession := by
    rw [seenSession]
  have hthrough : (seenSession.run shortly countingSource).1 = none := by decide +kernel
  obtain ⟨program, haccepted, hbinds⟩ := accepted_of_through hthrough (by decide +kernel)
  obtain ⟨_, hentries, _⟩ := entries_run true [(shortly, "var seen = \"kept\";")] shortly
    countingSource program hseen haccepted hbinds
  exact ⟨program, hseen, haccepted, hbinds, by decide +kernel, hentries⟩

/-! ## After a rejected source -/

/-- **A source with errors before execution does nothing that a program can see**: output, variables
and objects are those before the run, in any session that any runs have led to.  The table is the
same, too, if the source has lexical or syntactic errors.  If only the binding pass finds errors,
the bindings inside the functions of the program stay; so the table is the same just if there are
none of these. -/
theorem run_rejected (passesOn : Bool) (history : List (Config × String)) (config : Config)
    (source : String) {s : Session} (hs : ((start passesOn).runSources history).2 = s)
    (hrejected : (s.run config source).2.log.hasError) :
    let after := (s.run config source).2
    after.machine = s.machine ∧
      ((∀ program, ¬ Accepted config source program) → after.table = s.table) ∧
      (∀ program, Accepted config source program → after.table.entries = s.table.entries ++
        bindingsInFunctions (Stmt.relabelAll s.nextLabel program).1) ∧
      (after.table = s.table ↔ ∀ program, Accepted config source program →
        bindingsInFunctions (Stmt.relabelAll s.nextLabel program).1 = []) := by
  intro after
  rcases run_cases config source s with ⟨hmachine, htable, _, hnot⟩ |
    ⟨program, haccepted, htable, _, hmachine⟩
  · have hnot := hnot hrejected
    exact ⟨hmachine, fun _ => htable, fun program h => absurd h (hnot program),
      fun _ program h => absurd h (hnot program), fun _ => htable⟩
  -- the errors are those of the binding pass, which has got through the whole program
  · obtain ⟨hmachine, hfault⟩ := hmachine hrejected
    have hentries : after.table.entries = s.table.entries ++
        bindingsInFunctions (Stmt.relabelAll s.nextLabel program).1 := by
      rw [htable]
      exact ((settled_of_runSources hs).entries_of_fault_eq_none haccepted hfault).2
    have honly : ∀ program', Accepted config source program' → program' = program :=
      fun _ h => h.unique haccepted
    refine ⟨hmachine, fun h => absurd haccepted (h program), fun program' h => ?_, ?_⟩
    · rw [honly program' h]
      exact hentries
    constructor
    · intro hsame program' h
      rw [hsame] at hentries
      rw [honly program' h]
      exact List.self_eq_append_right.mp hentries
    · intro hnone
      rw [hnone program haccepted, List.append_nil] at hentries
      exact congrArg BindingTable.mk hentries

/-- A function with a local variable, and then an error that the binding pass finds. -/
def rejectedSource : String := "fun f() \x7b var a; a; \x7d return;"

theorem run_rejected_seen :
    ((start true).runSources [(shortly, "var seen = \"kept\";")]).2 = seenSession ∧
      (seenSession.run shortly rejectedSource).2.log.hasError ∧
      (seenSession.run shortly rejectedSource).2.machine = seenSession.machine := by
  have hseen : ((start true).runSources [(shortly, "var seen = \"kept\";")]).2 = seenSession := by
    rw [seenSession]
  have hrejected : (seenSession.run shortly rejectedSource).2.log.hasError := by decide +kernel
  obtain ⟨hmachine, _⟩ := run_rejected true [(shortly, "var seen = \"kept\";")] shortly
    rejectedSource hseen hrejected
  exact ⟨hseen, hrejected, hmachine⟩

/-- Not every rejected source leaves the session as it was: a binding may stay in the table. -/
theorem table_run_rejectedSource :
    ¬ ∀ (history : List (Config × String)) (config : Config) (source : String) (s : Session),
      ((start true).runSources history).2 = s → (s.run config source).2.log.hasError →
        (s.run config source).2.machine = s.machine ∧
          (s.run config source).2.table = s.table := by
  intro h
  have hrejected : ((start true).run shortly rejectedSource).2.log.hasError := by decide +kernel
  have hsize : ((start true).run shortly rejectedSource).2.table.size = 1 := by decide +kernel
  obtain ⟨_, htable⟩ := h [] shortly rejectedSource (start true) rfl hrejected
  rw [htable] at hsize
  exact absurd hsize (by decide)

end Session
end LoxLang
