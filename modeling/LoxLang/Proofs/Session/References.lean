import LoxLang.Proofs.Grammar.Drawn
import LoxLang.Proofs.Session.Kept

/-! # References keep apart

A reference is known to the binding table by its label alone.  That is enough, however much two
references look alike: those of one program are made of different tokens and get different labels
(`parse_references`, `fills_references`), and the labels of a program are all beyond those that the
session has given out before, so no key of the table is among them.  What is recorded for one
reference is thus found for it, and dropped with it, and with no other (`references_keep_apart`). -/

namespace LoxLang

/-- What is found among the first of some bindings is what is found among all, or nothing. -/
theorem find?_of_begun {α : Type} {p : α → Bool} {first all : List α} (h : first <+: all) :
    first.find? p = all.find? p ∨ first.find? p = none := by
  obtain ⟨rest, rfl⟩ := h
  rw [List.find?_append]
  cases first.find? p with
  | none => exact .inr rfl
  | some a => exact .inl rfl

/-- Where labels differ, a binding that is not kept makes no way for another one. -/
theorem find?_filter_of_nodup {bs : List Binding} (hnodup : (bs.map Binding.label).Nodup)
    (keep : Binding → Bool) (label : Label) :
    (bs.filter keep).find? (fun b => b.label == label) =
      (bs.find? fun b => b.label == label).filter keep := by
  induction bs with
  | nil => rfl
  | cons b bs ih =>
    obtain ⟨hnot, hnodup⟩ := List.nodup_cons.mp hnodup
    have ih := ih hnodup
    by_cases hlabel : b.label = label
    · have hnone : bs.find? (fun b => b.label == label) = none :=
        List.find?_eq_none.mpr fun c hc heq =>
          hnot (List.mem_map.mpr ⟨c, hc, (eq_of_beq heq).trans hlabel.symm⟩)
      rw [hnone] at ih
      cases hkeep : keep b <;> simp [hkeep, hlabel, ih, Option.filter]
    · cases hkeep : keep b <;> simp [hkeep, hlabel, ih]

namespace Session

variable {s s' : Session} {program : List (Stmt Unit)} {depth : Nat}

/-! ## Keys of the table -/

/-- A run adds bindings with labels that differ. -/
theorem Settled.nodup_run (hs : s.Settled) (hnodup : (s.table.entries.map Binding.label).Nodup)
    (config : Config) (source : String) :
    ((s.run config source).2.table.entries.map Binding.label).Nodup := by
  rcases run_cases config source s with ⟨_, htable, _⟩ | ⟨program, haccepted, htable, _⟩
  · rwa [htable]
  · obtain ⟨bs, hbegun, _, hdropped, _⟩ :=
      hs.bindProgram_entries haccepted.wellFormed config.nesting
    have hfills := fills_sitesOf s.nextLabel program
    have hnew : ∀ b ∈ bs, s.nextLabel ≤ b.label := fun b hb =>
      hfills.le_of_mem (mem_labelsAt_of_binding? (hbegun.subset hb))
    rw [htable, hdropped, List.map_append]
    refine List.nodup_append.mpr ⟨hnodup, ?_, ?_⟩
    · exact (nodup_labels_of_labelsAt hfills.nodup).sublist
        ((List.filter_sublist.trans hbegun.sublist).map _)
    · intro label hold label' hlabel' heq
      obtain ⟨c, hc, rfl⟩ := List.mem_map.mp hold
      obtain ⟨b, hb, rfl⟩ := List.mem_map.mp hlabel'
      exact Nat.ne_of_lt (Nat.lt_of_lt_of_le (hs.below c hc) (hnew b (List.mem_of_mem_filter hb))) heq

theorem Settled.nodup_runSources (hs : s.Settled)
    (hnodup : (s.table.entries.map Binding.label).Nodup) (sources : List (Config × String)) :
    ((s.runSources sources).2.table.entries.map Binding.label).Nodup := by
  induction sources generalizing s with
  | nil => exact hnodup
  | cons first rest ih =>
    exact ih (hs.continues (hs.continues_run first.1 first.2)) (hs.nodup_run hnodup _ _)

/-! ## Binding a new program -/

section
variable (hs : s.Settled) (hwf : ∀ st ∈ program, st.WellFormed) (depth : Nat)

include hs

/-- No key of the table is the label of a reference of a new program. -/
theorem Settled.ne_label {b : Binding} (hb : b ∈ s.table.entries) {r : RefUse × Ref Label}
    (hr : r ∈ Stmt.referencesAll (Stmt.relabelAll s.nextLabel program).1) :
    b.label ≠ r.2.label :=
  Nat.ne_of_lt (Nat.lt_of_lt_of_le (hs.below b hb)
    ((fills_references s.nextLabel program).le_of_mem (List.mem_map_of_mem hr)))

include hwf

/-- Under the label of each reference there is its own binding, or nothing if the binding pass has
not come to it; and when the bindings outside functions are dropped, it is dropped just if it is one
of them. -/
theorem Settled.find?_own {site : Site Label}
    (hsite : site ∈ sitesOf (Stmt.relabelAll s.nextLabel program).1) {label : Label}
    (hlabel : site.label? = some label) :
    let found := bindProgram depth (Stmt.relabelAll s.nextLabel program).1 s.table
    (found.table.find? label = site.binding? ∨
        found.fault ≠ none ∧ found.table.find? label = none) ∧
      found.table.dropTopLevel.find? label =
        (found.table.find? label).filter fun b => !b.topLevel := by
  intro found
  obtain ⟨bs, hbegun, hentries, hdropped, hall⟩ := hs.bindProgram_entries hwf depth
  have hfills := fills_sitesOf s.nextLabel program
  have hold : s.table.entries.find? (fun b => b.label == label) = none :=
    BindingTable.find?_eq_none_of_below hs.below
      (hfills.le_of_mem (List.mem_filterMap.mpr ⟨site, hsite, hlabel⟩))
  have hown := find?_binding?_of_mem hfills.nodup hsite hlabel
  have hfound : found.table.find? label = bs.find? (fun b => b.label == label) := by
    rw [BindingTable.find?, hentries, List.find?_append, hold, Option.none_or]
  constructor
  · cases hfault : found.fault with
    | none =>
      rw [hfound, hall hfault]
      exact .inl hown
    | some f =>
      rw [hfound, ← hown]
      exact (find?_of_begun hbegun).imp_right fun hnone => ⟨Option.some_ne_none f, hnone⟩
  · rw [hfound, BindingTable.find?, hdropped, List.find?_append, hold, Option.none_or]
    exact find?_filter_of_nodup
      ((nodup_labels_of_labelsAt hfills.nodup).sublist (hbegun.sublist.map _)) _ label

/-- Under all other labels nothing changes, before and after bindings are dropped. -/
theorem Settled.find?_other {label : Label}
    (hother : ∀ r ∈ Stmt.referencesAll (Stmt.relabelAll s.nextLabel program).1,
      r.2.label ≠ label) :
    let found := bindProgram depth (Stmt.relabelAll s.nextLabel program).1 s.table
    found.table.find? label = s.table.find? label ∧
      found.table.dropTopLevel.find? label = s.table.find? label := by
  intro found
  obtain ⟨bs, hbegun, hentries, hdropped, _⟩ := hs.bindProgram_entries hwf depth
  have hnone : ∀ b ∈ bs, b.label ≠ label := by
    intro b hb
    have hmem := mem_labelsAt_of_binding? (hbegun.subset hb)
    rw [labelsAt_eq, references_sitesOf] at hmem
    obtain ⟨r, hr, hlabel⟩ := List.mem_map.mp hmem
    rw [← hlabel]
    exact hother r hr
  have hnothing : ∀ cs : List Binding, (∀ b ∈ cs, b ∈ bs) →
      cs.find? (fun b => b.label == label) = none := fun cs hcs =>
    List.find?_eq_none.mpr fun b hb heq => hnone b (hcs b hb) (eq_of_beq heq)
  constructor
  · rw [BindingTable.find?, hentries, List.find?_append, hnothing bs fun _ h => h, Option.or_none]
    rfl
  · rw [BindingTable.find?, hdropped, List.find?_append,
      hnothing _ fun _ h => List.mem_of_mem_filter h, Option.or_none]
    rfl

end

/-! ## All token lists, and all sessions -/

/-- A token list with an end is parsed if the limit of nesting allows for its length. -/
theorem exists_parsed {tokens : List Token} (hend : HasEnd tokens)
    (hdepth : 2 * tokens.length + 3 < depth) : ∃ parsed, parse depth tokens = .ok parsed := by
  cases hparse : parse depth tokens with
  | ok parsed => exact ⟨parsed, rfl⟩
  | error f =>
    rcases fault_of_parse hparse with ⟨_, hnone⟩ | ⟨_, hle⟩
    · obtain ⟨t, ht, hkind⟩ := hend
      exact absurd hkind (hnone t ht)
    · omega

/-- **No two references are the same.**

A token list with an end, erroneous or not, is parsed if the limit of nesting allows it, and each
reference of the program is then made of a token of its own.  Labelling, from any number on, leaves
the references what they are and gives each of them a label of its own.

In a session that any runs have led to, the keys of the table differ, and no reference of a program
that is parsed next has one of them for its label.  However far the binding pass gets with the
program, the bindings of the table stay, in front of the new ones, and under the label of a reference
there is its own binding or none yet.  When the bindings outside functions are dropped, that of a
reference is dropped just if the reference is outside all functions.  Under other labels nothing
changes.  A run leaves the table as it was or as it is then, and all further runs leave what it has
under the labels given out so far. -/
theorem references_keep_apart :
    (∀ tokens, HasEnd tokens →
      (∀ depth, 2 * tokens.length + 3 < depth → ∃ parsed, parse depth tokens = .ok parsed) ∧
      ∀ depth parsed, parse depth tokens = .ok parsed →
        (∃ positions : List Nat, positions.Nodup ∧ (∀ p ∈ positions, p < tokens.length) ∧
          ∀ tokens', SameForms tokens tokens' → ∃ parsed', parse depth tokens' = .ok parsed' ∧
            (Stmt.referencesAll parsed'.program).map (fun r => some r.2.name) =
              positions.map fun p => tokens'[p]?) ∧
        ∀ next, let labelled := (Stmt.relabelAll next parsed.program).1
          (Stmt.referencesAll labelled).map (fun r => (r.1, r.2.name)) =
              (Stmt.referencesAll parsed.program).map (fun r => (r.1, r.2.name)) ∧
            ((Stmt.referencesAll labelled).map fun r => r.2.label).Nodup) ∧
    ∀ passesOn history config source parsed,
      parse config.nesting (Source.tokenize source).tokens = .ok parsed →
      let s := ((start passesOn).runSources history).2
      let labelled := (Stmt.relabelAll s.nextLabel parsed.program).1
      let found := bindProgram config.nesting labelled s.table
      let after := (s.run config source).2
      (s.table.entries.map Binding.label).Nodup ∧
      (∀ b ∈ s.table.entries, ∀ r ∈ Stmt.referencesAll labelled, b.label ≠ r.2.label) ∧
      (∃ bs, bs <+: (sitesOf labelled).filterMap Site.binding? ∧
        found.table.entries = s.table.entries ++ bs) ∧
      (∀ site ∈ sitesOf labelled, ∀ label, site.label? = some label →
        (found.table.find? label = site.binding? ∨
            found.fault ≠ none ∧ found.table.find? label = none) ∧
          found.table.dropTopLevel.find? label =
            (found.table.find? label).filter fun b => !b.topLevel) ∧
      (∀ label, (∀ r ∈ Stmt.referencesAll labelled, r.2.label ≠ label) →
        found.table.find? label = s.table.find? label ∧
          found.table.dropTopLevel.find? label = s.table.find? label) ∧
      (after.table = s.table ∨ after.table = found.table.dropTopLevel) ∧
      ∀ later label, label < after.nextLabel →
        (after.runSources later).2.table.find? label = after.table.find? label := by
  constructor
  · intro tokens hend
    refine ⟨fun depth hdepth => exists_parsed hend hdepth,
      fun depth parsed hparse => ⟨parse_references hparse, ?_⟩⟩
    intro next labelled
    refine ⟨?_, (fills_references next parsed.program).nodup⟩
    conv_rhs => rw [← Stmt.unmark_relabelAll next parsed.program, Stmt.referencesAll_map,
      List.map_map]
    rfl
  · intro passesOn history config source parsed hparse s labelled found after
    have hs : s.Settled := settled_of_runSources rfl
    have hwf := wellFormed_of_parse hparse
    obtain ⟨bs, hbegun, hentries, _⟩ := hs.bindProgram_entries hwf config.nesting
    refine ⟨(settled_start passesOn).nodup_runSources List.nodup_nil history,
      fun b hb r hr => hs.ne_label hb hr, ⟨bs, hbegun, hentries⟩,
      fun site hsite label hlabel => hs.find?_own hwf config.nesting hsite hlabel,
      fun label hother => hs.find?_other hwf config.nesting hother, ?_, ?_⟩
    · rcases run_cases config source s with ⟨_, htable, _⟩ | ⟨program, haccepted, htable, _⟩
      · exact .inl htable
      · obtain rfl : parsed = ⟨program, []⟩ := Except.ok.inj (hparse.symm.trans haccepted.2)
        exact .inr htable
    · intro later label hlabel
      exact ((hs.continues (hs.continues_run config source)).continues_runSources later).find?_eq
        hlabel

/-- A program with references that look alike, and a text that is run again: its references are
others than those of the first run. -/
theorem references_keep_apart_again :
    HasEnd faultyTokens ∧ parse 30 faultyTokens = .ok faultyParsed ∧
      ((Stmt.referencesAll faultyProgram).map fun r => r.2.label).Nodup ∧
      ∃ parsed, parse shortly.nesting (Source.tokenize countingSource).tokens = .ok parsed ∧
        let s := ((start true).runSources [(shortly, countingSource)]).2
        s.table.size = 3 ∧ ∀ b ∈ s.table.entries,
          ∀ r ∈ Stmt.referencesAll (Stmt.relabelAll s.nextLabel parsed.program).1,
            b.label ≠ r.2.label := by
  obtain ⟨htokens, hsessions⟩ := references_keep_apart
  have hend : HasEnd faultyTokens := by simp [HasEnd, faultyTokens]
  have hthrough : ((start true).run shortly countingSource).1 = none := by decide +kernel
  obtain ⟨program, haccepted, _⟩ := accepted_of_through hthrough (by decide +kernel)
  obtain ⟨_, hapart, _⟩ := hsessions true [(shortly, countingSource)] shortly countingSource
    ⟨program, []⟩ haccepted.2
  exact ⟨hend, parse_faultyTokens, ((htokens faultyTokens hend).2 30 _ parse_faultyTokens).2 0 |>.2,
    ⟨program, []⟩, haccepted.2, by decide +kernel, hapart⟩

end Session
end LoxLang
