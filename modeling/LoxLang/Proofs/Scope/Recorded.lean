import LoxLang.Proofs.Scope.Binding
import LoxLang.Proofs.Syntax.Label
import Mathlib.Data.List.Forall2
import Mathlib.Data.List.Nodup

/-! # What the table knows

The table has, for each reference that some program of the session may still come to, just the
binding that the place of the reference asks for.  This holds of a program that was bound with new
labels (`recorded_of_visitProgram`); it stays when later programs are bound and when the bindings of
references outside functions are dropped. -/

namespace LoxLang

namespace BindingTable

/-- All bindings in the table are of labels below a number. -/
def Below (n : Label) (t : BindingTable) : Prop := ∀ b ∈ t.entries, b.label < n

variable {n : Nat} {label : Label} {b : Binding} {t : BindingTable}

theorem find?_eq_none_of_below (h : t.Below n) (hn : n ≤ label) : t.find? label = none := by
  refine List.find?_eq_none.mpr fun b hb => ?_
  have hlt : b.label < label := Nat.lt_of_lt_of_le (h b hb) hn
  simpa using Nat.ne_of_lt hlt

theorem find?_record_of_ne (h : b.label ≠ label) : (t.record b).find? label = t.find? label := by
  obtain ⟨entries⟩ := t
  simp only [find?, record]
  induction entries with
  | nil => simp [recordEntry, h]
  | cons c rest ih =>
    by_cases hc : c.label = b.label
    · simp [recordEntry, hc, h]
    · by_cases hl : c.label = label
      · simp [recordEntry, hl, Ne.symm h]
      · simpa [recordEntry, hc, hl] using ih

theorem find?_record_self (h : t.find? b.label = none) : (t.record b).find? b.label = some b := by
  obtain ⟨entries⟩ := t
  simp only [find?, record] at h ⊢
  induction entries with
  | nil => simp [recordEntry]
  | cons c rest ih =>
    by_cases hc : c.label = b.label
    · simp [hc] at h
    · simp only [List.find?_cons, beq_eq_false_iff_ne.mpr hc, recordEntry] at h ⊢
      simpa [hc] using ih h

theorem Below.record (h : t.Below n) (hb : b.label < n) : (t.record b).Below n := by
  obtain ⟨entries⟩ := t
  simp only [Below, BindingTable.record] at h ⊢
  induction entries with
  | nil => simpa [recordEntry] using hb
  | cons c rest ih =>
    obtain ⟨hc, hrest⟩ := List.forall_mem_cons.mp h
    unfold recordEntry
    split
    · exact List.forall_mem_cons.mpr ⟨hb, hrest⟩
    · exact List.forall_mem_cons.mpr ⟨hc, ih hrest⟩

theorem Below.recordAll {bs : List Binding} (h : t.Below n) (hbs : ∀ b ∈ bs, b.label < n) :
    (t.recordAll bs).Below n := by
  induction bs generalizing t with
  | nil => exact h
  | cons b bs ih =>
    obtain ⟨hb, hbs⟩ := List.forall_mem_cons.mp hbs
    exact ih (h.record hb) hbs

theorem Below.mono {n' : Nat} (h : t.Below n) (hn : n ≤ n') : t.Below n' :=
  fun b hb => Nat.lt_of_lt_of_le (h b hb) hn

theorem Below.dropTopLevel (h : t.Below n) : t.dropTopLevel.Below n :=
  fun b hb => h b (List.mem_of_mem_filter hb)

theorem find?_recordAll_of_ne {bs : List Binding} (h : ∀ b ∈ bs, b.label ≠ label) :
    (t.recordAll bs).find? label = t.find? label := by
  induction bs generalizing t with
  | nil => rfl
  | cons b bs ih =>
    obtain ⟨hb, hbs⟩ := List.forall_mem_cons.mp h
    exact (ih hbs).trans (find?_record_of_ne hb)

theorem find?_recordAll_of_mem {bs : List Binding} (hnodup : (bs.map Binding.label).Nodup)
    (hb : b ∈ bs) (h : t.find? b.label = none) : (t.recordAll bs).find? b.label = some b := by
  induction bs generalizing t with
  | nil => exact nomatch hb
  | cons c bs ih =>
    obtain ⟨hc, hnodup⟩ := List.nodup_cons.mp hnodup
    rcases List.mem_cons.mp hb with rfl | hb
    · have hne : ∀ b' ∈ bs, b'.label ≠ b.label :=
        fun b' hb' heq => hc (heq ▸ List.mem_map_of_mem hb')
      exact (find?_recordAll_of_ne hne).trans (find?_record_self h)
    · have hne : c.label ≠ b.label := fun heq => hc (heq ▸ List.mem_map_of_mem hb)
      exact ih hnodup hb ((find?_record_of_ne hne).trans h)

theorem find?_dropTopLevel (h : ∀ b, t.find? label = some b → b.topLevel = false) :
    t.dropTopLevel.find? label = t.find? label := by
  obtain ⟨entries⟩ := t
  simp only [find?, dropTopLevel] at h ⊢
  induction entries with
  | nil => rfl
  | cons c rest ih =>
    by_cases hc : c.label = label
    · have hlevel := h c (by simp [hc])
      simp [hlevel, hc]
    · have hrest := ih fun b hb => h b (by simpa [hc] using hb)
      cases hlevel : c.topLevel with
      | true => simpa [hlevel, hc] using hrest
      | false => simpa [hlevel, hc] using hrest

end BindingTable

/-! ## References and their bindings -/

/-- The references among findings. -/
def usesOf (fs : List (Finding Label)) : List (Use Label) := fs.filterMap Finding.use?

theorem mem_usesOf {fs : List (Finding Label)} {u : Use Label} : u ∈ usesOf fs ↔ .use u ∈ fs := by
  refine List.mem_filterMap.trans ⟨?_, fun h => ⟨_, h, rfl⟩⟩
  rintro ⟨f, hf, hu⟩
  cases f with
  | use u' =>
    cases hu
    exact hf
  | error e => cases hu

theorem labelsOf_eq (fs : List (Finding Label)) :
    labelsOf fs = (usesOf fs).map fun u => u.ref.label := by
  simp [labelsOf, usesOf, List.map_filterMap]

theorem filterMap_binding? (fs : List (Finding Label)) :
    fs.filterMap Finding.binding? = (usesOf fs).filterMap Use.binding? := by
  rw [usesOf, List.filterMap_filterMap]
  rfl

theorem Use.label_of_binding? {u : Use Label} {b : Binding} (h : u.binding? = some b) :
    b.label = u.ref.label := by
  obtain ⟨hops, _, rfl⟩ := Option.map_eq_some_iff.mp h
  rfl

theorem Use.topLevel_of_binding? {u : Use Label} {b : Binding} (h : u.binding? = some b) :
    b.topLevel = decide (u.around.function = .outside) := by
  obtain ⟨hops, _, rfl⟩ := Option.map_eq_some_iff.mp h
  rfl

/-- The labels of the bindings are among those of the references, in the same order. -/
theorem labels_filterMap_binding? (us : List (Use Label)) :
    ((us.filterMap Use.binding?).map Binding.label).Sublist (us.map fun u => u.ref.label) := by
  induction us with
  | nil => exact List.Sublist.refl _
  | cons u us ih =>
    cases h : u.binding? with
    | none =>
      rw [List.filterMap_cons_none h]
      exact ih.cons _
    | some b =>
      rw [List.filterMap_cons_some h, List.map_cons, List.map_cons, Use.label_of_binding? h]
      exact ih.cons_cons _

/-- The table has just the binding that the place of a reference asks for; its label has been given
out. -/
structure BindingTable.Recorded (t : BindingTable) (n : Label) (u : Use Label) : Prop where
  lt : u.ref.label < n
  find_eq : t.find? u.ref.label = u.binding?

namespace BindingTable.Recorded

variable {t : BindingTable} {n m : Nat} {u : Use Label}

/-- The table leads a reference to the scope that declares its name. -/
theorem hops_eq (h : t.Recorded n u) : t.hops? u.ref.label = u.hops? := by
  rw [hops?, h.find_eq]
  cases hu : u.hops? <;> simp [Use.binding?, hu]

theorem mono (h : t.Recorded n u) (hn : n ≤ m) : t.Recorded m u :=
  ⟨Nat.lt_of_lt_of_le h.lt hn, h.find_eq⟩

/-- Bindings with new labels change nothing. -/
theorem recordAll {bs : List Binding} (h : t.Recorded n u) (hn : n ≤ m)
    (hbs : ∀ b ∈ bs, n ≤ b.label) : (t.recordAll bs).Recorded m u where
  lt := Nat.lt_of_lt_of_le h.lt hn
  find_eq := by
    have hlt : u.ref.label < n := h.lt
    refine (find?_recordAll_of_ne fun b hb => ?_).trans h.find_eq
    exact Nat.ne_of_gt (Nat.lt_of_lt_of_le hlt (hbs b hb))

/-- What is dropped is not asked for inside functions. -/
theorem dropTopLevel (h : t.Recorded n u) (hu : u.around.function ≠ .outside) :
    t.dropTopLevel.Recorded n u where
  lt := h.lt
  find_eq := by
    refine (find?_dropTopLevel fun b hb => ?_).trans h.find_eq
    rw [Use.topLevel_of_binding? (h.find_eq.symm.trans hb)]
    exact decide_eq_false hu

end BindingTable.Recorded

section
variable {t : BindingTable} {n m : Nat} {fs : List (Finding Label)}

theorem le_label_of_binding? (hfs : Label.Within n m (labelsOf fs)) :
    ∀ b ∈ fs.filterMap Finding.binding?, n ≤ b.label ∧ b.label < m := by
  intro b hb
  rw [filterMap_binding?] at hb
  obtain ⟨u, hu, hb⟩ := List.mem_filterMap.mp hb
  rw [Use.label_of_binding? hb]
  refine hfs.bounds _ ?_
  rw [labelsOf_eq]
  exact List.mem_map_of_mem hu

/-- References with new labels that differ get the bindings that their places ask for. -/
theorem recorded_of_within (ht : t.Below n) (hfs : Label.Within n m (labelsOf fs))
    {u : Use Label} (hu : .use u ∈ fs) :
    (t.recordAll (fs.filterMap Finding.binding?)).Recorded m u := by
  have hnodup := hfs.nodup
  rw [labelsOf_eq] at hnodup
  have hmem := mem_usesOf.mpr hu
  obtain ⟨hn, hm⟩ := hfs.bounds u.ref.label (by
    rw [labelsOf_eq]
    exact List.mem_map_of_mem hmem)
  have hnone := BindingTable.find?_eq_none_of_below ht hn
  refine ⟨hm, ?_⟩
  rw [filterMap_binding?]
  cases hb : u.binding? with
  | some b =>
    have hlabel := Use.label_of_binding? hb
    rw [← hlabel]
    exact BindingTable.find?_recordAll_of_mem
      (hnodup.sublist (labels_filterMap_binding? _)) (List.mem_filterMap.mpr ⟨u, hmem, hb⟩)
      (hlabel ▸ hnone)
  | none =>
    refine (BindingTable.find?_recordAll_of_ne fun b hb' heq => ?_).trans hnone
    obtain ⟨u', hu', hb'⟩ := List.mem_filterMap.mp hb'
    have hsame : u' = u := List.inj_on_of_nodup_map hnodup hu' hmem
      ((Use.label_of_binding? hb').symm.trans heq)
    rw [hsame, hb] at hb'
    cases hb'

end

/-! ## Bindings up to tokens -/

theorem Finding.binding?_map {φ : Token → Token} (hφ : ∀ t, (φ t).lexeme = t.lexeme)
    (f : Finding Label) :
    (f.map id φ).binding? = f.binding?.map fun b => { b with name := φ b.name } := by
  cases f with
  | error e => rfl
  | use u =>
    have hhops : (u.map id φ).hops? = u.hops? := by
      simp [Use.hops?, Use.map, Ref.map, hφ]
    show (u.map id φ).binding? = u.binding?.map _
    rw [Use.binding?, Use.binding?, hhops, Option.map_map]
    rfl

/-- Bindings of the same labels with the same hops make the same hops of a table. -/
theorem hops?_recordAll_congr {bs bs' : List Binding}
    (hbs : List.Forall₂ (fun b b' => b'.label = b.label ∧ b'.hops = b.hops) bs bs')
    {t t' : BindingTable} (h : ∀ label, t'.hops? label = t.hops? label) (label : Label) :
    (t'.recordAll bs').hops? label = (t.recordAll bs).hops? label := by
  induction hbs generalizing t t' with
  | nil => exact h label
  | @cons b b' bs bs' hb _ ih =>
    refine @ih (t.record b) (t'.record b') fun other => ?_
    rw [BindingTable.hops?_record, BindingTable.hops?_record, hb.1, hb.2, h]

/-- The hops in the table do not depend on the tokens of the references. -/
theorem hops?_recordAll_map {φ : Token → Token} (hφ : ∀ t, (φ t).lexeme = t.lexeme)
    (fs : List (Finding Label)) {t t' : BindingTable}
    (h : ∀ label, t.hops? label = t'.hops? label) (label : Label) :
    (t.recordAll ((fs.map (Finding.map id φ)).filterMap Finding.binding?)).hops? label =
      (t'.recordAll (fs.filterMap Finding.binding?)).hops? label := by
  refine hops?_recordAll_congr ?_ h label
  induction fs with
  | nil => exact .nil
  | cons f fs ih =>
    rw [List.map_cons]
    have hb' := Finding.binding?_map hφ f
    cases hb : f.binding? with
    | none =>
      rw [hb] at hb'
      rwa [List.filterMap_cons_none hb, List.filterMap_cons_none hb']
    | some b =>
      rw [hb] at hb'
      rw [List.filterMap_cons_some hb, List.filterMap_cons_some hb']
      exact .cons ⟨rfl, rfl⟩ ih

/-- **A program bound with new labels has its bindings in the table.** -/
theorem recorded_of_visitProgram {ι : Type} {t : BindingTable} {n : Label} (ht : t.Below n)
    (program : List (Stmt ι)) {u : Use Label}
    (hu : .use u ∈ visitProgram (Stmt.relabelAll n program).1) :
    (t.recordAll ((visitProgram (Stmt.relabelAll n program).1).filterMap
      Finding.binding?)).Recorded (Stmt.relabelAll n program).2 u :=
  recorded_of_within ht (within_visitProgram n program) hu

/-- **The binding pass keeps what the table knows**, also where it stops on its way: all bindings in
the table are of labels that have been given out, and the bindings known before are known. -/
theorem recorded_of_bindProgram {t : BindingTable} {n : Label} (ht : t.Below n)
    {program : List (Stmt Unit)} (hwf : ∀ s ∈ program, s.WellFormed) (depth : Nat) :
    let found := bindProgram depth (Stmt.relabelAll n program).1 t
    found.table.Below (Stmt.relabelAll n program).2 ∧
      ∀ u, t.Recorded n u → found.table.Recorded (Stmt.relabelAll n program).2 u := by
  have hwithin := within_visitProgram n program
  obtain ⟨gs, ⟨rest, hprefix⟩, htable, _⟩ :=
    bindProgram_spec (Stmt.known_of_wellFormed (Stmt.wellFormed_relabelAll (n := n) hwf)) depth t
  have hgs : ∀ b ∈ gs.filterMap Finding.binding?,
      n ≤ b.label ∧ b.label < (Stmt.relabelAll n program).2 := by
    intro b hb
    refine le_label_of_binding? hwithin b ?_
    rw [← hprefix, List.filterMap_append]
    exact List.mem_append_left _ hb
  dsimp only
  rw [htable]
  exact ⟨(ht.mono hwithin.le).recordAll fun b hb => (hgs b hb).2,
    fun u hu => hu.recordAll hwithin.le fun b hb => (hgs b hb).1⟩

end LoxLang
