import LoxLang.Proofs.Scope.Agreement
import Mathlib.Data.List.Range

/-! # The binding pass is static scope

A program that was parsed, whatever errors its tokens have, has a label for each of its references
when it comes to the binding pass.  The pass stops just if the program is higher than its limit; if
it does not stop, the table has a binding for just those references around which some scope has
their name, with the number of scopes up to the innermost of them (`bindProgram_static`), and the
errors are just the rules that the places of the program break (`errors_bindProgram`).

The tokens are spelled by their kinds, as those of every text are (`Source.spelled_tokenize`).  The
scope of a class holds `this` as it holds any name, and a `this` outside all classes is not looked
up; a token of that kind with the text of a variable in sight would have no binding there. -/

namespace LoxLang

variable {ι : Type}

/-! ## Labels of places -/

/-- The label of a reference at a place. -/
def Site.label? (site : Site Label) : Option Label :=
  match site.occurrence with
  | .reference _ ref => some ref.label
  | _ => none

/-- The labels of the references among places. -/
def labelsAt (sites : List (Site Label)) : List Label := sites.filterMap Site.label?

@[simp] theorem labelsAt_append (sites sites' : List (Site Label)) :
    labelsAt (sites ++ sites') = labelsAt sites ++ labelsAt sites' := List.filterMap_append

/-- The labels are those from `lo` up to below `hi`, each of them once. -/
structure Label.Fills (lo hi : Nat) (labels : List Label) : Prop where
  le : lo ≤ hi
  perm : labels.Perm (List.range' lo (hi - lo))

namespace Label.Fills

variable {lo mid hi : Nat} {l l' : List Label}

theorem nil (n : Label) : Fills n n [] := ⟨Nat.le_refl n, by simp⟩

theorem single (n : Label) : Fills n (n + 1) [n] := ⟨Nat.le_succ n, by simp⟩

theorem append (h : Fills lo mid l) (h' : Fills mid hi l') : Fills lo hi (l ++ l') where
  le := Nat.le_trans h.le h'.le
  perm := by
    have hle := h.le
    have hle' := h'.le
    have hrange : List.range' lo (hi - lo) =
        List.range' lo (mid - lo) ++ List.range' mid (hi - mid) := by
      have hstart : lo + (mid - lo) = mid := by omega
      have hlength : hi - lo = mid - lo + (hi - mid) := by omega
      rw [hlength, ← List.range'_append_1, hstart]
    rw [hrange]
    exact h.perm.append h'.perm

/-- The labels of the second range may come first. -/
theorem append_swap (h : Fills lo mid l) (h' : Fills mid hi l') : Fills lo hi (l' ++ l) :=
  ⟨(h.append h').le, List.perm_append_comm.trans (h.append h').perm⟩

theorem nodup (h : Fills lo hi l) : l.Nodup := h.perm.nodup_iff.mpr List.nodup_range'

theorem le_of_mem (h : Fills lo hi l) {n : Label} (hn : n ∈ l) : lo ≤ n :=
  (List.mem_range'_1.mp (h.perm.mem_iff.mp hn)).1

theorem mem_of_bounds (h : Fills lo hi l) {n : Label} (hlo : lo ≤ n) (hhi : n < hi) : n ∈ l := by
  refine h.perm.mem_iff.mpr (List.mem_range'_1.mpr ⟨hlo, ?_⟩)
  rwa [Nat.add_sub_of_le h.le]

theorem lt_of_mem (h : Fills lo hi l) {n : Label} (hn : n ∈ l) : n < hi := by
  obtain ⟨_, hlt⟩ := List.mem_range'_1.mp (h.perm.mem_iff.mp hn)
  rwa [Nat.add_sub_of_le h.le] at hlt

variable (around : Whereabouts Label)

theorem expressions_of {es : List (Expr ι)}
    (h : ∀ e ∈ es, ∀ n, Fills n (e.relabel n).2 (labelsAt ((e.relabel n).1.sites around)))
    (n : Label) :
    Fills n (Expr.relabelAll n es).2
      (labelsAt ((Expr.relabelAll n es).1.flatMap fun e => e.sites around)) := by
  induction es generalizing n with
  | nil => exact nil n
  | cons e es ih =>
    rw [Expr.relabelAll, List.flatMap_cons, labelsAt_append]
    exact (h e List.mem_cons_self n).append (ih (fun e' he' => h e' (List.mem_cons_of_mem e he')) _)

theorem expression (e : Expr ι) (n : Label) :
    Fills n (e.relabel n).2 (labelsAt ((e.relabel n).1.sites around)) := by
  induction e using Expr.inductionOn generalizing n with
  | literal value | unknown form => exact nil n
  | nameRef ref | thisRef ref | superRef ref method => exact single n
  | assign ref value ih =>
    rw [Expr.relabel, Expr.sites, Expr.references, List.map_append, labelsAt_append]
    exact (single n).append_swap (ih (n + 1))
  | unary op operand ih | group inner ih | get object name ih => exact ih n
  | binary left op right ihleft ihright =>
    rw [Expr.relabel, Expr.sites, Expr.references, List.map_append, labelsAt_append]
    exact (ihleft n).append (ihright _)
  | logical left op right ihleft ihright =>
    rw [Expr.relabel, Expr.sites, Expr.references, List.map_append, labelsAt_append]
    exact (ihleft n).append (ihright _)
  | call callee paren arguments ih iharguments =>
    rw [Expr.relabel, Expr.sites, Expr.references, Expr.referencesAll_eq, List.map_append,
      labelsAt_append, List.map_flatMap]
    exact (ih n).append (expressions_of around iharguments _)
  | set object name value ihobject ihvalue =>
    rw [Expr.relabel, Expr.sites, Expr.references, List.map_append, labelsAt_append]
    exact (ihobject n).append_swap (ihvalue _)

theorem option (e : Option (Expr ι)) (n : Label) :
    Fills n (Expr.relabelOption n e).2
      (labelsAt (Expr.sitesOption around (Expr.relabelOption n e).1)) := by
  cases e with
  | none => exact nil n
  | some e => exact expression around e n

theorem statements_of {ss : List (Stmt ι)}
    (h : ∀ s ∈ ss, ∀ n around, Fills n (s.relabel n).2 (labelsAt ((s.relabel n).1.sites around)))
    (owner : BodyOf Label) (earlier : List (Stmt Label)) (n : Label) :
    Fills n (Stmt.relabelAll n ss).2
      (labelsAt (Stmt.sitesAll owner around earlier (Stmt.relabelAll n ss).1)) := by
  induction ss generalizing n earlier with
  | nil => exact nil n
  | cons s ss ih =>
    rw [Stmt.relabelAll, Stmt.sitesAll, labelsAt_append]
    exact (h s List.mem_cons_self n _).append (ih (fun s' hs' => h s' (List.mem_cons_of_mem s hs')) _ _)

theorem labelsAt_parameterSites (earlier names : List Token) :
    labelsAt (parameterSites around earlier names) = [] := by
  induction names generalizing earlier with
  | nil => rfl
  | cons name names ih => exact ih _

theorem function_of {f : Function ι}
    (h : ∀ s ∈ f.body, ∀ n around, Fills n (s.relabel n).2
      (labelsAt ((s.relabel n).1.sites around))) (isMethod : Bool) (n : Label) :
    Fills n (Function.relabel n f).2
      (labelsAt (Function.sites isMethod around (Function.relabel n f).1)) := by
  obtain ⟨name, params, body⟩ := f
  rw [Function.relabel, Function.sites, labelsAt_append, labelsAt_parameterSites]
  exact statements_of around h _ [] n

theorem methods_of {fs : List (Function ι)}
    (h : ∀ f ∈ fs, ∀ s ∈ f.body, ∀ n around, Fills n (s.relabel n).2
      (labelsAt ((s.relabel n).1.sites around))) (n : Label) :
    Fills n (Function.relabelAll n fs).2
      (labelsAt (Function.sitesAll around (Function.relabelAll n fs).1)) := by
  induction fs generalizing n with
  | nil => exact nil n
  | cons f fs ih =>
    rw [Function.relabelAll, Function.sitesAll, labelsAt_append]
    exact (function_of around (h f List.mem_cons_self) true n).append
      (ih (fun f' hf' => h f' (List.mem_cons_of_mem f hf')) _)

theorem statement (s : Stmt ι) (n : Label) :
    Fills n (s.relabel n).2 (labelsAt ((s.relabel n).1.sites around)) := by
  induction s using Stmt.inductionOn generalizing n around with
  | expression value | print value => exact expression around value n
  | var name initial => exact option _ initial n
  | block body ih => exact statements_of around (fun s hs n around => ih s hs around n) .block [] n
  | ifThen condition body ih | whileLoop condition body ih =>
    rw [Stmt.relabel, Stmt.sites, labelsAt_append]
    exact (expression around condition n).append (ih around _)
  | ifElse condition body other ihbody ihother =>
    rw [Stmt.relabel, Stmt.sites, labelsAt_append, labelsAt_append]
    exact ((expression around condition n).append (ihbody around _)).append (ihother around _)
  | function declaration ih =>
    exact function_of around (fun s hs n around => ih s hs around n) false n
  | returnFrom keyword value => exact option around value n
  | classOf name superclass methods ih =>
    have hmethods := fun around => methods_of around fun m hm s hs n around => ih m hm s hs around n
    cases superclass with
    | none => exact hmethods _ n
    | some parent => exact (single n).append (hmethods _ (n + 1))
  | unknown form => exact nil n

end Label.Fills

/-- **The references at the places of a labelled program are all that were labelled**, each at one
place. -/
theorem fills_sitesOf (n : Label) (program : List (Stmt ι)) :
    Label.Fills n (Stmt.relabelAll n program).2
      (labelsAt (sitesOf (Stmt.relabelAll n program).1)) := by
  induction program generalizing n with
  | nil => exact .nil n
  | cons s program ih =>
    rw [Stmt.relabelAll, sitesOf, List.flatMap_cons, labelsAt_append]
    exact (Label.Fills.statement [] s n).append (ih _)

/-! ## Bindings of places -/

theorem Site.label?_of_binding? {site : Site Label} {b : Binding} (h : site.binding? = some b) :
    site.label? = some b.label := by
  obtain ⟨occurrence, around⟩ := site
  cases occurrence with
  | reference use ref =>
    obtain ⟨hops, _, rfl⟩ := Option.map_eq_some_iff.mp h
    rfl
  | _ => cases h

theorem mem_labelsAt_of_binding? {sites : List (Site Label)} {b : Binding}
    (h : b ∈ sites.filterMap Site.binding?) : b.label ∈ labelsAt sites := by
  obtain ⟨site, hsite, hb⟩ := List.mem_filterMap.mp h
  exact List.mem_filterMap.mpr ⟨site, hsite, Site.label?_of_binding? hb⟩

theorem nodup_labels_of_labelsAt {sites : List (Site Label)} (h : (labelsAt sites).Nodup) :
    ((sites.filterMap Site.binding?).map Binding.label).Nodup := by
  induction sites with
  | nil => exact List.nodup_nil
  | cons site sites ih =>
    cases hb : site.binding? with
    | none =>
      rw [List.filterMap_cons_none hb]
      exact ih (h.sublist (List.Sublist.filterMap _ (List.sublist_cons_self site sites)))
    | some b =>
      rw [labelsAt, List.filterMap_cons_some (Site.label?_of_binding? hb), List.nodup_cons] at h
      rw [List.filterMap_cons_some hb, List.map_cons, List.nodup_cons]
      refine ⟨fun hmem => ?_, ih h.2⟩
      obtain ⟨b', hb', heq⟩ := List.mem_map.mp hmem
      exact h.1 (heq ▸ mem_labelsAt_of_binding? hb')

/-- Where labels differ, the binding under the label of a reference is that of its place. -/
theorem find?_binding?_of_mem {sites : List (Site Label)} (hnodup : (labelsAt sites).Nodup)
    {site : Site Label} (hsite : site ∈ sites) {label : Label} (hlabel : site.label? = some label) :
    (sites.filterMap Site.binding?).find? (fun b => b.label == label) = site.binding? := by
  induction sites with
  | nil => exact absurd hsite List.not_mem_nil
  | cons first sites ih =>
    rcases List.mem_cons.mp hsite with rfl | hsite
    · rw [labelsAt, List.filterMap_cons_some hlabel, List.nodup_cons] at hnodup
      cases hb : site.binding? with
      | none =>
        rw [List.filterMap_cons_none hb, List.find?_eq_none]
        intro b hb' heq
        exact hnodup.1 (eq_of_beq heq ▸ mem_labelsAt_of_binding? hb')
      | some b =>
        have heq : b.label = label :=
          Option.some.inj ((Site.label?_of_binding? hb).symm.trans hlabel)
        simp [List.filterMap_cons_some hb, heq]
    · have hrest : (labelsAt sites).Nodup :=
        hnodup.sublist (List.Sublist.filterMap _ (List.sublist_cons_self first sites))
      cases hb : first.binding? with
      | none =>
        rw [List.filterMap_cons_none hb]
        exact ih hrest hsite
      | some b =>
        rw [labelsAt, List.filterMap_cons_some (Site.label?_of_binding? hb),
          List.nodup_cons] at hnodup
        have hne : ¬ (b.label == label) = true := fun heq =>
          hnodup.1 (eq_of_beq heq ▸ List.mem_filterMap.mpr ⟨site, hsite, hlabel⟩)
        rw [List.filterMap_cons_some hb, List.find?_cons, eq_false_of_ne_true hne]
        exact ih hrest hsite

namespace BindingTable

theorem recordEntry_of_new {b : Binding} {entries : List Binding}
    (h : ∀ c ∈ entries, c.label ≠ b.label) : recordEntry b entries = entries ++ [b] := by
  induction entries with
  | nil => rfl
  | cons c entries ih =>
    obtain ⟨hc, hentries⟩ := List.forall_mem_cons.mp h
    rw [recordEntry, if_neg (by simpa using hc), ih hentries, List.cons_append]

/-- Bindings with new labels that differ stand behind those of the table. -/
theorem entries_recordAll_of_new {bs : List Binding} {t : BindingTable}
    (hnodup : (bs.map Binding.label).Nodup)
    (hnew : ∀ b ∈ bs, ∀ c ∈ t.entries, c.label ≠ b.label) :
    (t.recordAll bs).entries = t.entries ++ bs := by
  induction bs generalizing t with
  | nil => exact (List.append_nil _).symm
  | cons b bs ih =>
    obtain ⟨hb, hbs⟩ := List.forall_mem_cons.mp hnew
    obtain ⟨hnot, hnodup⟩ := List.nodup_cons.mp hnodup
    have hrecord : (t.record b).entries = t.entries ++ [b] := recordEntry_of_new hb
    have hrest := ih (t := t.record b) hnodup fun b' hb' c hc => by
      rw [hrecord, List.mem_append, List.mem_singleton] at hc
      rcases hc with hc | rfl
      · exact hbs b' hb' c hc
      · exact fun heq => hnot (heq ▸ List.mem_map_of_mem hb')
    show ((t.record b).recordAll bs).entries = _
    rw [hrest, hrecord, List.append_assoc]
    rfl

end BindingTable

/-! ## The pass over a parsed program -/

/-- `hops` scopes lie between a place and the innermost scope around it that has a name. -/
def Whereabouts.Sees (around : Whereabouts ι) (name : String) (hops : Nat) : Prop :=
  ∃ inner names outer, around.scopes = inner ++ names :: outer ∧ inner.length = hops ∧
    name ∈ names ∧ ∀ names' ∈ inner, name ∉ names'

theorem findIdx?_contains_eq_some_iff {scopes : List (List String)} {name : String} {hops : Nat} :
    scopes.findIdx? (fun names => names.contains name) = some hops ↔
      ∃ inner names outer, scopes = inner ++ names :: outer ∧ inner.length = hops ∧
        name ∈ names ∧ ∀ names' ∈ inner, name ∉ names' := by
  constructor
  · intro h
    obtain ⟨hlt, hmem, hinner⟩ := List.findIdx?_eq_some_iff_getElem.mp h
    refine ⟨scopes.take hops, scopes[hops], scopes.drop (hops + 1), ?_, ?_, by simpa using hmem, ?_⟩
    · rw [List.getElem_cons_drop, List.take_append_drop]
    · rw [List.length_take]
      omega
    · intro names' hnames'
      obtain ⟨i, hi, rfl⟩ := List.mem_iff_getElem.mp hnames'
      rw [List.length_take] at hi
      rw [List.getElem_take]
      simpa using hinner i (by omega)
  · rintro ⟨inner, names, outer, rfl, rfl, hmem, hinner⟩
    rw [List.findIdx?_append, List.findIdx?_eq_none_iff.mpr (by simpa using hinner),
      List.findIdx?_cons]
    simp [hmem]

theorem Whereabouts.hops?_eq_some_iff {around : Whereabouts ι} {name : String} {hops : Nat} :
    around.hops? name = some hops ↔ around.Sees name hops :=
  findIdx?_contains_eq_some_iff

theorem Site.binding?_eq_some_iff {use : RefUse} {ref : Ref Label} {around : Whereabouts Label}
    {b : Binding} :
    Site.binding? ⟨.reference use ref, around⟩ = some b ↔
      ∃ hops, around.Sees ref.name.lexeme hops ∧
        b = ⟨ref.label, use, ref.name, hops, around.function?.isNone⟩ := by
  rw [Site.binding?, Option.map_eq_some_iff]
  exact exists_congr fun hops => and_congr Whereabouts.hops?_eq_some_iff eq_comm

section
variable {depth : Nat} {tokens : List Token} {parsed : Parsed}

/-- A labelled program that the pass gets through has the errors of its places. -/
theorem errors_of_fault_eq_none {program : List (Stmt Label)} (h : ∀ s ∈ program, s.Shaped)
    {depth : Nat} {table : BindingTable}
    (hfault : (bindProgram depth program table).fault = none) :
    (bindProgram depth program table).errors = (sitesOf program).flatMap Site.errors := by
  obtain ⟨_, _, _, hend⟩ := bindProgram_spec (fun s hs => (h s hs).known) depth table
  rw [hfault] at hend
  exact hend.2.trans (filterMap_error?_visitProgram h)

/-- A well-formed one adds the bindings of its places to the table. -/
theorem table_of_fault_eq_none {program : List (Stmt Label)} (h : ∀ s ∈ program, s.WellFormed)
    {depth : Nat} {table : BindingTable}
    (hfault : (bindProgram depth program table).fault = none) :
    (bindProgram depth program table).table =
      table.recordAll ((sitesOf program).filterMap Site.binding?) := by
  obtain ⟨_, _, htable, hend⟩ := bindProgram_spec (Stmt.known_of_wellFormed h) depth table
  rw [hfault] at hend
  rw [htable, hend.1, filterMap_binding?_visitProgram h]

/-- **The binding table is static scope.**  Let a program that was parsed get labels that the table
does not have.  The binding pass stops just if the program is higher than the limit.  If it does
not stop, a reference of the program is in the table if and only if some scope around it has its
name; it is there with the number of scopes up to the innermost of these, and as outside all
functions just if no function lies around it.  Nothing else is added to the table.

The tokens are to be spelled by their kinds as far as `this` and `super` go, as the tokens of every
text are: a variable that is named `this` would be what the word means outside all classes, where
the pass reports the word and binds nothing. -/
theorem bindProgram_static (hspelled : ∀ t ∈ tokens, t.Spelled)
    (hparse : parse depth tokens = .ok parsed) {next : Label} {table : BindingTable}
    (htable : table.Below next) (limit : Nat) :
    let program := (Stmt.relabelAll next parsed.program).1
    let found := bindProgram limit program table
    found.fault = (if Stmt.heightAll program ≤ limit then none else some .tooDeep) ∧
      (found.fault = none →
        (∀ use ref around, ⟨.reference use ref, around⟩ ∈ sitesOf program → ∀ b,
          found.table.find? ref.label = some b ↔
            ∃ hops, around.Sees ref.name.lexeme hops ∧
              b = ⟨ref.label, use, ref.name, hops, around.function?.isNone⟩) ∧
        ∀ b, b ∈ found.table.entries ↔ b ∈ table.entries ∨
          ∃ use ref around hops, ⟨.reference use ref, around⟩ ∈ sitesOf program ∧
            around.Sees ref.name.lexeme hops ∧
            b = ⟨ref.label, use, ref.name, hops, around.function?.isNone⟩) := by
  intro program found
  have hwf : ∀ s ∈ program, s.WellFormed :=
    Stmt.wellFormed_relabelAll (wellFormed_of_parse_spelled hspelled hparse)
  refine ⟨fault_bindProgram_eq hwf limit table, fun hfault => ?_⟩
  have hfills : Label.Fills next _ (labelsAt (sitesOf program)) := fills_sitesOf next parsed.program
  have hnew : ∀ b ∈ (sitesOf program).filterMap Site.binding?, ∀ c ∈ table.entries,
      c.label ≠ b.label := fun b hb c hc =>
    Nat.ne_of_lt (Nat.lt_of_lt_of_le (htable c hc) (hfills.le_of_mem (mem_labelsAt_of_binding? hb)))
  have hentries : found.table.entries =
      table.entries ++ (sitesOf program).filterMap Site.binding? := by
    rw [table_of_fault_eq_none hwf hfault]
    exact BindingTable.entries_recordAll_of_new (nodup_labels_of_labelsAt hfills.nodup) hnew
  constructor
  · intro use ref around hsite b
    have hnext : next ≤ ref.label :=
      hfills.le_of_mem (List.mem_filterMap.mpr ⟨_, hsite, rfl⟩)
    have hnone : table.entries.find? (fun b => b.label == ref.label) = none :=
      BindingTable.find?_eq_none_of_below htable hnext
    rw [← Site.binding?_eq_some_iff, BindingTable.find?, hentries, List.find?_append, hnone,
      Option.none_or, find?_binding?_of_mem hfills.nodup hsite rfl]
  · intro b
    rw [hentries, List.mem_append, List.mem_filterMap]
    refine or_congr_right ⟨?_, ?_⟩
    · rintro ⟨⟨occurrence, around⟩, hsite, hb⟩
      cases occurrence with
      | reference use ref =>
        obtain ⟨hops, hsees, rfl⟩ := Site.binding?_eq_some_iff.mp hb
        exact ⟨use, ref, around, hops, hsite, hsees, rfl⟩
      | _ => cases hb
    · rintro ⟨use, ref, around, hops, hsite, hsees, hb⟩
      exact ⟨_, hsite, Site.binding?_eq_some_iff.mpr ⟨hops, hsees, hb⟩⟩

/-- The tokens of the text

    { class A < A { init(a) { var a = a; return this; } } super.x; } return;

whose program breaks most rules. -/
def faultyTokens : List Token :=
  let token (kind : Kind) (lexeme : String) : Token := ⟨kind, lexeme, .nil, 1⟩
  [token .leftBrace "\x7b", token .classWord "class", token .identifier "A", token .less "<",
    token .identifier "A", token .leftBrace "\x7b", token .identifier "init",
    token .leftParen "(", token .identifier "a", token .rightParen ")",
    token .leftBrace "\x7b", token .varWord "var", token .identifier "a", token .equal "=",
    token .identifier "a", token .semicolon ";", token .returnWord "return",
    token .thisWord "this", token .semicolon ";", token .rightBrace "\x7d",
    token .rightBrace "\x7d", token .superWord "super", token .dot ".", token .identifier "x",
    token .semicolon ";", token .rightBrace "\x7d", token .returnWord "return",
    token .semicolon ";", token .eof ""]

/-- What is parsed from them. -/
def faultyParsed : Parsed := (parse 30 faultyTokens).toOption.getD ⟨[], []⟩

/-- Their program with labels. -/
def faultyProgram : List (Stmt Label) := (Stmt.relabelAll 0 faultyParsed.program).1

theorem parse_faultyTokens : parse 30 faultyTokens = .ok faultyParsed := by
  have hsome : ∀ r : Except Fault Parsed, r.toOption.isSome = true →
      r = .ok (r.toOption.getD ⟨[], []⟩) := by
    intro r hr
    cases r with
    | error f => exact absurd hr Bool.false_ne_true
    | ok parsed => rfl
  exact hsome _ (by decide +kernel)

/-- Its references are in the table as the scopes say. -/
theorem bindProgram_static_faulty :
    (∀ t ∈ faultyTokens, t.Spelled) ∧ parse 30 faultyTokens = .ok faultyParsed ∧
      BindingTable.empty.Below 0 ∧
      (bindProgram 30 faultyProgram .empty).fault = none ∧
      ∀ use ref around, ⟨.reference use ref, around⟩ ∈ sitesOf faultyProgram → ∀ b,
        (bindProgram 30 faultyProgram .empty).table.find? ref.label = some b ↔
          ∃ hops, around.Sees ref.name.lexeme hops ∧
            b = ⟨ref.label, use, ref.name, hops, around.function?.isNone⟩ := by
  have hspelled : ∀ t ∈ faultyTokens, t.Spelled := by decide +kernel
  have hnew : BindingTable.empty.Below 0 := fun b hb => absurd hb List.not_mem_nil
  obtain ⟨hfault, hstatic⟩ := bindProgram_static hspelled parse_faultyTokens hnew 30
  have hnone : (bindProgram 30 faultyProgram .empty).fault = none :=
    hfault.trans (if_pos (by decide +kernel))
  exact ⟨hspelled, parse_faultyTokens, hnew, hnone, (hstatic hnone).1⟩

/-- **The binding pass reports just the rules that are broken.**  Let a program that was parsed get
labels.  If the binding pass does not stop, its errors are those of the places of the program, for
each rule that a place breaks one error with the token of the place, in the order of the places. -/
theorem errors_bindProgram (hparse : parse depth tokens = .ok parsed) (next : Label)
    (table : BindingTable) (limit : Nat) :
    let program := (Stmt.relabelAll next parsed.program).1
    let found := bindProgram limit program table
    found.fault = (if Stmt.heightAll program ≤ limit then none else some .tooDeep) ∧
      (found.fault = none → found.errors = (sitesOf program).flatMap Site.errors) := by
  intro program found
  have hshaped : ∀ s ∈ program, s.Shaped := Stmt.shaped_relabelAll (shaped_of_parse hparse)
  exact ⟨fault_bindProgram_known (fun s hs => (hshaped s hs).known) limit table,
    fun hfault => errors_of_fault_eq_none hshaped hfault⟩

/-- The errors of a program that breaks most rules, in their order. -/
theorem errors_bindProgram_faulty :
    parse 30 faultyTokens = .ok faultyParsed ∧
      (bindProgram 30 faultyProgram .empty).fault = none ∧
      (bindProgram 30 faultyProgram .empty).errors.map (fun e => (e.fault, e.place.lexeme)) =
        [(.inheritsFromItself, "A"), (.alreadyDeclared, "a"), (.readInOwnInitializer, "a"),
          (.valueFromInitializer, "return"), (.superOutsideClass, "super"),
          (.returnOutsideFunction, "return")] := by
  obtain ⟨hfault, herrors⟩ := errors_bindProgram parse_faultyTokens 0 .empty 30
  have hnone : (bindProgram 30 faultyProgram .empty).fault = none :=
    hfault.trans (if_pos (by decide +kernel))
  refine ⟨parse_faultyTokens, hnone, ?_⟩
  have hsites : (bindProgram 30 faultyProgram .empty).errors =
      (sitesOf faultyProgram).flatMap Site.errors := herrors hnone
  rw [hsites]
  decide +kernel

end

end LoxLang
