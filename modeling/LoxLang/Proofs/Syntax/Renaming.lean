import LoxLang.Proofs.Scope.Height
import LoxLang.Proofs.Syntax.Induction
import LoxLang.Scope.Table

/-! # Renaming a local variable

A variable or parameter of a local scope gets another name, in its declaration and in just those
references to names that lead to its scope and have its name.  `localVariables` lists what can be
renamed so, each with the way from the program inward to its scope; `renameLocal` renames it.  Where
a reference leads is what a binding table says of its label.

The program that comes of it stands in the relation `Stmt.Renamed` to the one it was made from.  The
relation says less: names change in some local scopes, and we do not ask in which. -/

namespace LoxLang

variable {ι : Type}

/-! ## Local variables -/

/-- A way from a part of a program inward: the number of the part to go to, at each step. -/
abbrev Path := List Nat

/-- A variable or parameter of a local scope. -/
structure LocalVariable where
  /-- The way to the block, function or method that has the scope. -/
  path : Path
  name : Token

/-- A variable of a part, as one of the whole. -/
def LocalVariable.ofPart (i : Nat) (v : LocalVariable) : LocalVariable := ⟨i :: v.path, v.name⟩

/-- The variable that a statement is the declaration of. -/
def Stmt.varName? : Stmt ι → Option Token
  | .var name _ => some name
  | _ => none

mutual

/-- The variables of the local scopes in a statement. -/
def Stmt.locals : Stmt ι → List LocalVariable
  | .block body => (body.filterMap Stmt.varName?).map (⟨[], ·⟩) ++ Stmt.localsAll 0 body
  | .ifThen _ body | .whileLoop _ body => body.locals.map (.ofPart 0)
  | .ifElse _ body other => body.locals.map (.ofPart 0) ++ other.locals.map (.ofPart 1)
  | .function f => Function.locals f
  | .classOf _ _ methods => Function.localsAll 0 methods
  | _ => []

/-- The variables of the local scopes in statements, the first of which is the `i`-th part. -/
def Stmt.localsAll (i : Nat) : List (Stmt ι) → List LocalVariable
  | [] => []
  | s :: ss => s.locals.map (.ofPart i) ++ Stmt.localsAll (i + 1) ss

/-- The parameters of a function and the variables of the local scopes in it. -/
def Function.locals : Function ι → List LocalVariable
  | ⟨_, params, body⟩ =>
    (params ++ body.filterMap Stmt.varName?).map (⟨[], ·⟩) ++ Stmt.localsAll 0 body

/-- The variables of the local scopes in methods, the first of which is the `i`-th part. -/
def Function.localsAll (i : Nat) : List (Function ι) → List LocalVariable
  | [] => []
  | m :: ms => (Function.locals m).map (.ofPart i) ++ Function.localsAll (i + 1) ms

end

/-- The local variables and the parameters of a program. -/
def localVariables (program : List (Stmt ι)) : List LocalVariable := Stmt.localsAll 0 program

/-! ## Renaming -/

mutual

/-- Changes the references of an expression to names, those that are read and those that are
assigned to. -/
def Expr.mapNames (f : Ref ι → Ref ι) : Expr ι → Expr ι
  | .literal value => .literal value
  | .nameRef ref => .nameRef (f ref)
  | .assign ref value => .assign (f ref) (value.mapNames f)
  | .unary op operand => .unary op (operand.mapNames f)
  | .binary left op right => .binary (left.mapNames f) op (right.mapNames f)
  | .logical left op right => .logical (left.mapNames f) op (right.mapNames f)
  | .group inner => .group (inner.mapNames f)
  | .call callee paren arguments =>
    .call (callee.mapNames f) paren (Expr.mapNamesAll f arguments)
  | .get object name => .get (object.mapNames f) name
  | .set object name value => .set (object.mapNames f) name (value.mapNames f)
  | .thisRef ref => .thisRef ref
  | .superRef ref method => .superRef ref method
  | .unknown form => .unknown form

/-- Changes the references of expressions to names. -/
def Expr.mapNamesAll (f : Ref ι → Ref ι) : List (Expr ι) → List (Expr ι)
  | [] => []
  | e :: es => e.mapNames f :: Expr.mapNamesAll f es

end

/-- A change of names in some local scopes.  References lead where the table says. -/
structure Renaming where
  table : BindingTable
  change : String → String

namespace Renaming

variable (r : Renaming)

/-- A name of a scope in which names change or do not. -/
def name (here : Bool) (name : String) : String := if here then r.change name else name

/-- A token that names something in a scope in which names change or do not. -/
def token (here : Bool) (t : Token) : Token := { t with lexeme := r.name here t.lexeme }

/-- A reference inside local scopes in which names change or do not, the innermost first. -/
def reference (inside : List Bool) (ref : Ref Label) : Ref Label :=
  match r.table.hops? ref.label with
  | some hops => { ref with name := r.token (inside.getD hops false) ref.name }
  | none => ref

end Renaming

/-- What is left of the way to a scope, if it is one at all and goes through the `i`-th part. -/
def Path.into (i : Nat) : Option Path → Option Path
  | some (j :: rest) => if j = i then some rest else none
  | some [] | none => none

section
variable (r : Renaming)

mutual

/-- Changes the names of the scope to which there is a way, if there is one. -/
def Stmt.rename (way : Option Path) (inside : List Bool) : Stmt Label → Stmt Label
  | .expression value => .expression (value.mapNames (r.reference inside))
  | .print value => .print (value.mapNames (r.reference inside))
  | .var name initial =>
    .var (r.token (inside.headD false) name) (initial.map (Expr.mapNames (r.reference inside)))
  | .block body => .block (Stmt.renameAll way ((way == some []) :: inside) 0 body)
  | .ifThen condition body =>
    .ifThen (condition.mapNames (r.reference inside)) (body.rename (Path.into 0 way) inside)
  | .ifElse condition body other =>
    .ifElse (condition.mapNames (r.reference inside)) (body.rename (Path.into 0 way) inside)
      (other.rename (Path.into 1 way) inside)
  | .whileLoop condition body =>
    .whileLoop (condition.mapNames (r.reference inside)) (body.rename (Path.into 0 way) inside)
  | .function f => .function (Function.rename way inside f)
  | .returnFrom keyword value =>
    .returnFrom keyword (value.map (Expr.mapNames (r.reference inside)))
  | .classOf name none methods =>
    .classOf name none (Function.renameAll way (false :: inside) 0 methods)
  | .classOf name (some parent) methods =>
    .classOf name (some (r.reference inside parent))
      (Function.renameAll way (false :: false :: inside) 0 methods)
  | .unknown form => .unknown form

/-- Changes the names of the scope to which there is a way in statements, the first of which is the
`i`-th part. -/
def Stmt.renameAll (way : Option Path) (inside : List Bool) (i : Nat) :
    List (Stmt Label) → List (Stmt Label)
  | [] => []
  | s :: ss =>
    s.rename (Path.into i way) inside :: Stmt.renameAll way inside (i + 1) ss

/-- Changes the names of the scope to which there is a way in a function. -/
def Function.rename (way : Option Path) (inside : List Bool) : Function Label → Function Label
  | ⟨name, params, body⟩ =>
    let here := way == some []
    ⟨name, params.map (r.token here), Stmt.renameAll way (here :: inside) 0 body⟩

/-- Changes the names of the scope to which there is a way in methods, the first of which is the
`i`-th part. -/
def Function.renameAll (way : Option Path) (inside : List Bool) (i : Nat) :
    List (Function Label) → List (Function Label)
  | [] => []
  | m :: ms =>
    Function.rename (Path.into i way) inside m :: Function.renameAll way inside (i + 1) ms

end

end

/-- One name takes the place of another. -/
def Renaming.replacing (table : BindingTable) (old new : String) : Renaming :=
  ⟨table, fun name => if name = old then new else name⟩

/-- Renames a local variable or parameter, and with it the references that lead to its scope under
its name. -/
def renameLocal (table : BindingTable) (v : LocalVariable) (new : String)
    (program : List (Stmt Label)) : List (Stmt Label) :=
  Stmt.renameAll (.replacing table v.name.lexeme new) (some v.path) [] 0 program

/-! ## Programs that differ in names of local scopes -/

/-- A name declared in the innermost scope does not change. -/
def Renaming.Keeps (r : Renaming) (inside : List Bool) (name : Token) : Prop :=
  r.name (inside.headD false) name.lexeme = name.lexeme

section
variable (r : Renaming)

mutual

/-- The second statement is the first one with names changed in some local scopes.  The names of
functions and classes stay. -/
inductive Stmt.Renamed : List Bool → Stmt Label → Stmt Label → Prop
  | expression {inside : List Bool} (value : Expr Label) :
      Stmt.Renamed inside (.expression value) (.expression (value.mapNames (r.reference inside)))
  | print {inside : List Bool} (value : Expr Label) :
      Stmt.Renamed inside (.print value) (.print (value.mapNames (r.reference inside)))
  | var {inside : List Bool} (name : Token) (initial : Option (Expr Label)) :
      Stmt.Renamed inside (.var name initial) (.var (r.token (inside.headD false) name)
        (initial.map (Expr.mapNames (r.reference inside))))
  | block {inside : List Bool} (here : Bool) {body body' : List (Stmt Label)}
      (hbody : Stmt.RenamedAll (here :: inside) body body') :
      Stmt.Renamed inside (.block body) (.block body')
  | ifThen {inside : List Bool} (condition : Expr Label) {body body' : Stmt Label}
      (hbody : Stmt.Renamed inside body body') :
      Stmt.Renamed inside (.ifThen condition body)
        (.ifThen (condition.mapNames (r.reference inside)) body')
  | ifElse {inside : List Bool} (condition : Expr Label) {body body' other other' : Stmt Label}
      (hbody : Stmt.Renamed inside body body') (hother : Stmt.Renamed inside other other') :
      Stmt.Renamed inside (.ifElse condition body other)
        (.ifElse (condition.mapNames (r.reference inside)) body' other')
  | whileLoop {inside : List Bool} (condition : Expr Label) {body body' : Stmt Label}
      (hbody : Stmt.Renamed inside body body') :
      Stmt.Renamed inside (.whileLoop condition body)
        (.whileLoop (condition.mapNames (r.reference inside)) body')
  | function {inside : List Bool} {f f' : Function Label} (hname : r.Keeps inside f.name)
      (hf : Function.Renamed inside f f') : Stmt.Renamed inside (.function f) (.function f')
  | returnFrom {inside : List Bool} (keyword : Token) (value : Option (Expr Label)) :
      Stmt.Renamed inside (.returnFrom keyword value)
        (.returnFrom keyword (value.map (Expr.mapNames (r.reference inside))))
  | classOf {inside : List Bool} {name : Token} {methods methods' : List (Function Label)}
      (hname : r.Keeps inside name)
      (hmethods : Function.RenamedAll (false :: inside) methods methods') :
      Stmt.Renamed inside (.classOf name none methods) (.classOf name none methods')
  | subclassOf {inside : List Bool} {name : Token} (parent : Ref Label)
      {methods methods' : List (Function Label)} (hname : r.Keeps inside name)
      (hmethods : Function.RenamedAll (false :: false :: inside) methods methods') :
      Stmt.Renamed inside (.classOf name (some parent) methods)
        (.classOf name (some (r.reference inside parent)) methods')
  | unknown {inside : List Bool} (form : String) :
      Stmt.Renamed inside (.unknown form) (.unknown form)

/-- The second statements are the first ones with names changed in some local scopes. -/
inductive Stmt.RenamedAll : List Bool → List (Stmt Label) → List (Stmt Label) → Prop
  | nil {inside : List Bool} : Stmt.RenamedAll inside [] []
  | cons {inside : List Bool} {s s' : Stmt Label} {ss ss' : List (Stmt Label)}
      (hs : Stmt.Renamed inside s s') (hss : Stmt.RenamedAll inside ss ss') :
      Stmt.RenamedAll inside (s :: ss) (s' :: ss')

/-- The second function is the first one with names changed in some local scopes. -/
inductive Function.Renamed : List Bool → Function Label → Function Label → Prop
  | intro {inside : List Bool} (here : Bool) (name : Token) (params : List Token)
      {body body' : List (Stmt Label)} (hbody : Stmt.RenamedAll (here :: inside) body body') :
      Function.Renamed inside ⟨name, params, body⟩ ⟨name, params.map (r.token here), body'⟩

/-- The second methods are the first ones with names changed in some local scopes. -/
inductive Function.RenamedAll : List Bool → List (Function Label) → List (Function Label) → Prop
  | nil {inside : List Bool} : Function.RenamedAll inside [] []
  | cons {inside : List Bool} {m m' : Function Label} {ms ms' : List (Function Label)}
      (hm : Function.Renamed inside m m') (hms : Function.RenamedAll inside ms ms') :
      Function.RenamedAll inside (m :: ms) (m' :: ms')

end

end

/-- Different names stay different, and the words `this` and `super` stay. -/
structure Renaming.Lawful (r : Renaming) : Prop where
  injective : Function.Injective r.change
  this : r.change "this" = "this"
  super : r.change "super" = "super"

namespace Renaming

variable {r : Renaming}

@[simp] theorem name_false (r : Renaming) (name : String) : r.name false name = name := rfl

@[simp] theorem token_false (r : Renaming) (t : Token) : r.token false t = t := rfl

@[simp] theorem lexeme_token (r : Renaming) (here : Bool) (t : Token) :
    (r.token here t).lexeme = r.name here t.lexeme := rfl

theorem token_eq_self {here : Bool} {t : Token} (h : r.name here t.lexeme = t.lexeme) :
    r.token here t = t := by
  rw [token, h]

@[simp] theorem label_reference (r : Renaming) (inside : List Bool) (ref : Ref Label) :
    (r.reference inside ref).label = ref.label := by
  unfold reference
  split <;> rfl

theorem exists_reference_eq (r : Renaming) (inside : List Bool) (ref : Ref Label) :
    ∃ here, r.reference inside ref = { ref with name := r.token here ref.name } := by
  unfold reference
  split
  · exact ⟨_, rfl⟩
  · exact ⟨false, rfl⟩

@[simp] theorem line_reference (r : Renaming) (inside : List Bool) (ref : Ref Label) :
    (r.reference inside ref).name.line = ref.name.line := by
  obtain ⟨here, heq⟩ := r.exists_reference_eq inside ref
  rw [heq]
  rfl

/-- A reference stays if its name changes in no scope. -/
theorem reference_eq_of_name_eq (r : Renaming) {ref : Ref Label}
    (h : ∀ here, r.name here ref.name.lexeme = ref.name.lexeme) (inside : List Bool) :
    r.reference inside ref = ref := by
  obtain ⟨here, heq⟩ := r.exists_reference_eq inside ref
  rw [heq, token_eq_self (h here)]

/-- Where names change in no scope, references stay. -/
theorem reference_eq_self {inside : List Bool} (h : ∀ here ∈ inside, here = false)
    (ref : Ref Label) : r.reference inside ref = ref := by
  unfold reference
  split
  · rename_i hops _
    have hhere : inside.getD hops false = false := by
      rw [List.getD_eq_getElem?_getD]
      cases hget : inside[hops]? with
      | none => rfl
      | some here => exact h here (List.mem_of_getElem? hget)
    rw [hhere, token_false]
  · rfl

namespace Lawful

variable (hr : r.Lawful)
include hr

theorem name_injective (here : Bool) : Function.Injective (r.name here) := by
  cases here with
  | false => exact fun _ _ h => h
  | true => exact hr.injective

theorem name_this (here : Bool) : r.name here "this" = "this" := by
  cases here with
  | false => rfl
  | true => exact hr.this

theorem name_super (here : Bool) : r.name here "super" = "super" := by
  cases here with
  | false => rfl
  | true => exact hr.super

/-- A name does not become one of the words. -/
theorem isName_token {t : Token} (h : t.IsName) (here : Bool) : (r.token here t).IsName := by
  refine ⟨fun hthis => h.1 ?_, fun hsuper => h.2 ?_⟩
  · exact hr.name_injective here (hthis.trans (hr.name_this here).symm)
  · exact hr.name_injective here (hsuper.trans (hr.name_super here).symm)

theorem isName_reference {ref : Ref Label} (h : ref.name.IsName) (inside : List Bool) :
    (r.reference inside ref).name.IsName := by
  obtain ⟨here, heq⟩ := r.exists_reference_eq inside ref
  rw [heq]
  exact hr.isName_token h here

/-- A reference to `this` stays. -/
theorem reference_this {ref : Ref Label} (h : ref.name.lexeme = "this") (inside : List Bool) :
    r.reference inside ref = ref :=
  r.reference_eq_of_name_eq (fun here => by rw [h, hr.name_this]) inside

/-- A reference to `super` stays. -/
theorem reference_super {ref : Ref Label} (h : ref.name.lexeme = "super") (inside : List Bool) :
    r.reference inside ref = ref :=
  r.reference_eq_of_name_eq (fun here => by rw [h, hr.name_super]) inside

end Lawful

end Renaming

/-! ## Expressions -/

namespace Expr

variable {f : Ref ι → Ref ι}

theorem mapNamesAll_eq (f : Ref ι → Ref ι) (es : List (Expr ι)) :
    Expr.mapNamesAll f es = es.map (Expr.mapNames f) := by
  induction es with
  | nil => rfl
  | cons e es ih => rw [mapNamesAll, ih, List.map_cons]

/-- Nothing changes if no reference does. -/
theorem mapNames_eq_self (h : ∀ ref, f ref = ref) (e : Expr ι) : e.mapNames f = e := by
  induction e using Expr.inductionOn with
  | call callee paren arguments ihcallee iharguments =>
    rw [mapNames, mapNamesAll_eq, ihcallee, List.map_congr_left iharguments, List.map_id']
  | _ => simp_all [mapNames]

/-- An expression comes out the same if its references do. -/
theorem mapNames_congr {f g : Ref ι → Ref ι} {e : Expr ι}
    (h : ∀ use ∈ e.references, f use.2 = g use.2) : e.mapNames f = e.mapNames g := by
  induction e using Expr.inductionOn with
  | literal | thisRef | superRef | unknown => rfl
  | nameRef ref => rw [mapNames, mapNames, h (.read, ref) List.mem_cons_self]
  | assign ref value ih =>
    obtain ⟨hvalue, href⟩ := List.forall_mem_append.mp h
    rw [mapNames, mapNames, ih hvalue, href (.assign, ref) List.mem_cons_self]
  | unary op operand ih | group inner ih | get object name ih => rw [mapNames, mapNames, ih h]
  | binary left op right ihleft ihright | logical left op right ihleft ihright =>
    obtain ⟨hleft, hright⟩ := List.forall_mem_append.mp h
    rw [mapNames, mapNames, ihleft hleft, ihright hright]
  | call callee paren arguments ihcallee iharguments =>
    obtain ⟨hcallee, harguments⟩ := List.forall_mem_append.mp h
    rw [referencesAll_eq] at harguments
    have hsame : ∀ a ∈ arguments, a.mapNames f = a.mapNames g := fun a ha =>
      iharguments a ha fun use huse => harguments use (List.mem_flatMap.mpr ⟨a, ha, huse⟩)
    rw [mapNames, mapNames, mapNamesAll_eq, mapNamesAll_eq, ihcallee hcallee,
      List.map_congr_left hsame]
  | set object name value ihobject ihvalue =>
    obtain ⟨hvalue, hobject⟩ := List.forall_mem_append.mp h
    rw [mapNames, mapNames, ihobject hobject, ihvalue hvalue]

/-- What becomes of a reference of an expression. -/
def mapReference (f : Ref ι → Ref ι) : RefUse × Ref ι → RefUse × Ref ι
  | (.read, ref) => (.read, f ref)
  | (.assign, ref) => (.assign, f ref)
  | (.this, ref) => (.this, ref)
  | (.super, ref) => (.super, ref)

theorem references_mapNames (f : Ref ι → Ref ι) (e : Expr ι) :
    (e.mapNames f).references = e.references.map (mapReference f) := by
  induction e using Expr.inductionOn with
  | call callee paren arguments ihcallee iharguments =>
    rw [mapNames, mapNamesAll_eq, references, references, referencesAll_eq, referencesAll_eq,
      ihcallee, List.map_append, List.flatMap_map, List.map_flatMap]
    congr 1
    exact List.flatMap_congr iharguments
  | _ => simp_all [mapNames, references, mapReference]

theorem wellFormed_mapNames (hf : ∀ ref : Ref ι, ref.name.IsName → (f ref).name.IsName)
    {e : Expr ι} (h : e.WellFormed) : (e.mapNames f).WellFormed := by
  induction h with
  | literal value => exact .literal value
  | nameRef hname => exact .nameRef (hf _ hname)
  | assign hname _ ih => exact .assign (hf _ hname) ih
  | unary _ ih => exact .unary ih
  | binary _ _ ihleft ihright => exact .binary ihleft ihright
  | logical _ _ ihleft ihright => exact .logical ihleft ihright
  | group _ ih => exact .group ih
  | call _ _ ihcallee iharguments =>
    refine .call ihcallee fun a ha => ?_
    rw [mapNamesAll_eq] at ha
    obtain ⟨b, hb, rfl⟩ := List.mem_map.mp ha
    exact iharguments b hb
  | get _ ih => exact .get ih
  | set _ _ ihobject ihvalue => exact .set ihobject ihvalue
  | thisRef hthis => exact .thisRef hthis
  | superRef hsuper => exact .superRef hsuper

theorem height_mapNames (f : Ref ι → Ref ι) (e : Expr ι) : (e.mapNames f).height = e.height := by
  induction e using Expr.inductionOn with
  | call callee paren arguments ihcallee iharguments =>
    have hall : Expr.heightAll (Expr.mapNamesAll f arguments) = Expr.heightAll arguments := by
      induction arguments with
      | nil => rfl
      | cons a arguments ih =>
        obtain ⟨ha, harguments⟩ := List.forall_mem_cons.mp iharguments
        rw [mapNamesAll, heightAll, heightAll, ha, ih harguments]
    rw [mapNames, height, height, ihcallee, hall]
  | _ => simp_all [mapNames, height]

end Expr

/-! ## Statements -/

section
variable {r : Renaming} {inside : List Bool}

theorem Stmt.RenamedAll.exists_of_mem {ss ss' : List (Stmt Label)}
    (h : Stmt.RenamedAll r inside ss ss') {s' : Stmt Label} (hs' : s' ∈ ss') :
    ∃ s ∈ ss, Stmt.Renamed r inside s s' := by
  induction ss generalizing ss' with
  | nil =>
    cases h
    cases hs'
  | cons s ss ih =>
    cases h with
    | cons hs hss =>
      rcases List.mem_cons.mp hs' with rfl | hs'
      · exact ⟨s, List.mem_cons_self, hs⟩
      · obtain ⟨t, ht, hrenamed⟩ := ih hss hs'
        exact ⟨t, List.mem_cons_of_mem s ht, hrenamed⟩

theorem Function.RenamedAll.exists_of_mem {ms ms' : List (Function Label)}
    (h : Function.RenamedAll r inside ms ms') {m' : Function Label} (hm' : m' ∈ ms') :
    ∃ m ∈ ms, Function.Renamed r inside m m' := by
  induction ms generalizing ms' with
  | nil =>
    cases h
    cases hm'
  | cons m ms ih =>
    cases h with
    | cons hm hms =>
      rcases List.mem_cons.mp hm' with rfl | hm'
      · exact ⟨m, List.mem_cons_self, hm⟩
      · obtain ⟨n, hn, hrenamed⟩ := ih hms hm'
        exact ⟨n, List.mem_cons_of_mem m hn, hrenamed⟩

theorem Renaming.Keeps.token_eq {name : Token} (h : r.Keeps inside name) :
    r.token (inside.headD false) name = name := token_eq_self h

theorem Function.Renamed.name_eq {f f' : Function Label} (h : Function.Renamed r inside f f') :
    f'.name = f.name := by
  cases h
  rfl

/-- A statement declares the same names, changed as names of the innermost scope are. -/
theorem Stmt.Renamed.declares_eq {s s' : Stmt Label} (h : Stmt.Renamed r inside s s') :
    s'.declares = s.declares.map (r.token (inside.headD false)) := by
  induction s using Stmt.inductionOn generalizing s' with
  | ifThen condition body ih =>
    cases h with
    | ifThen _ hbody => rw [declares, declares, ih hbody]
  | whileLoop condition body ih =>
    cases h with
    | whileLoop _ hbody => rw [declares, declares, ih hbody]
  | ifElse condition body other ihbody ihother =>
    cases h with
    | ifElse _ hbody hother =>
      rw [declares, declares, ihbody hbody, ihother hother, List.map_append]
  | function f =>
    cases h with
    | function hname hf =>
      rw [declares, declares, hf.name_eq, List.map_singleton, hname.token_eq]
  | classOf name superclass methods =>
    cases h with
    | classOf hname | subclassOf _ hname =>
      rw [declares, declares, List.map_singleton, hname.token_eq]
  | _ =>
    cases h
    rfl

theorem Renaming.Lawful.wellFormed_option (hr : r.Lawful) {e : Option (Expr Label)}
    (h : ∀ x ∈ e, x.WellFormed) :
    ∀ x ∈ e.map (Expr.mapNames (r.reference inside)), x.WellFormed := by
  intro x hx
  obtain ⟨y, hy, rfl⟩ := Option.map_eq_some_iff.mp hx
  exact Expr.wellFormed_mapNames (fun _ hname => hr.isName_reference hname inside) (h y hy)

/-- A function is well-formed with changed names if the statements of its body are. -/
theorem Function.Renamed.wellFormed {f f' : Function Label} (h : Function.Renamed r inside f f')
    (hr : r.Lawful) (hf : f.WellFormed)
    (hbody : ∀ s ∈ f.body, ∀ inside s', Stmt.Renamed r inside s s' → s'.WellFormed) :
    f'.WellFormed := by
  cases h with
  | intro here name params hrenamed =>
    constructor
    · intro p hp
      obtain ⟨q, hq, rfl⟩ := List.mem_map.mp hp
      exact hr.isName_token (hf.params q hq) here
    · intro s' hs'
      obtain ⟨s, hs, hstmt⟩ := hrenamed.exists_of_mem hs'
      exact hbody s hs _ s' hstmt

theorem Function.RenamedAll.wellFormed {ms ms' : List (Function Label)}
    (h : Function.RenamedAll r inside ms ms') (hr : r.Lawful) (hms : ∀ m ∈ ms, m.WellFormed)
    (hbody : ∀ m ∈ ms, ∀ s ∈ m.body, ∀ inside s', Stmt.Renamed r inside s s' → s'.WellFormed) :
    ∀ m' ∈ ms', m'.WellFormed := by
  intro m' hm'
  obtain ⟨m, hm, hrenamed⟩ := h.exists_of_mem hm'
  exact hrenamed.wellFormed hr (hms m hm) (hbody m hm)

/-- A well-formed statement is well-formed with changed names. -/
theorem Stmt.Renamed.wellFormed {s s' : Stmt Label} (h : Stmt.Renamed r inside s s')
    (hr : r.Lawful) (hs : s.WellFormed) : s'.WellFormed := by
  have hexpr : ∀ {inside : List Bool} {e : Expr Label}, e.WellFormed →
      (e.mapNames (r.reference inside)).WellFormed := fun he =>
    Expr.wellFormed_mapNames (fun _ hname => hr.isName_reference hname _) he
  induction hs generalizing inside s' with
  | expression hvalue =>
    cases h
    exact .expression (hexpr hvalue)
  | print hvalue =>
    cases h
    exact .print (hexpr hvalue)
  | var hname hinitial =>
    cases h
    exact .var (hr.isName_token hname _) (hr.wellFormed_option hinitial)
  | block _ ih =>
    cases h with
    | block here hbody =>
      refine .block fun s' hs' => ?_
      obtain ⟨s, hs, hrenamed⟩ := hbody.exists_of_mem hs'
      exact ih s hs hrenamed
  | ifThen hcondition _ hnone ih =>
    cases h with
    | ifThen _ hbody =>
      exact .ifThen (hexpr hcondition) (ih hbody) (by rw [hbody.declares_eq, hnone, List.map_nil])
  | ifElse hcondition _ hnone _ hnone' ihbody ihother =>
    cases h with
    | ifElse _ hbody hother =>
      exact .ifElse (hexpr hcondition) (ihbody hbody)
        (by rw [hbody.declares_eq, hnone, List.map_nil]) (ihother hother)
        (by rw [hother.declares_eq, hnone', List.map_nil])
  | whileLoop hcondition _ hnone ih =>
    cases h with
    | whileLoop _ hbody =>
      exact .whileLoop (hexpr hcondition) (ih hbody)
        (by rw [hbody.declares_eq, hnone, List.map_nil])
  | function hname hparams hbody ih =>
    cases h with
    | function _ hf =>
      have hwf := hf.wellFormed hr ⟨hparams, hbody⟩ fun s hs _ s' => ih s hs
      exact .function (hf.name_eq ▸ hname) hwf.params hwf.body
  | returnFrom hvalue =>
    cases h
    exact .returnFrom (hr.wellFormed_option hvalue)
  | classOf hname hsuperclass hparams hbodies ih =>
    have hmethods := fun m hm => (⟨hparams m hm, hbodies m hm⟩ : FunctionOf.WellFormed m)
    cases h with
    | classOf _ hms =>
      have hwf := hms.wellFormed hr hmethods fun m hm s hs _ s' => ih m hm s hs
      exact .classOf hname hsuperclass (fun m hm => (hwf m hm).params) fun m hm => (hwf m hm).body
    | subclassOf parent _ hms =>
      have hwf := hms.wellFormed hr hmethods fun m hm s hs _ s' => ih m hm s hs
      refine .classOf hname ?_ (fun m hm => (hwf m hm).params) fun m hm => (hwf m hm).body
      rintro _ ⟨⟩
      exact hr.isName_reference (hsuperclass parent rfl) inside

theorem Stmt.RenamedAll.heightAll_eq {ss ss' : List (Stmt Label)}
    (h : Stmt.RenamedAll r inside ss ss')
    (ih : ∀ s ∈ ss, ∀ inside s', Stmt.Renamed r inside s s' → s'.height = s.height) :
    Stmt.heightAll ss' = Stmt.heightAll ss := by
  induction ss generalizing ss' with
  | nil =>
    cases h
    rfl
  | cons s ss ihss =>
    obtain ⟨hs, hss⟩ := List.forall_mem_cons.mp ih
    cases h with
    | cons hrenamed hrest => rw [Stmt.heightAll, Stmt.heightAll, hs _ _ hrenamed, ihss hrest hss]

theorem Function.Renamed.height_eq {f f' : Function Label} (h : Function.Renamed r inside f f')
    (ih : ∀ s ∈ f.body, ∀ inside s', Stmt.Renamed r inside s s' → s'.height = s.height) :
    Function.height f' = Function.height f := by
  cases h with
  | intro here name params hbody => exact hbody.heightAll_eq ih

theorem Function.RenamedAll.heightAll_eq {ms ms' : List (Function Label)}
    (h : Function.RenamedAll r inside ms ms')
    (ih : ∀ m ∈ ms, ∀ s ∈ m.body, ∀ inside s', Stmt.Renamed r inside s s' →
      s'.height = s.height) :
    Function.heightAll ms' = Function.heightAll ms := by
  induction ms generalizing ms' with
  | nil =>
    cases h
    rfl
  | cons m ms ihms =>
    obtain ⟨hm, hms⟩ := List.forall_mem_cons.mp ih
    cases h with
    | cons hrenamed hrest =>
      rw [Function.heightAll, Function.heightAll, hrenamed.height_eq hm, ihms hrest hms]

theorem Expr.heightOption_map (f : Ref ι → Ref ι) (e : Option (Expr ι)) :
    Expr.heightOption (e.map (Expr.mapNames f)) = Expr.heightOption e := by
  cases e with
  | none => rfl
  | some e => exact Expr.height_mapNames f e

/-- Statements with changed names are as high. -/
theorem Stmt.Renamed.height_eq {s s' : Stmt Label} (h : Stmt.Renamed r inside s s') :
    s'.height = s.height := by
  induction s using Stmt.inductionOn generalizing inside s' with
  | block body ih =>
    cases h with
    | block here hbody => rw [height, height, hbody.heightAll_eq fun s hs _ s' => ih s hs]
  | ifThen condition body ih =>
    cases h with
    | ifThen _ hbody => rw [height, height, Expr.height_mapNames, ih hbody]
  | whileLoop condition body ih =>
    cases h with
    | whileLoop _ hbody => rw [height, height, Expr.height_mapNames, ih hbody]
  | ifElse condition body other ihbody ihother =>
    cases h with
    | ifElse _ hbody hother =>
      rw [height, height, Expr.height_mapNames, ihbody hbody, ihother hother]
  | function f ih =>
    cases h with
    | function _ hf => rw [height, height, hf.height_eq fun s hs _ s' => ih s hs]
  | classOf name superclass methods ih =>
    cases h with
    | classOf _ hms | subclassOf _ _ hms =>
      rw [height, height, hms.heightAll_eq fun m hm s hs _ s' => ih m hm s hs]
  | _ =>
    cases h
    simp [height, Expr.height_mapNames, Expr.heightOption_map]

end

/-! ## Where nothing changes -/

section
variable {r : Renaming} {inside : List Bool}

theorem Stmt.renamedAll_self {ss : List (Stmt Label)} (h : ∀ s ∈ ss, Stmt.Renamed r inside s s) :
    Stmt.RenamedAll r inside ss ss := by
  induction ss with
  | nil => exact .nil
  | cons s ss ih =>
    obtain ⟨hs, hss⟩ := List.forall_mem_cons.mp h
    exact .cons hs (ih hss)

theorem Function.renamed_self {f : Function Label}
    (h : ∀ s ∈ f.body, Stmt.Renamed r (false :: inside) s s) : Function.Renamed r inside f f := by
  obtain ⟨name, params, body⟩ := f
  have hself : Function.Renamed r inside _ _ :=
    .intro false name params (Stmt.renamedAll_self h)
  have hparams : params.map (r.token false) = params := List.map_id' params
  rwa [hparams] at hself

theorem Function.renamedAll_self {ms : List (Function Label)}
    (h : ∀ m ∈ ms, ∀ s ∈ m.body, Stmt.Renamed r (false :: inside) s s) :
    Function.RenamedAll r inside ms ms := by
  induction ms with
  | nil => exact .nil
  | cons m ms ih =>
    obtain ⟨hm, hms⟩ := List.forall_mem_cons.mp h
    exact .cons (Function.renamed_self hm) (ih hms)

theorem Renaming.keeps_of_unchanged (h : ∀ here ∈ inside, here = false) (name : Token) :
    r.Keeps inside name := by
  cases inside with
  | nil => exact r.name_false name.lexeme
  | cons here outer => rw [Keeps, List.headD_cons, h here List.mem_cons_self, name_false]

namespace Expr

variable (h : ∀ here ∈ inside, here = false)
include h

theorem mapNames_reference_eq_self (e : Expr Label) : e.mapNames (r.reference inside) = e :=
  mapNames_eq_self (Renaming.reference_eq_self h) e

theorem map_mapNames_reference_eq_self (e : Option (Expr Label)) :
    e.map (Expr.mapNames (r.reference inside)) = e := by
  cases e with
  | none => rfl
  | some e => rw [Option.map_some, mapNames_reference_eq_self h]

end Expr

/-- Where names change in no scope around a statement, it may stay as it is. -/
theorem Stmt.renamed_self (h : ∀ here ∈ inside, here = false) (s : Stmt Label) :
    Stmt.Renamed r inside s s := by
  -- in the scopes inside the statement we choose that no names change either
  induction s using Stmt.inductionOn generalizing inside with
  | expression value =>
    have hself : Stmt.Renamed r inside _ _ := .expression value
    rwa [Expr.mapNames_reference_eq_self h] at hself
  | print value =>
    have hself : Stmt.Renamed r inside _ _ := .print value
    rwa [Expr.mapNames_reference_eq_self h] at hself
  | var name initial =>
    have hself : Stmt.Renamed r inside _ _ := .var name initial
    have hkeeps := Renaming.keeps_of_unchanged (r := r) h name
    rwa [Expr.map_mapNames_reference_eq_self h, hkeeps.token_eq] at hself
  | block body ih =>
    have hinner : ∀ here ∈ false :: inside, here = false := List.forall_mem_cons.mpr ⟨rfl, h⟩
    exact .block false (Stmt.renamedAll_self fun s hs => ih s hs hinner)
  | ifThen condition body ih =>
    have hself := Stmt.Renamed.ifThen condition (ih h)
    rwa [Expr.mapNames_reference_eq_self h] at hself
  | ifElse condition body other ihbody ihother =>
    have hself := Stmt.Renamed.ifElse condition (ihbody h) (ihother h)
    rwa [Expr.mapNames_reference_eq_self h] at hself
  | whileLoop condition body ih =>
    have hself := Stmt.Renamed.whileLoop condition (ih h)
    rwa [Expr.mapNames_reference_eq_self h] at hself
  | function f ih =>
    have hinner : ∀ here ∈ false :: inside, here = false := List.forall_mem_cons.mpr ⟨rfl, h⟩
    exact .function (Renaming.keeps_of_unchanged h f.name)
      (Function.renamed_self fun s hs => ih s hs hinner)
  | returnFrom keyword value =>
    have hself : Stmt.Renamed r inside _ _ := .returnFrom keyword value
    rwa [Expr.map_mapNames_reference_eq_self h] at hself
  | classOf name superclass methods ih =>
    have hkeeps := Renaming.keeps_of_unchanged (r := r) h name
    cases superclass with
    | none =>
      have hinner : ∀ here ∈ false :: false :: inside, here = false := by simpa using h
      exact .classOf hkeeps (Function.renamedAll_self fun m hm s hs => ih m hm s hs hinner)
    | some parent =>
      have hinner : ∀ here ∈ false :: false :: false :: inside, here = false := by simpa using h
      have hself : Stmt.Renamed r inside _ _ := .subclassOf parent hkeeps
        (Function.renamedAll_self fun m hm s hs => ih m hm s hs hinner)
      rwa [Renaming.reference_eq_self h] at hself
  | unknown form => exact .unknown form

end

end LoxLang
