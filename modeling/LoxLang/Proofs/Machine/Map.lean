import LoxLang.Machine.Operator
import LoxLang.Machine.State
import LoxLang.Proofs.Syntax.Map

/-! # Machines up to labels and places

What a running machine holds are functions and classes, and in these are references, each with its
label, and tokens, with the lines on which they stand.  `Machine.map φ` changes all tokens by `φ`.  A
`Change` also changes the labels, and can leave out what no look-up finds.  If it keeps the kinds and
the texts of tokens, then looking something up in a machine, and computing with values, gives the
same up to the change. -/

namespace LoxLang

/-- A change of what a machine holds. -/
structure Change where
  /-- What becomes of the labels of references. -/
  label : Label → Label
  /-- What becomes of tokens. -/
  token : Token → Token
  /-- Whether entries are left out that no look-up finds. -/
  prunes : Bool

/-- Changes tokens only. -/
def Change.ofToken (φ : Token → Token) : Change := ⟨id, φ, false⟩

/-- A change keeps what a running program sees of tokens. -/
structure Change.Lawful (c : Change) : Prop where
  lexeme : ∀ t, (c.token t).lexeme = t.lexeme
  kind : ∀ t, (c.token t).kind = t.kind

/-! ## Bindings and scopes -/

section
variable {α β : Type} (prune : Bool) (f : α → β)

namespace Bindings

/-- The same names, with other values. -/
def map (b : Bindings α) : Bindings β := ⟨b.entries.map fun p => (p.1, f p.2)⟩

/-- The entries that a look-up finds. -/
def visible : List (String × α) → List (String × α)
  | [] => []
  | p :: rest => p :: (visible rest).filter fun q => q.1 != p.1

/-- The same names, with other values; entries that no look-up finds can be left out. -/
def change (b : Bindings α) : Bindings β :=
  map f (if prune then ⟨visible b.entries⟩ else b)

theorem get?_visible (entries : List (String × α)) (name : String) :
    (⟨visible entries⟩ : Bindings α).get? name = (⟨entries⟩ : Bindings α).get? name := by
  have hfilter : ∀ (entries : List (String × α)) {other : String}, name ≠ other →
      (entries.filter fun q => q.1 != other).lookup name = entries.lookup name := by
    intro entries other hother
    induction entries with
    | nil => rfl
    | cons p rest ih =>
      obtain ⟨n, v⟩ := p
      by_cases hn : n = other
      · subst hn
        rw [List.filter_cons_of_neg (by simp), ih, List.lookup_cons, beq_eq_false_iff_ne.mpr hother]
      · rw [List.filter_cons_of_pos (by simpa using hn), List.lookup_cons, List.lookup_cons, ih]
  induction entries with
  | nil => rfl
  | cons p rest ih =>
    obtain ⟨n, v⟩ := p
    simp only [get?, visible, List.lookup_cons] at ih ⊢
    by_cases h : name = n
    · rw [h, beq_self_eq_true]
    · rw [beq_eq_false_iff_ne.mpr h, hfilter _ h]
      exact ih

theorem visible_insertEntry (name : String) (value : α) (entries : List (String × α)) :
    visible (insertEntry name value entries) = insertEntry name value (visible entries) := by
  have hfilter : ∀ (entries : List (String × α)) {other : String}, name ≠ other →
      (insertEntry name value entries).filter (fun q => q.1 != other) =
        insertEntry name value (entries.filter fun q => q.1 != other) := by
    intro entries other hother
    induction entries with
    | nil => simp [insertEntry, hother]
    | cons p rest ih =>
      obtain ⟨n, v⟩ := p
      by_cases hn : name = n
      · subst hn
        simp [insertEntry, hother]
      · by_cases hno : n = other
        · simp [insertEntry, hno, ih, beq_eq_false_iff_ne.mpr hother]
        · simp [insertEntry, hn, hno, ih]
  induction entries with
  | nil => rfl
  | cons p rest ih =>
    obtain ⟨n, v⟩ := p
    by_cases h : name = n
    · simp [insertEntry, visible, h]
    · simp [insertEntry, visible, h, ih, hfilter _ h]

/-- What is visible is found under its name. -/
theorem get?_of_mem_visible {entries : List (String × α)} {name : String} {value : α}
    (h : (name, value) ∈ visible entries) :
    (⟨entries⟩ : Bindings α).get? name = some value := by
  induction entries with
  | nil => cases h
  | cons p rest ih =>
    obtain ⟨n, v⟩ := p
    simp only [get?, List.lookup_cons]
    rcases List.mem_cons.mp h with heq | hrest
    · cases heq
      rw [beq_self_eq_true]
    · obtain ⟨hmem, hne⟩ := List.mem_filter.mp hrest
      have hname : (name == n) = false := by simpa using hne
      rw [hname]
      exact ih hmem

@[simp] theorem change_empty : (empty : Bindings α).change prune f = empty := by
  cases prune <;> rfl

@[simp] theorem get?_change (b : Bindings α) (name : String) :
    (b.change prune f).get? name = (b.get? name).map f := by
  have hmap : ∀ entries : List (String × α), (map f ⟨entries⟩).get? name =
      ((⟨entries⟩ : Bindings α).get? name).map f := by
    intro entries
    simp only [get?, map]
    induction entries with
    | nil => rfl
    | cons p rest ih =>
      obtain ⟨n, v⟩ := p
      by_cases h : name = n
      · rw [List.map_cons, h, List.lookup_cons_self, List.lookup_cons_self, Option.map_some]
      · have hne : (name == n) = false := beq_eq_false_iff_ne.mpr h
        simpa [List.lookup_cons, hne] using ih
  cases prune with
  | false => exact hmap b.entries
  | true => exact (hmap _).trans (congrArg (Option.map f) (get?_visible b.entries name))

@[simp] theorem contains_change (b : Bindings α) (name : String) :
    (b.change prune f).contains name = b.contains name := by
  simp [contains]

theorem change_insert (name : String) (value : α) (b : Bindings α) :
    (b.insert name value).change prune f = (b.change prune f).insert name (f value) := by
  have hmap : ∀ entries : List (String × α), map f ⟨insertEntry name value entries⟩ =
      (map f ⟨entries⟩).insert name (f value) := by
    intro entries
    simp only [insert, map, mk.injEq]
    induction entries with
    | nil => rfl
    | cons p rest ih =>
      by_cases h : name = p.1
      · simp [insertEntry, h]
      · simpa [insertEntry, h] using ih
  cases prune with
  | false => exact hmap b.entries
  | true =>
    show map f ⟨visible (insertEntry name value b.entries)⟩ = _
    rw [visible_insertEntry]
    exact hmap _

theorem change_ofList (pairs : List (String × α)) :
    (ofList pairs).change prune f = ofList (pairs.map fun p => (p.1, f p.2)) := by
  have hfold : ∀ b : Bindings α,
      (pairs.foldl (fun b p => b.insert p.1 p.2) b).change prune f =
        (pairs.map fun p => (p.1, f p.2)).foldl (fun b p => b.insert p.1 p.2)
          (b.change prune f) := by
    induction pairs with
    | nil => exact fun b => rfl
    | cons p pairs ih =>
      intro b
      rw [List.map_cons, List.foldl_cons, List.foldl_cons, ih, change_insert]
  have h := hfold empty
  rwa [change_empty] at h

theorem change_modify (bs : Array (Bindings α)) (i : Nat) (name : String) (value : α) :
    (bs.modify i fun b => b.insert name value).map (change prune f) =
      (bs.map (change prune f)).modify i fun b => b.insert name (f value) := by
  refine Array.ext (by simp) fun j hj hj' => ?_
  simp [Array.getElem_modify, change_insert, apply_ite (change prune f)]

/-- Only the values that a look-up finds matter if the others are left out. -/
theorem change_congr {g : α → β} {b : Bindings α}
    (h : ∀ name a, b.get? name = some a → f a = g a) : b.change true f = b.change true g := by
  show map f ⟨visible b.entries⟩ = map g ⟨visible b.entries⟩
  simp only [map, mk.injEq]
  refine List.map_congr_left fun p hp => ?_
  obtain ⟨name, a⟩ := p
  rw [h name a (get?_of_mem_visible hp)]

end Bindings

namespace Store

/-- The same scopes with the same names, with other values. -/
def map (s : Store α) : Store β := ⟨s.scopes.map (Bindings.map f)⟩

/-- The same scopes with the same names, with other values, and perhaps without the entries that no
look-up finds. -/
def change (s : Store α) : Store β := ⟨s.scopes.map (Bindings.change prune f)⟩

@[simp] theorem nextId_change (s : Store α) : (s.change prune f).nextId = s.nextId := by
  simp [nextId, change]

@[simp] theorem scope_change (s : Store α) (id : ScopeId) :
    (s.change prune f).scope id = (s.scope id).change prune f := by
  simp only [scope, change, Array.getElem?_map]
  cases s.scopes[id]? <;> simp

@[simp] theorem get?_change (s : Store α) (id : ScopeId) (name : String) :
    (s.change prune f).get? id name = (s.get? id name).map f := by
  simp [get?]

/-- Only the values of variables matter if what no look-up finds is left out. -/
theorem change_congr {g : α → β} {s : Store α}
    (h : ∀ id name a, s.get? id name = some a → f a = g a) : s.change true f = s.change true g := by
  simp only [change, mk.injEq]
  refine Array.map_congr_left fun b hb => Bindings.change_congr f fun name a ha => ?_
  obtain ⟨id, hid⟩ := Array.mem_iff_getElem?.mp hb
  refine h id name a ?_
  rwa [get?, scope, hid]

theorem change_push (s : Store α) (b : Bindings α) :
    (s.push b).change prune f = (s.change prune f).push (b.change prune f) := by
  simp [push, change]

theorem change_set (s : Store α) (id : ScopeId) (name : String) (value : α) :
    (s.set id name value).change prune f = (s.change prune f).set id name (f value) := by
  simp only [set, change, Bindings.change_modify]

theorem change_define (s : Store α) (env : Env) (name : String) (value : α) :
    (s.define env name value).change prune f = (s.change prune f).define env name (f value) := by
  cases env with
  | nil => rfl
  | cons id outer => exact change_set prune f s id name value

@[simp] theorem home?_change (s : Store α) (env : Env) (name : String) :
    (s.change prune f).home? env name = s.home? env name := by
  simp [home?]

@[simp] theorem lookup?_change (s : Store α) (env : Env) (name : String) :
    (s.change prune f).lookup? env name = (s.lookup? env name).map f := by
  rw [lookup?_eq_home?, lookup?_eq_home?, home?_change]
  cases s.home? env name <;> simp

theorem getAt_change (s : Store α) (env : Env) (distance : Int) (name : String) :
    (s.change prune f).getAt env distance name = (s.getAt env distance name).map f := by
  unfold getAt
  cases env.leave distance with
  | error fault => rfl
  | ok outer =>
    have hget : outer.head?.bind (fun id => (s.change prune f).get? id name) =
        (outer.head?.bind fun id => s.get? id name).map f := by
      rw [Option.map_bind]
      exact congrArg outer.head?.bind (funext fun id => s.get?_change prune f id name)
    simp only [bind, Except.bind, hget]
    cases outer.head?.bind (fun id => s.get? id name) <;> rfl

end Store
end

/-! ## Values -/

/-- Changes the tokens of a function and keeps its labels. -/
abbrev Function.mapTokens (φ : Token → Token) (f : Function Label) : Function Label :=
  Function.map id φ f

/-- The same function with changed tokens. -/
def Closure.map (φ : Token → Token) (f : Closure) : Closure :=
  { f with declaration := Function.mapTokens φ f.declaration }

/-- The same class level with changed tokens. -/
def ClassLevel.map (φ : Token → Token) (level : ClassLevel) : ClassLevel :=
  { level with methods := level.methods.map (Closure.map φ) }

/-- The same class with changed tokens. -/
def ClassValue.map (φ : Token → Token) (c : ClassValue) : ClassValue :=
  ⟨c.own.map φ, c.above.map (ClassLevel.map φ)⟩

/-- The same value with changed tokens in its functions and classes. -/
def Value.map (φ : Token → Token) : Value → Value
  | datum d => .datum d
  | clock => .clock
  | function f => .function (f.map φ)
  | classOf c => .classOf (c.map φ)
  | object id c => .object id (c.map φ)

/-- The same value without the lines on which its functions and classes stand. -/
def Value.unlined (v : Value) : Value := v.map Token.unlined

/-- The same error at a changed place. -/
def RuntimeError.map (φ : Token → Token) (e : RuntimeError) : RuntimeError :=
  ⟨e.fault, φ e.place⟩

/-! ## Changed values -/

/-- The same function, changed. -/
def Closure.change (χ : Change) (f : Closure) : Closure :=
  { f with declaration := Function.map χ.label χ.token f.declaration }

/-- The same class level, changed. -/
def ClassLevel.change (χ : Change) (level : ClassLevel) : ClassLevel :=
  { level with methods := level.methods.change χ.prunes (Closure.change χ) }

/-- The same class, changed. -/
def ClassValue.change (χ : Change) (d : ClassValue) : ClassValue :=
  ⟨d.own.change χ, d.above.map (ClassLevel.change χ)⟩

/-- The same value, changed in its functions and classes. -/
def Value.change (χ : Change) : Value → Value
  | datum d => .datum d
  | clock => .clock
  | function f => .function (f.change χ)
  | classOf d => .classOf (d.change χ)
  | object id d => .object id (d.change χ)

/-- What is called, changed. -/
def Callee.change (χ : Change) : Callee → Callee
  | clock => .clock
  | function f => .function (f.change χ)
  | classOf d => .classOf (d.change χ)

theorem Value.change_ofToken (φ : Token → Token) :
    Value.change (.ofToken φ) = Value.map φ :=
  funext fun v => by cases v <;> rfl

section
variable (χ : Change)

@[simp] theorem Closure.arity_change (f : Closure) : (f.change χ).arity = f.arity := by
  simp [arity, change, Function.map_eq]

@[simp] theorem ClassValue.lineage_change (d : ClassValue) :
    (d.change χ).lineage = d.lineage.map (ClassLevel.change χ) := rfl

@[simp] theorem ClassValue.method?_change (d : ClassValue) (name : String) :
    (d.change χ).method? name = (d.method? name).map (Closure.change χ) := by
  simp only [method?, lineage_change]
  induction d.lineage with
  | nil => rfl
  | cons level levels ih =>
    simp only [List.map_cons, List.findSome?_cons, ClassLevel.change, Bindings.get?_change]
    cases level.methods.get? name with
    | none => exact ih
    | some f => rfl

@[simp] theorem ClassValue.initializer?_change (d : ClassValue) :
    (d.change χ).initializer? = d.initializer?.map (Closure.change χ) :=
  d.method?_change χ initializerName

@[simp] theorem ClassValue.arity_change (d : ClassValue) : (d.change χ).arity = d.arity := by
  simp [arity, Function.comp_def]

@[simp] theorem Callee.arity_change (callee : Callee) : (callee.change χ).arity = callee.arity := by
  cases callee <;> simp [arity, change]

@[simp] theorem Value.callee?_change (v : Value) :
    (v.change χ).callee? = v.callee?.map (Callee.change χ) := by
  cases v <;> rfl

@[simp] theorem Value.isTruthy_change (v : Value) : (v.change χ).isTruthy = v.isTruthy := by
  cases v <;> rfl

@[simp] theorem Value.equal_change (v w : Value) : (v.change χ).equal (w.change χ) = v.equal w := by
  cases v <;> cases w <;> rfl

theorem Value.plus_change (op : Token) (v w : Value) :
    plus (χ.token op) (v.change χ) (w.change χ) =
      ((plus op v w).map (Value.change χ)).mapError (RuntimeError.map χ.token) := by
  cases v with
  | datum d =>
    cases w with
    | datum e => cases d <;> cases e <;> rfl
    | _ => cases d <;> rfl
  | _ => cases w <;> rfl

end

section
variable {χ : Change} (hχ : χ.Lawful)
include hχ

theorem FunctionOf.isInitializer_map {ι κ : Type} (g : ι → κ) (f : Function ι) :
    FunctionOf.isInitializer (Function.map g χ.token f) = f.isInitializer := by
  simp [Function.map_eq, isInitializer, hχ.lexeme]

theorem Value.display_change (v : Value) : (v.change χ).display = v.display := by
  cases v with
  | function f =>
    simp [change, display, Closure.display, Closure.change, Function.map_eq, hχ.lexeme]
  | _ => rfl

theorem Value.unary_change (op : Token) (v : Value) :
    (v.change χ).unary (χ.token op) =
      ((v.unary op).map (Value.change χ)).mapError (RuntimeError.map χ.token) := by
  unfold unary
  rw [hχ.kind]
  split
  · simp only [isTruthy_change]
    rfl
  · cases v with
    | datum d => cases d <;> rfl
    | _ => rfl

theorem Value.arithmetic_change (op : Token) (x y : Float) :
    arithmetic (χ.token op) x y =
      ((arithmetic op x y).map (Value.change χ)).mapError (RuntimeError.map χ.token) := by
  unfold arithmetic
  rw [hχ.kind, hχ.lexeme]
  split
  case h_3 => split <;> rfl
  all_goals rfl

theorem Value.binary_change (op : Token) (v w : Value) :
    (v.change χ).binary (χ.token op) (w.change χ) =
      ((v.binary op w).map (Value.change χ)).mapError (RuntimeError.map χ.token) := by
  unfold binary
  rw [hχ.kind]
  split
  · rw [equal_change]
    rfl
  · rw [equal_change]
    rfl
  · exact plus_change χ op v w
  · cases v with
    | datum d =>
      cases w with
      | datum e =>
        cases d with
        | number x =>
          cases e with
          | number y => exact arithmetic_change hχ op x y
          | _ => rfl
        | _ => rfl
      | _ => cases d <;> rfl
    | _ => rfl

end

/-! ## Machines -/

namespace Machine

/-- The same machine with changed tokens in what it holds. -/
def map (φ : Token → Token) (m : Machine) : Machine :=
  { m with
    store := m.store.map (Value.map φ)
    objects := m.objects.map (Bindings.map (Value.map φ)) }

/-- The same machine, changed in what it holds. -/
def change (χ : Change) (m : Machine) : Machine :=
  { m with
    store := m.store.change χ.prunes (Value.change χ)
    objects := m.objects.map (Bindings.change χ.prunes (Value.change χ)) }

theorem change_ofToken (φ : Token → Token) (m : Machine) : m.change (.ofToken φ) = m.map φ := by
  rw [change, Value.change_ofToken]
  rfl

/-- The same machine, which had printed something before. -/
def behind (text : String) (m : Machine) : Machine := { m with output := text ++ m.output }

/-- The same machine without the lines on which its functions and classes stand. -/
def unlined (m : Machine) : Machine := m.map Token.unlined

/-- The fields of an object, changed. -/
theorem fields_change (χ : Change) (m : Machine) (id : Nat) :
    (m.change χ).fields id = (m.fields id).change χ.prunes (Value.change χ) := by
  simp only [fields, change, Array.getElem?_map]
  cases m.objects[id]? <;> simp

theorem globals_map (φ : Token → Token) (m : Machine) :
    (m.map φ).globals = m.globals.map (Value.map φ) := by
  have h := m.store.scope_change false (Value.map φ) 0
  exact h

end Machine

end LoxLang
