import LoxLang.Machine.Environment

/-! # Environments that share scopes

Environments form a forest: many can lie inside one, and what is assigned through one of them is
read through all others that reach the same variable.  A variable is reached along the chain of
enclosing environments to the first that has the name, or by the number of environments to leave.
The two ways meet at the least number of environments to leave where the name is bound, and an
assignment there changes that one variable and what is read by the environments whose own way leads
to it, nothing else (`Built.ways_meet`).

A collection of environments is `Built` if it comes about by making environments, defining
variables and assigning to them.  In it each environment's chain begins with the environment itself
and goes on with the whole chain of the one it was made in (`Built.linked`); all else follows from
this. -/

namespace LoxLang

/-! ## Variables of a store -/

namespace Store

variable {α : Type} {s : Store α} {id : ScopeId} {name : String}

/-- A scope that has variables is in the store. -/
theorem lt_of_contains (h : (s.scope id).contains name) : id < s.nextId := by
  refine Nat.lt_of_not_le fun hle => ?_
  have hnone : s.scopes[id]? = none := Array.getElem?_eq_none_iff.mpr hle
  rw [scope, hnone] at h
  cases h

/-- Giving a variable another value makes no variable. -/
theorem contains_set (h : (s.scope id).contains name) (value : α) (other : ScopeId)
    (otherName : String) :
    ((s.set id name value).scope other).contains otherName =
      (s.scope other).contains otherName := by
  rw [scope_set]
  split
  · rename_i hother
    rw [hother.1, Bindings.contains_insert]
    by_cases hname : otherName = name
    · rw [hname, h, Bool.or_true]
    · rw [beq_eq_false_iff_ne.mpr hname, Bool.false_or]
  · rfl

/-- Giving a variable another value changes that variable and no other. -/
theorem get?_set (h : (s.scope id).contains name) (value : α) (other : ScopeId)
    (otherName : String) :
    (s.set id name value).get? other otherName =
      if other = id ∧ otherName = name then some value else s.get? other otherName := by
  have hlt := lt_of_contains h
  rw [get?, scope_set]
  by_cases hother : other = id
  · rw [if_pos ⟨hother, hlt⟩, Bindings.get?_insert, hother]
    simp only [true_and]
    rfl
  · rw [if_neg fun hboth => hother hboth.1, if_neg fun hboth => hother hboth.1]
    rfl

/-- The way of a name along a chain leads to the same scope after the change of a variable. -/
theorem home?_set (h : (s.scope id).contains name) (value : α) (env : Env) (otherName : String) :
    (s.set id name value).home? env otherName = s.home? env otherName := by
  unfold home?
  simp only [contains_set h]

/-- What is read along a chain after the change of a variable: the new value, if the way of the name
leads to this variable, and else what was read before. -/
theorem lookup?_set (h : (s.scope id).contains name) (value : α) (env : Env) (otherName : String) :
    (s.set id name value).lookup? env otherName =
      if otherName = name ∧ s.home? env name = some id then some value
      else s.lookup? env otherName := by
  rw [lookup?_eq_home?, lookup?_eq_home?, home?_set h]
  by_cases hname : otherName = name
  · subst hname
    cases hhome : s.home? env otherName with
    | none => simp
    | some other => simp [get?_set h, eq_comm]
  · rw [if_neg fun hboth => hname hboth.1]
    cases s.home? env otherName with
    | none => rfl
    | some other => simp [get?_set h, hname]

end Store

/-! ## What is done with environments -/

namespace Environments

variable {α : Type}

/-- The number of environments. -/
def count (e : Environments α) : Nat := e.chains.length

/-- The environments around an environment, the nearest first. -/
def enclosing (n : Nat) (e : Environments α) : List Nat := (e.chain n).tail

/-- The value of a variable that an environment itself has. -/
def own? (n : Nat) (name : String) (e : Environments α) : Option α := e.store.get? n name

/-- Environments that come about by any number of steps.  A step that fails changes nothing. -/
inductive Built : Environments α → Prop
  | empty : Built empty
  | new {e : Environments α} (he : e.Built) (parent : Option Nat)
      (hparent : ∀ p ∈ parent, p < e.count) : Built (e.push parent)
  | define {e : Environments α} (he : e.Built) (n : Nat) (name : String) (value : α) :
      Built (e.define n name value)
  | assign {e e' : Environments α} (he : e.Built) {n : Nat} {name : Token} {value : α}
      (hassign : e.assign n name value = .ok () e') : Built e'
  | assignAt {e e' : Environments α} (he : e.Built) {n : Nat} {distance : Int} {name : Token}
      {value : α} (hassign : e.assignAt n distance name value = .ok () e') : Built e'

/-- An environment itself has a variable. -/
def Binds (n : Nat) (name : String) (e : Environments α) : Prop := (e.own? n name).isSome

/-- The least number of environments to leave from an environment to one that has a variable, and
the one that has it. -/
structure Nearest (n : Nat) (name : String) (distance id : Nat) (e : Environments α) : Prop where
  ancestor : e.ancestor n distance = .ok id
  binds : e.Binds id name
  least : ∀ d < distance, ∀ k, e.ancestor n d = .ok k → ¬ e.Binds k name

/-- The way of a name from an environment leads to the variable of another one. -/
def Reaches (n : Nat) (name : String) (id : Nat) (e : Environments α) : Prop :=
  ∃ distance, e.Nearest n name distance id

/-- The second collection differs from the first in the value of one variable.  Just the
environments whose own way leads to this variable read the new value. -/
structure ChangesOne (e e' : Environments α) (id : Nat) (name : String) (value : α) : Prop where
  chains : e'.chains = e.chains
  own? : ∀ m y, e'.own? m y = if m = id ∧ y = name then some value else e.own? m y
  reads : ∀ m t, t.lexeme = name → e.Reaches m name id → e'.get m t = .ok value
  keeps : ∀ m t, ¬ (t.lexeme = name ∧ e.Reaches m name id) → e'.get m t = e.get m t

/-! ## Chains -/

/-- The chain of each environment begins with itself and goes on with the chain of an earlier one,
if it goes on. -/
structure Linked (e : Environments α) : Prop where
  count : e.store.nextId = e.count
  chain : ∀ n < e.count, e.chain n = [n] ∨ ∃ p < n, e.chain n = n :: e.chain p

theorem chain_push_of_lt {e : Environments α} {n : Nat} (h : n < e.count) (parent : Option Nat) :
    (e.push parent).chain n = e.chain n := by
  unfold chain push
  rw [List.getElem?_append_left h]

theorem chain_push_self (e : Environments α) (parent : Option Nat) :
    (e.push parent).chain e.count = e.store.nextId :: parent.elim [] e.chain := by
  unfold chain push
  rw [count, List.getElem?_concat_length]
  rfl

theorem linked_empty : (empty : Environments α).Linked := ⟨rfl, nofun⟩

theorem Linked.push {e : Environments α} (h : e.Linked) {parent : Option Nat}
    (hparent : ∀ p ∈ parent, p < e.count) : (e.push parent).Linked := by
  have hcount : (e.push parent).count = e.count + 1 := List.length_append
  refine ⟨?_, fun n hn => ?_⟩
  · rw [hcount, ← h.count]
    exact Store.nextId_push ..
  · rw [hcount, Nat.lt_succ_iff_lt_or_eq] at hn
    rcases hn with hn | rfl
    · rw [chain_push_of_lt hn]
      refine (h.chain n hn).imp id fun ⟨p, hp, hchain⟩ => ⟨p, hp, ?_⟩
      rw [chain_push_of_lt (Nat.lt_trans hp hn), hchain]
    · rw [chain_push_self, h.count]
      cases parent with
      | none => exact .inl rfl
      | some p =>
        have hp := hparent p rfl
        refine .inr ⟨p, hp, ?_⟩
        rw [chain_push_of_lt hp]
        rfl

/-- A change of variables changes no chains. -/
theorem chain_withStore (e : Environments α) (store : Store α) (n : Nat) :
    ({ e with store := store } : Environments α).chain n = e.chain n := rfl

theorem Linked.withStore {e : Environments α} (h : e.Linked) {store : Store α}
    (hstore : store.nextId = e.store.nextId) :
    ({ e with store := store } : Environments α).Linked :=
  ⟨hstore.trans h.count, h.chain⟩

theorem nextId_define (env : Env) (name : String) (value : α) (s : Store α) :
    (s.define env name value).nextId = s.nextId := by
  cases env with
  | nil => rfl
  | cons id outer => exact Store.nextId_set ..

/-- **The chains of environments are those of the environments they were made in.** -/
theorem Built.linked {e : Environments α} (h : e.Built) : e.Linked := by
  induction h with
  | empty => exact linked_empty
  | new _ parent hparent ih => exact ih.push hparent
  | define _ n name value ih => exact ih.withStore (nextId_define ..)
  | @assign e e' _ n name value hassign ih =>
    unfold Environments.assign at hassign
    split at hassign
    · rename_i store hstore
      cases hassign
      obtain ⟨id, _, rfl⟩ := Option.map_eq_some_iff.mp hstore
      exact ih.withStore (Store.nextId_set ..)
    · cases hassign
  | @assignAt e e' _ n distance name value hassign ih =>
    unfold Environments.assignAt Store.setAt at hassign
    cases hleave : (e.chain n).leave distance with
    | error f =>
      rw [hleave] at hassign
      cases hassign
    | ok outer =>
      rw [hleave] at hassign
      cases hassign
      exact ih.withStore (nextId_define ..)

namespace Linked

variable {e : Environments α} (h : e.Linked)
include h

/-- What follows an environment in a chain is its own chain. -/
theorem drop_chain {n : Nat} (hn : n < e.count) {d id : Nat} {outer : List Nat}
    (hdrop : (e.chain n).drop d = id :: outer) :
    id < e.count ∧ e.chain id = id :: outer := by
  induction n using Nat.strongRecOn generalizing d with
  | ind n ih =>
    cases d with
    | zero =>
      have hself : n = id := by
        rcases h.chain n hn with hchain | ⟨p, _, hchain⟩ <;>
          · rw [hchain] at hdrop
            exact (List.cons.inj hdrop).1
      subst hself
      exact ⟨hn, hdrop⟩
    | succ d =>
      rcases h.chain n hn with hchain | ⟨p, hp, hchain⟩
      · rw [hchain, List.drop_succ_cons, List.drop_nil] at hdrop
        cases hdrop
      · rw [hchain, List.drop_succ_cons] at hdrop
        exact ih p hp (Nat.lt_trans hp hn) hdrop

end Linked

/-! ## The number of environments to leave -/

theorem ancestor_eq (n d : Nat) (e : Environments α) :
    e.ancestor n d = match (e.chain n)[d]? with
      | some id => .ok id
      | none => .error .pastGlobalScope := by
  have hhead : ((e.chain n).drop d).head? = (e.chain n)[d]? := List.head?_drop
  unfold ancestor Env.leave
  rw [Int.toNat_natCast]
  cases hdrop : (e.chain n).drop d with
  | nil =>
    rw [hdrop] at hhead
    rw [← hhead]
    rfl
  | cons id outer =>
    rw [hdrop] at hhead
    rw [← hhead]
    rfl

theorem ancestor_eq_ok {n d id : Nat} {e : Environments α} :
    e.ancestor n d = .ok id ↔ (e.chain n)[d]? = some id := by
  rw [ancestor_eq]
  cases (e.chain n)[d]? <;> simp

/-- Leaving environments in two goes leaves as many as in one. -/
theorem Linked.ancestor_add {e : Environments α} (h : e.Linked) {n : Nat} (hn : n < e.count)
    (a b : Nat) :
    e.ancestor n ((a + b : Nat) : Int) = (e.ancestor n a).bind fun k => e.ancestor k b := by
  rw [ancestor_eq n a]
  cases hdrop : (e.chain n).drop a with
  | nil =>
    have hlen : (e.chain n).length ≤ a := List.drop_eq_nil_iff.mp hdrop
    have hlen' : (e.chain n).length ≤ a + b := Nat.le_add_right_of_le hlen
    rw [ancestor_eq, List.getElem?_eq_none hlen, List.getElem?_eq_none hlen']
    rfl
  | cons id outer =>
    have hid : (e.chain n)[a]? = some id := by
      rw [← List.head?_drop, hdrop]
      rfl
    have hchain := (h.drop_chain hn hdrop).2
    rw [hid]
    show _ = e.ancestor id b
    rw [ancestor_eq, ancestor_eq, hchain, ← hdrop, List.getElem?_drop]

/-- Leaving environments leads to those around, and fails just if there are not so many. -/
theorem Linked.ancestor_cases {e : Environments α} (h : e.Linked) {n : Nat} (hn : n < e.count)
    (d : Nat) :
    (d ≤ (e.enclosing n).length →
      ∃ k, (n :: e.enclosing n)[d]? = some k ∧ e.ancestor n d = .ok k) ∧
    ((e.enclosing n).length < d → e.ancestor n d = .error .pastGlobalScope) := by
  have hchain : e.chain n = n :: e.enclosing n := by
    rcases h.chain n hn with hchain | ⟨p, _, hchain⟩ <;> rw [enclosing, hchain, List.tail_cons]
  rw [ancestor_eq, hchain]
  constructor
  · intro hle
    have hlt : d < (n :: e.enclosing n).length := Nat.lt_succ_of_le hle
    rw [List.getElem?_eq_getElem hlt]
    exact ⟨_, rfl, rfl⟩
  · intro hlt
    have hle : (n :: e.enclosing n).length ≤ d := hlt
    rw [List.getElem?_eq_none hle]

/-! ## The way of a name -/

/-- The way of a name leads to the first environment of the chain that has it. -/
theorem reaches_iff {n id : Nat} {name : String} {e : Environments α} :
    e.Reaches n name id ↔ e.store.home? (e.chain n) name = some id := by
  rw [Store.home?, List.find?_eq_some_iff_getElem]
  constructor
  · rintro ⟨d, hancestor, hbinds, hleast⟩
    obtain ⟨hlt, hget⟩ := List.getElem?_eq_some_iff.mp (ancestor_eq_ok.mp hancestor)
    refine ⟨hbinds, d, hlt, hget, fun j hj => ?_⟩
    have hnot : ¬ (e.store.scope (e.chain n)[j]).contains name := hleast j hj _
      (ancestor_eq_ok.mpr (List.getElem?_eq_getElem (Nat.lt_trans hj hlt)))
    simpa using hnot
  · rintro ⟨hbinds, d, hlt, hget, hbefore⟩
    refine ⟨d, ancestor_eq_ok.mpr (List.getElem?_eq_some_iff.mpr ⟨hlt, hget⟩), hbinds, ?_⟩
    intro j hj k hk
    obtain ⟨_, rfl⟩ := List.getElem?_eq_some_iff.mp (ancestor_eq_ok.mp hk)
    show ¬ (e.store.scope (e.chain n)[j]).contains name
    simpa using hbefore j hj

/-- If the way of a name leads nowhere, no environment of the chain has the name. -/
theorem home?_eq_none {n : Nat} {name : String} {e : Environments α}
    (h : ∀ (d : Nat) id, e.ancestor n d = .ok id → ¬ e.Binds id name) :
    e.store.home? (e.chain n) name = none := by
  refine List.find?_eq_none.mpr fun id hid => ?_
  obtain ⟨d, hget⟩ := List.mem_iff_getElem?.mp hid
  exact h d id (ancestor_eq_ok.mpr hget)

section
variable {e : Environments α} {n d id : Nat} {name : Token} (h : e.Nearest n name.lexeme d id)
include h

/-- What is read by name is what is read at the least distance. -/
theorem Nearest.get_eq :
    ∃ value, e.get n name = .ok value ∧ e.getAt n d name.lexeme = .ok value := by
  obtain ⟨value, hvalue⟩ := Option.isSome_iff_exists.mp h.binds
  have hown : e.store.get? id name.lexeme = some value := hvalue
  refine ⟨value, ?_, ?_⟩
  · rw [get, Store.lookup?_eq_home?, reaches_iff.mp ⟨d, h⟩, Option.bind_some, hown]
  · have hleave := Env.leave_of_getElem? (ancestor_eq_ok.mp h.ancestor)
    unfold getAt Store.getAt
    rw [hleave]
    simp only [bind, Except.bind, List.head?_cons, Option.bind_some, hown]
    rfl

/-- An assignment by name and one at the least distance set the same variable. -/
theorem Nearest.assign_eq (value : α) :
    e.assign n name value = .ok () { e with store := e.store.set id name.lexeme value } ∧
      e.assignAt n d name value = .ok () { e with store := e.store.set id name.lexeme value } := by
  constructor
  · rw [assign, Store.assign?, reaches_iff.mp ⟨d, h⟩, Option.map_some]
  · have hleave := Env.leave_of_getElem? (ancestor_eq_ok.mp h.ancestor)
    unfold assignAt Store.setAt
    rw [hleave]
    rfl

end

/-- **Setting a variable changes that variable alone**, and what is read by the environments whose
way leads to it. -/
theorem changesOne_set {e : Environments α} {id : Nat} {name : String} (h : e.Binds id name)
    (value : α) : e.ChangesOne { e with store := e.store.set id name value } id name value where
  chains := rfl
  own? := Store.get?_set h value
  reads m t ht hreaches := by
    have hlookup := Store.lookup?_set h value (e.chain m) t.lexeme
    rw [if_pos ⟨ht, reaches_iff.mp hreaches⟩] at hlookup
    rw [get, chain_withStore, hlookup]
  keeps m t ht := by
    have hlookup := Store.lookup?_set h value (e.chain m) t.lexeme
    rw [if_neg fun hboth => ht ⟨hboth.1, reaches_iff.mpr hboth.2⟩] at hlookup
    rw [get, chain_withStore, hlookup, get]

/-- **The two ways to a variable meet.** Let environments be made, and variables be defined and
assigned to, in any number of steps, and take one of the environments and a name.  Where the name is
bound nearest, reading it by name gives what reading it at this distance gives, and assigning to it
by name leaves what assigning to it at this distance leaves: one variable of one environment has the
new value, which the environments read whose own way leads to that variable, and all else is read as
before.  Where the name is bound nowhere along the chain, reading and assigning fail with the same
error and change nothing.  Leaving some environments and then some more leaves their sum, and fails
just if there are not so many around. -/
theorem Built.ways_meet {e : Environments α} (he : e.Built) {n : Nat} (hn : n < e.count)
    (name : Token) (value : α) :
    (∀ d id, e.Nearest n name.lexeme d id →
      (∃ v, e.get n name = .ok v ∧ e.getAt n d name.lexeme = .ok v) ∧
      ∃ e', e.assign n name value = .ok () e' ∧ e.assignAt n d name value = .ok () e' ∧
        e.ChangesOne e' id name.lexeme value) ∧
    ((∀ (d : Nat) id, e.ancestor n d = .ok id → ¬ e.Binds id name.lexeme) →
      e.get n name = .error ⟨.undefinedVariable name.lexeme, name⟩ ∧
      e.assign n name value = .error ⟨.undefinedVariable name.lexeme, name⟩ e) ∧
    (∀ a b : Nat, e.ancestor n ((a + b : Nat) : Int) =
      (e.ancestor n a).bind fun k => e.ancestor k b) ∧
    ∀ d : Nat, (d ≤ (e.enclosing n).length →
        ∃ k, (n :: e.enclosing n)[d]? = some k ∧ e.ancestor n d = .ok k) ∧
      ((e.enclosing n).length < d → e.ancestor n d = .error .pastGlobalScope) := by
  refine ⟨fun d id h => ⟨h.get_eq, ?_⟩, fun h => ?_, he.linked.ancestor_add hn,
    he.linked.ancestor_cases hn⟩
  · obtain ⟨hassign, hassignAt⟩ := h.assign_eq value
    exact ⟨_, hassign, hassignAt, changesOne_set h.binds value⟩
  · have hhome := home?_eq_none h
    constructor
    · rw [Environments.get, Store.lookup?_eq_home?, hhome]
      rfl
    · rw [Environments.assign, Store.assign?, hhome]
      rfl

/-- The outermost environment and one inside it have a variable each of the same name.  A third
environment lies inside the inner one, a fourth beside it. -/
def shadowing : Environments Nat :=
  (((((empty.push none).define 0 "x" 1).push (some 0)).define 1 "x" 2).push (some 1)).push (some 0)

theorem built_shadowing : shadowing.Built := by
  have houter : ((empty.push none).define 0 "x" 1 : Environments Nat).Built :=
    (Built.empty.new none nofun).define 0 "x" 1
  have hinner := (houter.new (some 0) (by simp [count]; decide)).define 1 "x" 2
  exact (hinner.new (some 1) (by simp [count]; decide)).new (some 0) (by simp [count]; decide)

/-- A use of the name. -/
def shadowedName : Token := ⟨.identifier, "x", .nil, 1⟩

theorem nearest_shadowing : shadowing.Nearest 2 "x" 1 1 := by
  refine ⟨rfl, rfl, fun d hd k hk hbinds => ?_⟩
  obtain rfl : d = 0 := Nat.lt_one_iff.mp hd
  cases hk
  cases hbinds

theorem ways_meet_shadowing :
    shadowing.Built ∧ 2 < shadowing.count ∧ shadowing.Nearest 2 "x" 1 1 ∧
      (∃ v, shadowing.get 2 shadowedName = .ok v ∧ shadowing.getAt 2 1 "x" = .ok v) ∧
      ∃ e', shadowing.assign 2 shadowedName 3 = .ok () e' ∧
        shadowing.assignAt 2 1 shadowedName 3 = .ok () e' ∧
        shadowing.ChangesOne e' 1 "x" 3 := by
  have hlt : 2 < shadowing.count := by decide
  have hnearest := built_shadowing.ways_meet hlt shadowedName 3
  exact ⟨built_shadowing, hlt, nearest_shadowing, hnearest.1 1 1 nearest_shadowing⟩

end Environments
end LoxLang
