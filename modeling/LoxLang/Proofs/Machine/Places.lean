import LoxLang.Proofs.Machine.Follows
import LoxLang.Proofs.Machine.Sound
import LoxLang.Proofs.Scope.Places

/-! # Machines by place

A machine holds functions, and in these the labels of references, which mean something only together
with a table.  With places for labels a machine means the same by itself: by `Access.byPlace` its
references reach what they reach by the hops in the table.  How the labels were given out, and what
else is in the table, can then no longer be seen (`Machine.Sound.change_placing`). -/

namespace LoxLang

open Binder (Surroundings FunctionContext)

/-- Puts the places of references for their labels, and leaves out what no look-up finds. -/
def BindingTable.placing (t : BindingTable) : Change := ⟨t.place, id, true⟩

theorem BindingTable.lawful_placing (t : BindingTable) : t.placing.Lawful :=
  ⟨fun _ => rfl, fun _ => rfl⟩

/-- References whose labels are their places reach their variables. -/
def Access.byPlace : Access where
  read env ref := Action.read (.ofPlace ref) env ref
  assign env ref := Action.assign (.ofPlace ref) env ref
  parent env ref := Action.parent (.ofPlace ref) env ref

/-- By their places references reach what they reach by the hops in the table. -/
theorem Access.follows_byPlace (t : BindingTable) (before : String) :
    Access.Follows t.placing before (.byHops t) .byPlace where
  read env ref := Action.follows_read (t.hops?_ofPlace ref) env t.lawful_placing
  assign env ref := Action.follows_assign (t.hops?_ofPlace ref) env t.lawful_placing
  parent env ref := Action.follows_parent (t.hops?_ofPlace ref) env

section
variable {Q : Demand Label} {W : Plan} {t t' : BindingTable}
  (hagree : ∀ u, u.around.function ≠ .outside → Q u → t.hops? u.ref.label = t'.hops? u.ref.label)
include hagree

theorem Closure.change_placing {f : Closure} {around : Surroundings} {kind : FunctionContext}
    {context : Context} (hready : f.declaration.Ready Q around kind context)
    (hkind : kind ≠ .outside) : f.change t.placing = f.change t'.placing := by
  have hagrees : f.declaration.Ready (.ofUses (Use.Agrees t.place t'.place)) around kind context :=
    hready.imp hkind ⟨fun u hu hQ => BindingTable.place_eq_of_hops? (hagree u hu hQ),
      fun _ _ _ => trivial⟩
  have hcode : Function.map t.place (fun t => t) f.declaration =
      Function.map t'.place (fun t => t) f.declaration := hagrees.map_congr _ fun _ hu => hu
  exact congrArg (fun declaration => { f with declaration := declaration }) hcode

theorem ClassValue.change_placing {store : Store Value} {c : ClassValue} (h : c.Sound Q W store) :
    c.change t.placing = c.change t'.placing := by
  have hlevel : ∀ level ∈ c.lineage, level.change t.placing = level.change t'.placing := by
    intro level hlevel
    have hmethods : level.methods.change true (Closure.change t.placing) =
        level.methods.change true (Closure.change t'.placing) := by
      refine Bindings.change_congr _ fun name f hf => ?_
      obtain ⟨around, kind, context, hat⟩ := h level hlevel name f hf
      exact Closure.change_placing hagree hat.ready hat.inside
    exact congrArg (fun methods => { level with methods := methods }) hmethods
  obtain ⟨hown, habove⟩ := List.forall_mem_cons.mp hlevel
  unfold change
  rw [hown, List.map_congr_left habove]

theorem Value.change_placing {store : Store Value} {v : Value} (h : v.Sound Q W store) :
    v.change t.placing = v.change t'.placing := by
  cases v with
  | datum d => rfl
  | clock => rfl
  | function f =>
    obtain ⟨around, kind, context, hat⟩ := h
    exact congrArg Value.function (Closure.change_placing hagree hat.ready hat.inside)
  | classOf c => exact congrArg Value.classOf (ClassValue.change_placing hagree h)
  | object id c => exact congrArg (Value.object id) (ClassValue.change_placing hagree h)

/-- **By places a machine in order looks the same** in any two tables that agree on the references
in the functions that it holds. -/
theorem Machine.Sound.change_placing {m : Machine} (hm : m.Sound Q W) :
    m.change t.placing = m.change t'.placing := by
  have hstore : m.store.change true (Value.change t.placing) =
      m.store.change true (Value.change t'.placing) :=
    Store.change_congr _ fun id name v hv => Value.change_placing hagree (hm.values id name v hv)
  have hobjects : m.objects.map (Bindings.change true (Value.change t.placing)) =
      m.objects.map (Bindings.change true (Value.change t'.placing)) := by
    refine Array.map_congr_left fun b hb => Bindings.change_congr _ fun name v hv => ?_
    obtain ⟨id, hid⟩ := Array.mem_iff_getElem?.mp hb
    refine Value.change_placing hagree (hm.fields id name v ?_)
    rwa [Machine.fields, hid]
  simp only [Machine.change, Machine.mk.injEq, and_true]
  exact ⟨hstore, hobjects⟩

end

end LoxLang
