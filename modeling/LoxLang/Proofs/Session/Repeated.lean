import LoxLang.Proofs.Scope.Height
import LoxLang.Proofs.Scope.Uniform
import LoxLang.Session
import Mathlib.Data.List.Induction

/-! # Binding a program again

Binding a program a second time finds the same errors and leaves the table as the first time left
it, whatever the table held before and whether or not the program breaks rules.  The pass adds the
same bindings each time, since it does not look at the table (`bindProgram_uniform`), and adding
bindings once more changes nothing: each entry already is the last binding of its reference, and
stands outside all functions if any of these bindings did (`BindingTable.recordAll_recordAll`). -/

namespace LoxLang

/-! ## Adding bindings once more -/

/-- An entry of the table after a binding has been recorded. -/
def Binding.renewed (c b : Binding) : Binding :=
  if c.label = b.label then { b with topLevel := c.topLevel || b.topLevel } else c

namespace BindingTable

/-- An entry of the table after some bindings have been recorded. -/
def renewedBy (bs : List Binding) (c : Binding) : Binding := bs.foldl Binding.renewed c

theorem label_renewed (c b : Binding) : (c.renewed b).label = c.label := by
  unfold Binding.renewed
  split
  · exact Eq.symm ‹_›
  · rfl

theorem label_renewedBy (bs : List Binding) (c : Binding) : (renewedBy bs c).label = c.label := by
  induction bs generalizing c with
  | nil => rfl
  | cons b bs ih => exact (ih _).trans (label_renewed c b)

/-- An entry is marked as outside all functions if it was before, or if a binding of the same
reference is. -/
theorem topLevel_renewedBy (bs : List Binding) (c : Binding) :
    (renewedBy bs c).topLevel =
      (c.topLevel || bs.any fun b => decide (b.label = c.label) && b.topLevel) := by
  induction bs generalizing c with
  | nil => exact (Bool.or_false _).symm
  | cons b bs ih =>
    have hrest : (renewedBy (b :: bs) c).topLevel = (renewedBy bs (c.renewed b)).topLevel := rfl
    rw [hrest, ih, label_renewed, List.any_cons]
    unfold Binding.renewed
    by_cases h : c.label = b.label
    · rw [if_pos h, decide_eq_true h.symm, Bool.true_and, Bool.or_assoc]
    · rw [if_neg h, decide_eq_false (Ne.symm h), Bool.false_and, Bool.false_or]

/-- An entry that bindings have renewed is not changed by the same bindings. -/
theorem renewedBy_renewedBy (bs : List Binding) (c : Binding) :
    renewedBy bs (renewedBy bs c) = renewedBy bs c := by
  -- the last binding of the reference is what counts
  induction bs using List.reverseRecOn with
  | nil => rfl
  | append_singleton bs b ih =>
    have hlast : ∀ c, renewedBy (bs ++ [b]) c = (renewedBy bs c).renewed b := fun c => by
      simp [renewedBy]
    by_cases h : c.label = b.label
    · have hrenewed : ∀ d : Binding, d.label = c.label → renewedBy (bs ++ [b]) d =
          { b with topLevel := d.topLevel ||
            (bs.any (fun b => decide (b.label = c.label) && b.topLevel) || b.topLevel) } := by
        intro d hd
        have hlabel : (renewedBy bs d).label = b.label := (label_renewedBy bs d).trans (hd.trans h)
        rw [hlast, Binding.renewed, if_pos hlabel, topLevel_renewedBy, hd, Bool.or_assoc]
      rw [hrenewed _ (label_renewedBy _ c), hrenewed c rfl]
      simp
    · have hkeeps : ∀ d : Binding, d.label = c.label →
          renewedBy (bs ++ [b]) d = renewedBy bs d := by
        intro d hd
        have hlabel : (renewedBy bs d).label ≠ b.label := by rwa [label_renewedBy, hd]
        rw [hlast, Binding.renewed, if_neg hlabel]
      rw [hkeeps c rfl, hkeeps _ (label_renewedBy bs c), ih]

/-- The first entry of a table takes the bindings of its reference, the entries behind it take the
others. -/
theorem recordAll_cons (bs : List Binding) (c : Binding) (entries : List Binding) :
    recordAll bs ⟨c :: entries⟩ =
      ⟨renewedBy bs c :: (recordAll (bs.filter fun b => b.label ≠ c.label) ⟨entries⟩).entries⟩ := by
  induction bs generalizing c entries with
  | nil => rfl
  | cons b bs ih =>
    by_cases h : c.label = b.label
    · have hrecord : record b ⟨c :: entries⟩ = ⟨c.renewed b :: entries⟩ := by
        simp [record, recordEntry, Binding.renewed, h]
      rw [List.filter_cons_of_neg (by simp [h]), ← label_renewed c b]
      exact (congrArg (recordAll bs) hrecord).trans (ih (c.renewed b) entries)
    · have hrecord : record b ⟨c :: entries⟩ = ⟨c.renewed b :: (record b ⟨entries⟩).entries⟩ := by
        simp [record, recordEntry, Binding.renewed, h]
      have hlabel := label_renewed c b
      rw [List.filter_cons_of_pos (by simpa using Ne.symm h), ← hlabel]
      exact (congrArg (recordAll bs) hrecord).trans (ih (c.renewed b) _)

/-- Recording all bindings that a fresh table has taken changes nothing in it. -/
theorem recordAll_recordAll_empty (bs : List Binding) :
    recordAll bs (recordAll bs ⟨[]⟩) = recordAll bs ⟨[]⟩ := by
  induction h : bs.length using Nat.strongRecOn generalizing bs with
  | ind n ih =>
    cases bs with
    | nil => rfl
    | cons b bs =>
      have hfirst : recordAll (b :: bs) ⟨[]⟩ = recordAll bs ⟨[b]⟩ := rfl
      have hself : b.renewed b = b := by simp [Binding.renewed]
      have hrenewed : renewedBy (b :: bs) b = renewedBy bs b := by
        rw [renewedBy, List.foldl_cons, hself, renewedBy]
      have hlt : (bs.filter fun b' => b'.label ≠ b.label).length < n := by
        rw [← h, List.length_cons]
        exact Nat.lt_succ_of_le (List.length_filter_le ..)
      have hrest := ih _ hlt _ rfl
      rw [hfirst, recordAll_cons bs b, recordAll_cons, label_renewedBy,
        List.filter_cons_of_neg (by simp), hrest, ← hrenewed, renewedBy_renewedBy]

/-- **Adding bindings once more changes nothing**, neither an entry nor the order. -/
theorem recordAll_recordAll (bs : List Binding) (t : BindingTable) :
    recordAll bs (recordAll bs t) = recordAll bs t := by
  obtain ⟨entries⟩ := t
  induction entries generalizing bs with
  | nil => exact recordAll_recordAll_empty bs
  | cons c entries ih =>
    rw [recordAll_cons, recordAll_cons, label_renewedBy, renewedBy_renewedBy, ih]

end BindingTable

namespace Session

/-! ## Binding a program any number of times -/

/-- Binds the references of a program a number of times, and keeps what each pass finds. -/
def bindRepeatedly (config : Config) (program : List (Stmt Label)) :
    Nat → Session → List (List ScopeError × Option Fault) × Session
  | 0, s => ([], s)
  | n + 1, s =>
    let (errors, fault, s) := s.bind config program
    let (found, s) := s.bindRepeatedly config program n
    ((errors, fault) :: found, s)

/-- The first pass and then the others. -/
theorem bindRepeatedly_succ {config : Config} {program : List (Stmt Label)} {s : Session}
    {errors : List ScopeError} {fault : Option Fault} {bound : Session}
    (h : s.bind config program = (errors, fault, bound)) (n : Nat) :
    s.bindRepeatedly config program (n + 1) =
      ((errors, fault) :: (bound.bindRepeatedly config program n).1,
        (bound.bindRepeatedly config program n).2) := by
  rw [bindRepeatedly, h]

/-- A pass over the same program again finds the same and leaves the session as it is. -/
theorem bind_bind (config : Config) (program : List (Stmt Label)) (s : Session) :
    (s.bind config program).2.2.bind config program = s.bind config program := by
  obtain ⟨fault, errors, bs, hbound⟩ := bindProgram_uniform (φ := id) (fun _ => rfl)
    config.nesting program
  unfold bind
  rw [(hbound s.table).1, (hbound _).1, BindingTable.recordAll_recordAll]

/-- **Binding a program is idempotent.**  However often a program of known forms is bound in a
session, whatever the table holds and whichever rules the program breaks: each pass finds the errors
of the first one and is through if the first one is, which nothing but the height of the program
decides, and the session is left as the first pass leaves it, with the same table, of which the same
bindings are dropped after a run. -/
theorem bindRepeatedly_eq {program : List (Stmt Label)} (hknown : ∀ st ∈ program, st.Known)
    (config : Config) (s : Session) {n : Nat} (hn : 1 ≤ n) :
    let errors := (s.bind config program).1
    let bound := (s.bind config program).2.2
    let fault := if Stmt.heightAll program ≤ config.nesting then none else some .tooDeep
    s.bindRepeatedly config program n = (List.replicate n (errors, fault), bound) ∧
      (s.bindRepeatedly config program n).2.dropTopLevel = bound.dropTopLevel := by
  intro errors bound fault
  have hfault : ∀ s : Session, (s.bind config program).2.1 = fault := fun s =>
    fault_bindProgram_known hknown config.nesting s.table
  have hbind : s.bind config program = (errors, fault, bound) := by
    rw [← hfault s]
  have hagain : bound.bind config program = (errors, fault, bound) :=
    (bind_bind config program s).trans hbind
  -- from the second pass on nothing changes
  have hmore : ∀ n, bound.bindRepeatedly config program n =
      (List.replicate n (errors, fault), bound) := by
    intro n
    induction n with
    | zero => rfl
    | succ n ih => rw [bindRepeatedly_succ hagain, ih, List.replicate_succ]
  have hall : s.bindRepeatedly config program n = (List.replicate n (errors, fault), bound) := by
    obtain ⟨n, rfl⟩ := Nat.exists_eq_add_of_le' hn
    rw [bindRepeatedly_succ hbind, hmore, List.replicate_succ]
  exact ⟨hall, by rw [hall]⟩

/-- A name, and a `return` behind it. -/
def localName : Token := ⟨.identifier, "a", .nil, 1⟩

def lateReturn : Token := ⟨.returnWord, "return", .nil, 2⟩

/-- A block reads a variable in its own initializer and once more, by one reference, and there is a
`return` outside all functions. -/
def brokenProgram : List (Stmt Label) :=
  [.block [.var localName (some (.nameRef ⟨7, localName⟩)), .print (.nameRef ⟨7, localName⟩)],
    .returnFrom lateReturn none]

/-- A session whose table has an entry for this reference, five scopes out, and one behind it. -/
def usedSession : Session :=
  { start false with
    table := ⟨[⟨7, .assign, localName, 5, false⟩, ⟨9, .read, localName, 1, false⟩]⟩ }

theorem known_brokenProgram : ∀ st ∈ brokenProgram, st.Known := by
  refine List.forall_mem_cons.mpr ⟨.block ?_, List.forall_mem_cons.mpr ⟨.returnFrom nofun, nofun⟩⟩
  refine List.forall_mem_cons.mpr ⟨.var fun e he => ?_, List.forall_mem_cons.mpr
    ⟨.print (.nameRef _), nofun⟩⟩
  cases he
  exact .nameRef _

theorem bindRepeatedly_brokenProgram :
    let config := Config.standard fun _ => 0
    let found : List ScopeError × Option Fault :=
      ([⟨.readInOwnInitializer, localName⟩, ⟨.returnOutsideFunction, lateReturn⟩], none)
    usedSession.bindRepeatedly config brokenProgram 3 =
      ([found, found, found],
        { usedSession with
          table := ⟨[⟨7, .read, localName, 0, true⟩, ⟨9, .read, localName, 1, false⟩]⟩ }) :=
  (bindRepeatedly_eq known_brokenProgram (.standard fun _ => 0) usedSession
    (by decide : 1 ≤ 3)).1

end Session
end LoxLang
