import LoxLang.Proofs.Syntax.Map
import LoxLang.Syntax.Label

/-! # Labelled programs

Labelling changes nothing but the marks of a program (`Stmt.unmark_relabelAll`), and the references
of a labelled program, in whatever order one comes to them, have labels that differ from each other
and from all labels outside the range that the labelling used (`within_visitProgram`). -/

namespace LoxLang

open Binder (Surroundings FunctionContext)

variable {ι κ : Type}

/-! ## Marks and places -/

section
variable (k n : Label)

theorem Expr.relabelAll_shift_of {g : ι → κ} {φ : Token → Token} {es : List (Expr ι)}
    (h : ∀ e ∈ es, ∀ n, (e.map g φ).relabel (k + n) =
      ((e.relabel n).1.map (k + ·) φ, k + (e.relabel n).2)) :
    Expr.relabelAll (k + n) (es.map (Expr.map g φ)) =
      ((Expr.relabelAll n es).1.map (Expr.map (k + ·) φ), k + (Expr.relabelAll n es).2) := by
  induction es generalizing n with
  | nil => rfl
  | cons e es ih =>
    simp [relabelAll, h e List.mem_cons_self, ih _ fun e' he' => h e' (List.mem_cons_of_mem e he')]

/-- Labelling from further up does not look at tokens, and moves all labels up. -/
theorem Expr.relabel_shift (g : ι → κ) (φ : Token → Token) (e : Expr ι) :
    (e.map g φ).relabel (k + n) = ((e.relabel n).1.map (k + ·) φ, k + (e.relabel n).2) := by
  induction e using Expr.inductionOn generalizing n with
  | call callee paren arguments ih iharguments =>
    simp [map, relabel, mapAll_eq, ih, relabelAll_shift_of _ _ iharguments]
  | _ => simp_all [map, relabel, Ref.map, Ref.relabel, Nat.add_assoc]

theorem Expr.relabelOption_shift (g : ι → κ) (φ : Token → Token) (e : Option (Expr ι)) :
    Expr.relabelOption (k + n) (e.map (Expr.map g φ)) =
      ((Expr.relabelOption n e).1.map (Expr.map (k + ·) φ), k + (Expr.relabelOption n e).2) := by
  cases e with
  | none => rfl
  | some e => simp [relabelOption, relabel_shift]

theorem Stmt.relabelAll_shift_of {g : ι → κ} {φ : Token → Token} {ss : List (Stmt ι)}
    (h : ∀ s ∈ ss, ∀ n, (s.map g φ).relabel (k + n) =
      ((s.relabel n).1.map (k + ·) φ, k + (s.relabel n).2)) :
    Stmt.relabelAll (k + n) (ss.map (Stmt.map g φ)) =
      ((Stmt.relabelAll n ss).1.map (Stmt.map (k + ·) φ), k + (Stmt.relabelAll n ss).2) := by
  induction ss generalizing n with
  | nil => rfl
  | cons s ss ih =>
    simp [relabelAll, h s List.mem_cons_self, ih _ fun s' hs' => h s' (List.mem_cons_of_mem s hs')]

/-- Statements behind others get their labels from where those of the others end. -/
theorem Stmt.relabelAll_append (ss ss' : List (Stmt ι)) :
    Stmt.relabelAll n (ss ++ ss') =
      ((Stmt.relabelAll n ss).1 ++ (Stmt.relabelAll (Stmt.relabelAll n ss).2 ss').1,
        (Stmt.relabelAll (Stmt.relabelAll n ss).2 ss').2) := by
  induction ss generalizing n with
  | nil => rfl
  | cons s ss ih => simp [relabelAll, ih]

theorem Function.relabel_shift_of {g : ι → κ} {φ : Token → Token} {f : Function ι}
    (h : ∀ s ∈ f.body, ∀ n, (s.map g φ).relabel (k + n) =
      ((s.relabel n).1.map (k + ·) φ, k + (s.relabel n).2)) :
    Function.relabel (k + n) (Function.map g φ f) =
      (Function.map (k + ·) φ (Function.relabel n f).1, k + (Function.relabel n f).2) := by
  obtain ⟨name, params, body⟩ := f
  simp [Function.map_eq, relabel, Stmt.relabelAll_shift_of _ _ h]

theorem Function.relabelAll_shift_of {g : ι → κ} {φ : Token → Token} {fs : List (Function ι)}
    (h : ∀ f ∈ fs, ∀ s ∈ f.body, ∀ n, (s.map g φ).relabel (k + n) =
      ((s.relabel n).1.map (k + ·) φ, k + (s.relabel n).2)) :
    Function.relabelAll (k + n) (Function.mapAll g φ fs) =
      (Function.mapAll (k + ·) φ (Function.relabelAll n fs).1,
        k + (Function.relabelAll n fs).2) := by
  induction fs generalizing n with
  | nil => rfl
  | cons f fs ih =>
    simp [mapAll, relabelAll, relabel_shift_of _ _ (h f List.mem_cons_self),
      ih _ fun f' hf' => h f' (List.mem_cons_of_mem f hf')]

theorem Stmt.relabel_shift (g : ι → κ) (φ : Token → Token) (s : Stmt ι) :
    (s.map g φ).relabel (k + n) = ((s.relabel n).1.map (k + ·) φ, k + (s.relabel n).2) := by
  induction s using Stmt.inductionOn generalizing n with
  | block body ih => simp [map, relabel, mapAll_eq, relabelAll_shift_of _ _ ih]
  | function declaration ih => simp [map, relabel, Function.relabel_shift_of _ _ ih]
  | classOf name superclass methods ih =>
    cases superclass with
    | none => simp [map, relabel, Function.relabelAll_shift_of _ _ ih]
    | some parent =>
      simp [map, relabel, Ref.map, Ref.relabel, Nat.add_assoc, Function.relabelAll_shift_of _ _ ih]
  | _ => simp_all [map, relabel, Expr.relabel_shift, Expr.relabelOption_shift]

theorem Stmt.relabelAll_shift (g : ι → κ) (φ : Token → Token) (ss : List (Stmt ι)) :
    Stmt.relabelAll (k + n) (ss.map (Stmt.map g φ)) =
      ((Stmt.relabelAll n ss).1.map (Stmt.map (k + ·) φ), k + (Stmt.relabelAll n ss).2) :=
  Stmt.relabelAll_shift_of k n fun s _ n => s.relabel_shift k n g φ

/-- Labelling does not look at tokens. -/
theorem Stmt.relabelAll_map (g : ι → κ) (φ : Token → Token) (ss : List (Stmt ι)) :
    Stmt.relabelAll n (ss.map (Stmt.map g φ)) =
      ((Stmt.relabelAll n ss).1.map (Stmt.map id φ), (Stmt.relabelAll n ss).2) := by
  have hid : ((0 + ·) : Label → Label) = id := funext Nat.zero_add
  have h := Stmt.relabelAll_shift 0 n g φ ss
  rwa [hid, Nat.zero_add, Nat.zero_add] at h

/-- Leaves out the marks of an expression. -/
abbrev Expr.unmark (e : Expr ι) : Expr Unit := e.map (fun _ => ()) id

/-- Leaves out the marks of a statement. -/
abbrev Stmt.unmark (s : Stmt ι) : Stmt Unit := s.map (fun _ => ()) id

theorem Expr.unmark_relabelAll_of {es : List (Expr ι)}
    (h : ∀ e ∈ es, ∀ n, (e.relabel n).1.unmark = e.unmark) :
    (Expr.relabelAll n es).1.map Expr.unmark = es.map Expr.unmark := by
  induction es generalizing n with
  | nil => rfl
  | cons e es ih =>
    simp [relabelAll, h e List.mem_cons_self, ih _ fun e' he' => h e' (List.mem_cons_of_mem e he')]

/-- Labelling changes nothing but the marks. -/
theorem Expr.unmark_relabel (e : Expr ι) : (e.relabel n).1.unmark = e.unmark := by
  induction e using Expr.inductionOn generalizing n with
  | call callee paren arguments ih iharguments =>
    have h := unmark_relabelAll_of (callee.relabel n).2 iharguments
    simpa [unmark, map, relabel, mapAll_eq, ih] using h
  | _ => simp_all [unmark, map, relabel, Ref.map, Ref.relabel]

theorem Expr.unmark_relabelOption (e : Option (Expr ι)) :
    (Expr.relabelOption n e).1.map Expr.unmark = e.map Expr.unmark := by
  cases e with
  | none => rfl
  | some e => simp [relabelOption, unmark_relabel]

theorem Stmt.unmark_relabelAll_of {ss : List (Stmt ι)}
    (h : ∀ s ∈ ss, ∀ n, (s.relabel n).1.unmark = s.unmark) :
    (Stmt.relabelAll n ss).1.map Stmt.unmark = ss.map Stmt.unmark := by
  induction ss generalizing n with
  | nil => rfl
  | cons s ss ih =>
    simp [relabelAll, h s List.mem_cons_self, ih _ fun s' hs' => h s' (List.mem_cons_of_mem s hs')]

theorem Function.unmark_relabel_of {f : Function ι}
    (h : ∀ s ∈ f.body, ∀ n, (s.relabel n).1.unmark = s.unmark) :
    Function.map (fun _ => ()) id (Function.relabel n f).1 = Function.map (fun _ => ()) id f := by
  obtain ⟨name, params, body⟩ := f
  simpa [Function.map_eq, relabel] using Stmt.unmark_relabelAll_of n h

theorem Function.unmark_relabelAll_of {fs : List (Function ι)}
    (h : ∀ f ∈ fs, ∀ s ∈ f.body, ∀ n, (s.relabel n).1.unmark = s.unmark) :
    Function.mapAll (fun _ => ()) id (Function.relabelAll n fs).1 =
      Function.mapAll (fun _ => ()) id fs := by
  induction fs generalizing n with
  | nil => rfl
  | cons f fs ih =>
    simp [mapAll, relabelAll, unmark_relabel_of _ (h f List.mem_cons_self),
      ih _ fun f' hf' => h f' (List.mem_cons_of_mem f hf')]

theorem Stmt.unmark_relabel (s : Stmt ι) : (s.relabel n).1.unmark = s.unmark := by
  induction s using Stmt.inductionOn generalizing n with
  | block body ih => simpa [unmark, map, relabel, mapAll_eq] using unmark_relabelAll_of n ih
  | function declaration ih => simp [unmark, map, relabel, Function.unmark_relabel_of _ ih]
  | classOf name superclass methods ih =>
    cases superclass <;>
      simp [unmark, map, relabel, Ref.map, Ref.relabel, Function.unmark_relabelAll_of _ ih]
  | var name initial => simpa [unmark, map, relabel] using Expr.unmark_relabelOption n initial
  | returnFrom keyword value =>
    simpa [unmark, map, relabel] using Expr.unmark_relabelOption n value
  | _ => simp_all [unmark, map, relabel, Expr.unmark_relabel]

end

/-- Without marks there are none to leave out. -/
theorem Expr.unmark_eq (e : Expr Unit) : e.unmark = e := by
  induction e using Expr.inductionOn with
  | call callee paren arguments ih iharguments =>
    have h := (List.map_congr_left iharguments).trans (List.map_id' arguments)
    simpa [unmark, map, mapAll_eq, ih] using h
  | _ => simp_all [unmark, map, Ref.map]

theorem Function.unmark_eq_of {f : Function Unit} (h : ∀ s ∈ f.body, s.unmark = s) :
    Function.map (fun _ => ()) id f = f := by
  rw [Function.map_eq, (List.map_congr_left h).trans (List.map_id' f.body)]
  simp

theorem Stmt.unmark_eq (s : Stmt Unit) : s.unmark = s := by
  have hoption : ∀ e : Option (Expr Unit), e.map (Expr.map (fun _ => ()) id) = e := by
    intro e
    cases e with
    | none => rfl
    | some e => exact congrArg some e.unmark_eq
  induction s using Stmt.inductionOn with
  | block body ih =>
    have h := (List.map_congr_left ih).trans (List.map_id' body)
    simpa [unmark, map, mapAll_eq] using h
  | function declaration ih => simp [unmark, map, Function.unmark_eq_of ih]
  | classOf name superclass methods ih =>
    have hms : methods.map (Function.map (fun _ => ()) id) = methods :=
      (List.map_congr_left fun m hm => Function.unmark_eq_of (ih m hm)).trans (List.map_id' _)
    cases superclass <;> simp [unmark, map, Ref.map, Function.mapAll_eq, hms]
  | _ => simp_all [unmark, map, Expr.unmark_eq]

/-- **Labelling changes nothing but the marks** of a program. -/
theorem Stmt.unmark_relabelAll (n : Label) (program : List (Stmt Unit)) :
    (Stmt.relabelAll n program).1.map Stmt.unmark = program := by
  rw [unmark_relabelAll_of n fun s _ n => unmark_relabel n s,
    (List.map_congr_left fun s _ => unmark_eq s).trans (List.map_id' program)]

/-! ## Well-formedness -/

section
variable {g : ι → κ} {φ : Token → Token} (hφ : ∀ t, (φ t).lexeme = t.lexeme)

include hφ

theorem Token.isName_of_map {t : Token} (h : (φ t).IsName) : t.IsName := by
  unfold IsName at h
  rwa [hφ] at h

theorem Expr.wellFormed_of_map {e : Expr ι} (h : (e.map g φ).WellFormed) : e.WellFormed := by
  induction e using Expr.inductionOn with
  | literal value => exact .literal value
  | nameRef ref =>
    cases h with
    | nameRef hname => exact .nameRef (Token.isName_of_map hφ hname)
  | assign ref value ih =>
    cases h with
    | assign hname hvalue => exact .assign (Token.isName_of_map hφ hname) (ih hvalue)
  | unary op operand ih =>
    cases h with
    | unary hoperand => exact .unary (ih hoperand)
  | binary left op right ihleft ihright =>
    cases h with
    | binary hleft hright => exact .binary (ihleft hleft) (ihright hright)
  | logical left op right ihleft ihright =>
    cases h with
    | logical hleft hright => exact .logical (ihleft hleft) (ihright hright)
  | group inner ih =>
    cases h with
    | group hinner => exact .group (ih hinner)
  | call callee paren arguments ih iharguments =>
    cases h with
    | call hcallee harguments =>
      rw [mapAll_eq] at harguments
      exact .call (ih hcallee) fun a ha => iharguments a ha (harguments _ (List.mem_map_of_mem ha))
  | get object name ih =>
    cases h with
    | get hobject => exact .get (ih hobject)
  | set object name value ihobject ihvalue =>
    cases h with
    | set hobject hvalue => exact .set (ihobject hobject) (ihvalue hvalue)
  | thisRef ref =>
    cases h with
    | thisRef hthis => exact .thisRef ((hφ _).symm.trans hthis)
  | superRef ref method =>
    cases h with
    | superRef hsuper => exact .superRef ((hφ _).symm.trans hsuper)
  | unknown form => cases h

theorem Expr.wellFormed_of_map_option {e : Option (Expr ι)}
    (h : ∀ x ∈ e.map (Expr.map g φ), x.WellFormed) : ∀ x ∈ e, x.WellFormed :=
  fun _ hx => wellFormed_of_map hφ (h _ (Option.mem_map_of_mem _ hx))

omit hφ in
theorem Stmt.declares_eq_nil_of_map {s : Stmt ι} (h : (s.map g φ).declares = []) :
    s.declares = [] := by
  rwa [declares_map, List.map_eq_nil_iff] at h

theorem Stmt.wellFormed_of_map {s : Stmt ι} (h : (s.map g φ).WellFormed) : s.WellFormed := by
  induction s using Stmt.inductionOn with
  | expression value =>
    cases h with
    | expression hvalue => exact .expression (Expr.wellFormed_of_map hφ hvalue)
  | print value =>
    cases h with
    | print hvalue => exact .print (Expr.wellFormed_of_map hφ hvalue)
  | var name initial =>
    cases h with
    | var hname hinitial =>
      exact .var (Token.isName_of_map hφ hname) (Expr.wellFormed_of_map_option hφ hinitial)
  | block body ih =>
    cases h with
    | block hbody =>
      rw [mapAll_eq] at hbody
      exact .block fun s hs => ih s hs (hbody _ (List.mem_map_of_mem hs))
  | ifThen condition body ih =>
    cases h with
    | ifThen hcondition hbody hnone =>
      exact .ifThen (Expr.wellFormed_of_map hφ hcondition) (ih hbody)
        (declares_eq_nil_of_map hnone)
  | ifElse condition body other ihbody ihother =>
    cases h with
    | ifElse hcondition hbody hnone hother hnone' =>
      exact .ifElse (Expr.wellFormed_of_map hφ hcondition) (ihbody hbody)
        (declares_eq_nil_of_map hnone) (ihother hother) (declares_eq_nil_of_map hnone')
  | whileLoop condition body ih =>
    cases h with
    | whileLoop hcondition hbody hnone =>
      exact .whileLoop (Expr.wellFormed_of_map hφ hcondition) (ih hbody)
        (declares_eq_nil_of_map hnone)
  | function declaration ih =>
    cases h with
    | function hname hparams hbody =>
      rw [Function.map_eq] at hname hparams hbody
      exact .function (Token.isName_of_map hφ hname)
        (fun p hp => Token.isName_of_map hφ (hparams _ (List.mem_map_of_mem hp)))
        fun s hs => ih s hs (hbody _ (List.mem_map_of_mem hs))
  | returnFrom keyword value =>
    cases h with
    | returnFrom hvalue => exact .returnFrom (Expr.wellFormed_of_map_option hφ hvalue)
  | classOf name superclass methods ih =>
    cases h with
    | classOf hname hsuperclass hparams hbodies =>
      rw [Function.mapAll_eq] at hparams hbodies
      have hmem : ∀ m ∈ methods, Function.map g φ m ∈ methods.map (Function.map g φ) :=
        fun m hm => List.mem_map_of_mem hm
      refine .classOf (Token.isName_of_map hφ hname) ?_ ?_ ?_
      · exact fun r hr => Token.isName_of_map hφ (hsuperclass _ (Option.mem_map_of_mem _ hr))
      · intro m hm p hp
        refine Token.isName_of_map hφ (hparams _ (hmem m hm) _ ?_)
        rw [Function.map_eq]
        exact List.mem_map_of_mem hp
      · intro m hm s hs
        refine ih m hm s hs (hbodies _ (hmem m hm) _ ?_)
        rw [Function.map_eq]
        exact List.mem_map_of_mem hs
  | unknown form => cases h

end

theorem Expr.known_of_map {g : ι → κ} {φ : Token → Token} {e : Expr ι} (h : (e.map g φ).Known) :
    e.Known := by
  induction e using Expr.inductionOn with
  | literal value => exact .literal value
  | nameRef ref => exact .nameRef ref
  | assign ref value ih =>
    cases h with
    | assign hvalue => exact .assign (ih hvalue)
  | unary op operand ih =>
    cases h with
    | unary hoperand => exact .unary (ih hoperand)
  | binary left op right ihleft ihright =>
    cases h with
    | binary hleft hright => exact .binary (ihleft hleft) (ihright hright)
  | logical left op right ihleft ihright =>
    cases h with
    | logical hleft hright => exact .logical (ihleft hleft) (ihright hright)
  | group inner ih =>
    cases h with
    | group hinner => exact .group (ih hinner)
  | call callee paren arguments ih iharguments =>
    cases h with
    | call hcallee harguments =>
      rw [mapAll_eq] at harguments
      exact .call (ih hcallee) fun a ha => iharguments a ha (harguments _ (List.mem_map_of_mem ha))
  | get object name ih =>
    cases h with
    | get hobject => exact .get (ih hobject)
  | set object name value ihobject ihvalue =>
    cases h with
    | set hobject hvalue => exact .set (ihobject hobject) (ihvalue hvalue)
  | thisRef ref => exact .thisRef ref
  | superRef ref method => exact .superRef ref method
  | unknown form => cases h

theorem Expr.known_of_map_option {g : ι → κ} {φ : Token → Token} {e : Option (Expr ι)}
    (h : ∀ x ∈ e.map (Expr.map g φ), x.Known) : ∀ x ∈ e, x.Known :=
  fun _ hx => known_of_map (h _ (Option.mem_map_of_mem _ hx))

/-- The shape of a program does not depend on the texts of its tokens. -/
theorem Stmt.shaped_of_map {g : ι → κ} {φ : Token → Token} {s : Stmt ι}
    (h : (s.map g φ).Shaped) : s.Shaped := by
  induction s using Stmt.inductionOn with
  | expression value =>
    cases h with
    | expression hvalue => exact .expression (Expr.known_of_map hvalue)
  | print value =>
    cases h with
    | print hvalue => exact .print (Expr.known_of_map hvalue)
  | var name initial =>
    cases h with
    | var hinitial => exact .var (Expr.known_of_map_option hinitial)
  | block body ih =>
    cases h with
    | block hbody =>
      rw [mapAll_eq] at hbody
      exact .block fun s hs => ih s hs (hbody _ (List.mem_map_of_mem hs))
  | ifThen condition body ih =>
    cases h with
    | ifThen hcondition hbody hnone =>
      exact .ifThen (Expr.known_of_map hcondition) (ih hbody) (declares_eq_nil_of_map hnone)
  | ifElse condition body other ihbody ihother =>
    cases h with
    | ifElse hcondition hbody hnone hother hnone' =>
      exact .ifElse (Expr.known_of_map hcondition) (ihbody hbody) (declares_eq_nil_of_map hnone)
        (ihother hother) (declares_eq_nil_of_map hnone')
  | whileLoop condition body ih =>
    cases h with
    | whileLoop hcondition hbody hnone =>
      exact .whileLoop (Expr.known_of_map hcondition) (ih hbody) (declares_eq_nil_of_map hnone)
  | function declaration ih =>
    cases h with
    | function hbody =>
      rw [Function.map_eq] at hbody
      exact .function fun s hs => ih s hs (hbody _ (List.mem_map_of_mem hs))
  | returnFrom keyword value =>
    cases h with
    | returnFrom hvalue => exact .returnFrom (Expr.known_of_map_option hvalue)
  | classOf name superclass methods ih =>
    cases h with
    | classOf hbodies =>
      rw [Function.mapAll_eq] at hbodies
      refine .classOf fun m hm s hs => ih m hm s hs (hbodies _ (List.mem_map_of_mem hm) _ ?_)
      rw [Function.map_eq]
      exact List.mem_map_of_mem hs
  | unknown form => cases h

/-- A labelled program has the shape it had before. -/
theorem Stmt.shaped_relabelAll {n : Label} {program : List (Stmt Unit)}
    (h : ∀ s ∈ program, s.Shaped) : ∀ s ∈ (Stmt.relabelAll n program).1, s.Shaped := by
  intro s hs
  refine shaped_of_map (g := fun _ => ()) (φ := id) (h _ ?_)
  rw [← unmark_relabelAll n program]
  exact List.mem_map_of_mem hs

/-- A labelled program is as well-formed as it was before. -/
theorem Stmt.wellFormed_relabelAll {n : Label} {program : List (Stmt Unit)}
    (h : ∀ s ∈ program, s.WellFormed) : ∀ s ∈ (Stmt.relabelAll n program).1, s.WellFormed := by
  intro s hs
  refine wellFormed_of_map (g := fun _ => ()) (φ := id) (fun _ => rfl) (h _ ?_)
  rw [← unmark_relabelAll n program]
  exact List.mem_map_of_mem hs

/-! ## The labels of references -/

/-- Labels that differ from each other and lie in a range. -/
structure Label.Within (lo hi : Nat) (labels : List Nat) : Prop where
  le : lo ≤ hi
  bounds : ∀ x ∈ labels, lo ≤ x ∧ x < hi
  nodup : labels.Nodup

namespace Label.Within

variable {lo mid hi : Nat} {l l' : List Nat}

theorem nil (n : Label) : Within n n [] := ⟨Nat.le_refl n, nofun, List.nodup_nil⟩

theorem append (h : Within lo mid l) (h' : Within mid hi l') : Within lo hi (l ++ l') where
  le := Nat.le_trans h.le h'.le
  bounds x hx := by
    have := h.le
    have := h'.le
    rcases List.mem_append.mp hx with hx | hx
    · have := h.bounds x hx
      omega
    · have := h'.bounds x hx
      omega
  nodup := by
    refine List.nodup_append.mpr ⟨h.nodup, h'.nodup, fun x hx y hy => ?_⟩
    have := h.bounds x hx
    have := h'.bounds y hy
    omega

theorem perm (h : Within lo hi l) (hperm : l.Perm l') : Within lo hi l' :=
  ⟨h.le, fun x hx => h.bounds x (hperm.mem_iff.mpr hx), hperm.nodup_iff.mp h.nodup⟩

/-- The labels of the second range may come first. -/
theorem append_swap (h : Within lo mid l) (h' : Within mid hi l') : Within lo hi (l' ++ l) :=
  (h.append h').perm List.perm_append_comm

end Label.Within

/-- The labels of the references among findings. -/
def labelsOf (fs : List (Finding Label)) : List Label :=
  fs.filterMap fun f => f.use?.map fun u => u.ref.label

@[simp] theorem labelsOf_nil : labelsOf [] = [] := rfl

@[simp] theorem labelsOf_append (fs gs : List (Finding Label)) :
    labelsOf (fs ++ gs) = labelsOf fs ++ labelsOf gs := List.filterMap_append

@[simp] theorem labelsOf_error (e : ScopeError) : labelsOf [.error e] = [] := rfl

@[simp] theorem labelsOf_redeclared (context : Context) (name : Token) :
    labelsOf (context.redeclared name) = [] := by
  unfold Context.redeclared
  split <;> rfl

@[simp] theorem labelsOf_redeclaredAll (context : Context) (names : List Token) :
    labelsOf (context.redeclaredAll names) = [] := by
  induction names generalizing context with
  | nil => rfl
  | cons name names ih => simp [Context.redeclaredAll, ih]

@[simp] theorem labelsOf_returnErrors (around : Surroundings) (keyword : Token)
    (value : Option (Expr Label)) : labelsOf (returnErrors around keyword value) = [] := by
  unfold returnErrors
  rw [labelsOf_append]
  split <;> split <;> rfl

theorem labelsOf_map_error (es : List ScopeError) : labelsOf (es.map .error) = [] := by
  induction es with
  | nil => rfl
  | cons e es ih => exact ih

namespace Label.Within

theorem findings (u : Use Label) :
    Within u.ref.label (u.ref.label + 1) (labelsOf u.findings) := by
  unfold Use.findings
  rw [labelsOf_append, labelsOf_map_error]
  split
  · exact ⟨Nat.le_succ _, nofun, List.nodup_nil⟩
  · refine ⟨Nat.le_succ _, fun x hx => ?_, List.pairwise_singleton ..⟩
    obtain rfl : x = u.ref.label := List.mem_singleton.mp hx
    exact ⟨Nat.le_refl _, Nat.lt_succ_self _⟩

variable (around : Surroundings) (context : Context)

theorem flatMap_of {es : List (Expr ι)}
    (h : ∀ e ∈ es, ∀ n, Within n (e.relabel n).2
      (labelsOf ((e.relabel n).1.visit around context))) (n : Label) :
    Within n (Expr.relabelAll n es).2
      (labelsOf ((Expr.relabelAll n es).1.flatMap fun e => e.visit around context)) := by
  induction es generalizing n with
  | nil => exact nil n
  | cons e es ih =>
    rw [Expr.relabelAll, List.flatMap_cons, labelsOf_append]
    exact (h e List.mem_cons_self n).append (ih (fun e' he' => h e' (List.mem_cons_of_mem e he')) _)

theorem expr (e : Expr ι) (n : Label) :
    Within n (e.relabel n).2 (labelsOf ((e.relabel n).1.visit around context)) := by
  induction e using Expr.inductionOn generalizing n with
  | literal value | unknown form => exact nil n
  | nameRef ref =>
    rw [Expr.relabel, Expr.visit_nameRef]
    exact findings ⟨⟨n, ref.name⟩, .read, around, context⟩
  | assign ref value ih =>
    rw [Expr.relabel, Expr.visit_assign, labelsOf_append]
    exact (findings ⟨⟨n, ref.name⟩, .assign, around, context⟩).append_swap (ih (n + 1))
  | unary op operand ih | group inner ih | get object name ih => exact ih n
  | binary left op right ihleft ihright =>
    rw [Expr.relabel, Expr.visit_binary, labelsOf_append]
    exact (ihleft n).append (ihright _)
  | logical left op right ihleft ihright =>
    rw [Expr.relabel, Expr.visit_logical, labelsOf_append]
    exact (ihleft n).append (ihright _)
  | call callee paren arguments ih iharguments =>
    rw [Expr.relabel, Expr.visit_call, labelsOf_append]
    exact (ih n).append (flatMap_of around context iharguments _)
  | set object name value ihobject ihvalue =>
    rw [Expr.relabel, Expr.visit_set, labelsOf_append]
    exact (ihobject n).append_swap (ihvalue _)
  | thisRef ref =>
    rw [Expr.relabel, Expr.visit_thisRef]
    exact findings ⟨⟨n, ref.name⟩, .this, around, context⟩
  | superRef ref method =>
    rw [Expr.relabel, Expr.visit_superRef]
    exact findings ⟨⟨n, ref.name⟩, .super, around, context⟩

theorem exprOption (e : Option (Expr ι)) (n : Label) :
    Within n (Expr.relabelOption n e).2
      (labelsOf (Expr.visitOption around context (Expr.relabelOption n e).1)) := by
  cases e with
  | none => exact nil n
  | some e => exact expr around context e n

theorem visitAll_of {ss : List (Stmt ι)}
    (h : ∀ s ∈ ss, ∀ n around context, Within n (s.relabel n).2
      (labelsOf ((s.relabel n).1.visit around context))) (n : Label) :
    Within n (Stmt.relabelAll n ss).2
      (labelsOf (Stmt.visitAll around context (Stmt.relabelAll n ss).1)) := by
  induction ss generalizing n context with
  | nil => exact nil n
  | cons s ss ih =>
    rw [Stmt.relabelAll, Stmt.visitAll, labelsOf_append]
    exact (h s List.mem_cons_self n around context).append
      (ih _ (fun s' hs' => h s' (List.mem_cons_of_mem s hs')) _)

theorem function_of {f : Function ι}
    (h : ∀ s ∈ f.body, ∀ n around context, Within n (s.relabel n).2
      (labelsOf ((s.relabel n).1.visit around context))) (kind : FunctionContext) (n : Label) :
    Within n (Function.relabel n f).2
      (labelsOf (Function.visit around kind context (Function.relabel n f).1)) := by
  obtain ⟨name, params, body⟩ := f
  rw [Function.relabel, Function.visit, labelsOf_append, labelsOf_redeclaredAll]
  exact visitAll_of _ _ h n

theorem methods_of {fs : List (Function ι)}
    (h : ∀ f ∈ fs, ∀ s ∈ f.body, ∀ n around context, Within n (s.relabel n).2
      (labelsOf ((s.relabel n).1.visit around context))) (n : Label) :
    Within n (Function.relabelAll n fs).2
      (labelsOf (Function.visitMethods around context (Function.relabelAll n fs).1)) := by
  induction fs generalizing n with
  | nil => exact nil n
  | cons f fs ih =>
    rw [Function.relabelAll, Function.visitMethods, labelsOf_append]
    exact (function_of around context (h f List.mem_cons_self) _ n).append
      (ih (fun f' hf' => h f' (List.mem_cons_of_mem f hf')) _)

/-- The references of a labelled statement differ in their labels. -/
theorem stmt (s : Stmt ι) (n : Label) :
    Within n (s.relabel n).2 (labelsOf ((s.relabel n).1.visit around context)) := by
  induction s using Stmt.inductionOn generalizing n around context with
  | expression value | print value => exact expr around context value n
  | var name initial =>
    rw [Stmt.relabel, Stmt.visit, labelsOf_append, labelsOf_redeclared]
    exact exprOption around _ initial n
  | block body ih =>
    rw [Stmt.relabel, Stmt.visit]
    exact visitAll_of around _ (fun s hs n around context => ih s hs around context n) n
  | ifThen condition body ih | whileLoop condition body ih =>
    rw [Stmt.relabel, Stmt.visit, labelsOf_append]
    exact (expr around context condition n).append (ih around context _)
  | ifElse condition body other ihbody ihother =>
    rw [Stmt.relabel, Stmt.visit, labelsOf_append, labelsOf_append]
    exact ((expr around context condition n).append (ihbody around context _)).append
      (ihother around _ _)
  | function declaration ih =>
    rw [Stmt.relabel, Stmt.visit, labelsOf_append, labelsOf_redeclared]
    exact function_of around _ (fun s hs n around context => ih s hs around context n) _ n
  | returnFrom keyword value =>
    rw [Stmt.relabel, Stmt.visit, labelsOf_append, labelsOf_returnErrors]
    exact exprOption around context value n
  | classOf name superclass methods ih =>
    have hms := fun around context => methods_of around context
      fun m hm s hs n around context => ih m hm s hs around context n
    cases superclass with
    | none =>
      rw [Stmt.relabel, Stmt.visit, labelsOf_append, labelsOf_redeclared]
      exact hms _ _ n
    | some parent =>
      have hself : ∀ (c : Prop) [Decidable c] (e : ScopeError),
          labelsOf (if c then [.error e] else []) = [] := by
        intro c _ e
        split <;> rfl
      rw [Stmt.relabel, Stmt.visit, labelsOf_append, labelsOf_append, labelsOf_append,
        labelsOf_redeclared, hself]
      exact (findings ⟨⟨n, parent.name⟩, .read, around, context.introduce name⟩).append
        (hms _ _ (n + 1))
  | unknown form => exact nil n

end Label.Within

/-- **The references of a labelled program differ in their labels**, and none has a label outside
the range that the labelling used. -/
theorem within_visitProgram (n : Label) (program : List (Stmt ι)) :
    Label.Within n (Stmt.relabelAll n program).2
      (labelsOf (visitProgram (Stmt.relabelAll n program).1)) :=
  .visitAll_of _ _ (fun s _ n around context => .stmt around context s n) n

end LoxLang
