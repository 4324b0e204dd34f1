import LoxLang.Proofs.Computation
import LoxLang.Proofs.Syntax.Outline

/-! # Outlines of programs

What the rendering of an expression or a statement is made of, whatever limit it keeps to: if there
is a rendering, it is the text of the outline. -/

namespace LoxLang

variable {ι : Type}

/-- Parts in parentheses behind a head. -/
def Outline.form (head : String) (parts : List Outline) : Outline :=
  .branch "" (.word head :: parts)

theorem Outline.text_form (head : String) (parts : List Outline) :
    (form head parts).text = node (head :: parts.map text) := by
  rw [form, text, texts_eq]
  exact String.empty_append

/-- The outline of a literal. -/
def Datum.outline : Datum → Outline
  | .text s => .quoted s
  | d => .word d.display

theorem Datum.render_eq (d : Datum) : d.render = d.outline.text := by
  cases d <;> rfl

mutual

/-- The outline of an expression. -/
def Expr.outline : Expr ι → Outline
  | .literal value => value.outline
  | .nameRef ref => .word ref.name.lexeme
  | .assign ref value => .form "=" [.word ref.name.lexeme, value.outline]
  | .unary op operand => .form op.lexeme [operand.outline]
  | .binary left op right => .form op.lexeme [left.outline, right.outline]
  | .logical left op right => .form op.lexeme [left.outline, right.outline]
  | .group inner => .form "group" [inner.outline]
  | .call callee _ arguments => .form "call" (callee.outline :: Expr.outlines arguments)
  | .get object name => .form "." [object.outline, .word name.lexeme]
  | .set object name value => .form "=" [object.outline, .word name.lexeme, value.outline]
  | .thisRef _ => .word "this"
  | .superRef _ method => .form "super" [.word method.lexeme]
  | .unknown form => .word form

/-- The outlines of expressions. -/
def Expr.outlines : List (Expr ι) → List Outline
  | [] => []
  | e :: es => e.outline :: Expr.outlines es

end

theorem Expr.outlines_eq (es : List (Expr ι)) : Expr.outlines es = es.map Expr.outline := by
  induction es with
  | nil => rfl
  | cons e es ih => rw [outlines, ih, List.map_cons]

/-- What a class says of its superclass. -/
def Outline.superclass : Option (Ref ι) → List Outline
  | none => []
  | some ref => [.word "<", .word ref.name.lexeme]

/-- The name of a function with its parameters. -/
def Outline.signature (name : Token) (params : List Token) : Outline :=
  .branch name.lexeme (params.map fun p => .word p.lexeme)

mutual

/-- The outline of a statement. -/
def Stmt.outline : Stmt ι → Outline
  | .expression value => .form ";" [value.outline]
  | .print value => .form "print" [value.outline]
  | .var name none => .form "var" [.word name.lexeme]
  | .var name (some value) => .form "var" [.word name.lexeme, .word "=", value.outline]
  | .block body => .form "block" (Stmt.outlines body)
  | .ifThen condition body => .form "if" [condition.outline, body.outline]
  | .ifElse condition body other =>
    .form "if-else" [condition.outline, body.outline, other.outline]
  | .whileLoop condition body => .form "while" [condition.outline, body.outline]
  | .function declaration => Function.outline "fun" declaration
  | .returnFrom _ none => .form "return" []
  | .returnFrom _ (some value) => .form "return" [value.outline]
  | .classOf name superclass methods =>
    .form "class"
      (.word name.lexeme :: (Outline.superclass superclass ++ Function.outlines methods))
  | .unknown form => .word form

/-- The outlines of statements. -/
def Stmt.outlines : List (Stmt ι) → List Outline
  | [] => []
  | s :: ss => s.outline :: Stmt.outlines ss

/-- The outline of a function or method behind its head. -/
def Function.outline (head : String) : Function ι → Outline
  | ⟨name, params, body⟩ => .form head (.signature name params :: Stmt.outlines body)

/-- The outlines of methods. -/
def Function.outlines : List (Function ι) → List Outline
  | [] => []
  | f :: fs => Function.outline "method" f :: Function.outlines fs

end

theorem Stmt.outlines_eq (ss : List (Stmt ι)) : Stmt.outlines ss = ss.map Stmt.outline := by
  induction ss with
  | nil => rfl
  | cons s ss ih => rw [outlines, ih, List.map_cons]

theorem Function.outlines_eq (fs : List (Function ι)) :
    Function.outlines fs = fs.map (Function.outline "method") := by
  induction fs with
  | nil => rfl
  | cons f fs ih => rw [outlines, ih, List.map_cons]

/-! ## Renderings are texts of outlines -/

/-- A rendering is the text of an outline, if there is one. -/
def Renders (r : Except Fault String) (p : Outline) : Prop := ∀ t, r = .ok t → t = p.text

section
variable {α : Type} {r : Except Fault String} {p q : Outline}

theorem renders_throw (fault : Fault) : Renders (throw fault) p := fun _ h => nomatch h

theorem renders_pure {t : String} (h : t = p.text) : Renders (pure t) p := by
  rintro _ ht
  cases ht
  exact h

/-- A node whose parts have the texts of outlines. -/
theorem renders_node {head : String} {ts : List String} {parts : List Outline}
    (h : ts = parts.map Outline.text) : Renders (pure (node (head :: ts))) (.form head parts) :=
  renders_pure (by rw [Outline.text_form, h])

/-- What is rendered of a part goes into the rendering of the whole. -/
theorem Renders.bind {f : String → Except Fault String} (hr : Renders r p)
    (hf : Renders (f p.text) q) : Renders (r >>= f) q := by
  intro t h
  obtain ⟨u, hu, h⟩ := Except.bind_eq_ok.mp h
  rw [hr u hu] at h
  exact hf t h

theorem Renders.mapM {render : α → Except Fault String} {outline : α → Outline} {l : List α}
    {f : List String → Except Fault String} (hr : ∀ a ∈ l, Renders (render a) (outline a))
    (hf : Renders (f ((l.map outline).map Outline.text)) q) : Renders (l.mapM render >>= f) q := by
  intro t h
  obtain ⟨us, hus, h⟩ := Except.bind_eq_ok.mp h
  rw [Except.eq_map_of_mapM hr hus] at h
  rw [List.map_map] at hf
  exact hf t h

end

theorem Expr.renders (depth : Nat) (e : Expr ι) : Renders (e.render depth) e.outline := by
  induction depth generalizing e with
  | zero => exact renders_throw _
  | succ depth ih =>
    cases e with
    | literal value => exact renders_pure value.render_eq
    | nameRef | thisRef => exact renders_pure rfl
    | superRef => exact renders_node rfl
    | assign _ e | unary _ e | group e | get e _ => exact (ih e).bind (renders_node rfl)
    | binary left _ right | logical left _ right | set left _ right =>
      exact (ih left).bind ((ih right).bind (renders_node rfl))
    | call callee _ arguments =>
      refine .mapM (fun a _ => ih a) ((ih callee).bind (renders_node ?_))
      rw [outlines_eq]
      rfl
    | unknown => exact renders_throw _

theorem FunctionOf.renders {statement : Stmt ι → Except Fault String} (head : String)
    {f : Function ι} (hstatement : ∀ s ∈ f.body, Renders (statement s) s.outline) :
    Renders (f.render statement head) (Function.outline head f) := by
  obtain ⟨name, params, body⟩ := f
  refine .mapM hstatement (renders_node ?_)
  have hsignature : (Outline.signature name params).text =
      name.lexeme ++ ("(" ++ " ".intercalate (params.map Token.lexeme) ++ ")") := by
    rw [Outline.signature, Outline.text, Outline.texts_eq, List.map_map]
    rfl
  rw [List.map_cons, hsignature, Stmt.outlines_eq]

/-- The words about a superclass stand as one part in a rendering. -/
theorem Outline.node_superclass (name : String) (superclass : Option (Ref ι)) (ts : List String) :
    node ("class" :: name :: (superclass.toList.map (fun ref => "< " ++ ref.name.lexeme) ++ ts)) =
      node ("class" :: name :: ((Outline.superclass superclass).map text ++ ts)) := by
  cases superclass with
  | none => rfl
  | some ref =>
    have hword : "< " ++ ref.name.lexeme = "<" ++ " " ++ ref.name.lexeme := rfl
    cases ts with
    | nil => simp [node, superclass, text, String.intercalate_cons_cons, hword, String.append_assoc]
    | cons t ts =>
      simp [node, superclass, text, String.intercalate_cons_cons, hword, String.append_assoc]

theorem Stmt.renders (depth : Nat) (s : Stmt ι) : Renders (s.render depth) s.outline := by
  induction depth generalizing s with
  | zero => exact renders_throw _
  | succ depth ih =>
    have he : ∀ e : Expr ι, Renders (e.render depth) e.outline := Expr.renders depth
    cases s with
    | expression e | print e => exact (he e).bind (renders_node rfl)
    | var _ initial =>
      cases initial with
      | none => exact renders_node rfl
      | some e => exact (he e).bind (renders_node rfl)
    | block body =>
      refine .mapM (fun s _ => ih s) (renders_node ?_)
      rw [outlines_eq]
    | ifThen condition body | whileLoop condition body =>
      exact (he condition).bind ((ih body).bind (renders_node rfl))
    | ifElse condition body other =>
      exact (he condition).bind ((ih body).bind ((ih other).bind (renders_node rfl)))
    | function => exact FunctionOf.renders "fun" fun s _ => ih s
    | returnFrom _ value =>
      cases value with
      | none => exact renders_node rfl
      | some e => exact (he e).bind (renders_node rfl)
    | classOf name superclass methods =>
      refine .mapM (fun m _ => FunctionOf.renders "method" fun s _ => ih s) (renders_pure ?_)
      rw [Outline.node_superclass, outline, Outline.text_form, List.map_cons, List.map_append,
        Function.outlines_eq]
      rfl
    | unknown => exact renders_throw _

/-- The rendering of a program has the outlines of its statements as lines. -/
theorem eq_lines_of_renderProgram {depth : Nat} {program : List (Stmt ι)} {t : String}
    (h : renderProgram depth program = .ok t) :
    t = "\n".intercalate ((program.map Stmt.outline).map Outline.text) := by
  obtain ⟨vs, hvs, h⟩ := Except.bind_eq_ok.mp h
  cases h
  rw [Except.eq_map_of_mapM (fun s _ => s.renders depth) hvs, List.map_map]
  rfl

end LoxLang
