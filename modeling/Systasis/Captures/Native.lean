import Systasis.Analysis.Queries
import Systasis.Captures.Reconstruct
import Systasis.Wiring

/-!
# Native — constructors whose captures are left to the compiler

Model of `prepare` and `native_plan` in `captures.rs`, of the expressions `wiring.rs` and
`child_queries.rs` put in place of the queries of a constructor, and of `NativeContext` in
`generate.rs`.  A reconstructed constructor is a method of its context and reaches the slots through
`self`; a native one stays a closure, takes the context as a parameter and reaches them through that.
The context of a native constructor borrows the children without their descriptors, which are built
again where they are used.

Whichever plan is made, calling the constructor means what the closure that was written means, with
its variables those of the enclosing function and its queries answered from the context.
-/

namespace Systasis
namespace Captures

open Syntax Wiring

/-! ## Generated expressions -/

/-- A path of plain identifiers. -/
def plainPath (names : List String) : ValuePath :=
  ⟨false, false, names.map fun name => ⟨false, name⟩⟩

def pathNode (names : List String) (arguments : List Node) : Node :=
  .node ⟨.path (plainPath names), [], false⟩ arguments

def selfNode : Node :=
  pathNode ["self"] []

/-- `base.member` -/
def fieldNode (base : Node) (member : Member) : Node :=
  .node ⟨.expr (.field member), [], false⟩ [base]

/-- `__systasis_slot_i` -/
def slotMember (index : Nat) : Member :=
  .named ⟨false, "__systasis_slot_" ++ index.repr⟩

/-- `_children` -/
def childrenMember : Member :=
  .named ⟨false, "_children"⟩

/-- `callee(arguments)` -/
def callNode (callee : Node) (arguments : List Node) : Node :=
  .node ⟨.expr .call, [], false⟩ (callee :: arguments)

def typeNode (tokens : String) : Node :=
  .node ⟨.type tokens, [], false⟩ []

def methodIdent : Method → Ident
  | .resolve => ⟨false, "resolve"⟩
  | .tryResolve => ⟨false, "try_resolve"⟩
  | .resolveClone => ⟨false, "resolve_clone"⟩
  | .tryResolveClone => ⟨false, "try_resolve_clone"⟩
  | .resolveUnchecked => ⟨false, "resolve_unchecked"⟩

/-- The node in the place of a statement with or without a semicolon. -/
def withSemi (semi : Bool) : Node → Node
  | .node ⟨form, attrs, _⟩ children => .node ⟨form, attrs, semi⟩ children

section Expressions

variable {n : Nat} (turbofish : List String)

/-- The slots of a constructor body are fields of `self`. -/
def slotExpr : SlotExpr n → Node
  | .unwrapped index => pathNode ["__systasis_slot_" ++ index.val.repr] []
  | .field index => fieldNode selfNode (slotMember index.val)

/-- `self::__systasis_injected::__systasis_construct_i::<..>(slots, self._children)` -/
def helperCall (index : Fin n) (arguments : List (SlotExpr n)) : Node :=
  callNode
    (pathNode ["self", "__systasis_injected", "__systasis_construct_" ++ index.val.repr]
      (turbofish.map typeNode))
    (arguments.map slotExpr ++ [fieldNode selfNode childrenMember])

def replacementNode : Replacement n → Node
  | .call index arguments => helperCall turbofish index arguments
  | .okCall index arguments =>
      callNode (pathNode ["core", "result", "Result", "Ok"] [])
        [helperCall turbofish index arguments]
  | .access owner method =>
      .node ⟨.expr (.methodCall (methodIdent method)), [], false⟩ [slotExpr owner]

/-- `::systasis::scoped::Resolve::<..>::resolve(&self._children.position)` -/
def dispatchNode (position : Nat) (arguments : List Node) : Node :=
  callNode (pathNode ["systasis", "scoped", "Resolve", "resolve"] arguments)
    [.node ⟨.expr (.reference false), [], false⟩
      [fieldNode (fieldNode selfNode childrenMember) (.unnamed position)]]

/-- The expression in place of a query in a constructor, with what `replacements` holds for the
registrations of the container. -/
def runtimeExpr (replacement : Nat → String → Option (Replacement n)) : Generated → Node
  | .resolver target method =>
      match replacement target method with
      | some replacement => replacementNode turbofish replacement
      | none => .node ⟨.expr (.generated (.resolver target method)), [], false⟩ []
  | .dispatch position path interface operation _ =>
      dispatchNode position (path.map typeNode ++ [typeNode interface, typeNode operation])

end Expressions

/-- The query a node stands for. -/
def generatedOf (label : Label) : Option Generated :=
  match label.form with
  | .expr (.generated call) => some call
  | _ => none

/-- A body with an expression in place of each query. -/
def wire (expand : Generated → Node) : Node → Node :=
  Rose.replace generatedOf fun call node => withSemi node.label.semi (expand call)

def wireAll (expand : Generated → Node) : List Node → List Node :=
  Rose.replaceAll generatedOf fun call node => withSemi node.label.semi (expand call)

/-! ## `NativeContext` -/

/-- The parameter of a native closure; its span keeps it apart from every written name. -/
def contextName : String := "__systasis_context"

/-- `path.is_ident("self")` -/
def isSelf (node : Node) : Bool :=
  match node.label.form with
  | .path path =>
      !path.leadingColon && path.segments == [⟨false, "self"⟩] && node.children.isEmpty
  | _ => false

/-- `self._children` -/
def isChildren (node : Node) : Bool :=
  match node.label.form with
  | .expr (.field (.named name)) => name.is "_children" && node.children.any isSelf
  | _ => false

/-- The position in `self._children.position`. -/
def directChild (node : Node) : Option Nat :=
  match node.label.form with
  | .expr (.field (.unnamed position)) =>
      if node.children.any isChildren then some position else none
  | _ => none

/-- `__systasis_context._children.position.descriptor()` -/
def contextDescriptor (position : Nat) : Node :=
  .node ⟨.expr (.methodCall ⟨false, "descriptor"⟩), [], false⟩
    [fieldNode (fieldNode (pathNode [contextName] []) childrenMember) (.unnamed position)]

/-- `&(__systasis_context._children.0.descriptor(), ..)` -/
def contextChildren (count : Nat) : Node :=
  .node ⟨.expr (.reference false), [], false⟩
    [.node ⟨.expr .tuple, [], false⟩ ((List.range count).map contextDescriptor)]

mutual

/-- `NativeContext::visit_expr_mut` and the other overridden methods, for `count` children. -/
def nativeContext (count : Nat) : Node → Node
  | .node label children =>
      match directChild (.node label children) with
      | some position => withSemi label.semi (contextDescriptor position)
      | none =>
          if isChildren (.node label children) then
            withSemi label.semi (contextChildren count)
          else
            match label.form with
            -- `visit_item_mut` has an empty body.
            | .itemStmt _ => .node label children
            | .path path =>
                if isSelf (.node label children) then
                  .node { label with form := .path (plainPath [contextName]) } []
                else .node { label with form := .path path } (nativeContextAll count children)
            | .shorthand ident =>
                .node { label with
                  form := .shorthand (if ident.is "self" then ⟨false, contextName⟩ else ident) }
                  (nativeContextAll count children)
            | _ => .node label (nativeContextAll count children)

def nativeContextAll (count : Nat) : List Node → List Node
  | [] => []
  | node :: rest => nativeContext count node :: nativeContextAll count rest

end

/-! ## `prepare` -/

/-- `NativeBody`: an invocation anywhere.  Patterns and items say themselves whether they hold one. -/
structure Invocations where
  pattern : Pat → Bool
  item : Item → Bool

def invokes (holds : Invocations) : Form → Bool
  | .invocation _ | .macroStmt _ | .typeInvocation _ => true
  | .closure inputs => inputs.any holds.pattern
  | .forBody pat | .letCond pat | .arm pat | .localStmt pat => holds.pattern pat
  | .itemStmt item => holds.item item
  | _ => false

mutual

def nativeBody (holds : Invocations) : Node → Bool
  | .node label children => invokes holds label.form || nativeBodyAll holds children

def nativeBodyAll (holds : Invocations) : List Node → Bool
  | [] => false
  | node :: rest => nativeBody holds node || nativeBodyAll holds rest

end

def nativePlan (closure : Node) : Plan where
  captures := []
  closure := closure
  requiresRecord := false
  native := true

def prepare (holds : Invocations) (closure : Node) (bindings : Bindings) : Plan :=
  if nativeBody holds closure then nativePlan closure
  else
    match reconstruct closure bindings with
    | .ok plan => plan
    | .error _ => nativePlan closure

/-- The children of a closure are the types written in it, and its body. -/
def nativeBodyLast (count : Nat) : List Node → List Node
  | [] => []
  | [body] => [nativeContext count body]
  | ty :: rest => ty :: nativeBodyLast count rest

/-- The native closure: one more parameter, and a body that reads it. -/
def nativeClosure (count : Nat) : Node → Node
  | .node ⟨.closure inputs, attrs, semi⟩ children =>
      .node ⟨.closure (inputs ++ [.ident ⟨false, contextName⟩ none]), attrs, semi⟩
        (nativeBodyLast count children)
  | node => node

/-! ## Contexts -/

section Contexts

variable {B K : Type}

/-- `__systasis_Scope`: made by `scope`, it holds the children its backing container has under the
restrictions of its type. -/
structure Descriptor (restricted : B → K) where
  backing : B
  children : K
  made : children = restricted backing

/-- `AsScope::scope` -/
def scope (restricted : B → K) (backing : B) : Descriptor restricted :=
  ⟨backing, restricted backing, rfl⟩

/-- `BorrowedContext` -/
structure BorrowedContext (restricted : B → K) where
  backing : B

/-- `BorrowContext::borrow_context` -/
def Descriptor.borrowContext {restricted : B → K} (d : Descriptor restricted) :
    BorrowedContext restricted :=
  ⟨d.backing⟩

/-- `BorrowedContext::descriptor` -/
def BorrowedContext.descriptor {restricted : B → K} (context : BorrowedContext restricted) :
    Descriptor restricted :=
  scope restricted context.backing

/-- Borrowing a child loses nothing of its descriptor. -/
theorem descriptor_borrowContext {restricted : B → K} (d : Descriptor restricted) :
    d.borrowContext.descriptor = d := by
  rcases d with ⟨backing, children, rfl⟩
  rfl

/-- How a meaning has the two contexts of a constructor: with the same slots, and with the stored
descriptors of the children or with what is borrowed of them. -/
structure ContextMeaning {D : Type} (meaning : Meaning D) (restricted : B → K)
    (stored : List (Descriptor restricted)) (fields : List Nat) where
  ofDescriptor : Descriptor restricted → D
  ofBorrowed : BorrowedContext restricted → D
  receiver : D
  context : D
  /-- Nothing binds `self` anew. -/
  self_eq : meaning.global (plainPath ["self"]) [] = receiver
  slot_eq : ∀ i ∈ fields, meaning.construct (.expr (.field (slotMember i))) [receiver] =
    meaning.construct (.expr (.field (slotMember i))) [context]
  /-- `_children: &Children` -/
  receiver_children : meaning.construct (.expr (.field childrenMember)) [receiver] =
    meaning.construct (.expr (.reference false)) [meaning.tuple (stored.map ofDescriptor)]
  /-- A field of a reference is the field of what it refers to. -/
  through : ∀ (k : Nat) (value : D), (stored.map ofDescriptor)[k]? = some value →
    meaning.construct (.expr (.field (.unnamed k)))
      [meaning.construct (.expr (.reference false)) [meaning.tuple (stored.map ofDescriptor)]] =
        value
  context_children : meaning.construct (.expr (.field childrenMember)) [context] =
    meaning.tuple (stored.map fun d => ofBorrowed d.borrowContext)
  descriptor_call : ∀ borrowed : BorrowedContext restricted,
    meaning.construct (.expr (.methodCall ⟨false, "descriptor"⟩)) [ofBorrowed borrowed] =
      ofDescriptor borrowed.descriptor
  tuple_expr : ∀ values : List D, meaning.construct (.expr .tuple) values = meaning.tuple values

end Contexts

/-! ## Names nobody writes -/

/-- `self` means nothing in the enclosing function, and the context is written by no one. -/
def reserved : List String := ["self", contextName]

/-- The names a node reads or binds. -/
def mentioned (members : UseTree → List String) (children : List Node) : Form → List String
  | .path path =>
      match path.segments with
      | [ident] => [ident.name]
      | _ => []
  | .shorthand ident => [ident.name]
  | .closure inputs => (patternsNames inputs).1
  | .forBody pat | .arm pat | .letCond pat | .localStmt pat => (patternNames pat).1
  | .block => declaredNames members (blockItems children)
  | _ => []

/-- Syntax that is not run where it stands: items, types, and the tokens of invocations. -/
def quotes : Form → Bool
  | .path _ | .itemStmt _ | .type _ | .typePath _ | .typeInvocation _ | .invocation _
  | .macroStmt _ | .verbatim _ => true
  | _ => false

mutual

/-- Code as it is written: no reserved name is read or bound, and queries are where they are run. -/
def Unreserved (members : UseTree → List String) : Node → Prop
  | .node label children =>
      (∀ name ∈ mentioned members children label.form, name ∉ reserved) ∧
        (quotes label.form = true → Rose.foundAll generatedOf children = []) ∧
          UnreservedAll members children

def UnreservedAll (members : UseTree → List String) : List Node → Prop
  | [] => True
  | node :: rest => Unreserved members node ∧ UnreservedAll members rest

end

/-! ## Rewriting a wired body -/

section Rewrite

variable {members : UseTree → List String} {expand : Generated → Node} {count : Nat}

theorem wire_of_generated {label : Label} {call : Generated} (h : generatedOf label = some call)
    (children : List Node) :
    wire expand (.node label children) = withSemi label.semi (expand call) := by
  simp [wire, Rose.replace, h, Rose.label]

theorem wire_of_none {label : Label} (h : generatedOf label = none) (children : List Node) :
    wire expand (.node label children) = .node label (wireAll expand children) := by
  simp [wire, wireAll, Rose.replace, h]

@[simp]
theorem wireAll_nil : wireAll expand [] = [] := rfl

@[simp]
theorem wireAll_cons (node : Node) (rest : List Node) :
    wireAll expand (node :: rest) = wire expand node :: wireAll expand rest := rfl

theorem withSemi_withSemi (semi semi' : Bool) (node : Node) :
    withSemi semi (withSemi semi' node) = withSemi semi node := by
  rcases node with ⟨⟨form, attrs, semi''⟩, children⟩
  rfl

theorem nativeContext_withSemi (semi : Bool) (node : Node) :
    nativeContext count (withSemi semi node) = withSemi semi (nativeContext count node) := by
  rcases node with ⟨⟨form, attrs, semi'⟩, children⟩
  have hself : isSelf (.node ⟨form, attrs, semi⟩ children) =
      isSelf (.node ⟨form, attrs, semi'⟩ children) := rfl
  have hchildren : isChildren (.node ⟨form, attrs, semi⟩ children) =
      isChildren (.node ⟨form, attrs, semi'⟩ children) := rfl
  have hdirect : directChild (.node ⟨form, attrs, semi⟩ children) =
      directChild (.node ⟨form, attrs, semi'⟩ children) := rfl
  simp only [withSemi, nativeContext, hself, hchildren, hdirect]
  cases directChild (.node ⟨form, attrs, semi'⟩ children) with
  | some position => exact (withSemi_withSemi semi semi' (contextDescriptor position)).symm
  | none =>
      cases isChildren (.node ⟨form, attrs, semi'⟩ children) with
      | true => exact (withSemi_withSemi semi semi' (contextChildren count)).symm
      | false =>
          simp only [Bool.false_eq_true, if_false]
          cases form with
          | path path =>
              simp only
              split
              · rfl
              · rfl
          | _ => rfl

theorem wireAll_of_found {nodes : List Node} (h : Rose.foundAll generatedOf nodes = []) :
    wireAll expand nodes = nodes := by
  calc
    wireAll expand nodes = Rose.replaceAll generatedOf (fun _ node => node) nodes :=
      Rose.replaceAll_congr fun call hcall => absurd (h ▸ hcall) List.not_mem_nil
    _ = nodes := Rose.replaceAll_self

theorem isSelf_of_unreserved {label : Label} {children rest : List Node}
    (h : ∀ name ∈ mentioned members children label.form, name ∉ reserved) :
    isSelf (.node label rest) = false := by
  rcases label with ⟨form, attrs, semi⟩
  cases form with
  | path path =>
      by_contra hself
      simp only [isSelf, Rose.label, Bool.not_eq_false, Bool.and_eq_true, beq_iff_eq] at hself
      have hname : "self" ∈ mentioned members children (.path path) := by
        simp [mentioned, hself.1.2]
      exact h _ hname (by simp [reserved])
  | _ => rfl

/-- The node is no part of the context. -/
def Outside (node : Node) : Prop :=
  isSelf node = false ∧ isChildren node = false ∧ directChild node = none

theorem Outside.withSemi {node : Node} (h : Outside node) (semi : Bool) :
    Outside (withSemi semi node) := by
  rcases node with ⟨⟨form, attrs, semi'⟩, children⟩
  exact h

/-- A node whose children are outside the context is outside of it, unless it is `self`. -/
theorem Outside.of_children {label : Label} {children : List Node}
    (hself : isSelf (.node label children) = false)
    (hchildren : ∀ child ∈ children, Outside child) : Outside (.node label children) := by
  have hany : children.any isSelf = false := by
    rw [List.any_eq_false]
    intro child hchild
    simp [(hchildren child hchild).1]
  have hanyChildren : children.any isChildren = false := by
    rw [List.any_eq_false]
    intro child hchild
    simp [(hchildren child hchild).2.1]
  refine ⟨hself, ?_, ?_⟩
  · rw [isChildren, Rose.children, hany]
    split
    · exact Bool.and_false _
    · rfl
  · rw [directChild, Rose.children, hanyChildren]
    split
    · rfl
    · rfl

mutual

/-- Written code does not reach the context: only what stands for queries does. -/
theorem Unreserved.outside (hexpand : ∀ call, Outside (expand call)) {node : Node}
    (h : Unreserved members node) : Outside (wire expand node) := by
  cases node with
  | node label children =>
      cases hcall : generatedOf label with
      | some call =>
          rw [wire_of_generated hcall]
          exact (hexpand call).withSemi label.semi
      | none =>
          rw [wire_of_none hcall]
          exact .of_children (isSelf_of_unreserved h.1) (UnreservedAll.outside hexpand h.2.2)

theorem UnreservedAll.outside (hexpand : ∀ call, Outside (expand call)) {nodes : List Node}
    (h : UnreservedAll members nodes) : ∀ node ∈ wireAll expand nodes, Outside node := by
  cases nodes with
  | nil => simp
  | cons node rest =>
      simp only [wireAll_cons, List.forall_mem_cons]
      exact ⟨Unreserved.outside hexpand h.1, UnreservedAll.outside hexpand h.2⟩

end

theorem nativeContext_of_outside {label : Label} {children rest : List Node}
    (h : Outside (.node label rest))
    (hmentioned : ∀ name ∈ mentioned members children label.form, name ∉ reserved) :
    nativeContext count (.node label rest) =
      match label.form with
      | .itemStmt _ => .node label rest
      | _ => .node label (nativeContextAll count rest) := by
  rcases label with ⟨form, attrs, semi⟩
  simp only [nativeContext, h.1, h.2.1, h.2.2, Bool.false_eq_true, if_false]
  cases form with
  | shorthand ident =>
      have hname : ident.is "self" = false := by
        by_contra hself
        simp only [Ident.is, Bool.not_eq_false, Bool.and_eq_true, beq_iff_eq] at hself
        exact hmentioned ident.name (by simp [mentioned]) (by simp [reserved, hself.2])
      simp [hname]
  | _ => rfl

mutual

/-- The rewriting of a wired body is a wiring of the body: it reaches nothing else. -/
theorem nativeContext_wire (hexpand : ∀ call, Outside (expand call)) {node : Node}
    (h : Unreserved members node) :
    nativeContext count (wire expand node) =
      wire (fun call => nativeContext count (expand call)) node := by
  cases node with
  | node label children =>
      cases hcall : generatedOf label with
      | some call => rw [wire_of_generated hcall, wire_of_generated hcall, nativeContext_withSemi]
      | none =>
          have houtside := h.outside hexpand
          rw [wire_of_none hcall] at houtside ⊢
          rw [wire_of_none hcall, nativeContext_of_outside houtside h.1]
          have hall : nativeContextAll count (wireAll expand children) = _ :=
            nativeContextAll_wire hexpand h.2.2
          rcases label with ⟨form, attrs, semi⟩
          cases form with
          | itemStmt item =>
              have hnone := h.2.1 rfl
              rw [wireAll_of_found hnone, wireAll_of_found hnone]
          | _ => exact congrArg _ hall

theorem nativeContextAll_wire (hexpand : ∀ call, Outside (expand call)) {nodes : List Node}
    (h : UnreservedAll members nodes) :
    nativeContextAll count (wireAll expand nodes) =
      wireAll (fun call => nativeContext count (expand call)) nodes := by
  cases nodes with
  | nil => rfl
  | cons node rest =>
      simp only [wireAll_cons, nativeContextAll, nativeContext_wire hexpand h.1,
        nativeContextAll_wire hexpand h.2]

end

end Rewrite

/-! ## Evaluating a wired body -/

section Evaluate

variable {D : Type} {meaning : Meaning D} {members : UseTree → List String} {root : D}

/-- The expression has a value, and leaves what is in scope as it is. -/
def Evaluates (meaning : Meaning D) (members : UseTree → List String) (root : D) (node : Node)
    (values : Values D) (d : D) : Prop :=
  ∀ next, eval meaning members root node values next = next values d

/-- The values of the variables in a method of the context and in a native closure. -/
structure Alike (context : D) (values values' : Values D) : Prop where
  same : ∀ name, name ∉ reserved → values name = values' name
  receiver : values "self" = none
  parameter : values' contextName = some context

theorem Alike.bind {context : D} {values values' : Values D} (h : Alike context values values')
    {names : List String} (hnames : ∀ name ∈ names, name ∉ reserved) (bound : String → D) :
    Alike context (Values.bind values names bound) (Values.bind values' names bound) := by
  have hself : "self" ∉ names := fun hmem => hnames _ hmem (by simp [reserved])
  have hcontext : contextName ∉ names := fun hmem => hnames _ hmem (by simp [reserved])
  refine ⟨?_, ?_, ?_⟩
  · intro name hname
    by_cases hmem : name ∈ names
    · simp [Values.bind, hmem]
    · simpa [Values.bind, hmem] using h.same name hname
  · simpa [Values.bind, hself] using h.receiver
  · simpa [Values.bind, hcontext] using h.parameter

theorem blockItems_wireAll (expand : Generated → Node)
    (hexpand : ∀ call, blockItems [expand call] = []) (nodes : List Node) :
    blockItems (wireAll expand nodes) = blockItems nodes ∧
      semicolons (wireAll expand nodes) = semicolons nodes := by
  induction nodes with
  | nil => exact ⟨rfl, rfl⟩
  | cons node rest ih =>
      have hcons : ∀ (first : Node) (others : List Node),
          blockItems (first :: others) = blockItems [first] ++ blockItems others := by
        intro first others
        exact List.filterMap_append (l := [first])
      have hnode : blockItems [wire expand node] = blockItems [node] ∧
          semicolons [wire expand node] = semicolons [node] := by
        rcases node with ⟨⟨form, attrs, semi⟩, children⟩
        cases hcall : generatedOf ⟨form, attrs, semi⟩ with
        | some call =>
            rw [wire_of_generated hcall]
            have hitems := hexpand call
            rcases hnode : expand call with ⟨⟨form', attrs', semi'⟩, children'⟩
            rw [hnode] at hitems
            refine ⟨?_, rfl⟩
            -- A query is no item, and neither is what stands for it.
            have hnone : blockItems [.node ⟨form, attrs, semi⟩ children] = [] := by
              cases form <;> first | rfl | simp [generatedOf] at hcall
            rw [hnone]
            cases form' <;> first | rfl | simp [blockItems] at hitems
        | none =>
            rw [wire_of_none hcall]
            cases form <;> exact ⟨rfl, rfl⟩
      refine ⟨?_, ?_⟩
      · rw [wireAll_cons, hcons, hcons node, hnode.1, ih.1]
      · have hsemi := hnode.2
        have hothers := ih.2
        simp only [semicolons, List.map_cons, List.map_nil, List.cons.injEq, and_true] at hsemi
        simp only [wireAll_cons, semicolons, List.map_cons] at hothers ⊢
        rw [hsemi, hothers]

/-- In either scope the two expressions of a query have the same value. -/
def SameValue (meaning : Meaning D) (members : UseTree → List String) (root context : D)
    (f g : Generated → Node) (calls : List Generated) : Prop :=
  ∀ call ∈ calls, ∀ semi values values', Alike context values values' →
    ∃ d, Evaluates meaning members root (withSemi semi (f call)) values d ∧
      Evaluates meaning members root (withSemi semi (g call)) values' d

section Wire

variable {context : D} {f g : Generated → Node}

mutual

/-- Two wirings of a body evaluate alike when the expressions of each query do. -/
theorem eval_wire (hf : ∀ call, blockItems [f call] = []) (hg : ∀ call, blockItems [g call] = [])
    (node : Node) (hnode : Unreserved members node)
    (hcalls : SameValue meaning members root context f g (Rose.found generatedOf node))
    {values values' : Values D} (h : Alike context values values') {next next' : Values D → D → D}
    (hnext : ∀ values values' result, Alike context values values' →
      next values result = next' values' result) :
    eval meaning members root (wire f node) values next =
      eval meaning members root (wire g node) values' next' := by
  rcases node with ⟨⟨form, attrs, semi⟩, children⟩
  cases hcall : generatedOf ⟨form, attrs, semi⟩ with
  | some call =>
      rw [wire_of_generated hcall, wire_of_generated hcall]
      have hmem : call ∈ Rose.found generatedOf (.node ⟨form, attrs, semi⟩ children) := by
        simp [Rose.found, hcall]
      rcases hcalls call hmem semi values values' h with ⟨d, hleft, hright⟩
      calc
        _ = next values d := hleft next
        _ = next' values' d := hnext values values' d h
        _ = _ := (hright next').symm
  | none =>
      rw [wire_of_none hcall, wire_of_none hcall]
      have hbelow : SameValue meaning members root context f g (Rose.foundAll generatedOf children) := by
        simpa [Rose.found, hcall] using hcalls
      have hquoted : quotes form = true → ∀ expand, wireAll expand children = children :=
        fun hquotes expand => wireAll_of_found (hnode.2.1 hquotes)
      have hnames := hnode.1
      have hitems := blockItems_wireAll f hf children
      have hitems' := blockItems_wireAll g hg children
      cases form with
      | path path =>
          rw [hquoted rfl f, hquoted rfl g]
          simp only [eval]
          cases hsingle : path.single with
          | none => exact hnext values values' _ h
          | some ident =>
              have hname : ident.name ∉ reserved := by
                refine hnames ident.name ?_
                rcases path with ⟨_ | _, _ | _, _ | ⟨first, _ | ⟨second, rest⟩⟩⟩ <;>
                  simp [ValuePath.single] at hsingle
                simp [mentioned, hsingle]
              simp only [variableValue, h.same _ hname]
              exact hnext values values' _ h
      | shorthand ident =>
          have hname : ident.name ∉ reserved := hnames ident.name (by simp [mentioned])
          simp only [eval, variableValue, h.same _ hname]
          exact hnext values values' _ h
      | itemStmt item => rw [hquoted rfl f, hquoted rfl g]; exact hnext values values' _ h
      | type tokens => rw [hquoted rfl f, hquoted rfl g]; exact hnext values values' _ h
      | typePath path => rw [hquoted rfl f, hquoted rfl g]; exact hnext values values' _ h
      | typeInvocation mac => rw [hquoted rfl f, hquoted rfl g]; exact hnext values values' _ h
      | invocation mac => rw [hquoted rfl f, hquoted rfl g]; exact hnext values values' _ h
      | macroStmt mac => rw [hquoted rfl f, hquoted rfl g]; exact hnext values values' _ h
      | verbatim tokens => rw [hquoted rfl f, hquoted rfl g]; exact hnext values values' _ h
      | captureRoot => exact hnext values values' _ h
      | closure inputs =>
          simp only [eval]
          refine (hnext values values' _ h).trans (congrArg (next' values') (congrArg _ ?_))
          funext bound
          exact evalAll_wire hf hg children hnode.2.2 hbelow (h.bind hnames bound)
            fun _ _ _ _ => rfl
      | forBody pat =>
          simp only [eval]
          refine (hnext values values' _ h).trans (congrArg (next' values') (congrArg _ ?_))
          funext bound
          exact evalAll_wire hf hg children hnode.2.2 hbelow (h.bind hnames bound)
            fun _ _ _ _ => rfl
      | arm pat =>
          simp only [eval]
          refine (hnext values values' _ h).trans (congrArg (next' values') (congrArg _ ?_))
          funext bound
          exact evalAll_wire hf hg children hnode.2.2 hbelow (h.bind hnames bound)
            fun _ _ _ _ => rfl
      | branch =>
          simp only [eval]
          refine (hnext values values' _ h).trans (congrArg (next' values') ?_)
          exact evalAll_wire hf hg children hnode.2.2 hbelow h fun _ _ _ _ => rfl
      | letCond pat =>
          simp only [eval]
          refine evalAll_wire hf hg children hnode.2.2 hbelow h ?_
          intro values values' results hafter
          congr 1
          funext bound
          exact hnext _ _ _ (hafter.bind hnames bound)
      | localStmt pat =>
          simp only [eval]
          refine evalAll_wire hf hg children hnode.2.2 hbelow h ?_
          intro values values' results hafter
          congr 1
          funext bound
          exact hnext _ _ _ (hafter.bind hnames bound)
      | block =>
          simp only [eval, hitems.1, hitems'.1, hitems.2, hitems'.2]
          refine (hnext values values' _ h).trans (congrArg (next' values') ?_)
          exact evalAll_wire hf hg children hnode.2.2 hbelow (h.bind hnames _) fun _ _ _ _ => rfl
      | forLoop label =>
          exact evalAll_wire hf hg children hnode.2.2 hbelow h
            fun _ _ _ hafter => hnext _ _ _ hafter
      | cond =>
          exact evalAll_wire hf hg children hnode.2.2 hbelow h
            fun _ _ _ hafter => hnext _ _ _ hafter
      | whileLoop label =>
          exact evalAll_wire hf hg children hnode.2.2 hbelow h
            fun _ _ _ hafter => hnext _ _ _ hafter
      | expr kind =>
          exact evalAll_wire hf hg children hnode.2.2 hbelow h
            fun _ _ _ hafter => hnext _ _ _ hafter
      | fieldValue member =>
          exact evalAll_wire hf hg children hnode.2.2 hbelow h
            fun _ _ _ hafter => hnext _ _ _ hafter

theorem evalAll_wire (hf : ∀ call, blockItems [f call] = [])
    (hg : ∀ call, blockItems [g call] = []) (nodes : List Node) (hnodes : UnreservedAll members nodes)
    (hcalls : SameValue meaning members root context f g (Rose.foundAll generatedOf nodes))
    {values values' : Values D} (h : Alike context values values')
    {next next' : Values D → List D → D}
    (hnext : ∀ values values' results, Alike context values values' →
      next values results = next' values' results) :
    evalAll meaning members root (wireAll f nodes) values next =
      evalAll meaning members root (wireAll g nodes) values' next' := by
  cases nodes with
  | nil => exact hnext values values' [] h
  | cons node rest =>
      simp only [wireAll_cons, evalAll]
      refine eval_wire hf hg node hnodes.1 ?_ h ?_
      · intro call hcall
        exact hcalls call (List.mem_append_left _ hcall)
      · intro values values' result hafter
        refine evalAll_wire hf hg rest hnodes.2 ?_ hafter ?_
        · intro call hcall
          exact hcalls call (List.mem_append_right _ hcall)
        · intro values values' results hrest
          exact hnext values values' (result :: results) hrest

end

end Wire

/-! ## The expressions of a query -/

theorem evaluates_global {names : List String} (hnames : names.length ≠ 1) (arguments : List Node)
    (values : Values D) :
    Evaluates meaning members root (pathNode names arguments) values
      (meaning.global (plainPath names) arguments) := by
  intro next
  have hsingle : (plainPath names).single = none := by
    rcases names with _ | ⟨first, _ | ⟨second, rest⟩⟩
    · rfl
    · exact absurd rfl hnames
    · rfl
  simp only [pathNode, eval, hsingle]

theorem evaluates_name {name : String} {values : Values D} :
    Evaluates meaning members root (pathNode [name] []) values
      ((values name).getD (meaning.global (plainPath [name]) [])) := by
  intro next
  simp only [pathNode, eval]
  cases hvalue : values name <;> simp [plainPath, ValuePath.single, variableValue, hvalue]

theorem evaluatesAll {nodes : List Node} {values : Values D} {results : List D}
    (h : List.Forall₂ (fun node d => Evaluates meaning members root node values d) nodes results)
    (next : Values D → List D → D) :
    evalAll meaning members root nodes values next = next values results := by
  induction h generalizing next with
  | nil => rfl
  | cons hhead _ ih => rw [evalAll, hhead, ih]

theorem evaluates_construct {kind : ExprKind} {semi : Bool} {children : List Node}
    {values : Values D} {results : List D}
    (h : List.Forall₂ (fun node d => Evaluates meaning members root node values d) children results) :
    Evaluates meaning members root (.node ⟨.expr kind, [], semi⟩ children) values
      (meaning.construct (.expr kind) results) := by
  intro next
  exact evaluatesAll h fun values results => next values (meaning.construct (.expr kind) results)

theorem evaluates_field {base : Node} {member : Member} {values : Values D} {d : D}
    (h : Evaluates meaning members root base values d) :
    Evaluates meaning members root (fieldNode base member) values
      (meaning.construct (.expr (.field member)) [d]) :=
  evaluates_construct (.cons h .nil)

end Evaluate

section Queries

variable {count : Nat}

theorem slotMember_ne (index : Nat) :
    Ident.is ⟨false, "__systasis_slot_" ++ index.repr⟩ "_children" = false := by
  have hname : "__systasis_slot_" ++ index.repr ≠ "_children" := by
    intro heq
    have hlong : "__systasis_slot_".length = 16 := by decide +kernel
    have hshort : "_children".length = 9 := by decide +kernel
    have hlength := congrArg String.length heq
    rw [String.length_append, hlong, hshort] at hlength
    omega
  simp [Ident.is, hname]

theorem nativeContext_slot (index : Nat) :
    nativeContext count (fieldNode selfNode (slotMember index)) =
      fieldNode (pathNode [contextName] []) (slotMember index) := by
  have hne := slotMember_ne index
  simp [nativeContext, nativeContextAll, fieldNode, selfNode, pathNode, slotMember, directChild,
    isChildren, isSelf, Rose.label, Rose.children, hne, plainPath]

theorem nativeContext_children :
    nativeContext count (fieldNode selfNode childrenMember) = contextChildren count := by
  simp [nativeContext, fieldNode, selfNode, pathNode, childrenMember, directChild,
    isChildren, isSelf, Rose.label, Rose.children, plainPath, Ident.is, contextChildren, withSemi]

theorem nativeContext_direct (position : Nat) :
    nativeContext count (fieldNode (fieldNode selfNode childrenMember) (.unnamed position)) =
      contextDescriptor position := by
  simp [nativeContext, fieldNode, selfNode, pathNode, childrenMember, directChild,
    isChildren, isSelf, Rose.label, Rose.children, plainPath, Ident.is, contextDescriptor, withSemi]

theorem nativeContextAll_types (types : List String) :
    nativeContextAll count (types.map typeNode) = types.map typeNode := by
  induction types with
  | nil => rfl
  | cons first rest ih =>
      rw [List.map_cons, nativeContextAll, ih]
      rfl

theorem nativeContext_path {names : List String} (h : names.length ≠ 1) (types : List String) :
    nativeContext count (pathNode names (types.map typeNode)) =
      pathNode names (types.map typeNode) := by
  have hself : isSelf (pathNode names (types.map typeNode)) = false := by
    rcases names with _ | ⟨first, _ | ⟨second, rest⟩⟩
    · rfl
    · exact absurd rfl h
    · simp [isSelf, pathNode, plainPath, Rose.label]
  rw [pathNode] at hself ⊢
  simp only [nativeContext, hself, nativeContextAll_types, directChild, isChildren, Rose.label,
    Bool.false_eq_true, if_false]

end Queries

section Values

variable {D B K : Type} {meaning : Meaning D} {members : UseTree → List String} {root : D}
  {restricted : B → K} {stored : List (Descriptor restricted)} {fields : List Nat}
  {values values' : Values D}

/-- An expression and its rewriting have the same value, each in its own scope. -/
def Keeps (meaning : Meaning D) (members : UseTree → List String) (root : D) (count : Nat)
    (values values' : Values D) (node : Node) : Prop :=
  ∃ d, Evaluates meaning members root node values d ∧
    Evaluates meaning members root (nativeContext count node) values' d

variable (c : ContextMeaning meaning restricted stored fields) (h : Alike c.context values values')
include h

theorem evaluates_self : Evaluates meaning members root selfNode values c.receiver := by
  have hname : Evaluates meaning members root (pathNode ["self"] []) values _ := evaluates_name
  rwa [h.receiver, Option.getD_none, c.self_eq] at hname

theorem evaluates_context :
    Evaluates meaning members root (pathNode [contextName] []) values' c.context := by
  have hname : Evaluates meaning members root (pathNode [contextName] []) values' _ :=
    evaluates_name
  rwa [h.parameter, Option.getD_some] at hname

theorem keeps_slot {index : Nat} (hindex : index ∈ fields) :
    Keeps meaning members root stored.length values values'
      (fieldNode selfNode (slotMember index)) := by
  refine ⟨_, evaluates_field (evaluates_self c h), ?_⟩
  rw [nativeContext_slot, c.slot_eq index hindex]
  exact evaluates_field (evaluates_context c h)

/-- The descriptor built again from what the context borrows is the one that is stored. -/
theorem evaluates_descriptor {position : Nat} {d : Descriptor restricted}
    (hposition : stored[position]? = some d) :
    Evaluates meaning members root (contextDescriptor position) values' (c.ofDescriptor d) := by
  have hfield : meaning.construct (.expr (.field (.unnamed position)))
      [meaning.construct (.expr (.field childrenMember)) [c.context]] =
        c.ofBorrowed d.borrowContext := by
    rw [c.context_children]
    exact meaning.tuple_field _ _ _ (by simp [hposition])
  have hvalue : Evaluates meaning members root (contextDescriptor position) values' _ :=
    evaluates_construct
      (.cons (evaluates_field (evaluates_field (evaluates_context c h))) .nil)
  rwa [hfield, c.descriptor_call, descriptor_borrowContext] at hvalue

theorem keeps_children :
    Keeps meaning members root stored.length values values' (fieldNode selfNode childrenMember) := by
  refine ⟨_, evaluates_field (evaluates_self c h), ?_⟩
  rw [nativeContext_children, c.receiver_children, ← c.tuple_expr]
  refine evaluates_construct (.cons (evaluates_construct ?_) .nil)
  rw [List.forall₂_iff_get]
  refine ⟨by simp, ?_⟩
  intro position hrange hstored
  simp only [List.length_map, List.length_range] at hrange
  simp only [List.get_eq_getElem, List.getElem_map, List.getElem_range]
  exact evaluates_descriptor c h (List.getElem?_eq_getElem hrange)

theorem keeps_direct {position : Nat} (hposition : position < stored.length) :
    Keeps meaning members root stored.length values values'
      (fieldNode (fieldNode selfNode childrenMember) (.unnamed position)) := by
  have hstored := List.getElem?_eq_getElem hposition
  refine ⟨_, evaluates_field (evaluates_field (evaluates_self c h)), ?_⟩
  rw [nativeContext_direct, c.receiver_children, c.through position _ (by simp [hstored]; rfl)]
  exact evaluates_descriptor c h hstored

omit h

theorem keepsAll {nodes : List Node} {count : Nat}
    (hnodes : ∀ node ∈ nodes, Keeps meaning members root count values values' node) :
    ∃ results,
      List.Forall₂ (fun node d => Evaluates meaning members root node values d) nodes results ∧
        List.Forall₂ (fun node d => Evaluates meaning members root node values' d)
          (nativeContextAll count nodes) results := by
  induction nodes with
  | nil => exact ⟨[], .nil, .nil⟩
  | cons node rest ih =>
      rcases hnodes node List.mem_cons_self with ⟨d, hleft, hright⟩
      rcases ih fun node hnode => hnodes node (List.mem_cons_of_mem _ hnode) with
        ⟨results, hlefts, hrights⟩
      exact ⟨d :: results, .cons hleft hlefts, .cons hright hrights⟩

theorem keeps_global {names : List String} (hnames : names.length ≠ 1) (types : List String)
    (count : Nat) :
    Keeps meaning members root count values values' (pathNode names (types.map typeNode)) := by
  refine ⟨_, evaluates_global hnames _ _, ?_⟩
  rw [nativeContext_path hnames]
  exact evaluates_global hnames _ _

theorem keeps_call {callee : Node} {arguments : List Node} {count : Nat}
    (hcallee : Keeps meaning members root count values values' callee)
    (harguments : ∀ node ∈ arguments, Keeps meaning members root count values values' node) :
    Keeps meaning members root count values values' (callNode callee arguments) := by
  rcases hcallee with ⟨d, hleft, hright⟩
  rcases keepsAll harguments with ⟨results, hlefts, hrights⟩
  exact ⟨_, evaluates_construct (.cons hleft hlefts), evaluates_construct (.cons hright hrights)⟩

end Values

/-! ## Every query -/

section Runtime

variable {n : Nat} {turbofish : List String} {replacement : Nat → String → Option (Replacement n)}

/-- The context of a constructor has what a query in its body reads: the slots its replacement
names, or the child it is dispatched to. -/
def Fits (replacement : Nat → String → Option (Replacement n)) (fields : List Nat) (count : Nat) :
    Generated → Prop
  | .resolver target method => ∀ r, replacement target method = some r →
      ∀ slot ∈ r.slots, ∃ k : Fin n, slot = .field k ∧ k.val ∈ fields
  | .dispatch position _ _ _ _ => position < count

/-- What stands for a query is an expression of its own: neither a part of the context nor an item. -/
theorem runtimeExpr_form (call : Generated) :
    ∃ kind children, runtimeExpr turbofish replacement call = .node ⟨.expr kind, [], false⟩ children ∧
      ∀ member, kind ≠ .field member := by
  cases call with
  | resolver target method =>
      rw [runtimeExpr]
      cases replacement target method with
      | none => exact ⟨_, _, rfl, by simp⟩
      | some r =>
          cases r with
          | call index arguments => exact ⟨_, _, rfl, by simp⟩
          | okCall index arguments => exact ⟨_, _, rfl, by simp⟩
          | access owner method => exact ⟨_, _, rfl, by simp⟩
  | dispatch position path interface operation inConstructor => exact ⟨_, _, rfl, by simp⟩

theorem outside_of_kind {kind : ExprKind} (h : ∀ member, kind ≠ .field member) (attrs : List Attribute)
    (semi : Bool) (children : List Node) : Outside (.node ⟨.expr kind, attrs, semi⟩ children) := by
  cases kind with
  | field member => exact absurd rfl (h member)
  | _ => exact ⟨rfl, rfl, rfl⟩

theorem nativeContext_kind {kind : ExprKind} (h : ∀ member, kind ≠ .field member)
    (attrs : List Attribute) (semi : Bool) (children : List Node) (count : Nat) :
    nativeContext count (.node ⟨.expr kind, attrs, semi⟩ children) =
      .node ⟨.expr kind, attrs, semi⟩ (nativeContextAll count children) := by
  cases kind with
  | field member => exact absurd rfl (h member)
  | _ => rfl

theorem runtimeExpr_outside (call : Generated) :
    Outside (runtimeExpr turbofish replacement call) := by
  rcases @runtimeExpr_form n turbofish replacement call with ⟨kind, children, hform, hkind⟩
  rw [hform]
  exact outside_of_kind hkind [] false children

theorem runtimeExpr_items (call : Generated) (count : Nat) :
    blockItems [runtimeExpr turbofish replacement call] = [] ∧
      blockItems [nativeContext count (runtimeExpr turbofish replacement call)] = [] := by
  rcases @runtimeExpr_form n turbofish replacement call with ⟨kind, children, hform, hkind⟩
  rw [hform, nativeContext_kind hkind]
  exact ⟨rfl, rfl⟩

section Values

variable {D B K : Type} {meaning : Meaning D} {members : UseTree → List String} {root : D}
  {restricted : B → K} {stored : List (Descriptor restricted)} {fields : List Nat}
  {values values' : Values D}
  (c : ContextMeaning meaning restricted stored fields) (h : Alike c.context values values')
include h

theorem keeps_helperCall {index : Fin n} {arguments : List (SlotExpr n)}
    (hslots : ∀ slot ∈ arguments, ∃ k : Fin n, slot = .field k ∧ k.val ∈ fields) :
    Keeps meaning members root stored.length values values'
      (helperCall turbofish index arguments) := by
  refine keeps_call (keeps_global (by simp) turbofish _) ?_
  intro node hnode
  rcases List.mem_append.1 hnode with hslot | hchildren
  · rcases List.mem_map.1 hslot with ⟨slot, hmem, rfl⟩
    rcases hslots slot hmem with ⟨k, rfl, hk⟩
    exact keeps_slot c h hk
  · rw [List.mem_singleton.1 hchildren]
    exact keeps_children c h

theorem keeps_replacement {r : Replacement n}
    (hslots : ∀ slot ∈ r.slots, ∃ k : Fin n, slot = .field k ∧ k.val ∈ fields) :
    Keeps meaning members root stored.length values values' (replacementNode turbofish r) := by
  cases r with
  | call index arguments => exact keeps_helperCall c h hslots
  | okCall index arguments =>
      refine keeps_call (keeps_global (by simp) [] _) ?_
      simp only [List.mem_singleton, forall_eq]
      exact keeps_helperCall c h hslots
  | access owner method =>
      rcases hslots owner (by simp [Replacement.slots]) with ⟨k, rfl, hk⟩
      have hslot : Keeps meaning members root stored.length values values'
          (fieldNode selfNode (slotMember k.val)) := keeps_slot c h hk
      rcases hslot with ⟨d, hleft, hright⟩
      exact ⟨_, evaluates_construct (.cons hleft .nil), evaluates_construct (.cons hright .nil)⟩

/-- The expression of a query reads from the parameter what it read from `self`. -/
theorem keeps_runtimeExpr {call : Generated} (hfits : Fits replacement fields stored.length call) :
    Keeps meaning members root stored.length values values'
      (runtimeExpr turbofish replacement call) := by
  cases call with
  | resolver target method =>
      rw [runtimeExpr]
      cases hreplacement : replacement target method with
      | none => exact ⟨_, evaluates_construct .nil, evaluates_construct .nil⟩
      | some r => exact keeps_replacement c h (hfits r hreplacement)
  | dispatch position path interface operation inConstructor =>
      have harguments : path.map typeNode ++ [typeNode interface, typeNode operation] =
          (path ++ [interface, operation]).map typeNode := by simp
      rw [runtimeExpr, dispatchNode, harguments]
      refine keeps_call (keeps_global (by simp) _ _) ?_
      simp only [List.mem_singleton, forall_eq]
      have hdirect : Keeps meaning members root stored.length values values'
          (fieldNode (fieldNode selfNode childrenMember) (.unnamed position)) :=
        keeps_direct c h hfits
      rcases hdirect with ⟨d, hleft, hright⟩
      exact ⟨_, evaluates_construct (.cons hleft .nil), evaluates_construct (.cons hright .nil)⟩

omit h

theorem sameValue_runtimeExpr {calls : List Generated}
    (hfits : ∀ call ∈ calls, Fits replacement fields stored.length call) :
    SameValue meaning members root c.context (runtimeExpr turbofish replacement)
      (fun call => nativeContext stored.length (runtimeExpr turbofish replacement call)) calls := by
  intro call hcall semi values values' halike
  have hkeeps : Keeps meaning members root stored.length values values'
      (runtimeExpr turbofish replacement call) := keeps_runtimeExpr c halike (hfits call hcall)
  rcases hkeeps with ⟨d, hleft, hright⟩
  rcases @runtimeExpr_form n turbofish replacement call with ⟨kind, children, hform, hkind⟩
  simp only [hform, nativeContext_kind hkind] at hleft hright ⊢
  -- A semicolon is the block's concern, not the expression's.
  exact ⟨d, hleft, hright⟩

end Values

end Runtime

/-! ## Calling a constructor -/

section Constructor

variable {n : Nat}

/-- The value of a closure's body, once its parameters are bound. -/
def run {D : Type} (meaning : Meaning D) (members : UseTree → List String) (root : D)
    (finish : List D → D) (values : Values D) (bound : String → D) : Node → D
  | .node ⟨.closure inputs, _, _⟩ children =>
      evalAll meaning members root children (Values.bind values (patternsNames inputs).1 bound)
        fun _ results => finish results
  | node => eval meaning members root node values fun _ result => result

def methodNamed (name : String) : Option Method :=
  [Method.resolve, .tryResolve, .resolveClone, .tryResolveClone, .resolveUnchecked].find? fun method =>
    (methodIdent method).name == name

/-- `replacements` of a constructor body, by the target of a query and its method. -/
def localReplacement (registrations : Fin n → Registration) (dependencies : Graph.Dependencies n)
    (unchecked : Bool) (target : Nat) (method : String) : Option (Replacement n) :=
  if h : target < n then
    (methodNamed method).bind (replacements registrations dependencies false unchecked ⟨target, h⟩)
  else none

/-- What the analysis of a constructor leaves in it: queries of registrations it has recorded as
dependencies, and of children there are. -/
def Analysed (dependencies : Graph.Dependencies n) (index : Fin n) (count : Nat) :
    Generated → Prop
  | .resolver target _ => ∃ h : target < n, ⟨target, h⟩ ∈ dependencies index
  | .dispatch position _ _ _ _ => position < count

/-- A constructor as it is written: a closure without parameters. -/
structure Written (members : UseTree → List String) (children : List Node) : Prop where
  /-- Only the body holds queries. -/
  body : ∀ node ∈ children.dropLast, Rose.found generatedOf node = []
  unreserved : UnreservedAll members children

theorem Analysed.fits {registrations : Fin n → Registration} {dependencies : Graph.Dependencies n}
    {order : List (Fin n)} (hfirst : Graph.DependencyFirst dependencies order) {unchecked : Bool}
    {index : Fin n} {count : Nat} {call : Generated} (h : Analysed dependencies index count call) :
    Fits (localReplacement registrations (transitive dependencies order) unchecked)
      ((contextArguments registrations (transitive dependencies order) index).map Fin.val) count
      call := by
  cases call with
  | dispatch position path interface operation inConstructor => exact h
  | resolver target method =>
      intro r hr slot hslot
      rcases h with ⟨htarget, hmem⟩
      rw [localReplacement, dif_pos htarget] at hr
      rcases Option.bind_eq_some_iff.1 hr with ⟨m, _, hreplacement⟩
      rcases context_closed hfirst hmem hreplacement slot hslot with ⟨k, rfl, hk⟩
      exact ⟨k, rfl, List.mem_map_of_mem hk⟩

theorem wire_of_found {expand : Generated → Node} {node : Node}
    (h : Rose.found generatedOf node = []) : wire expand node = node := by
  have hall : wireAll expand [node] = [node] := by
    refine wireAll_of_found ?_
    simpa [Rose.foundAll] using h
  simpa using hall

/-- Only the body of a closure reads the context. -/
theorem nativeBodyLast_wireAll {members : UseTree → List String} {expand : Generated → Node}
    {count : Nat} (hexpand : ∀ call, Outside (expand call)) {nodes : List Node}
    (h : Written members nodes) :
    nativeBodyLast count (wireAll expand nodes) =
      wireAll (fun call => nativeContext count (expand call)) nodes := by
  rcases h with ⟨hbody, hunreserved⟩
  induction nodes with
  | nil => rfl
  | cons node rest ih =>
      cases rest with
      | nil =>
          simp only [wireAll_cons, wireAll_nil, nativeBodyLast]
          rw [nativeContext_wire hexpand hunreserved.1]
      | cons next rest =>
          have hnode : Rose.found generatedOf node = [] := hbody node (by simp)
          have hrest := ih (fun other hother => hbody other (by
            rw [List.dropLast_cons_of_ne_nil (by simp)]
            exact List.mem_cons_of_mem _ hother)) hunreserved.2
          simp only [wireAll_cons] at hrest ⊢
          rw [nativeBodyLast, hrest, wire_of_found hnode, wire_of_found hnode]
          simp

section Plans

variable {D B K : Type} {meaning : Meaning D} {members : UseTree → List String}
  {restricted : B → K} {stored : List (Descriptor restricted)} {fields : List Nat}
  {bindings : Bindings} {finish : List D → D}

/-- A native constructor, called with its context. -/
theorem run_native {turbofish : List String} {replacement : Nat → String → Option (Replacement n)}
    (c : ContextMeaning meaning restricted stored fields) {attrs : List Attribute} {semi : Bool}
    {children : List Node} (hwritten : Written members children)
    (hfits : ∀ call ∈ Rose.foundAll generatedOf children,
      Fits replacement fields stored.length call)
    (hself : ∀ name ∈ reserved, bindings.containsKey name = false) (outer : String → D)
    (root : D) (bound : String → D) :
    let closure := Rose.node ⟨.closure [], attrs, semi⟩
      (wireAll (runtimeExpr turbofish replacement) children)
    run meaning members root finish (functionValues bindings outer) (fun _ => c.context)
        (nativeClosure stored.length closure) =
      run meaning members root finish (functionValues bindings outer) bound closure := by
  have hnone : ∀ name ∈ reserved, functionValues bindings outer name = none := by
    intro name hname
    simp [functionValues, hself name hname]
  have halike : Alike c.context (Values.bind (functionValues bindings outer) [] bound)
      (Values.bind (functionValues bindings outer) [contextName] fun _ => c.context) := by
    refine ⟨?_, ?_, ?_⟩
    · intro name hname
      have hne : name ≠ contextName := fun heq => hname (by simp [reserved, heq])
      simp [Values.bind, hne]
    · simpa [Values.bind] using hnone "self" (by simp [reserved])
    · simp [Values.bind]
  have hparameter : (patternsNames ([] ++ [Pat.ident ⟨false, contextName⟩ none])).1 =
      [contextName] := by
    simp [patternsNames, patternNames]
  have hnext : ∀ (values values' : Values D) (results : List D),
      Alike c.context values values' → finish results = finish results :=
    fun _ _ _ _ => rfl
  simp only [nativeClosure, run, nativeBodyLast_wireAll runtimeExpr_outside hwritten, hparameter]
  exact (evalAll_wire (fun call => (runtimeExpr_items call stored.length).1)
    (fun call => (runtimeExpr_items call stored.length).2) children hwritten.unreserved
    (sameValue_runtimeExpr c hfits) halike hnext).symm

/-- A reconstructed constructor, called with its captures. -/
theorem run_reconstructed {closure : Node} {plan : Plan} {attrs : List Attribute} {semi : Bool}
    {children : List Node} (hclosure : closure = .node ⟨.closure [], attrs, semi⟩ children)
    (hplan : reconstruct closure bindings = .ok plan) (hunshadowed : Unshadowed bindings closure)
    (outer : String → D) (bound : String → D) :
    let root := meaning.tuple (plan.captures.map fun capture => outer capture.1.name)
    run meaning members root finish (fun _ => none) bound plan.closure =
      run meaning members root finish (functionValues bindings outer) bound closure := by
  intro root
  have hfaithful : Faithful bindings members closure plan :=
    faithful_of_unshadowed hplan hunshadowed
  have hinitial : Agree bindings members outer .empty (functionValues bindings outer)
      (fun _ => none) := by
    refine ⟨?_, fun name _ => ⟨rfl, rfl⟩⟩
    intro name hinner
    simp [Env.Inner, Env.empty] at hinner
  have hlexical : plan.closure = .node ⟨.closure [], attrs, semi⟩
      (lexicalAll (resolvesOuter bindings members) (position plan.captures) children
        (Env.empty.bind [])).1 := by
    rw [hfaithful.rewritten, hclosure]
    rfl
  have hsites : Holds meaning root outer (position plan.captures)
      (lexicalAll (resolvesOuter bindings members) (position plan.captures) children
        (Env.empty.bind [])).2.1 := by
    refine holds_tuple meaning outer fun site hsite => ?_
    have hmem : site ∈ occurrences (resolvesOuter bindings members) closure := by
      rw [← occurrences_eq _ (position plan.captures), hclosure]
      exact hsite
    rcases hfaithful.named site hmem with ⟨capture, hcapture, hname⟩
    exact ⟨capture, List.mem_of_getElem? hcapture, hname⟩
  have hnext : ∀ (values values' : Values D) (results : List D),
      Agree bindings members outer (lexicalAll (resolvesOuter bindings members)
        (position plan.captures) children (Env.empty.bind [])).2.2 values values' →
      finish results = finish results :=
    fun _ _ _ _ => rfl
  rw [hlexical, hclosure]
  exact (evalAll_lexical children (hinitial.bind [] bound) hnext hsites).symm

/-- `__systasis_construct_i`: the native closure called with the context it is given, or the method
of the context that runs the reconstructed body on the captures. -/
def construct (meaning : Meaning D) (members : UseTree → List String) (finish : List D → D)
    (context : D) (count : Nat) (bindings : Bindings) (outer : String → D) (bound : String → D)
    (plan : Plan) : D :=
  let root := meaning.tuple (plan.captures.map fun capture => outer capture.1.name)
  if plan.native then
    run meaning members root finish (functionValues bindings outer) (fun _ => context)
      (nativeClosure count plan.closure)
  else run meaning members root finish (fun _ => none) bound plan.closure

theorem prepare_cases (holds : Invocations) (closure : Node) (bindings : Bindings) :
    prepare holds closure bindings = nativePlan closure ∨
      ∃ plan, reconstruct closure bindings = .ok plan ∧
        prepare holds closure bindings = plan := by
  unfold prepare
  split
  · exact .inl rfl
  · cases hplan : reconstruct closure bindings with
    | error messages => exact .inl rfl
    | ok plan => exact .inr ⟨plan, rfl, rfl⟩

theorem reconstruct_native {closure : Node} {plan : Plan}
    (h : reconstruct closure bindings = .ok plan) : plan.native = false := by
  simp only [reconstruct] at h
  split at h
  · cases h
  · split at h
    · cases h
      rfl
    · cases h

/-- Whichever plan is made of a constructor, calling it means what the written closure means: its
variables are those of the enclosing function, and its queries are answered from the slots and the
children of the context.  Only a reconstructed constructor can have a variable shadowed by an item of
a foreign module. -/
theorem constructor_preserved {registrations : Fin n → Registration}
    {dependencies : Graph.Dependencies n} {order : List (Fin n)}
    (hfirst : Graph.DependencyFirst dependencies order) (index : Fin n) (unchecked : Bool)
    (turbofish : List String) (holds : Invocations) (attrs : List Attribute) (semi : Bool)
    {children : List Node} (hwritten : Written members children)
    (hqueries : ∀ call ∈ Rose.foundAll generatedOf children,
      Analysed dependencies index stored.length call)
    (hself : ∀ name ∈ reserved, bindings.containsKey name = false)
    (c : ContextMeaning meaning restricted stored
      ((contextArguments registrations (transitive dependencies order) index).map Fin.val))
    (outer bound : String → D) :
    let replacement := localReplacement registrations (transitive dependencies order) unchecked
    let closure := Rose.node ⟨.closure [], attrs, semi⟩
      (wireAll (runtimeExpr turbofish replacement) children)
    let plan := prepare holds closure bindings
    (plan.native = false → Unshadowed bindings closure) →
    construct meaning members finish c.context stored.length bindings outer bound plan =
      run meaning members (meaning.tuple (plan.captures.map fun capture => outer capture.1.name))
        finish (functionValues bindings outer) bound closure := by
  intro replacement closure plan hunshadowed
  have hfits : ∀ call ∈ Rose.foundAll generatedOf children, Fits replacement
      ((contextArguments registrations (transitive dependencies order) index).map Fin.val)
      stored.length call :=
    fun call hcall => (hqueries call hcall).fits hfirst
  rcases prepare_cases holds closure bindings with hplan | ⟨reconstructed, hok, hplan⟩
  · rw [show plan = nativePlan closure from hplan, construct, nativePlan, if_pos rfl]
    exact run_native c hwritten hfits hself outer _ bound
  · have hnative : plan.native = false := by
      rw [show plan = reconstructed from hplan]
      exact reconstruct_native hok
    rw [construct, if_neg (by simp [hnative]), show plan = reconstructed from hplan]
    exact run_reconstructed rfl hok (hunshadowed hnative) outer bound

end Plans

/-! ## A constructor with a macro in the way -/

/-- The values of a small language: the two contexts, what they hold, and everything else. -/
inductive Probe where
  | other (parts : List Probe)
  | receiver
  | context
  | slot (name : String)
  | tuple (values : List Probe)
  | reference (value : Probe)
  | descriptor (backing : Nat)
  | borrowed (backing : Nat)

def probeField (stored : List Nat) : Member → Probe → Probe
  | .unnamed k, .tuple values => (values[k]?).getD (.other [])
  | .unnamed k, .reference (.tuple values) => (values[k]?).getD (.other [])
  | .named name, .receiver =>
      if name.is "_children" then .reference (.tuple (stored.map .descriptor)) else .slot name.name
  | .named name, .context =>
      if name.is "_children" then .tuple (stored.map .borrowed) else .slot name.name
  | _, value => .other [value]

def probeConstruct (stored : List Nat) : Form → List Probe → Probe
  | .expr (.field member), [value] => probeField stored member value
  | .expr (.reference false), [value] => .reference value
  | .expr .tuple, values => .tuple values
  | .expr (.methodCall _), [.borrowed backing] => .descriptor backing
  | _, values => .other values

def probeMeaning (stored : List Nat) : Meaning Probe where
  global path _ := if path.segments = [⟨false, "self"⟩] then .receiver else .other []
  quoted _ _ := .other []
  construct := probeConstruct stored
  block _ values := .other values
  bind _ _ next := next fun _ => .other []
  scope _ next := next fun _ => .other []
  declared _ _ := .other []
  tuple := .tuple
  tuple_field values k value h := by simp [probeConstruct, probeField, h]

def probeStored : List (Descriptor fun _ : Nat => ()) :=
  [scope (fun _ => ()) 7]

def probeContext (fields : List Nat) :
    ContextMeaning (probeMeaning [7]) (fun _ : Nat => ()) probeStored fields where
  ofDescriptor d := .descriptor d.backing
  ofBorrowed b := .borrowed b.backing
  receiver := .receiver
  context := .context
  self_eq := rfl
  slot_eq i _ := by
    have hne := slotMember_ne i
    simp [probeMeaning, probeConstruct, probeField, slotMember, hne]
  receiver_children := rfl
  through k value h := by
    simp only [List.getElem?_map] at h
    simp [probeMeaning, probeConstruct, probeField, h]
  context_children := rfl
  descriptor_call _ := rfl
  tuple_expr _ := rfl

/-- `|| (try_resolve!(..), resolve_from!(.., child), config)` -/
def probeBody : List Node :=
  [.node ⟨.expr .tuple, [], false⟩
    [ .node ⟨.expr (.generated (.resolver 0 "try_resolve")), [], false⟩ [],
      .node ⟨.expr (.generated (.dispatch 0 [] "i_value" "Owned" true)), [], false⟩ [],
      nameExpr "config" ]]

def probeDependencies (i : Fin 2) : Finset (Fin 2) :=
  if i.val = 1 then {⟨0, Nat.zero_lt_two⟩} else ∅

def probeOrder : List (Fin 2) :=
  [⟨0, Nat.zero_lt_two⟩, ⟨1, Nat.one_lt_two⟩]

def probeRegistrations (i : Fin 2) : Registration :=
  if i.val = 1 then .factory false true else .value

theorem constructor_preserved_opaque :
    let bindings : Bindings := { runBindings with uncertain := true }
    let replacement := localReplacement probeRegistrations
      (transitive probeDependencies probeOrder) false
    let closure := Rose.node ⟨.closure [], [], false⟩
      (wireAll (runtimeExpr [] replacement) probeBody)
    let plan := prepare ⟨fun _ => false, fun _ => false⟩ closure bindings
    construct (probeMeaning [7]) (fun _ => []) .tuple .context 1 bindings (fun _ => .other [])
        (fun _ => .other []) plan =
      run (probeMeaning [7]) (fun _ => []) (.tuple []) .tuple
        (functionValues bindings fun _ => .other []) (fun _ => .other []) closure := by
  intro bindings replacement closure plan
  have hfirst : Graph.DependencyFirst probeDependencies probeOrder :=
    Graph.dependencyFirst_of_schedule_ok (by decide +kernel)
  have hwritten : Written (fun _ => []) probeBody := by
    refine ⟨by simp [probeBody], ?_⟩
    simp [probeBody, UnreservedAll, Unreserved, mentioned, nameExpr, reserved, contextName, quotes,
      Rose.foundAll]
  have hqueries : ∀ call ∈ Rose.foundAll generatedOf probeBody,
      Analysed probeDependencies 1 probeStored.length call := by
    simp [probeBody, Rose.foundAll, Rose.found, generatedOf, nameExpr, Analysed, probeDependencies,
      probeStored]
  have hself : ∀ name ∈ reserved, bindings.containsKey name = false := by
    simp [reserved, bindings, Bindings.containsKey, runBindings, contextName]
  have hplan : plan = nativePlan closure := by
    simp [plan, prepare, reconstruct, bindings]
  have hnative : plan.native = false → Unshadowed bindings closure := by
    rw [hplan]
    intro h
    cases h
  have hpreserved := @constructor_preserved 2 Probe Nat Unit (probeMeaning [7]) (fun _ => [])
    (fun _ => ()) probeStored bindings .tuple probeRegistrations probeDependencies probeOrder hfirst
    1 false [] ⟨fun _ => false, fun _ => false⟩ [] false probeBody hwritten
    hqueries hself (probeContext _) (fun _ => .other []) (fun _ => .other []) hnative
  rw [show prepare ⟨fun _ => false, fun _ => false⟩ _ _ = nativePlan closure from hplan]
    at hpreserved
  rw [hplan]
  exact hpreserved

end Constructor

end Captures
end Systasis
