import Mathlib.Data.List.Dedup
import Mathlib.Data.List.Forall2
import Mathlib.Data.List.Sort
import Systasis.Build.Generated
import Systasis.Syntax

/-!
# Resolvers — the names of generated methods and the operations they stand for

Model of the resolvers `expand_inner` generates for each registration, of `namespace_methods` in
`systasis-macros/src/generate.rs` and of `operation` in `scopegen.rs`.  Methods get their names when
they are generated; scope metadata is attached later, by comparing a name with twelve templates.

The results say that the comparison recovers the operation a method performs.  A template is wider
than the snake name by an amount that, with its first letter, tells all but two of them apart, and
these two differ at the end; the default suffix is of odd length while all templates are even.
Nothing is assumed of the snake name, which may contain the words of a template.
-/

namespace Systasis
namespace Naming

open Syntax

/-! ## Registrations -/

/-- An interface path; it has at least one segment. -/
structure Path where
  front : List Ident
  last : Ident
  deriving DecidableEq, Repr

/-- `Namespace::named` -/
def named (name : Ident) : Option Ident :=
  if name.name ≠ "default" then some name else none

/-- A registration, with its namespace as it was written. -/
structure Registration where
  interface : List Path
  written : Option Ident
  kind : Wiring.Registration
  deriving DecidableEq, Repr

namespace Registration

/-- `registration.namespace.0` -/
def ns (r : Registration) : Option Ident :=
  r.written.bind named

/-- The `suffix` of `operation`. -/
def suffix (r : Registration) : String :=
  match r.ns with
  | some name => "_in_" ++ name.name
  | none => ""

end Registration

/-! ## Snake names -/

section Snake

-- `char::is_uppercase`
variable (isUppercase : Char → Bool)

/-- Every uppercase character but the first starts a word; only ASCII letters change. -/
def snakeWord (name : String) : String :=
  String.ofList (name.toList.zipIdx.flatMap fun c =>
    if isUppercase c.1 && decide (0 < c.2) then ['_', c.1.toLower] else [c.1.toLower])

/-- The `snake` of a registration: the last segments of its interfaces, sorted. -/
def snake (interface : List Path) : String :=
  "_".intercalate
    (((interface.map fun path => path.last.name).insertionSort (· ≤ ·)).map
      (snakeWord isUppercase))

end Snake

/-! ## Operations -/

/-- The operations of `scoped::op`, in the order of the table in `operation`. -/
inductive Operation where
  | owned
  | tryOwned
  | shared
  | tryShared
  | tryExclusive
  | cloneValue
  | tryCloneValue
  | dynShared
  | tryDynShared
  | uncheckedOwned
  | uncheckedShared
  | uncheckedExclusive
  deriving DecidableEq, Repr

namespace Operation

def all : List Operation :=
  [.owned, .tryOwned, .shared, .tryShared, .tryExclusive, .cloneValue, .tryCloneValue, .dynShared,
    .tryDynShared, .uncheckedOwned, .uncheckedShared, .uncheckedExclusive]

/-- What a template has before and after the snake name. -/
def template : Operation → String × String
  | .owned => ("resolve_", "")
  | .tryOwned => ("try_resolve_", "")
  | .shared => ("resolve_", "_ref")
  | .tryShared => ("try_resolve_", "_ref")
  | .tryExclusive => ("try_resolve_", "_ref_mut")
  | .cloneValue => ("resolve_clone_", "")
  | .tryCloneValue => ("try_resolve_clone_", "")
  | .dynShared => ("resolve_", "_dyn_ref")
  | .tryDynShared => ("try_resolve_", "_dyn_ref")
  | .uncheckedOwned => ("resolve_", "_unchecked")
  | .uncheckedShared => ("resolve_", "_ref_unchecked")
  | .uncheckedExclusive => ("resolve_", "_ref_mut_unchecked")

/-- The `takes` column of the table. -/
def takes : Operation → Bool
  | .tryOwned => true
  | .uncheckedOwned => true
  | _ => false

def base (snake : String) (op : Operation) : String :=
  op.template.1 ++ snake ++ op.template.2

end Operation

/-- The closure of the `find_map` in `operation`. -/
def candidate (method : String) (r : Registration) (snake : String) (op : Operation) :
    Option (Operation × Bool × Bool) :=
  let primary := op.base snake ++ r.suffix
  if method = primary then some (op, false, op.takes)
  else if r.ns.isNone ∧ method = primary ++ "_in_default" then some (op, true, op.takes)
  else none

/-- `operation`: the operation, whether the method is the default alias, and `takes`. -/
def operation (method : String) (r : Registration) (snake : String) :
    Option (Operation × Bool × Bool) :=
  Operation.all.findSome? (candidate method r snake)

/-! ## Generated methods -/

/-- The error of a method's `Result`: `Never`, `Error`, or that of a fallible constructor. -/
inductive Failure where
  | never
  | access
  | constructor
  deriving DecidableEq, Repr

inductive Output where
  | value
  | result (failure : Failure)
  deriving DecidableEq, Repr

/-- The body of a method: a call of the construction helper, a method of the slot, or one of these
inside `Ok`. -/
inductive Body where
  | helper
  | slot (method : Wiring.Method)
  | ok (body : Body)
  deriving DecidableEq, Repr

/-- A generated method.  `isAlias` marks the copies under the default suffix; it is not emitted. -/
structure Method where
  name : String
  safety : Bool
  output : Output
  body : Body
  isAlias : Bool
  deriving DecidableEq, Repr

/-- The slot type in the head of a generated `impl`. -/
inductive SlotType where
  | factory
  | fresh
  | copy
  | read
  | take
  deriving DecidableEq, Repr

structure Impl where
  slot : SlotType
  methods : List Method
  deriving DecidableEq, Repr

/-- The implementations for a value that is stored or fresh; which of them applies depends on the
slot the policy selects.  `unchecked` says that `unchecked_methods` is there. -/
def storedImplementations (unchecked : Bool) (snake : String) : List Impl :=
  let take := "try_resolve_" ++ snake
  let copy := "resolve_" ++ snake
  let clone := "resolve_clone_" ++ snake
  let tryClone := "try_resolve_clone_" ++ snake
  [⟨.fresh,
    [⟨copy, false, .value, .slot .resolve, false⟩,
      ⟨take, false, .result .never, .ok (.slot .resolve), false⟩]⟩,
   ⟨.copy,
    [⟨copy, false, .value, .slot .resolve, false⟩,
      ⟨take, false, .result .never, .slot .tryResolve, false⟩]⟩,
   ⟨.read,
    [⟨clone, false, .value, .slot .resolveClone, false⟩,
      ⟨tryClone, false, .result .never, .slot .tryResolveClone, false⟩]⟩,
   ⟨.take,
    ⟨take, false, .result .access, .slot .tryResolve, false⟩ ::
      if unchecked then
        [⟨"resolve_" ++ snake ++ "_unchecked", true, .value, .slot .resolveUnchecked, false⟩]
      else []⟩]

/-- The implementation for a constructor. -/
def factoryImplementation (fallible : Bool) (snake : String) : Impl :=
  let take := "try_resolve_" ++ snake
  let copy := "resolve_" ++ snake
  if fallible then ⟨.factory, [⟨take, false, .result .constructor, .helper, false⟩]⟩
  else
    ⟨.factory,
      [⟨copy, false, .value, .helper, false⟩,
        ⟨take, false, .result .never, .ok .helper, false⟩]⟩

/-- The implementations `expand_inner` generates for a registration, before namespaces.  `unchecked`
is the feature `resolve_unchecked`. -/
def implementations (unchecked : Bool) (kind : Wiring.Registration) (snake : String) : List Impl :=
  match kind with
  | .factory fallible _ => [factoryImplementation fallible snake]
  | kind => storedImplementations (unchecked && kind != .fresh) snake

/-! ## Namespaces -/

/-- The source a name is reported with: `interface in namespace`. -/
structure Source where
  interface : List Path
  ns : Option Ident
  deriving DecidableEq, Repr

inductive Span where
  | source (source : Source)
  | child (name : Ident)
  deriving DecidableEq, Repr

structure Diagnostic where
  span : Span
  message : String
  deriving DecidableEq, Repr

/-- An error with those combined into it. -/
abbrev Error : Type := List Diagnostic

/-- The `known` of `namespace_methods`. -/
abbrev Known : Type := List (String × Source)

def Known.names (known : Known) : List String :=
  known.map Prod.fst

/-- `{method}_in_{namespace}`, or for the default namespace the method and its alias. -/
def Registration.renamed (r : Registration) (method : Method) : Method × Option Method :=
  match r.ns with
  | some name => ({ method with name := method.name ++ "_in_" ++ name.name }, none)
  | none => (method, some { method with name := method.name ++ "_in_default", isAlias := true })

/-- The loop over the items of an `impl`; the aliases come after the methods. -/
def Impl.renamed (r : Registration) (impl : Impl) : Impl :=
  let items := impl.methods.map r.renamed
  { impl with methods := items.map Prod.fst ++ items.filterMap Prod.snd }

def methods (impls : List Impl) : List Method :=
  impls.flatMap Impl.methods

/-- The set `names`, in its order. -/
def names (impls : List Impl) : List String :=
  ((methods impls).map Method.name).dedup.insertionSort (· ≤ ·)

/-- `known.insert` for each name; it answers the source of an earlier entry. -/
def register (source : Source) : List String → Known → Except Error Known
  | [], known => .ok known
  | name :: names, known =>
      match known.lookup name with
      | some previous =>
          .error
            [⟨.source source, "interfaces generate the same resolver name: " ++ name⟩,
              ⟨.source previous, "first conflicting interface"⟩]
      | none => register source names ((name, source) :: known)

def namespaceMethods (impls : List Impl) (r : Registration) (known : Known) :
    Except Error (List Impl × Known) := do
  let renamed := impls.map (Impl.renamed r)
  let known ← register ⟨r.interface, r.ns⟩ (names renamed) known
  return (renamed, known)

/-! ## Expansion -/

section Expansion

variable (isUppercase : Char → Bool) (unchecked : Bool)

/-- The loop over the registrations. -/
def resolvers : List Registration → Known → Except Error (List (List Impl) × Known)
  | [], known => .ok ([], known)
  | r :: rest, known => do
      let impls := implementations unchecked r.kind (snake isUppercase r.interface)
      let (impls, known) ← namespaceMethods impls r known
      let (rest, known) ← resolvers rest known
      return (impls :: rest, known)

/-- The loop over the children: the accessors `pub fn name(&self)`. -/
def accessors (known : Known) : List Ident → Except Error (List Ident)
  | [] => .ok []
  | child :: rest =>
      if child.name ∈ known.names then
        .error [⟨.child child, "child path conflicts with a generated resolver name"⟩]
      else do
        let rest ← accessors known rest
        return child :: rest

/-- The public methods of a container. -/
structure Expansion where
  resolvers : List (List Impl)
  accessors : List Ident
  deriving DecidableEq, Repr

/-- What `expand_inner` makes of the registrations it keeps and of the children. -/
def expand (registrations : List Registration) (children : List Ident) :
    Except Error Expansion := do
  let (resolvers, known) ← resolvers isUppercase unchecked registrations []
  let accessors ← accessors known children
  return ⟨resolvers, accessors⟩

end Expansion

end Naming
end Systasis
