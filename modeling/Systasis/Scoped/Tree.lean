import Mathlib.Data.List.Dedup
import Systasis.Scoped.Key

/-!
# Tree — composed containers and the implementations generated for them

Model of `child_queries::Queries::target`, of `child_codegen::{namespaces, forwarding}` and of the
scope resolvers of `scopegen.rs`, with the name checks of `child.rs` and `expand_inner` that keep
their heads apart.  Trait selection is explicit: a query is answered by the generated
implementations whose head matches the type-level path and whose where-clauses hold.

Identifiers are compared without their `r#` prefix, as `unraw` does.
-/

namespace Systasis
namespace Scoped

/-! ## Type-level paths and restrictions -/

/-- `Here<Namespace>` (the default namespace when it is omitted) and `There<Child, Rest>`. -/
inductive PathTy where
  | here (namespaceKey : Option Key)
  | there (child : Key) (rest : PathTy)
  deriving DecidableEq, Repr

/-- The masks of `src/scoped/mask.rs`.  A `BorrowedBy<C, Path, Key>` is given by the mask
`<C as Borrowed<Path, Key>>::Mask` it stands for. -/
inductive Mask where
  | empty
  | mask (key : Key) (tail : Mask)
  | union (left right : Mask)
  | nested (child : Key) (inner : Mask)
  | borrowedBy (projected : Mask)
  deriving DecidableEq, Repr

/-- `Blocked<Key>` answers `Yes`. -/
@[grind =]
def Mask.blocked (k : Key) : Mask → Bool
  | .empty => false
  | .mask key tail => k == key || tail.blocked k
  | .union left right => left.blocked k || right.blocked k
  | .nested _ _ => false
  | .borrowedBy projected => projected.blocked k

/-- `<M as ForChild<Key>>::Out` -/
@[grind =]
def Mask.forChild (k : Key) : Mask → Mask
  | .empty => .empty
  | .mask _ tail => tail.forChild k
  | .union left right => .union (left.forChild k) (right.forChild k)
  | .nested child inner => if k = child then inner else .empty
  | .borrowedBy projected => projected.forChild k

/-- The operations of `scoped::op` a query can ask for. -/
inductive Operation where
  | owned
  | tryOwned
  | cloneValue
  | tryCloneValue
  | uncheckedOwned
  deriving DecidableEq, Repr

/-- The third component of `scopegen::operation`. -/
def Operation.takes : Operation → Bool
  | .tryOwned | .uncheckedOwned => true
  | _ => false

/-! ## Containers -/

inductive SlotKind where
  | copy
  | read
  | take
  /-- A new value each time, by way of `Default` where its type has it. -/
  | fresh (default : Bool)
  | factory (fallible : Bool)
  deriving DecidableEq, Repr

/-- The methods `expand_inner` emits for each kind of slot. -/
def SlotKind.operations (unchecked : Bool) : SlotKind → List Operation
  | .copy => [.owned, .tryOwned]
  | .read => [.cloneValue, .tryCloneValue]
  | .take => .tryOwned :: if unchecked then [.uncheckedOwned] else []
  | .fresh default => if default then [.owned, .tryOwned] else []
  | .factory false => [.owned, .tryOwned]
  | .factory true => [.tryOwned]

/-- `registration.fresh` -/
def SlotKind.isFresh : SlotKind → Bool
  | .fresh _ | .factory _ => true
  | _ => false

/-- `child_queries::Call` -/
structure ChildCall where
  child : Key
  path : PathTy
  key : Key
  operation : Operation
  deriving DecidableEq, Repr

/-- A winning registration, with what `scopegen` derives from its constructor: the mask keys of the
registrations it consumes and the child calls it makes. -/
structure Registration (T : Type) where
  /-- The namespace written after `in`, unless it is `default`. -/
  ns : Option String
  /-- `interface.key()` -/
  interface : String
  ty : T
  slot : SlotKind
  consumed : List Key
  calls : List ChildCall

variable {T : Type}

namespace Registration

/-- The second component of `scopegen::keys`. -/
def path (r : Registration T) : PathTy :=
  .here (r.ns.map key)

/-- The namespace under which the registration is reached by name. -/
def namespaceName (r : Registration T) : String :=
  r.ns.getD "default"

/-- The third component of `scopegen::keys`. -/
def maskKey (r : Registration T) : Key :=
  .pair (key r.namespaceName) (key r.interface)

/-- `namespace.key(&interface)` -/
def identity (r : Registration T) : String :=
  match r.ns with
  | none => r.interface
  | some name => r.interface ++ " in " ++ name

/-- The keys an operation must find unblocked. -/
def guarded (r : Registration T) (op : Operation) : List Key :=
  r.consumed ++ if op.takes && !r.slot.isFresh then [r.maskKey] else []

end Registration

mutual

/-- A container instance: its registrations and the descriptors of its children, each with the
restrictions it was stored under. -/
inductive Container (T : Type) where
  | mk (id : Nat) (registrations : List (Registration T)) (children : List (Child T))

inductive Child (T : Type) where
  | mk (name : String) (restrictions : Mask) (container : Container T)

end

def Container.id : Container T → Nat
  | .mk id _ _ => id

def Container.registrations : Container T → List (Registration T)
  | .mk _ registrations _ => registrations

def Container.children : Container T → List (Child T)
  | .mk _ _ children => children

def Child.name : Child T → String
  | .mk name _ _ => name

def Child.container : Child T → Container T
  | .mk _ _ container => container

/-- A slot: the container instance and the position of the registration. -/
structure Address where
  id : Nat
  index : Nat
  deriving DecidableEq, Repr

/-! ## Accepted declarations -/

/-- `Namespace::named` -/
def named : Option String → Option String
  | none => none
  | some name => if name ≠ "default" then some name else none

/-- Keeps the last declaration of each identity. -/
def winners : List (Registration T) → List (Registration T)
  | [] => []
  | r :: rest =>
      if rest.any fun later => later.identity == r.identity then winners rest
      else r :: winners rest

inductive ExpansionError where
  | defaultChild
  | duplicateChild
  | childNamespaceConflict
  deriving DecidableEq, Repr

/-- The checks `expand_inner` makes on names, with the container they let through. -/
def expand (id : Nat) (declared : List (Registration T)) (children : List (Child T)) :
    Except ExpansionError (Container T) :=
  let registrations :=
    winners (declared.map fun r => { r with ns := named r.ns })
  if children.any fun child => child.name == "default" then
    .error .defaultChild
  else if ¬(children.map Child.name).Nodup then
    .error .duplicateChild
  else if children.any fun child => registrations.any fun r => r.ns == some child.name then
    .error .childNamespaceConflict
  else
    .ok (.mk id registrations children)

/-- A tree of containers each of which expansion accepted. -/
inductive Accepted : Container T → Prop
  | mk {id : Nat} {declared : List (Registration T)} {children : List (Child T)}
      {container : Container T} :
      expand id declared children = .ok container →
      (∀ child ∈ children, Accepted child.container) →
      Accepted container

/-! ## Generated implementations -/

/-- An implementation of `Resolve` (or of the metadata traits) that applies: the resolver of a
registration, the spelling of a namespace as a path segment, or the forwarding to a child. -/
inductive Impl where
  | leaf (index : Nat)
  | segment (name : String)
  | child (index : Nat)
  deriving DecidableEq, Repr

/-- `namespaces` emits its implementations once for each of these names. -/
def namespaceNames (registrations : List (Registration T)) : List String :=
  (registrations.map Registration.namespaceName).dedup

/-- The `Here` to which a namespace spelled as a path segment forwards. -/
def hereOf (name : String) : Option Key :=
  if name = "default" then none else some (key name)

/-- The registrations of a path `Here<..>` whose resolver passes the given where-clauses. -/
def leaves (holds : Registration T → Bool) (registrations : List (Registration T))
    (namespaceKey : Option Key) (k : Key) : List Nat :=
  (registrations.zipIdx.filter fun entry =>
    entry.1.path == .here namespaceKey && key entry.1.interface == k && holds entry.1).map Prod.snd

/-- The implementations a path `There<child, rest>` finds among the namespaces. -/
def namespaceImpls (holds : Registration T → Bool) (registrations : List (Registration T))
    (child : Key) (rest : PathTy) (k : Key) : List Impl :=
  ((namespaceNames registrations).filter fun name =>
    key name == child && rest == .here none &&
      !(leaves holds registrations (hereOf name) k).isEmpty).map .segment

section Resolve

variable (unchecked : Bool)

/-- The where-clauses of a scope resolver: the method exists, nothing it may consume is blocked, and
its child calls dispatch. -/
def permitted (callable : ChildCall → Bool) (mask : Mask) (op : Operation) (r : Registration T) :
    Bool :=
  (r.slot.operations unchecked).contains op &&
    (r.guarded op).all (fun k => !mask.blocked k) && r.calls.all callable

mutual

/-- The implementations of `Resolve<path, k, op>` for a scope over the container. -/
def implementations (mask : Mask) (path : PathTy) (k : Key) (op : Operation) :
    Container T → List Impl
  | .mk _ registrations children =>
      let holds := permitted unchecked
        (fun call => !(tupleImplementations mask call.child call.path call.key call.operation
          0 children).isEmpty) mask op
      match path with
      | .here namespaceKey => (leaves holds registrations namespaceKey k).map .leaf
      | .there child rest =>
          namespaceImpls holds registrations child rest k ++
            (tupleImplementations mask child rest k op 0 children).map .child

/-- The implementations of `ChildResolve<child, rest, k, op>` for the children of a scope, each
rescoped under the restrictions the scope has for it. -/
def tupleImplementations (mask : Mask) (child : Key) (rest : PathTy) (k : Key) (op : Operation)
    (index : Nat) : List (Child T) → List Nat
  | [] => []
  | .mk name restrictions container :: children =>
      if key name == child &&
          !(implementations (.union restrictions (mask.forChild (key name))) rest k op
            container).isEmpty then
        index :: tupleImplementations mask child rest k op (index + 1) children
      else
        tupleImplementations mask child rest k op (index + 1) children

end

attribute [grind =] implementations tupleImplementations

mutual

/-- Running `Resolve::resolve`; a path without exactly one implementation does not compile. -/
def dispatch (mask : Mask) (path : PathTy) (k : Key) (op : Operation) :
    Container T → Option Address
  | .mk id registrations children =>
      match implementations unchecked mask path k op (.mk id registrations children), path with
      | [.leaf index], _ => some ⟨id, index⟩
      | [.segment name], _ =>
          match implementations unchecked mask (.here (hereOf name)) k op
            (.mk id registrations children) with
          | [.leaf index] => some ⟨id, index⟩
          | _ => none
      | [.child index], .there _ rest => dispatchChild mask rest k op index children
      | _, _ => none

def dispatchChild (mask : Mask) (rest : PathTy) (k : Key) (op : Operation) :
    Nat → List (Child T) → Option Address
  | _, [] => none
  | 0, .mk name restrictions container :: _ =>
      dispatch (.union restrictions (mask.forChild (key name))) rest k op container
  | index + 1, _ :: children => dispatchChild mask rest k op index children

end

attribute [grind =] dispatchChild

end Resolve

mutual

/-- The implementations of `Registered<path, k>` for a container type. -/
def registeredImpls (path : PathTy) (k : Key) : Container T → List Impl
  | .mk _ registrations children =>
      match path with
      | .here namespaceKey => (leaves (fun _ => true) registrations namespaceKey k).map .leaf
      | .there child rest =>
          namespaceImpls (fun _ => true) registrations child rest k ++
            (tupleRegistered child rest k 0 children).map .child

def tupleRegistered (child : Key) (rest : PathTy) (k : Key) (index : Nat) :
    List (Child T) → List Nat
  | [] => []
  | .mk name _ container :: children =>
      if key name == child && !(registeredImpls rest k container).isEmpty then
        index :: tupleRegistered child rest k (index + 1) children
      else
        tupleRegistered child rest k (index + 1) children

end

attribute [grind =] registeredImpls tupleRegistered

mutual

/-- `<C as Registered<path, k>>::Value` -/
def registered (path : PathTy) (k : Key) : Container T → Option T
  | .mk id registrations children =>
      match registeredImpls path k (.mk id registrations children), path with
      | [.leaf index], _ => (registrations[index]?).map Registration.ty
      | [.segment name], _ =>
          match registeredImpls (.here (hereOf name)) k (.mk id registrations children) with
          | [.leaf index] => (registrations[index]?).map Registration.ty
          | _ => none
      | [.child index], .there _ rest => registeredChild rest k index children
      | _, _ => none

def registeredChild (rest : PathTy) (k : Key) : Nat → List (Child T) → Option T
  | _, [] => none
  | 0, .mk _ _ container :: _ => registered rest k container
  | index + 1, _ :: children => registeredChild rest k index children

end

attribute [grind =] registeredChild

/-! ## Queries -/

/-- The `There` and `Here` types built from the segments after the first. -/
def pathOf (segments : List String) : PathTy :=
  segments.foldr (fun segment rest => .there (key segment) rest) (.here none)

/-- `Queries::target`: the child named by the first segment and the path inside it. -/
def target (children : List (Child T)) (segments : List String) : Option (Child T × PathTy) :=
  match segments with
  | [] => none
  | first :: rest =>
      (children.find? fun child => child.name == first).map fun child => (child, pathOf rest)

/-- `op_from!(interface, segments)` written in a registration of the container: the dispatch on the
stored descriptor of the child. -/
def query (unchecked : Bool) (container : Container T) (segments : List String)
    (interface : String) (op : Operation) : Option Address :=
  match target container.children segments with
  | some (.mk _ restrictions child, path) => dispatch unchecked restrictions path (key interface) op child
  | none => none

/-- `resolve_type_from!(interface, segments)` -/
def typeQuery (container : Container T) (segments : List String) (interface : String) : Option T :=
  match target container.children segments with
  | some (.mk _ _ child, path) => registered path (key interface) child
  | none => none

/-! ## Accessors -/

/-- A descriptor: the container behind it and its restrictions. -/
abbrev Scope (T : Type) : Type := Container T × Mask

/-- The accessor `container.name()` of a container, a reference to the stored descriptor. -/
def stored (container : Container T) (name : String) : Option (Scope T) :=
  (container.children.find? fun child => child.name == name).map fun child =>
    match child with
    | .mk _ restrictions inner => (inner, restrictions)

/-- The accessor `scope.name()` of a descriptor. -/
def accessor (scope : Scope T) (name : String) : Option (Scope T) :=
  (scope.1.children.find? fun child => child.name == name).map fun child =>
    match child with
    | .mk name restrictions inner => (inner, .union restrictions (scope.2.forChild (key name)))

/-- `.c2()...cm()` -/
def walk (scope : Scope T) (names : List String) : Option (Scope T) :=
  names.foldlM accessor scope

/-- The resolver method `op_interface[_in_namespace]` of a descriptor, which calls the method of the
same name on the container behind it. -/
def method (unchecked : Bool) (ns : Option String) (interface : String) (op : Operation)
    (scope : Scope T) : Option Address :=
  let holds := permitted unchecked
    (fun call => !(tupleImplementations unchecked scope.2 call.child call.path call.key
      call.operation 0 scope.1.children).isEmpty) scope.2 op
  (scope.1.registrations.zipIdx.find? fun entry =>
    entry.1.ns == named ns && entry.1.interface == interface && holds entry.1).map
      fun entry => ⟨scope.1.id, entry.2⟩

/-- `container.c1()...cm()` -/
def reach (container : Container T) (names : List String) : Option (Scope T) :=
  match names with
  | [] => none
  | first :: rest => (stored container first).bind fun scope => walk scope rest

/-- `container.c1()...cm().op_interface[_in_namespace]()` -/
def call (unchecked : Bool) (container : Container T) (names : List String)
    (ns : Option String) (interface : String) (op : Operation) : Option Address :=
  (reach container names).bind (method unchecked ns interface op)

end Scoped
end Systasis
