import Systasis.Analysis.Closure
import Systasis.Scoped.Mask

/-!
# Instance — composed containers, their descriptors and what their methods run

A composed container is a declaration that expansion accepted, together with the containers it was
given as children.  From it come both the scope metadata of `scopegen.rs` and the code that a
resolver runs on the backing container: the slots it accesses, the constructors it calls, and the
child queries these make through the stored descriptors.
-/

namespace Systasis
namespace Scoped

open Syntax Build

/-! ## Declarations -/

/-- The name of an operation in `scoped::op`. -/
def Operation.text : Operation → String
  | .owned => "Owned"
  | .tryOwned => "TryOwned"
  | .cloneValue => "CloneValue"
  | .tryCloneValue => "TryCloneValue"
  | .uncheckedOwned => "UncheckedOwned"

def Operation.all : List Operation :=
  [.owned, .tryOwned, .cloneValue, .tryCloneValue, .uncheckedOwned]

/-- The type-level form of a recorded child call. -/
def ChildCall.of (call : Analysis.Call) : Option ChildCall :=
  (Operation.all.find? fun op => op.text == call.operation).map fun op =>
    ⟨Scoped.key call.child, pathOf call.path, Scoped.key call.interface, op⟩

/-- A declaration that expansion accepted, with the storage selected for each stored value and the
fresh values whose type implements `Default`. -/
structure Declaration (unchecked : Bool) where
  size : Nat
  children : List Analysis.ChildRegistration
  registrations : Fin size → Analysis.Registration
  out : Analysis.Expansion size
  expanded : Analysis.expandQueries children unchecked registrations = .ok out
  storage : Fin size → Storage
  default : Fin size → Bool

namespace Declaration

variable {unchecked : Bool} (declaration : Declaration unchecked)

def childName (p : Fin declaration.children.length) : String :=
  (declaration.children.get p).name.name

/-- The third component of `scopegen::keys`. -/
def maskKey (i : Fin declaration.size) : Key :=
  .pair (key ((declaration.out.looked i).ns.getD "default"))
    (key (declaration.out.looked i).interface)

def slot (i : Fin declaration.size) : SlotKind :=
  if (declaration.out.looked i).constructor.isSome then
    .factory (declaration.out.looked i).fallible
  else if (declaration.out.looked i).fresh then .fresh (declaration.default i)
  else
    match declaration.storage i with
    | .copy => .copy
    | .read => .read
    | .take => .take

/-- `scopegen::Entry` -/
def entry (i : Fin declaration.size) : Registration Node where
  ns := (declaration.out.looked i).ns
  interface := (declaration.out.looked i).interface
  ty := (declaration.out.looked i).ty
  slot := declaration.slot i
  consumed := (Graph.iter (declaration.out.consumed i)).map declaration.maskKey
  calls := (declaration.out.calls i).filterMap ChildCall.of

end Declaration

/-! ## Instances -/

/-- A container with the instances borrowed as its children, each under the restrictions its
descriptor is stored with. -/
inductive Instance (unchecked : Bool) where
  | mk (id : Nat) (declaration : Declaration unchecked)
      (restrictions : Fin declaration.children.length → Mask)
      (instances : Fin declaration.children.length → Instance unchecked)

namespace Instance

variable {unchecked : Bool}

def id : Instance unchecked → Nat
  | .mk id _ _ _ => id

def declaration : Instance unchecked → Declaration unchecked
  | .mk _ declaration _ _ => declaration

def restrictions : (inst : Instance unchecked) → Fin inst.declaration.children.length → Mask
  | .mk _ _ restrictions _ => restrictions

def instances :
    (inst : Instance unchecked) → Fin inst.declaration.children.length → Instance unchecked
  | .mk _ _ _ instances => instances

/-- The position of a child in the tuple `_children`. -/
def position (inst : Instance unchecked) (name : String) :
    Option (Fin inst.declaration.children.length) :=
  (List.finRange _).find? fun p => inst.declaration.childName p == name

/-- What trait selection sees of an instance. -/
def container : Instance unchecked → Container Node
  | .mk id declaration restrictions instances =>
      .mk id (List.ofFn declaration.entry)
        (List.ofFn fun p => .mk (declaration.childName p) (restrictions p) (instances p).container)

end Instance

/-- The instance at a child path. -/
inductive At {unchecked : Bool} : Instance unchecked → List Key → Instance unchecked → Prop
  | here (inst : Instance unchecked) : At inst [] inst
  | child {inst node : Instance unchecked} {place : List Key}
      (p : Fin inst.declaration.children.length) :
      At (inst.instances p) place node → At inst (key (inst.declaration.childName p) :: place) node

/-! ## Descriptors -/

/-- `__systasis_Scope` -/
inductive Descriptor (unchecked : Bool) where
  | mk (backing : Instance unchecked) (restrictions : Mask)
      (children : Fin backing.declaration.children.length → Descriptor unchecked)

variable {unchecked : Bool}

/-- `AsScope::<R>::scope`, with the children that `__systasis_ScopeChildren::restricted` rescopes. -/
def Instance.scope : Mask → Instance unchecked → Descriptor unchecked
  | mask, .mk id declaration restrictions instances =>
      .mk (.mk id declaration restrictions instances) mask fun p =>
        (instances p).scope
          (.union (restrictions p) (mask.forChild (key (declaration.childName p))))

/-- The descriptor a container stores for a child. -/
def Instance.stored (inst : Instance unchecked) (p : Fin inst.declaration.children.length) :
    Descriptor unchecked :=
  (inst.instances p).scope (inst.restrictions p)

namespace Descriptor

def backing : Descriptor unchecked → Instance unchecked
  | .mk backing _ _ => backing

def restrictions : Descriptor unchecked → Mask
  | .mk _ restrictions _ => restrictions

def children :
    (d : Descriptor unchecked) → Fin d.backing.declaration.children.length → Descriptor unchecked
  | .mk _ _ children => children

/-- `ReScope::<More>::rescope` -/
def rescope (more : Mask) (d : Descriptor unchecked) : Descriptor unchecked :=
  d.backing.scope (.union d.restrictions more)

/-- The accessor of a child. -/
def accessor (name : String) (d : Descriptor unchecked) : Option (Descriptor unchecked) :=
  (d.backing.position name).map d.children

end Descriptor

/-- A step from one descriptor to another. -/
inductive Step where
  | accessor (name : String)
  | rescope (more : Mask)

def Step.apply (d : Descriptor unchecked) : Step → Option (Descriptor unchecked)
  | .accessor name => d.accessor name
  | .rescope more => some (d.rescope more)

def Descriptor.follow (d : Descriptor unchecked) (steps : List Step) :
    Option (Descriptor unchecked) :=
  steps.foldlM Step.apply d

/-- The child path that steps lead along. -/
def placeOf (steps : List Step) : List Key :=
  steps.filterMap fun step =>
    match step with
    | .accessor name => some (key name)
    | .rescope _ => none

/-! ## Executions -/

/-- A registration of an instance. -/
structure Target (unchecked : Bool) where
  node : Instance unchecked
  index : Fin node.declaration.size

namespace Target

def registration (target : Target unchecked) : Analysis.Registration :=
  target.node.declaration.out.looked target.index

def maskKey (target : Target unchecked) : Key :=
  target.node.declaration.maskKey target.index

def address (target : Target unchecked) : Address :=
  ⟨target.node.id, target.index⟩

end Target

/-- `Resolve::resolve` on a descriptor: each selected implementation forwards, until a resolver calls
the method of its registration on the backing container. -/
inductive Dispatches (op : Operation) (k : Key) :
    Instance unchecked → Mask → PathTy → Target unchecked → Prop
  -- The resolver itself.
  | leaf {inst : Instance unchecked} {mask : Mask} {namespaceKey : Option Key}
      {j : Fin inst.declaration.size} :
      implementations unchecked mask (.here namespaceKey) k op inst.container = [.leaf j] →
        Dispatches op k inst mask (.here namespaceKey) ⟨inst, j⟩
  -- A namespace spelled as a segment forwards to the same container.
  | segment {inst : Instance unchecked} {mask : Mask} {child : Key} {rest : PathTy} {name : String}
      {target : Target unchecked} :
      implementations unchecked mask (.there child rest) k op inst.container = [.segment name] →
        Dispatches op k inst mask (.here (hereOf name)) target →
          Dispatches op k inst mask (.there child rest) target
  -- A child forwards with the restrictions it is stored with and those meant for it.
  | child {inst : Instance unchecked} {mask : Mask} {child : Key} {rest : PathTy}
      {p : Fin inst.declaration.children.length} {target : Target unchecked} :
      implementations unchecked mask (.there child rest) k op inst.container = [.child p] →
        Dispatches op k (inst.instances p)
          (.union (inst.restrictions p) (mask.forChild (key (inst.declaration.childName p)))) rest
          target →
          Dispatches op k inst mask (.there child rest) target

/-- A query in the constructor of a registration: of a registration beside it, or of one that a
stored child descriptor leads to. -/
inductive Asks : (inst : Instance unchecked) → Fin inst.declaration.size → Target unchecked →
    Wiring.Method → Prop
  | sibling {inst : Instance unchecked} {i j : Fin inst.declaration.size}
      {method : Wiring.Method} :
      Analysis.Requests inst.declaration.out i j method → Asks inst i ⟨inst, j⟩ method
  | child {inst : Instance unchecked} {i : Fin inst.declaration.size} {closure : Node}
      {call : Analysis.Call} {op : Operation} {p : Fin inst.declaration.children.length}
      {target : Target unchecked} :
      closure ∈ (inst.declaration.registrations i).constructor →
        call ∈ Analysis.childCalls inst.declaration.children closure → op.text = call.operation →
        inst.position call.child = some p →
        Dispatches op (key call.interface) (inst.instances p) (inst.restrictions p)
          (pathOf call.path) target →
          Asks inst i target op.slotMethod

section Runs

variable {V C : Type}

/-- The slots after a method has accessed one of them. -/
def accessed (slots : Address → Contents V C) (address : Address) (method : Wiring.Method) :
    Address → Contents V C :=
  Function.update slots address (access method (slots address)).2

/-- What can happen while a constructor runs: any sequence of the queries in its code, stopped
anywhere, each of them an access or a run of the constructor it asks for. -/
inductive Runs : (inst : Instance unchecked) → Fin inst.declaration.size →
    (Address → Contents V C) → (Address → Contents V C) → Prop
  | stop (inst : Instance unchecked) (i : Fin inst.declaration.size)
      (slots : Address → Contents V C) : Runs inst i slots slots
  | access {inst : Instance unchecked} {i : Fin inst.declaration.size} {target : Target unchecked}
      {method : Wiring.Method} {slots slots' : Address → Contents V C} :
      Asks inst i target method → target.registration.constructor = none →
        Runs inst i (accessed slots target.address method) slots' → Runs inst i slots slots'
  | construct {inst : Instance unchecked} {i : Fin inst.declaration.size}
      {target : Target unchecked} {method : Wiring.Method}
      {slots slots' slots'' : Address → Contents V C} :
      Asks inst i target method → target.registration.constructor.isSome →
        Runs target.node target.index slots slots' → Runs inst i slots' slots'' →
          Runs inst i slots slots''

/-- The method of a registration, executed on its container. -/
inductive Performs (op : Operation) (target : Target unchecked) :
    (Address → Contents V C) → (Address → Contents V C) → Prop
  | access {slots : Address → Contents V C} : target.registration.constructor = none →
      Performs op target slots (accessed slots target.address op.slotMethod)
  | construct {slots slots' : Address → Contents V C} :
      target.registration.constructor.isSome → Runs target.node target.index slots slots' →
        Performs op target slots slots'

/-- Slots as finished builds leave them, at every place of a tree. -/
def Stands (inst : Instance unchecked) (slots : Address → Contents V C) : Prop :=
  ∀ place node, At inst place node →
    Analysis.Built node.declaration.out fun j => slots ⟨node.id, j⟩

end Runs

/-- The resolver methods and the implementations of `Resolve` and `UnsafeResolve` whose where-clauses
hold for a descriptor, with the registration whose method they call. -/
inductive Offers (d : Descriptor unchecked) : Operation → Target unchecked → Prop
  | method {ns : Option String} {interface : String} {op : Operation}
      {j : Fin d.backing.declaration.size} :
      method unchecked ns interface op (d.backing.container, d.restrictions) =
        some ⟨d.backing.id, j⟩ → Offers d op ⟨d.backing, j⟩
  | resolve {path : PathTy} {k : Key} {op : Operation} {target : Target unchecked} :
      Dispatches op k d.backing d.restrictions path target → Offers d op target

end Scoped
end Systasis
