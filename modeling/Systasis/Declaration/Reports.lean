import Systasis.Declaration.Routing

/-!
# Reports — the error a declared container reports

Model of the error machinery in `declaration_errors.rs` and `declaration.rs`.  The type of each
source is inferred; a build whose sources are all of the never type reports the never type itself,
any other build reports `InitializationErrors`.  The first case converts by `unreachable!`.
-/

namespace Systasis
namespace Declaration

variable {F : Type}

/-! ## Kinds -/

/-- The types of errors, as inference finds them. -/
inductive ErrorType where
  /-- `<fn() -> ! as FunctionOutput>::Output` -/
  | never
  | named (name : String)
  /-- `InitializationErrors<E0, ..>` -/
  | initialization (errors : List ErrorType)

/-- `Impossible`, or `Possible<E>` -/
inductive SourceKind where
  | impossible
  | possible (error : ErrorType)

/-- `Infer<E>::kind`: the inherent method of `Infer<Never>` comes before that of `ActualError`. -/
def ErrorType.kind : ErrorType → SourceKind
  | .never => .impossible
  | error => .possible error

/-- `<_ as ErrorKind>::Error` -/
def SourceKind.error : SourceKind → ErrorType
  | .impossible => .never
  | .possible error => error

/-- `<_ as ErrorKind>::NEVER` -/
def SourceKind.never : SourceKind → Bool
  | .impossible => true
  | .possible _ => false

/-- What `__systasis_error_kind` returns: the kind of the container's own result, or
`Kinds(K0, ..)`. -/
inductive Kind where
  | container (kind : SourceKind)
  | sources (kinds : List SourceKind)

def Kind.error : Kind → ErrorType
  | .container kind => kind.error
  | .sources kinds => .initialization (kinds.map SourceKind.error)

def Kind.never : Kind → Bool
  | .container kind => kind.never
  | .sources kinds => kinds.all SourceKind.never

/-- The error type of the container's result.  Every `propagate_k` ties it to the types of all the
sources; without sources nothing constrains it, and it falls back to the never type. -/
def Sources.inferred (s : Sources) (errors : Nat → ErrorType) : ErrorType :=
  if s.count = 0 then .never else .initialization ((List.range s.count).map errors)

/-- `Sources::kind`, at the types inferred for the sources. -/
def Sources.kind (s : Sources) (errors : Nat → ErrorType) : Kind :=
  if s.count = 0 then .container (s.inferred errors).kind
  else .sources ((List.range s.count).map fun k => (errors k).kind)

/-- `Error`, which is `<Choice as ErrorSelection<NativeError>>::Error`. -/
def Kind.selected (kind : Kind) : ErrorType :=
  if kind.never then .never else kind.error

/-! ## Building -/

section Building

variable {B J S : Type}

/-- `InitializationErrors::source` -/
def Value.reported : Value B → Option (Value B)
  | .source _ error => some error
  | _ => none

/-- What `SystasisContainer::build` does. -/
inductive Report (B : Type) where
  | container (entries : List (Entry B))
  | error (error : Value B)
  | panic

/-- `__systasis_build().map_err(Choice::convert)` -/
def Kind.convert (kind : Kind) : Built B Unit → Report B
  | .done entries => .container entries
  -- `Select<true>` holds `unreachable!`.
  | .failed () error => if kind.never then .panic else .error error

/-- `SystasisContainer::build`, for initializers that have been visited. -/
def build (semantics : Semantics F B J S) (fuel : Nat) (kind : Kind) (rewritten : List (Expr F))
    (s : S) : Option (Report B × S) :=
  (runAll semantics fuel (fun _ => ()) rewritten 0 s).map fun (built, s) => (kind.convert built, s)

/-- The values of a type of errors.  The never type has none. -/
inductive HasType (named : String → Value B → Prop) : ErrorType → Value B → Prop
  | named {name : String} {v : Value B} : named name v → HasType named (.named name) v
  | source {errors : List ErrorType} {k : Nat} {error : ErrorType} {v : Value B} :
      errors[k]? = some error → HasType named error v →
        HasType named (.initialization errors) (.source k v)

/-- The sources have the types inferred for them: an initializer fails at the `k`-th site with an
error of the `k`-th type. -/
def WellTyped (semantics : Semantics F B J S) (fuel : Nat) (named : String → Value B → Prop)
    (errors : Nat → ErrorType) (originals : List (Expr F)) : Prop :=
  ∀ k site error s s', (leavingAll false originals [] 0)[k]? = some site →
    runAll semantics fuel id originals 0 s = some (.failed site error, s') →
      HasType named (errors k) error

/-- What a declared container reports of a run of its initializers as written. -/
def reportOf (originals : List (Expr F)) : Built B (List Nat) → Report B
  | .done entries => .container entries
  | .failed site error => .error (.source ((leavingAll false originals [] 0).idxOf site) error)

end Building

/-! ## Results -/

theorem ErrorType.error_kind (error : ErrorType) : error.kind.error = error := by
  cases error <;> rfl

theorem ErrorType.never_kind {error : ErrorType} : error.kind.never = true ↔ error = .never := by
  cases error <;> simp [ErrorType.kind, SourceKind.never]

/-- `ErrorKind::marker(&kind)` has the type of the container's result. -/
theorem Sources.kind_error (s : Sources) (errors : Nat → ErrorType) :
    (s.kind errors).error = s.inferred errors := by
  unfold Sources.kind
  by_cases hcount : s.count = 0
  · rw [if_pos hcount]
    exact ErrorType.error_kind _
  · rw [if_neg hcount, Sources.inferred, if_neg hcount]
    simp only [Kind.error, List.map_map, ErrorType.initialization.injEq]
    exact List.map_congr_left fun k _ => ErrorType.error_kind (errors k)

theorem Sources.kind_never {s : Sources} {errors : Nat → ErrorType} :
    (s.kind errors).never = true ↔ ∀ k < s.count, errors k = .never := by
  unfold Sources.kind
  by_cases hcount : s.count = 0
  · simp [hcount, Sources.inferred, Kind.never, ErrorType.kind, SourceKind.never]
  · rw [if_neg hcount]
    simp [Kind.never, ErrorType.never_kind]

theorem Sources.selected_never {s : Sources} {errors : Nat → ErrorType} :
    (s.kind errors).selected = .never ↔ ∀ k < s.count, errors k = .never := by
  rw [← Sources.kind_never]
  constructor
  · intro hselected
    by_contra hnever
    -- An error that is kept is not the never type: it would have been selected with no source.
    rw [Kind.selected, if_neg hnever, Sources.kind_error, Sources.inferred] at hselected
    split at hselected
    · rename_i hcount
      exact hnever (Sources.kind_never.2 (by simp [hcount]))
    · cases hselected
  · intro hnever
    rw [Kind.selected, if_pos hnever]

section Building

variable {B J S : Type} {named : String → Value B → Prop}

/-- A variant whose argument has the type of its source is an error of the build. -/
theorem Sources.source_hasType {s : Sources} {errors : Nat → ErrorType} {k : Nat} {error : Value B}
    (hk : k < s.count) (h : HasType named (errors k) error) :
    (s.kind errors).never = false ∧
      HasType named (s.kind errors).selected (.source k error) := by
  have hnever : ¬(s.kind errors).never = true := by
    intro hnever
    rw [Sources.kind_never.1 hnever k hk] at h
    cases h
  have hcount : s.count ≠ 0 := by omega
  rw [Kind.selected, if_neg hnever, Sources.kind_error, Sources.inferred, if_neg hcount]
  refine ⟨Bool.eq_false_iff.2 hnever, .source ?_ h⟩
  simp [hk]

/-- A declared container is built as its initializers run.  Where they fail, the error reported is
the variant of the source that failed and gives back the original error; the declared error type has
that error, and is the never type exactly when no source has an error.  The conversion written as
unreachable is never reached. -/
theorem declaration_reports (initializers : List (Initializer F))
    (htry : leavingTryAll (initializers.map Initializer.body) [] 0 = [])
    (semantics : Semantics F B J S) (fuel : Nat) (errors : Nat → ErrorType)
    (htyped : WellTyped semantics fuel named errors (initializers.map Initializer.body)) :
    let originals := initializers.map Initializer.body
    let rewritten := visitAll originals ⟨0⟩
    let kind := rewritten.2.kind errors
    kind.error = rewritten.2.inferred errors ∧
      (kind.selected = .never ↔
        ∀ k < (leavingAll false originals [] 0).length, errors k = .never) ∧
      (∀ s, build semantics fuel kind rewritten.1 s =
        (runAll semantics fuel id originals 0 s).map fun (built, s) =>
          (reportOf originals built, s)) ∧
      ∀ s s' error, build semantics fuel kind rewritten.1 s = some (.error error, s') →
        HasType named kind.selected error ∧ ∃ site original, error.reported = some original ∧
          runAll semantics fuel id originals 0 s = some (.failed site original, s') := by
  intro originals rewritten kind
  have hcount : rewritten.2.count = (leavingAll false originals [] 0).length := by
    have hvisited := @visitAll_count F originals [] (fun child _ => visit_count child) ⟨0⟩ 0 htry
    rwa [Nat.zero_add] at hvisited
  have hnodup : (leavingAll false originals [] 0).Nodup :=
    leavingAll_nodup (fun child _ => leaving_nodup child false) 0
  have hrun := fun s => @visitAll_runAll F B J S semantics fuel originals ⟨0⟩ 0
    (fun site => (leavingAll false originals [] 0).idxOf site) s htry (map_idxOf_eq_range hnodup)
  -- A failure is at one of the sites, whose type has the error.
  have hfailed : ∀ {s s' site error},
      runAll semantics fuel id originals 0 s = some (.failed site error, s') →
        kind.never = false ∧ HasType named kind.selected
          (.source ((leavingAll false originals [] 0).idxOf site) error) := by
    intro s s' site error hfails
    have hsite := runAll_site originals 0 s s' site error hfails
    have hk := List.idxOf_lt_length_of_mem hsite
    apply Sources.source_hasType (hcount ▸ hk)
    exact htyped _ site error s s'
      (List.getElem?_eq_some_iff.2 ⟨hk, List.getElem_idxOf _⟩) hfails
  have hbuild : ∀ s, build semantics fuel kind rewritten.1 s =
      (runAll semantics fuel id originals 0 s).map fun (built, s) =>
        (reportOf originals built, s) := by
    intro s
    rw [build, hrun, Option.map_map]
    cases horiginal : runAll semantics fuel id originals 0 s with
    | none => rfl
    | some result =>
        rcases result with ⟨built, s'⟩
        cases built with
        | done entries => rfl
        | failed site error =>
            simp [Built.route, Kind.convert, reportOf, (hfailed horiginal).1]
  refine ⟨Sources.kind_error _ _, hcount ▸ Sources.selected_never, hbuild, ?_⟩
  intro s s' error hreport
  rw [hbuild] at hreport
  rcases Option.map_eq_some_iff.1 hreport with ⟨⟨built, t⟩, horiginal, heq⟩
  cases built with
  | done entries => cases heq
  | failed site original =>
      cases heq
      exact ⟨(hfailed horiginal).2, site, original, rfl, horiginal⟩

/-- A call that fails with the error 7. -/
def failing : Semantics Unit Nat Unit Unit where
  next _ _ s := (.finish (.value (.err (.base 7))), s)
  delay _ _ s := (.value (.base 0), s)

/-- `register_value!(call()?: Type as Interface)`, where the call fails. -/
theorem declaration_reports_failing :
    let kind := (Sources.mk 1).kind fun _ => .named "Failure"
    build failing 1 kind (visitAll [.question (.form () [])] ⟨0⟩).1 () =
        some (.error (.source 0 (.base 7)), ()) ∧
      HasType (fun name v => name = "Failure" ∧ v = .base 7) kind.selected
        (.source 0 (.base 7) : Value Nat) := by
  have hreports := @declaration_reports Unit Nat Unit Unit
    (fun name v => name = "Failure" ∧ v = .base 7) [⟨.question (.form () []), rfl⟩] rfl failing 1
    (fun _ => .named "Failure") (by
      intro k site error s s' _ hfails
      cases hfails
      exact .named ⟨rfl, rfl⟩)
  have hbuild := hreports.2.2.1 ()
  exact ⟨hbuild, (hreports.2.2.2 () () _ hbuild).1⟩

end Building

end Declaration
end Systasis
