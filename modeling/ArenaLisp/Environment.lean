import ArenaLisp.Handle

namespace ArenaLisp

/-!
# The environment

One flat table of bindings, shared by the whole machine.  A name is bound at
most once; the order of the bindings is the order in which names were first
bound.
-/

/-- A finite table from names to handles, in which no name occurs twice. -/
structure Environment where
  bindings : List (String × Handle)
  namesNodup : (bindings.map Prod.fst).Nodup
  deriving Repr, DecidableEq

namespace Environment

/-- The environment without bindings. -/
def empty : Environment where
  bindings := []
  namesNodup := List.nodup_nil

/-- The bound names. -/
def names (environment : Environment) : List String :=
  environment.bindings.map Prod.fst

/-- The handles that names are bound to, one for each binding. -/
def values (environment : Environment) : List Handle :=
  environment.bindings.map Prod.snd

/-- The number of bindings. -/
def size (environment : Environment) : Nat :=
  environment.bindings.length

/-- Whether no name is bound. -/
def isEmpty (environment : Environment) : Bool :=
  environment.bindings.isEmpty

/-- The handle that a name is bound to. -/
def get? (environment : Environment) (name : String) : Option Handle :=
  environment.bindings.lookup name

/-- Replaces the binding of a name where it stands, or adds one at the end. -/
def rebind (name : String) (value : Handle) :
    List (String × Handle) → List (String × Handle)
  | [] => [(name, value)]
  | (bound, old) :: rest =>
      if bound = name then
        (name, value) :: rest
      else
        (bound, old) :: rebind name value rest

/-- Rebinding adds no name but the one that is bound. -/
theorem mem_names_rebind
    {name other : String}
    {value : Handle}
    {bindings : List (String × Handle)}
    (member : other ∈ (rebind name value bindings).map Prod.fst) :
    other = name ∨ other ∈ bindings.map Prod.fst := by
  induction bindings with
  | nil =>
      simpa [rebind] using member
  | cons first rest inductionHypothesis =>
      obtain ⟨bound, old⟩ := first
      by_cases sameName : bound = name
      · simp only [rebind, sameName, ↓reduceIte, List.map_cons, List.mem_cons] at member ⊢
        exact member.elim Or.inl fun inRest => Or.inr (Or.inr inRest)
      · simp only [rebind, sameName, ↓reduceIte, List.map_cons, List.mem_cons] at member ⊢
        rcases member with isBound | inRest
        · exact Or.inr (Or.inl isBound)
        · exact (inductionHypothesis inRest).imp_right Or.inr

/-- Rebinding keeps the names distinct. -/
theorem nodup_rebind
    {name : String}
    {value : Handle}
    {bindings : List (String × Handle)}
    (distinct : (bindings.map Prod.fst).Nodup) :
    ((rebind name value bindings).map Prod.fst).Nodup := by
  induction bindings with
  | nil =>
      simp [rebind]
  | cons first rest inductionHypothesis =>
      obtain ⟨bound, old⟩ := first
      simp only [List.map_cons, List.nodup_cons] at distinct
      by_cases sameName : bound = name
      · subst sameName
        simpa [rebind] using distinct
      · simp only [rebind, sameName, ↓reduceIte, List.map_cons, List.nodup_cons]
        refine ⟨fun member => ?_, inductionHypothesis distinct.2⟩
        rcases mem_names_rebind member with isName | inRest
        · exact sameName isName
        · exact distinct.1 inRest

/-- The environment in which a name is bound to a value, whatever it was bound to. -/
def define (environment : Environment) (name : String) (value : Handle) : Environment where
  bindings := rebind name value environment.bindings
  namesNodup := nodup_rebind environment.namesNodup

/-- The environment without the bindings of a handle. -/
def purge (environment : Environment) (value : Handle) : Environment where
  bindings := environment.bindings.filter fun binding => binding.2 ≠ value
  namesNodup :=
    environment.namesNodup.sublist (List.filter_sublist.map Prod.fst)

/-- A look-up after rebinding finds the new value under the name, and the old ones elsewhere. -/
theorem lookup_rebind
    (name other : String)
    (value : Handle)
    (bindings : List (String × Handle)) :
    (rebind name value bindings).lookup other =
      if other = name then some value else bindings.lookup other := by
  induction bindings with
  | nil =>
      by_cases sameName : other = name
      · simp [rebind, sameName]
      · simp [rebind, List.lookup_cons, beq_false_of_ne sameName, sameName]
  | cons first rest inductionHypothesis =>
      obtain ⟨bound, old⟩ := first
      by_cases boundHere : bound = name
      · subst boundHere
        by_cases sameName : other = bound
        · simp [rebind, sameName]
        · simp [rebind, List.lookup_cons, beq_false_of_ne sameName, sameName]
      · by_cases sameName : other = name
        · subst sameName
          have notFirst : (other == bound) = false :=
            beq_false_of_ne fun same => boundHere same.symm
          simpa [rebind, boundHere, List.lookup_cons, notFirst] using inductionHypothesis
        · simp only [sameName, ↓reduceIte] at inductionHypothesis
          simp [rebind, boundHere, List.lookup_cons, inductionHypothesis, sameName]

/-- After a definition the name has the new value, and every other name its old one. -/
theorem get?_define
    (environment : Environment)
    (name other : String)
    (value : Handle) :
    (environment.define name value).get? other =
      if other = name then some value else environment.get? other :=
  lookup_rebind name other value environment.bindings

end Environment

end ArenaLisp
