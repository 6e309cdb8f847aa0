import ArenaLisp.Environment

namespace ArenaLisp

/-!
# Bindings

Which handles an environment holds, said through the look-up of names.  The names
of an environment are distinct, so every binding is found under its name and the
order of the bindings decides nothing.
-/

namespace Environment

/-- With distinct names, what is bound under a name is what the look-up finds. -/
theorem lookup_eq_some_iff
    {bindings : List (String × Handle)}
    (distinct : (bindings.map Prod.fst).Nodup)
    {name : String}
    {value : Handle} :
    bindings.lookup name = some value ↔ (name, value) ∈ bindings := by
  induction bindings with
  | nil =>
      simp
  | cons first rest inductionHypothesis =>
      obtain ⟨bound, old⟩ := first
      simp only [List.map_cons, List.nodup_cons] at distinct
      by_cases sameName : name = bound
      · subst sameName
        have notInRest : (name, value) ∉ rest :=
          fun member => distinct.1 (List.mem_map_of_mem member)
        simp [notInRest, eq_comm]
      · have notFirst : (name == bound) = false :=
          beq_false_of_ne sameName
        simp [List.lookup_cons, notFirst, inductionHypothesis distinct.2, sameName]

theorem get?_eq_some_iff
    {environment : Environment}
    {name : String}
    {value : Handle} :
    environment.get? name = some value ↔ (name, value) ∈ environment.bindings :=
  lookup_eq_some_iff environment.namesNodup

/-- The bound handles are the ones that some name is bound to. -/
theorem mem_values_iff
    {environment : Environment}
    {value : Handle} :
    value ∈ environment.values ↔ ∃ name, environment.get? name = some value := by
  simp only [values, List.mem_map, get?_eq_some_iff]
  constructor
  · rintro ⟨⟨name, bound⟩, member, rfl⟩
    exact ⟨name, member⟩
  · rintro ⟨name, member⟩
    exact ⟨(name, value), member, rfl⟩

theorem mem_values_of_get?
    {environment : Environment}
    {name : String}
    {value : Handle}
    (found : environment.get? name = some value) :
    value ∈ environment.values :=
  mem_values_iff.mpr ⟨name, found⟩

/-- A definition adds no handle but its own value. -/
theorem mem_values_define
    {environment : Environment}
    {name : String}
    {value other : Handle}
    (member : other ∈ (environment.define name value).values) :
    other = value ∨ other ∈ environment.values := by
  obtain ⟨found, bound⟩ := mem_values_iff.mp member
  rw [get?_define] at bound
  by_cases sameName : found = name
  · simp only [sameName, ↓reduceIte, Option.some.injEq] at bound
    exact .inl bound.symm
  · simp only [sameName, ↓reduceIte] at bound
    exact .inr (mem_values_of_get? bound)

/-- After a purge no name is bound to the handle, and every other binding is there still. -/
theorem get?_purge
    (environment : Environment)
    (name : String)
    (value : Handle) :
    (environment.purge value).get? name =
      (environment.get? name).filter fun bound => bound ≠ value := by
  apply Option.ext
  intro bound
  rw [get?_eq_some_iff, purge, List.mem_filter, ← get?_eq_some_iff, Option.filter_eq_some_iff]

theorem mem_values_purge
    {environment : Environment}
    {value other : Handle}
    (member : other ∈ (environment.purge value).values) :
    other ∈ environment.values ∧ other ≠ value := by
  obtain ⟨name, bound⟩ := mem_values_iff.mp member
  rw [get?_purge, Option.filter_eq_some_iff] at bound
  exact ⟨mem_values_of_get? bound.1, of_decide_eq_true bound.2⟩

/-- Purging a handle that no name is bound to removes nothing. -/
theorem purge_eq_self
    {environment : Environment}
    {value : Handle}
    (unbound : value ∉ environment.values) :
    environment.purge value = environment := by
  have kept :
      environment.bindings.filter (fun binding => decide (binding.2 ≠ value)) =
        environment.bindings := by
    refine List.filter_eq_self.mpr fun binding member => ?_
    simp only [ne_eq, decide_not, Bool.not_eq_eq_eq_not, Bool.not_true, decide_eq_false_iff_not]
    rintro rfl
    exact unbound (List.mem_map_of_mem member)
  cases environment
  simpa [purge] using kept

end Environment

end ArenaLisp
