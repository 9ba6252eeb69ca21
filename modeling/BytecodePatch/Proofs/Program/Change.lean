import BytecodePatch.Program.Basic

/-!
# Changing methods of a program

A change of methods leaves everything else of a program as it is: the modules, their types
and the fields, all names and all orders. It is given by what becomes of the method at each
triple of numbers. Changing the method at one place is such a change.
-/

namespace BytecodePatch

/-- The numbers of the module, the type and the member. -/
def MemberPlace.numbers (place : MemberPlace) : Nat × Nat × Nat :=
  (place.owner.module.toNat, place.owner.index.toNat, place.index.toNat)

theorem MemberPlace.numbers_inj {place other : MemberPlace} :
    place.numbers = other.numbers ↔ place = other := by
  obtain ⟨⟨module, type⟩, index⟩ := place
  obtain ⟨⟨otherModule, otherType⟩, otherIndex⟩ := other
  simp only [numbers, Prod.mk.injEq, UInt32.toNat_inj, mk.injEq, TypePlace.mk.injEq, and_assoc]

/-- The method with a new body committed, if there is one for it. -/
def MethodDecl.withBody (method : MethodDecl) : Option Body → MethodDecl
  | some body => { method with body := some body, state := .committed }
  | none => method

private theorem modify_eq_mapIdx
    {α : Type} (items : List α) (number : Nat) (change : α → α) :
    items.modify number change =
      items.mapIdx fun index item => if index = number then change item else item := by
  apply List.ext_getElem?
  intro index
  rw [List.getElem?_modify, List.getElem?_mapIdx]
  by_cases here : index = number
  · simp only [here, if_true, Option.map_eq_map]
  · simp only [if_neg here, if_neg (Ne.symm here)]
    rfl

private theorem mapIdx_eq_self
    {α : Type} {items : List α} {change : Nat → α → α}
    (same : ∀ index item, change index item = item) :
    items.mapIdx change = items := by
  calc
    items.mapIdx change = items.mapIdx fun _ item => item :=
      congrArg (List.mapIdx · items) (funext fun index => funext fun item => same index item)
    _ = items := by
      apply List.ext_getElem?
      intro index
      simp [List.getElem?_mapIdx]

namespace Program

/-- The program with every method changed, by its numbers. -/
def mapMethods
    (program : Program) (change : Nat × Nat × Nat → MethodDecl → MethodDecl) : Program :=
  { program with
    modules := program.modules.mapIdx fun module declared =>
      { declared with
        types := declared.types.mapIdx fun type declared =>
          { declared with
            methods := declared.methods.mapIdx fun index method =>
              change (module, type, index) method } } }

theorem mapMethods_eq_self
    {program : Program} {change : Nat × Nat × Nat → MethodDecl → MethodDecl}
    (same : ∀ numbers method, change numbers method = method) :
    program.mapMethods change = program := by
  obtain ⟨modules⟩ := program
  unfold mapMethods
  congr 1
  apply mapIdx_eq_self
  intro module declared
  congr 1
  apply mapIdx_eq_self
  intro type declared
  congr 1
  apply mapIdx_eq_self
  intro index method
  exact same _ method

theorem mapMethods_mapMethods
    (program : Program) (first second : Nat × Nat × Nat → MethodDecl → MethodDecl) :
    (program.mapMethods first).mapMethods second =
      program.mapMethods fun numbers method => second numbers (first numbers method) := by
  simp only [mapMethods, List.mapIdx_mapIdx, Function.comp_def]

/-- The method with given numbers. -/
def methodAt? (program : Program) (numbers : Nat × Nat × Nat) : Option MethodDecl := do
  let module ← program.modules[numbers.1]?
  let type ← module.types[numbers.2.1]?
  type.methods[numbers.2.2]?

theorem method?_eq (program : Program) (place : MemberPlace) :
    program.method? place = program.methodAt? place.numbers := by
  simp only [method?, type?, module?, methodAt?, MemberPlace.numbers, bind_assoc]

/-- After a change, the method with given numbers is the one before it, changed. -/
theorem methodAt?_mapMethods
    (program : Program) (change : Nat × Nat × Nat → MethodDecl → MethodDecl)
    (numbers : Nat × Nat × Nat) :
    (program.mapMethods change).methodAt? numbers =
      (program.methodAt? numbers).map (change numbers) := by
  unfold methodAt? mapMethods
  rw [List.getElem?_mapIdx]
  cases program.modules[numbers.1]? with
  | none => rfl
  | some module =>
      simp only [Option.map_some, Option.bind_eq_bind, Option.bind_some, List.getElem?_mapIdx]
      cases module.types[numbers.2.1]? with
      | none => rfl
      | some type => simp only [Option.map_some, Option.bind_some, List.getElem?_mapIdx]

/-- Changing the method at a place changes the one with its numbers. -/
theorem modifyMethod_eq
    (program : Program) (place : MemberPlace) (change : MethodDecl → MethodDecl) :
    program.modifyMethod place change =
      program.mapMethods fun numbers method =>
        if numbers = place.numbers then change method else method := by
  unfold modifyMethod mapMethods MemberPlace.numbers
  congr 1
  rw [modify_eq_mapIdx]
  congr 1
  funext module declared
  by_cases ownModule : module = place.owner.module.toNat
  · rw [if_pos ownModule]
    congr 1
    rw [modify_eq_mapIdx]
    congr 1
    funext type declared
    by_cases ownType : type = place.owner.index.toNat
    · rw [if_pos ownType]
      congr 1
      rw [modify_eq_mapIdx]
      simp only [ownModule, ownType, Prod.mk.injEq, true_and]
    · rw [if_neg ownType]
      simp only [ownType, Prod.mk.injEq, false_and, and_false, if_false]
      rw [mapIdx_eq_self fun _ _ => rfl]
  · rw [if_neg ownModule]
    simp only [ownModule, Prod.mk.injEq, false_and, if_false]
    rw [mapIdx_eq_self]
    intro type declared
    rw [mapIdx_eq_self fun _ _ => rfl]

end Program

end BytecodePatch
