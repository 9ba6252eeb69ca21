import BytecodePatch.Proofs.Program.Candidates
import BytecodePatch.Proofs.Program.Questions
import BytecodePatch.Proofs.Program.Signature
import Mathlib.Data.List.Flatten

/-!
# Forms of a signature

A method can be asked for by its name, by its name and its parameters, or with its return type
as well. Each form asks for everything that the form before it asks for, so that what fits it
is part of what fits the form before. The method itself fits every form. So a form finds the
method or too many symbols, among them the method, and once a form finds the method alone, so
does every form that asks for more.
-/

namespace BytecodePatch

/-- The signatures that a method can be asked for with, the least qualified first. -/
def MethodDecl.forms (method : MethodDecl) : List String :=
  [method.name, method.paramSignature, method.signature]

namespace Lookup

/-! ## Signatures that ask for more -/

/-- A signature asks for everything that another one asks for. -/
structure Narrows (wide narrow : Signature) : Prop where
  name : narrow.name = wide.name
  returnType : ∀ type, wide.returnType = some type → narrow.returnType = some type
  params : ∀ params, wide.params = some params → narrow.params = some params

namespace Narrows

variable {wide narrow : Signature}

theorem fitsMethod
    (narrows : Narrows wide narrow) {method : MethodDecl}
    (fits : fitsMethod narrow method = true) :
    fitsMethod wide method = true := by
  simp only [Lookup.fitsMethod, Bool.and_eq_true, beq_iff_eq, Option.all_eq_true] at fits ⊢
  obtain ⟨⟨name, returnType⟩, params⟩ := fits
  refine ⟨⟨name.trans narrows.name, ?_⟩, ?_⟩
  · intro type wanted
    exact returnType type (narrows.returnType type wanted)
  · intro wantedParams wanted
    exact params wantedParams (narrows.params wantedParams wanted)

theorem fitsField
    (narrows : Narrows wide narrow) {field : FieldDecl}
    (fits : fitsField narrow field = true) :
    fitsField wide field = true := by
  simp only [Lookup.fitsField, Bool.and_eq_true, beq_iff_eq, Option.all_eq_true,
    Option.isNone_iff_eq_none] at fits ⊢
  obtain ⟨⟨name, returnType⟩, noParams⟩ := fits
  refine ⟨⟨name.trans narrows.name, ?_⟩, ?_⟩
  · intro type wanted
    exact returnType type (narrows.returnType type wanted)
  · cases wanted : wide.params with
    | none => rfl
    | some params =>
        rw [narrows.params params wanted] at noParams
        cases noParams

/-- Items that are kept by a stronger condition are part of those kept by a weaker one. -/
private theorem filterMap_sublist
    {α β : Type} {strong weak : α → Bool} (weaker : ∀ item, strong item = true → weak item = true)
    (made : α → β) (items : List α) :
    (items.filterMap fun item => if strong item then some (made item) else none).Sublist
      (items.filterMap fun item => if weak item then some (made item) else none) := by
  induction items with
  | nil => exact .slnil
  | cons item items inductionHypothesis =>
      by_cases kept : strong item = true
      · simp only [List.filterMap_cons, kept, weaker item kept, if_true]
        exact inductionHypothesis.cons_cons _
      · by_cases keptNow : weak item = true
        · simp only [List.filterMap_cons, kept, keptNow, if_true]
          exact inductionHypothesis.cons _
        · simp only [List.filterMap_cons, kept, keptNow]
          exact inductionHypothesis

/-- Whatever kind of symbol is asked for, a signature that asks for more has no new
candidates. -/
theorem candidates_sublist
    {wideText narrowText : String}
    (narrows : Narrows (Signature.parse wideText) (Signature.parse narrowText))
    (program : Program) (kind : Kind) (type : String) :
    (candidates program ⟨kind, type, narrowText⟩).Sublist
      (candidates program ⟨kind, type, wideText⟩) := by
  unfold candidates
  split
  · exact List.Sublist.refl _
  · refine List.Sublist.flatMap_right _ ?_
    intro place _
    unfold membersAt
    split
    · exact .slnil
    · apply List.Sublist.append
      · split
        · exact filterMap_sublist (fun _ => narrows.fitsMethod) _ _
        · exact .slnil
      · split
        · exact filterMap_sublist (fun _ => narrows.fitsField) _ _
        · exact .slnil

end Narrows

/-! ## What a candidate is good for -/

variable {program : Program} {query : Query} {symbol : Symbol}

theorem search_eq_ok_iff :
    search program query = .ok symbol ↔ candidates program query = [symbol] := by
  unfold search
  split
  · simp_all
  · simp_all
  · rename_i several
    simpa using fun single => several symbol single

/-- A search with a candidate finds it, or more than one symbol, and then names it. -/
theorem search_of_mem_candidates (member : symbol ∈ candidates program query) :
    search program query = .ok symbol ∨
      ∃ names,
        search program query = .error (.ambiguousSymbol query.type query.member names) ∧
          program.nameOf symbol ∈ names := by
  cases found : candidates program query with
  | nil =>
      rw [found] at member
      cases member
  | cons first others =>
      rw [found] at member
      cases others with
      | nil =>
          obtain rfl := List.mem_singleton.mp member
          exact Or.inl (search_eq_ok_iff.mpr found)
      | cons second others =>
          refine Or.inr ⟨(first :: second :: others).map program.nameOf, ?_, ?_⟩
          · rw [search, found]
          · exact List.mem_map_of_mem member

/-- A method that fits is a candidate. -/
theorem mem_candidates_method
    {place : MemberPlace} {type : TypeDecl} {method : MethodDecl} {signature : String}
    (typeFound : program.type? place.owner = some type)
    (methodFound : program.method? place = some method)
    (fits : fitsMethod (Signature.parse signature) method = true) :
    .method place ∈ candidates program ⟨.method, type.name, signature⟩ := by
  obtain ⟨module, moduleFound, typeAt⟩ := Option.bind_eq_some_iff.mp typeFound
  have methodAt : type.methods[place.index.toNat]? = some method := by
    simpa [Program.method?, typeFound] using methodFound
  have named : place.owner ∈ program.typesNamed place.owner.module type.name := by
    rw [Program.typesNamed, moduleFound]
    exact List.mem_filterMap.mpr
      ⟨(place.owner.index, type), Program.mem_numbered typeAt, if_pos rfl⟩
  have loaded : place.owner ∈ program.allTypesNamed type.name :=
    List.mem_flatMap.mpr
      ⟨(place.owner.module, module), Program.mem_numbered moduleFound, named⟩
  rw [candidates, if_neg (by simp)]
  refine List.mem_flatMap.mpr ⟨place.owner, loaded, ?_⟩
  have fitting : .method place ∈ methodsOf place.owner type (Signature.parse signature) :=
    List.mem_filterMap.mpr ⟨(place.index, method), Program.mem_numbered methodAt, if_pos fits⟩
  simpa [membersAt, typeFound] using fitting

/-! ## The forms of a method -/

/-- Each form of a well-formed method asks for everything that the forms before it ask for. -/
theorem pairwise_narrows_forms {method : MethodDecl} (wellFormed : method.WellFormed) :
    method.forms.Pairwise fun wide narrow =>
      Narrows (Signature.parse wide) (Signature.parse narrow) := by
  have withParams :
      Narrows (Signature.parse method.name) (Signature.parse method.paramSignature) := by
    rw [Signature.parse_name wellFormed, Signature.parse_paramSignature wellFormed]
    exact ⟨rfl, nofun, nofun⟩
  have withAll : Narrows (Signature.parse method.name) (Signature.parse method.signature) := by
    rw [Signature.parse_name wellFormed, Signature.parse_signature wellFormed]
    exact ⟨rfl, nofun, nofun⟩
  have withReturnType :
      Narrows (Signature.parse method.paramSignature) (Signature.parse method.signature) := by
    rw [Signature.parse_paramSignature wellFormed, Signature.parse_signature wellFormed]
    exact ⟨rfl, nofun, fun _ => id⟩
  simp [MethodDecl.forms, withParams, withAll, withReturnType]

theorem fitsMethod_forms
    {method : MethodDecl} (wellFormed : method.WellFormed)
    {form : String} (member : form ∈ method.forms) :
    fitsMethod (Signature.parse form) method = true := by
  simp only [MethodDecl.forms, List.mem_cons, List.not_mem_nil, or_false] at member
  rcases member with rfl | rfl | rfl
  · simp [fitsMethod, Signature.parse_name wellFormed]
  · simp [fitsMethod, Signature.parse_paramSignature wellFormed]
  · simp [fitsMethod, Signature.parse_signature wellFormed]

/-- What the forms of a method find in a program, whatever a lookup was asked before. -/
structure FormsAgree
    (program : Program) (place : MemberPlace) (type : String) (method : MethodDecl) :
    Prop where
  finds :
    ∀ form ∈ method.forms, ∀ lookup,
      (ofProgram program).Reaches lookup →
        (lookup.ask ⟨.method, type, form⟩).1 = .ok (.method place) ∨
          ∃ names,
            (lookup.ask ⟨.method, type, form⟩).1 =
                .error (.ambiguousSymbol type form names) ∧
              type ++ "::" ++ method.paramSignature ∈ names
  narrows :
    method.forms.Pairwise fun wide narrow =>
      (candidates program ⟨.method, type, narrow⟩).Sublist
        (candidates program ⟨.method, type, wide⟩)
  settles :
    method.forms.Pairwise fun wide narrow =>
      ∀ earlier later,
        (ofProgram program).Reaches earlier →
          (ofProgram program).Reaches later →
            (earlier.ask ⟨.method, type, wide⟩).1 = .ok (.method place) →
              (later.ask ⟨.method, type, narrow⟩).1 = .ok (.method place)

/-- The forms of a well-formed method find it or are ambiguous between it and others, and a
form that finds it makes every more qualified form find it. -/
theorem formsAgree_of_wellFormed
    {place : MemberPlace} {type : TypeDecl} {method : MethodDecl}
    (typeFound : program.type? place.owner = some type)
    (methodFound : program.method? place = some method)
    (wellFormed : method.WellFormed) :
    FormsAgree program place type.name method := by
  have member :
      ∀ form ∈ method.forms,
        .method place ∈ candidates program ⟨.method, type.name, form⟩ := by
    intro form formMember
    exact mem_candidates_method typeFound methodFound (fitsMethod_forms wellFormed formMember)
  have named :
      program.nameOf (.method place) = type.name ++ "::" ++ method.paramSignature := by
    simp [Program.nameOf, Program.symbolName?, typeFound, methodFound]
  have narrows :
      method.forms.Pairwise fun wide narrow =>
        (candidates program ⟨.method, type.name, narrow⟩).Sublist
          (candidates program ⟨.method, type.name, wide⟩) :=
    (pairwise_narrows_forms wellFormed).imp fun narrower =>
      narrower.candidates_sublist program .method type.name
  refine ⟨?_, narrows, ?_⟩
  · intro form formMember lookup reached
    rw [reached.ask_eq_search, ← named]
    exact search_of_mem_candidates (member form formMember)
  · refine narrows.imp_of_mem ?_
    intro wide narrow _ narrowMember contained earlier later earlierReached laterReached found
    rw [earlierReached.ask_eq_search, search_eq_ok_iff] at found
    rw [laterReached.ask_eq_search, search_eq_ok_iff]
    rw [found] at contained
    -- the narrower candidates are part of one symbol, and not empty
    rcases List.sublist_singleton.mp contained with none | single
    · have present := member narrow narrowMember
      rw [none] at present
      cases present
    · exact single

namespace Overloads

/-- A method whose parameter has a comma, and whose return type has a space. -/
def readText : MethodDecl :=
  ⟨"Read", "modreq Text", ["Map<Key[,],Value>"], none, [], .unpatched⟩

/-- The same method with another return type. -/
def readCount : MethodDecl :=
  { readText with returnType := "Count" }

/-- The same method without parameters. -/
def readAll : MethodDecl :=
  { readText with params := [] }

/-- Two modules have a type of one name, and a field has the name of the methods. -/
def readers : Program :=
  ⟨[⟨"first", [⟨"Reader", [], [readCount, readText]⟩]⟩,
    ⟨"second", [⟨"Cache", [], [readText]⟩, ⟨"Reader", [⟨"Read", "Text"⟩], [readAll]⟩]⟩]⟩

theorem formsAgree_of_overloads :
    readers.type? ⟨0, 0⟩ = some ⟨"Reader", [], [readCount, readText]⟩ ∧
      readers.method? ⟨⟨0, 0⟩, 1⟩ = some readText ∧
      readText.WellFormed ∧
      FormsAgree readers ⟨⟨0, 0⟩, 1⟩ "Reader" readText ∧
      readText.forms.map (fun form => (candidates readers ⟨.method, "Reader", form⟩).length) =
        [3, 2, 1] := by
  have wellFormed : readText.WellFormed := by
    constructor <;> decide +kernel
  have typeFound : readers.type? ⟨0, 0⟩ = some ⟨"Reader", [], [readCount, readText]⟩ := rfl
  have methodFound : readers.method? ⟨⟨0, 0⟩, 1⟩ = some readText := rfl
  exact ⟨typeFound, methodFound, wellFormed,
    formsAgree_of_wellFormed typeFound methodFound wellFormed, by decide +kernel⟩

end Overloads

end Lookup

end BytecodePatch
