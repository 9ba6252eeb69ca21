import BytecodePatch.Proofs.Plan.Reading
import Mathlib.Logic.Relation

/-!
# Manifests that read back

A manifest is written as a document that reads as the same manifest. The document may be
rewritten in ways that say nothing else: members may stand in another order, entries and the
document may have members that nobody asks for, and a null argument may be left out. None of
this changes what is read. What no entry may lack is its type, its method and its rule.
-/

namespace BytecodePatch.Manifest

/-- The keys of which an entry must have each. -/
def requiredKeys : List String :=
  ["type", "method", "rule"]

/-- The members without those under a key. -/
def without (key : String) (members : List (String × Json)) : List (String × Json) :=
  members.filter fun member => member.1 ≠ key

/-- All arguments are in canonical form, as values that were read are. -/
def HasCanonicalArguments (manifest : Manifest) : Prop :=
  ∀ entry ∈ manifest.entries, entry.2.argument.IsCanonical

/-- The members of an entry, written in another way. -/
inductive Rephrased : List (String × Json) → List (String × Json) → Prop where
  | reordered {members others : List (String × Json)} (perm : members.Perm others) :
      Rephrased members others
  | extended {members : List (String × Json)} {key : String} {value : Json}
      (unknown : key ∉ "arg" :: requiredKeys) (intact : value.isIntact = true) :
      Rephrased members ((key, value) :: members)
  | nullOmitted {members : List (String × Json)} :
      Rephrased (("arg", .null) :: members) members

/-- A document with an entry, among others above and below it, in a list of patches, among
other members before and after it. -/
def document
    (before after : List (String × Json)) (above below : List Json)
    (members : List (String × Json)) : Json :=
  .object (before ++ ("patches", .array (above ++ .object members :: below)) :: after)

/-- A document, written in another way. -/
inductive Rewritten : Json → Json → Prop where
  | entry {before after members others : List (String × Json)} {above below : List Json}
      (rephrased : Rephrased members others) :
      Rewritten (document before after above below members)
        (document before after above below others)
  | reordered {members others : List (String × Json)} (perm : members.Perm others) :
      Rewritten (.object members) (.object others)
  | extended {members : List (String × Json)} {key : String} {value : Json}
      (unknown : key ≠ "patches") (intact : value.isIntact = true) :
      Rewritten (.object members) (.object ((key, value) :: members))

/-- A manifest is read from the document that it is written as, and from every document that
one with the manifest can be rewritten to. If an entry of a document with the manifest loses a
required key, the key is reported; no document with an entry that lacks one is read. -/
structure ReadsBack (manifest : Manifest) : Prop where
  decoded : ofJson manifest.toJson = .ok manifest
  rewritten :
    ∀ original other,
      ofJson original = .ok manifest → Relation.ReflTransGen Rewritten original other →
        ofJson other = .ok manifest ∧ (ofJson other).map toPlan = .ok manifest.toPlan
  omitted :
    ∀ before after above below members,
      ofJson (document before after above below members) = .ok manifest →
        ∀ key ∈ requiredKeys,
          ofJson (document before after above below (without key members)) =
            .error (.wrongShape (.missingField key))
  lacking :
    ∀ before after above below members,
      ∀ key ∈ requiredKeys,
        key ∉ members.map Prod.fst →
          ∀ other, ofJson (document before after above below members) ≠ .ok other

variable {manifest : Manifest} {entry : MethodKey × Application} {original other : Json}
  {members others before after : List (String × Json)} {above below : List Json}
  {key removed : String} {value : Json}

/-! ## Entries -/

theorem tells_of_perm (tells : Tells members entry) (perm : members.Perm others) :
    Tells others entry := by
  obtain ⟨type, method, rule, ⟨stated, argumentValues, argument⟩, intact⟩ := tells
  refine ⟨Json.valuesUnder_eq_singleton_of_perm perm type,
    Json.valuesUnder_eq_singleton_of_perm perm method,
    Json.valuesUnder_eq_singleton_of_perm perm rule, ⟨stated, ?_, argument⟩,
    fun member inside => intact member (perm.mem_iff.mpr inside)⟩
  cases stated with
  | none => exact Json.valuesUnder_eq_nil_of_perm perm argumentValues
  | some value => exact Json.valuesUnder_eq_singleton_of_perm perm argumentValues

theorem tells_cons_of_unknown
    (tells : Tells members entry) (unknown : key ∉ "arg" :: requiredKeys)
    (intact : value.isIntact = true) : Tells ((key, value) :: members) entry := by
  simp only [requiredKeys, List.mem_cons, List.not_mem_nil, or_false, not_or] at unknown
  obtain ⟨notArgument, notType, notMethod, notRule⟩ := unknown
  obtain ⟨type, method, rule, argument, others⟩ := tells
  refine ⟨?_, ?_, ?_, ?_, List.forall_mem_cons.mpr ⟨intact, others⟩⟩
  · rwa [Json.valuesUnder_cons_of_ne notType]
  · rwa [Json.valuesUnder_cons_of_ne notMethod]
  · rwa [Json.valuesUnder_cons_of_ne notRule]
  · rwa [Json.valuesUnder_cons_of_ne notArgument]

theorem tells_of_null_argument (tells : Tells (("arg", .null) :: members) entry) :
    Tells members entry := by
  obtain ⟨type, method, rule, ⟨stated, argumentValues, argument⟩, intact⟩ := tells
  rw [Json.valuesUnder_cons_of_ne (by decide)] at type method rule
  rw [Json.valuesUnder_cons_self] at argumentValues
  refine ⟨type, method, rule, ⟨none, ?_, ?_⟩, (List.forall_mem_cons.mp intact).2⟩
  · cases stated with
    | none => cases argumentValues
    | some value => exact (List.cons.inj argumentValues).2
  · cases stated with
    | none => exact argument
    | some value =>
        obtain rfl := (List.cons.inj argumentValues).1
        exact argument

theorem tells_of_rephrased (rephrased : Rephrased members others) (tells : Tells members entry) :
    Tells others entry := by
  cases rephrased with
  | reordered perm => exact tells_of_perm tells perm
  | extended unknown intact => exact tells_cons_of_unknown tells unknown intact
  | nullOmitted => exact tells_of_null_argument tells

/-- An entry is written with its argument in canonical form. -/
theorem decodeEntry_entryToJson (canonical : entry.2.argument.IsCanonical) :
    decodeEntry (entryToJson entry) = .ok entry := by
  obtain ⟨intact, same⟩ := canonical.unchanged
  rw [entryToJson, decodeEntry_eq_ok_iff]
  refine ⟨by rfl, by rfl, by rfl, ⟨some entry.2.argument, by rfl, same.symm⟩, ?_⟩
  simp [intact, Json.isIntact]

/-- The argument of an entry that was read is in canonical form. -/
theorem isCanonical_of_decodeEntry (decoded : decodeEntry value = .ok entry) :
    entry.2.argument.IsCanonical := by
  cases value with
  | object members =>
      obtain ⟨_, _, _, ⟨stated, argumentValues, argument⟩, intact⟩ :=
        decodeEntry_eq_ok_iff.mp decoded
      rw [argument]
      cases stated with
      | none => exact trivial
      | some value =>
          exact Json.isCanonical_canonical
            (intact _ (Json.mem_of_valuesUnder_eq_singleton argumentValues))
  | _ => cases decoded

/-! ## Missing keys -/

theorem valuesUnder_without_self (key : String) (members : List (String × Json)) :
    Json.valuesUnder key (without key members) = [] := by
  simp [Json.valuesUnder, without]

theorem valuesUnder_without_of_ne (apart : key ≠ removed) (members : List (String × Json)) :
    Json.valuesUnder key (without removed members) = Json.valuesUnder key members :=
  Json.valuesUnder_filter (fun _ => decide_eq_true apart) members

/-- The fields of an entry can be gathered without one of its members. -/
theorem exists_foldlM_take_without
    {rule : Option String} (tells : Tells members entry) (kept : "arg" ≠ removed)
    (ruleFills :
      Fills decodeText (Json.valuesUnder "rule" (without removed members)) none rule) :
    ∃ argument,
      (without removed members).foldlM
          (fun fields (key, value) => EntryFields.take fields key value) ⟨none, none, []⟩ =
        .ok ⟨rule, argument, (without removed members).filter isOther⟩ := by
  obtain ⟨_, _, _, ⟨stated, argumentValues, _⟩, intact⟩ := tells
  refine ⟨stated.map Json.canonical, foldlM_take_eq_ok_iff.mpr ⟨ruleFills, ?_, rfl, ?_⟩⟩
  · rw [valuesUnder_without_of_ne kept, argumentValues]
    refine fills_decodeArgument_iff.mpr ⟨stated, rfl, ?_, rfl⟩
    intro value inside
    have among : value ∈ Json.valuesUnder "arg" members := by
      rw [argumentValues]
      exact Option.mem_toList.mpr inside
    exact intact _ (Json.mem_valuesUnder_iff.mp among)
  · exact fun member inside _ => intact member (List.mem_filter.mp inside).1

/-- A target without a type is refused for it, whatever its method is. -/
theorem decodeTarget_of_lacking_type
    (method : String) (typeValues : Json.valuesUnder "type" members = [])
    (methodValues : Json.valuesUnder "method" members = [.string method]) :
    decodeTarget members = .error (.wrongShape (.missingField "type")) := by
  have gathered : members.foldlM takeTarget (none, none) = .ok (none, some method) := by
    rw [foldlM_takeTarget_eq_ok_iff, typeValues, methodValues]
    exact ⟨.nothing none, .value rfl⟩
  rw [decodeTarget, gathered]
  rfl

theorem decodeTarget_of_lacking_method
    (type : String) (typeValues : Json.valuesUnder "type" members = [.string type])
    (methodValues : Json.valuesUnder "method" members = []) :
    decodeTarget members = .error (.wrongShape (.missingField "method")) := by
  have gathered : members.foldlM takeTarget (none, none) = .ok (some type, none) := by
    rw [foldlM_takeTarget_eq_ok_iff, typeValues, methodValues]
    exact ⟨.value rfl, .nothing none⟩
  rw [decodeTarget, gathered]
  rfl

/-- An entry whose rule can be read is refused for its target if that is. -/
theorem decodeEntry_of_refused_target
    {error : ManifestError} (tells : Tells members entry) (kept : "arg" ≠ removed)
    (ruleKept : "rule" ≠ removed)
    (refused : decodeTarget ((without removed members).filter isOther) = .error error) :
    decodeEntry (.object (without removed members)) = .error error := by
  have ruleFills :
      Fills decodeText (Json.valuesUnder "rule" (without removed members)) none
        (some entry.2.rule) := by
    rw [valuesUnder_without_of_ne ruleKept, tells.rule]
    exact .value rfl
  obtain ⟨argument, gathered⟩ := exists_foldlM_take_without tells kept ruleFills
  simp only [decodeEntry, gathered, required, refused, bind, Except.bind]

theorem decodeEntry_of_omitted_rule (tells : Tells members entry) :
    decodeEntry (.object (without "rule" members)) =
      .error (.wrongShape (.missingField "rule")) := by
  have ruleFills :
      Fills decodeText (Json.valuesUnder "rule" (without "rule" members)) none none := by
    rw [valuesUnder_without_self]
    exact .nothing none
  obtain ⟨argument, gathered⟩ := exists_foldlM_take_without tells (by decide) ruleFills
  rw [decodeEntry, gathered]
  rfl

/-- An entry that loses a required key is refused for it. -/
theorem decodeEntry_of_omitted (tells : Tells members entry) (isRequired : key ∈ requiredKeys) :
    decodeEntry (.object (without key members)) =
      .error (.wrongShape (.missingField key)) := by
  simp only [requiredKeys, List.mem_cons, List.not_mem_nil, or_false] at isRequired
  rcases isRequired with rfl | rfl | rfl
  · refine decodeEntry_of_refused_target tells (by decide) (by decide)
      (decodeTarget_of_lacking_type entry.1.method ?_ ?_)
    · rw [valuesUnder_filter_isOther (by decide) (by decide), valuesUnder_without_self]
    · rw [valuesUnder_filter_isOther (by decide) (by decide),
        valuesUnder_without_of_ne (by decide), tells.method]
  · refine decodeEntry_of_refused_target tells (by decide) (by decide)
      (decodeTarget_of_lacking_method entry.1.type ?_ ?_)
    · rw [valuesUnder_filter_isOther (by decide) (by decide),
        valuesUnder_without_of_ne (by decide), tells.type]
    · rw [valuesUnder_filter_isOther (by decide) (by decide), valuesUnder_without_self]
  · exact decodeEntry_of_omitted_rule tells

/-- The members of an entry have all required keys. -/
theorem mem_keys_of_tells (tells : Tells members entry) (isRequired : key ∈ requiredKeys) :
    key ∈ members.map Prod.fst := by
  simp only [requiredKeys, List.mem_cons, List.not_mem_nil, or_false] at isRequired
  rcases isRequired with rfl | rfl | rfl
  · exact List.mem_map_of_mem (Json.mem_of_valuesUnder_eq_singleton tells.type)
  · exact List.mem_map_of_mem (Json.mem_of_valuesUnder_eq_singleton tells.method)
  · exact List.mem_map_of_mem (Json.mem_of_valuesUnder_eq_singleton tells.rule)

/-! ## Documents -/

/-- A document is a manifest exactly if its list is the only one, and has the entries of the
manifest. -/
theorem ofJson_document_eq_ok_iff :
    ofJson (document before after above below members) = .ok manifest ↔
      (Json.valuesUnder "patches" before = [] ∧ Json.valuesUnder "patches" after = [] ∧
        ∀ member ∈ before ++ after, member.1 ≠ "patches" → member.2.isIntact = true) ∧
          ∃ upper entry lower,
            above.mapM decodeEntry = .ok upper ∧ Tells members entry ∧
              below.mapM decodeEntry = .ok lower ∧
                manifest.entries = upper ++ entry :: lower := by
  rw [document, ofJson_object_eq_ok_iff, Json.valuesUnder_append, Json.valuesUnder_cons_self]
  simp only [← decodeEntry_eq_ok_iff, ← mapM_append_cons_eq_ok_iff]
  have intactIff :
      (∀ member ∈ before ++ ("patches", Json.array (above ++ .object members :: below)) :: after,
          member.1 ≠ "patches" → member.2.isIntact = true) ↔
        ∀ member ∈ before ++ after, member.1 ≠ "patches" → member.2.isIntact = true := by
    simp only [List.forall_mem_append, List.forall_mem_cons]
    tauto
  rw [intactIff]
  constructor
  · rintro ⟨⟨items, values, decoded⟩, intact⟩
    rcases List.append_eq_singleton_iff.mp values with ⟨beforeNone, own⟩ | ⟨_, nothing⟩
    · obtain ⟨sameList, afterNone⟩ := List.cons.inj own
      obtain rfl := Json.array.inj sameList
      exact ⟨⟨beforeNone, afterNone, intact⟩, decoded⟩
    · cases nothing
  · rintro ⟨⟨beforeNone, afterNone, intact⟩, decoded⟩
    rw [beforeNone, afterNone]
    exact ⟨⟨_, rfl, decoded⟩, intact⟩

theorem ofJson_of_perm
    (read : ofJson (.object members) = .ok manifest) (perm : members.Perm others) :
    ofJson (.object others) = .ok manifest := by
  obtain ⟨⟨items, values, decoded⟩, intact⟩ := ofJson_object_eq_ok_iff.mp read
  exact ofJson_object_eq_ok_iff.mpr
    ⟨⟨items, Json.valuesUnder_eq_singleton_of_perm perm values, decoded⟩,
      fun member inside => intact member (perm.mem_iff.mpr inside)⟩

theorem ofJson_of_extended
    (read : ofJson (.object members) = .ok manifest) (unknown : key ≠ "patches")
    (intact : value.isIntact = true) :
    ofJson (.object ((key, value) :: members)) = .ok manifest := by
  obtain ⟨⟨items, values, decoded⟩, othersIntact⟩ := ofJson_object_eq_ok_iff.mp read
  refine ofJson_object_eq_ok_iff.mpr ⟨⟨items, ?_, decoded⟩, ?_⟩
  · rwa [Json.valuesUnder_cons_of_ne unknown]
  · exact List.forall_mem_cons.mpr ⟨fun _ => intact, othersIntact⟩

/-- A document that was rewritten is read as before. -/
theorem ofJson_of_rewritten
    (rewritten : Rewritten original other) (read : ofJson original = .ok manifest) :
    ofJson other = .ok manifest := by
  cases rewritten with
  | entry rephrased =>
      obtain ⟨list, upper, entry, lower, above, tells, rest⟩ := ofJson_document_eq_ok_iff.mp read
      exact ofJson_document_eq_ok_iff.mpr
        ⟨list, upper, entry, lower, above, tells_of_rephrased rephrased tells, rest⟩
  | reordered perm => exact ofJson_of_perm read perm
  | extended unknown intact => exact ofJson_of_extended read unknown intact

theorem ofJson_of_rewritings
    (rewritings : Relation.ReflTransGen Rewritten original other)
    (read : ofJson original = .ok manifest) : ofJson other = .ok manifest := by
  induction rewritings with
  | refl => exact read
  | tail _ rewritten inductionHypothesis => exact ofJson_of_rewritten rewritten inductionHypothesis

/-- The list is read up to the first entry that is refused. -/
theorem ofJson_document_of_error
    {upper : List (MethodKey × Application)} {error : ManifestError}
    (beforeNone : Json.valuesUnder "patches" before = [])
    (beforeIntact : ∀ member ∈ before, member.1 ≠ "patches" → member.2.isIntact = true)
    (aboveRead : above.mapM decodeEntry = .ok upper)
    (refused : decodeEntry (.object members) = .error error) :
    ofJson (document before after above below members) = .error error := by
  have passed : before.foldlM takePatches none = .ok none := by
    rw [foldlM_takePatches_eq_ok_iff, beforeNone]
    exact ⟨.nothing none, beforeIntact⟩
  have list :
      takePatches none ("patches", .array (above ++ .object members :: below)) = .error error := by
    simp only [takePatches, ↓reduceIte, checkNew, decodeEntries,
      mapM_append_cons_of_error aboveRead refused, bind, Except.bind]
  simp only [document, ofJson, List.foldlM_append, List.foldlM_cons, passed, list, bind,
    Except.bind]

theorem ofJson_document_of_omitted
    (read : ofJson (document before after above below members) = .ok manifest)
    (isRequired : key ∈ requiredKeys) :
    ofJson (document before after above below (without key members)) =
      .error (.wrongShape (.missingField key)) := by
  obtain ⟨⟨beforeNone, _, intact⟩, _, _, _, aboveRead, tells, _⟩ :=
    ofJson_document_eq_ok_iff.mp read
  exact ofJson_document_of_error beforeNone
    (fun member inside => intact member (List.mem_append_left after inside)) aboveRead
    (decodeEntry_of_omitted tells isRequired)

theorem ofJson_document_of_lacking
    (isRequired : key ∈ requiredKeys) (lacks : key ∉ members.map Prod.fst) :
    ofJson (document before after above below members) ≠ .ok manifest := by
  intro read
  obtain ⟨_, _, _, _, _, tells, _⟩ := ofJson_document_eq_ok_iff.mp read
  exact lacks (mem_keys_of_tells tells isRequired)

/-! ## Manifests -/

theorem mapM_decodeEntry_entryToJson
    {entries : List (MethodKey × Application)}
    (canonical : ∀ entry ∈ entries, entry.2.argument.IsCanonical) :
    (entries.map entryToJson).mapM decodeEntry = .ok entries := by
  induction entries with
  | nil => rfl
  | cons entry entries inductionHypothesis =>
      obtain ⟨first, rest⟩ := List.forall_mem_cons.mp canonical
      rw [List.map_cons, List.mapM_cons, decodeEntry_entryToJson first, inductionHypothesis rest]
      rfl

/-- What was read has its arguments in canonical form. -/
theorem hasCanonicalArguments_of_ofJson (read : ofJson (.object members) = .ok manifest) :
    manifest.HasCanonicalArguments := by
  obtain ⟨⟨items, _, decoded⟩, _⟩ := ofJson_object_eq_ok_iff.mp read
  intro entry inside
  obtain ⟨value, _, read⟩ := exists_of_mem_mapM decoded inside
  exact isCanonical_of_decodeEntry read

/-- A manifest reads back exactly if its arguments are in canonical form. -/
theorem ofJson_toJson_eq_ok_iff :
    ofJson manifest.toJson = .ok manifest ↔ manifest.HasCanonicalArguments := by
  constructor
  · exact hasCanonicalArguments_of_ofJson
  · intro canonical
    rw [toJson, ofJson_object_eq_ok_iff]
    exact ⟨⟨_, rfl, mapM_decodeEntry_entryToJson canonical⟩, by simp⟩

/-- Every manifest whose arguments are in canonical form is read from what it is written as, and
so is its plan. -/
theorem readsBack_of_canonical (manifest : Manifest) (canonical : manifest.HasCanonicalArguments) :
    manifest.ReadsBack where
  decoded := ofJson_toJson_eq_ok_iff.mpr canonical
  rewritten original other read rewritings := by
    have readAgain := ofJson_of_rewritings rewritings read
    exact ⟨readAgain, congrArg (Except.map toPlan) readAgain⟩
  omitted _ _ _ _ _ read _ isRequired := ofJson_document_of_omitted read isRequired
  lacking _ _ _ _ _ _ isRequired lacks _ := ofJson_document_of_lacking isRequired lacks

/-- The argument of the first application has the keys of an entry. The document is rewritten
with other keys, with the members of both entries in another order, and without the null
argument of the second. -/
theorem readsBack_of_canonical_nested :
    let argument : Json :=
      .object [("arg", .null), ("rule", .array [.object [("type", .bool true)]])]
    let first : MethodKey × Application := (⟨"Game", "Update()"⟩, ⟨"replace", argument⟩)
    let second : MethodKey × Application := (⟨"Game", "Update()"⟩, ⟨"guard", .null⟩)
    let other : Json :=
      .object [("version", .number (.integer 2)), ("patches", .array [
        .object [("arg", argument), ("rule", .string "replace"),
          ("method", .string "Update()"), ("type", .string "Game")],
        .object [("comment", .null), ("rule", .string "guard"),
          ("method", .string "Update()"), ("type", .string "Game")]])]
    let manifest : Manifest := ⟨[first, second]⟩
    manifest.HasCanonicalArguments ∧ manifest.ReadsBack ∧ ofJson other = .ok manifest ∧
      manifest.toPlan =
        .ok ⟨[(⟨"Game", "Update()"⟩, [⟨"replace", argument⟩, ⟨"guard", .null⟩])]⟩ := by
  intro argument first second other manifest
  have canonical : manifest.HasCanonicalArguments := by
    change ∀ entry ∈ [first, second], entry.2.argument.IsCanonical
    decide
  have readsBack := readsBack_of_canonical manifest canonical
  refine ⟨canonical, readsBack, ?_, by rfl⟩
  let firstMembers : List (String × Json) :=
    [("arg", argument), ("rule", .string "replace"), ("method", .string "Update()"),
      ("type", .string "Game")]
  let secondMembers : List (String × Json) :=
    [("rule", .string "guard"), ("method", .string "Update()"), ("type", .string "Game")]
  let original := document [] [] [] [entryToJson second] firstMembers.reverse
  have reorderFirst :
      Rewritten original (document [] [] [] [entryToJson second] firstMembers) :=
    .entry (.reordered firstMembers.reverse_perm)
  have reorderSecond :
      Rewritten
        (document [] [] [.object firstMembers] [] (("arg", .null) :: secondMembers).reverse)
        (document [] [] [.object firstMembers] [] (("arg", .null) :: secondMembers)) :=
    .entry (.reordered (List.reverse_perm _))
  have omitArgument :
      Rewritten (document [] [] [.object firstMembers] [] (("arg", .null) :: secondMembers))
        (document [] [] [.object firstMembers] [] secondMembers) :=
    .entry .nullOmitted
  have extendSecond :
      Rewritten (document [] [] [.object firstMembers] [] secondMembers)
        (document [] [] [.object firstMembers] [] (("comment", .null) :: secondMembers)) :=
    .entry (.extended (by decide) rfl)
  have extendDocument :
      Rewritten
        (document [] [] [.object firstMembers] [] (("comment", .null) :: secondMembers)) other :=
    .extended (by decide) rfl
  exact (readsBack.rewritten original other readsBack.decoded
    (.tail (.tail (.tail (.tail (.single reorderFirst) reorderSecond) omitArgument)
      extendSecond) extendDocument)).1

end BytecodePatch.Manifest
