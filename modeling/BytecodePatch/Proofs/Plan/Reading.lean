import BytecodePatch.Plan.Manifest
import BytecodePatch.Proofs.Except
import BytecodePatch.Proofs.Json.Canonical

/-!
# What the members of an object tell

The members of an object are read one after another, and each field takes the value of one
member at most. So it is enough to know which values stand under the key of each field: they
decide what is read, in whatever order the members stand and whatever others there are.
-/

namespace BytecodePatch

/-- The values under a key, in the order of the members. -/
def Json.valuesUnder (key : String) (members : List (String × Json)) : List Json :=
  (members.filter fun member => member.1 = key).map Prod.snd

namespace Manifest

/-- What values leave in a field that takes one value at most. -/
inductive Fills {α : Type} (read : Json → Except ManifestError α) :
    List Json → Option α → Option α → Prop where
  | nothing (field : Option α) : Fills read [] field field
  | value {value : Json} {found : α} (done : read value = .ok found) :
      Fills read [value] none (some found)

/-- The reading of an argument. -/
def decodeArgument (value : Json) : Except ManifestError Json := do
  checkIntact value
  return value.canonical

/-- The members of an object tell an entry: each field stands once, an argument that does not
stand is null, and no value is broken. -/
structure Tells (members : List (String × Json)) (entry : MethodKey × Application) : Prop where
  type : Json.valuesUnder "type" members = [.string entry.1.type]
  method : Json.valuesUnder "method" members = [.string entry.1.method]
  rule : Json.valuesUnder "rule" members = [.string entry.2.rule]
  argument :
    ∃ stated : Option Json,
      Json.valuesUnder "arg" members = stated.toList ∧
        entry.2.argument = (stated.map Json.canonical).getD .null
  intact : ∀ member ∈ members, member.2.isIntact = true

end Manifest

namespace Json

variable {key other : String} {value : Json} {members others : List (String × Json)}

@[simp]
theorem valuesUnder_nil (key : String) : valuesUnder key [] = [] :=
  rfl

@[simp]
theorem valuesUnder_cons_self (key : String) (value : Json) (members : List (String × Json)) :
    valuesUnder key ((key, value) :: members) = value :: valuesUnder key members := by
  simp [valuesUnder]

theorem valuesUnder_cons_of_ne (apart : other ≠ key) :
    valuesUnder key ((other, value) :: members) = valuesUnder key members := by
  simp [valuesUnder, apart]

theorem valuesUnder_append :
    valuesUnder key (members ++ others) = valuesUnder key members ++ valuesUnder key others := by
  simp [valuesUnder]

/-- In whatever order the members stand, a single value under a key is the same. -/
theorem valuesUnder_perm (perm : members.Perm others) :
    (valuesUnder key members).Perm (valuesUnder key others) :=
  (perm.filter _).map _

theorem valuesUnder_eq_nil_of_perm
    (perm : members.Perm others) (values : valuesUnder key members = []) :
    valuesUnder key others = [] := by
  rw [← List.perm_nil, ← values]
  exact valuesUnder_perm perm.symm

theorem valuesUnder_eq_singleton_of_perm
    (perm : members.Perm others) (values : valuesUnder key members = [value]) :
    valuesUnder key others = [value] := by
  rw [← List.perm_singleton, ← values]
  exact valuesUnder_perm perm.symm

/-- Members that are left out do not matter for the key if none of them has it. -/
theorem valuesUnder_filter
    {keep : String × Json → Bool} (kept : ∀ value, keep (key, value) = true)
    (members : List (String × Json)) :
    valuesUnder key (members.filter keep) = valuesUnder key members := by
  rw [valuesUnder, List.filter_filter]
  congr 1
  apply List.filter_congr
  rintro ⟨other, value⟩ _
  by_cases same : other = key
  · subst same
    simp [kept]
  · simp [same]

theorem mem_valuesUnder_iff :
    value ∈ valuesUnder key members ↔ (key, value) ∈ members := by
  simp [valuesUnder]

theorem mem_of_valuesUnder_eq_singleton (values : valuesUnder key members = [value]) :
    (key, value) ∈ members := by
  rw [← mem_valuesUnder_iff, values]
  exact List.mem_singleton_self value

end Json

namespace Manifest

/-! ## Fields -/

section Fields

variable {α : Type} {read : Json → Except ManifestError α} {name : String} {value : Json}
  {values : List Json} {before after : Option α}

theorem checkNew_eq_ok_iff {done : Unit} : checkNew name before = .ok done ↔ before = none := by
  cases before <;> simp [checkNew]

theorem checkIntact_eq_ok_iff {done : Unit} :
    checkIntact value = .ok done ↔ value.isIntact = true := by
  unfold checkIntact
  split
  · rename_i intact
    simp [intact]
  · rename_i broken
    simp [broken]

theorem required_eq_ok_iff {found : α} : required name before = .ok found ↔ before = some found := by
  cases before <;> simp [required]

theorem fills_nil_iff : Fills read [] before after ↔ after = before := by
  constructor
  · intro fills
    cases fills with
    | nothing => rfl
  · rintro rfl
    exact .nothing _

/-- A field takes a value if it has none, and then takes no other. -/
theorem fills_cons_iff :
    Fills read (value :: values) before after ↔
      before = none ∧ ∃ found, read value = .ok found ∧ Fills read values (some found) after := by
  constructor
  · intro fills
    cases fills with
    | value done => exact ⟨rfl, _, done, .nothing _⟩
  · rintro ⟨rfl, found, done, rest⟩
    cases rest with
    | nothing => exact .value done

theorem decodeText_eq_ok_iff {text : String} : decodeText value = .ok text ↔ value = .string text := by
  cases value <;> simp [decodeText]

theorem decodeArgument_eq_ok_iff {argument : Json} :
    decodeArgument value = .ok argument ↔ value.isIntact = true ∧ argument = value.canonical := by
  constructor
  · intro done
    obtain ⟨⟨⟩, intact, same⟩ := bind_eq_ok_iff.mp done
    exact ⟨checkIntact_eq_ok_iff.mp intact, (pure_eq_ok_iff.mp same).symm⟩
  · rintro ⟨intact, rfl⟩
    exact bind_eq_ok_iff.mpr ⟨(), checkIntact_eq_ok_iff.mpr intact, rfl⟩

/-- A field that was empty holds the one value that was read. -/
theorem fills_none_some_iff {found : α} :
    Fills read values none (some found) ↔ ∃ value, values = [value] ∧ read value = .ok found := by
  constructor
  · intro fills
    cases fills with
    | value done => exact ⟨_, rfl, done⟩
  · rintro ⟨value, rfl, done⟩
    exact .value done

end Fields

/-! ## Entries -/

/-- The members that are neither the rule nor the argument of an entry. -/
def isOther (member : String × Json) : Bool :=
  member.1 ≠ "rule" ∧ member.1 ≠ "arg"

/-- What the members of an entry add to the fields that were found before them. -/
structure Gathers (members : List (String × Json)) (start finish : EntryFields) : Prop where
  rule : Fills decodeText (Json.valuesUnder "rule" members) start.rule finish.rule
  argument :
    Fills decodeArgument (Json.valuesUnder "arg" members) start.argument finish.argument
  others : finish.others = start.others ++ members.filter isOther
  intact : ∀ member ∈ members, isOther member = true → member.2.isIntact = true

variable {members : List (String × Json)} {start finish : EntryFields} {key : String}
  {value : Json}

theorem take_rule_eq_ok_iff :
    start.take "rule" value = .ok finish ↔
      start.rule = none ∧
        ∃ text, decodeText value = .ok text ∧ finish = { start with rule := some text } := by
  rw [EntryFields.take, if_pos rfl, bind_eq_ok_iff]
  constructor
  · rintro ⟨⟨⟩, vacant, done⟩
    obtain ⟨text, read, same⟩ := bind_eq_ok_iff.mp done
    exact ⟨checkNew_eq_ok_iff.mp vacant, text, read, (pure_eq_ok_iff.mp same).symm⟩
  · rintro ⟨vacant, text, read, rfl⟩
    exact ⟨(), checkNew_eq_ok_iff.mpr vacant, bind_eq_ok_iff.mpr ⟨text, read, rfl⟩⟩

theorem take_argument_eq_ok_iff :
    start.take "arg" value = .ok finish ↔
      start.argument = none ∧
        ∃ argument,
          decodeArgument value = .ok argument ∧
            finish = { start with argument := some argument } := by
  rw [EntryFields.take, if_neg (by decide), if_pos rfl, bind_eq_ok_iff]
  constructor
  · rintro ⟨⟨⟩, vacant, done⟩
    obtain ⟨⟨⟩, intact, same⟩ := bind_eq_ok_iff.mp done
    exact ⟨checkNew_eq_ok_iff.mp vacant, _, bind_eq_ok_iff.mpr ⟨(), intact, rfl⟩,
      (pure_eq_ok_iff.mp same).symm⟩
  · rintro ⟨vacant, argument, read, rfl⟩
    obtain ⟨⟨⟩, intact, same⟩ := bind_eq_ok_iff.mp read
    obtain rfl := pure_eq_ok_iff.mp same
    exact ⟨(), checkNew_eq_ok_iff.mpr vacant, bind_eq_ok_iff.mpr ⟨(), intact, rfl⟩⟩

theorem take_other_eq_ok_iff (other : isOther (key, value) = true) :
    start.take key value = .ok finish ↔
      value.isIntact = true ∧
        finish = { start with others := start.others ++ [(key, value)] } := by
  obtain ⟨notRule, notArgument⟩ := of_decide_eq_true other
  rw [EntryFields.take, if_neg notRule, if_neg notArgument, bind_eq_ok_iff]
  constructor
  · rintro ⟨⟨⟩, intact, same⟩
    exact ⟨checkIntact_eq_ok_iff.mp intact, (pure_eq_ok_iff.mp same).symm⟩
  · rintro ⟨intact, rfl⟩
    exact ⟨(), checkIntact_eq_ok_iff.mpr intact, rfl⟩

theorem gathers_nil_iff : Gathers [] start finish ↔ start = finish := by
  constructor
  · rintro ⟨rule, argument, others, _⟩
    cases start
    cases finish
    obtain rfl := fills_nil_iff.mp rule
    obtain rfl := fills_nil_iff.mp argument
    obtain rfl := others.trans (List.append_nil _)
    rfl
  · rintro rfl
    exact ⟨.nothing _, .nothing _, (List.append_nil _).symm, nofun⟩

theorem gathers_rule_iff :
    Gathers (("rule", value) :: members) start finish ↔
      start.rule = none ∧
        ∃ text, decodeText value = .ok text ∧
          Gathers members { start with rule := some text } finish := by
  constructor
  · rintro ⟨rule, argument, others, intact⟩
    rw [Json.valuesUnder_cons_self] at rule
    rw [Json.valuesUnder_cons_of_ne (by decide)] at argument
    obtain ⟨vacant, text, read, rest⟩ := fills_cons_iff.mp rule
    exact ⟨vacant, text, read, rest, argument, others, (List.forall_mem_cons.mp intact).2⟩
  · rintro ⟨vacant, text, read, rest, argument, others, intact⟩
    refine ⟨?_, ?_, others, List.forall_mem_cons.mpr ⟨nofun, intact⟩⟩
    · rw [Json.valuesUnder_cons_self]
      exact fills_cons_iff.mpr ⟨vacant, text, read, rest⟩
    · rwa [Json.valuesUnder_cons_of_ne (by decide)]

theorem gathers_argument_iff :
    Gathers (("arg", value) :: members) start finish ↔
      start.argument = none ∧
        ∃ argument, decodeArgument value = .ok argument ∧
          Gathers members { start with argument := some argument } finish := by
  constructor
  · rintro ⟨rule, argument, others, intact⟩
    rw [Json.valuesUnder_cons_of_ne (by decide)] at rule
    rw [Json.valuesUnder_cons_self] at argument
    obtain ⟨vacant, found, read, rest⟩ := fills_cons_iff.mp argument
    exact ⟨vacant, found, read, rule, rest, others, (List.forall_mem_cons.mp intact).2⟩
  · rintro ⟨vacant, found, read, rule, rest, others, intact⟩
    refine ⟨?_, ?_, others, List.forall_mem_cons.mpr ⟨nofun, intact⟩⟩
    · rwa [Json.valuesUnder_cons_of_ne (by decide)]
    · rw [Json.valuesUnder_cons_self]
      exact fills_cons_iff.mpr ⟨vacant, found, read, rest⟩

theorem gathers_other_iff (other : isOther (key, value) = true) :
    Gathers ((key, value) :: members) start finish ↔
      value.isIntact = true ∧
        Gathers members { start with others := start.others ++ [(key, value)] } finish := by
  obtain ⟨notRule, notArgument⟩ := of_decide_eq_true other
  have sameOthers :
      start.others ++ ((key, value) :: members).filter isOther =
        start.others ++ [(key, value)] ++ members.filter isOther := by
    rw [List.filter_cons_of_pos other, List.append_assoc, List.singleton_append]
  constructor
  · rintro ⟨rule, argument, others, intact⟩
    rw [Json.valuesUnder_cons_of_ne notRule] at rule
    rw [Json.valuesUnder_cons_of_ne notArgument] at argument
    obtain ⟨first, rest⟩ := List.forall_mem_cons.mp intact
    exact ⟨first other, rule, argument, others.trans sameOthers, rest⟩
  · rintro ⟨first, rule, argument, others, intact⟩
    refine ⟨?_, ?_, others.trans sameOthers.symm,
      List.forall_mem_cons.mpr ⟨fun _ => first, intact⟩⟩
    · rwa [Json.valuesUnder_cons_of_ne notRule]
    · rwa [Json.valuesUnder_cons_of_ne notArgument]

/-- Gathering the fields of an entry succeeds exactly if each of them is filled by the values
under its key. -/
theorem foldlM_take_eq_ok_iff :
    members.foldlM (fun fields (key, value) => EntryFields.take fields key value) start =
        .ok finish ↔
      Gathers members start finish := by
  induction members generalizing start with
  | nil => rw [List.foldlM_nil, pure_eq_ok_iff, gathers_nil_iff]
  | cons member members inductionHypothesis =>
      obtain ⟨key, value⟩ := member
      rw [List.foldlM_cons, bind_eq_ok_iff]
      simp only [inductionHypothesis]
      by_cases isRule : key = "rule"
      · subst isRule
        simp only [take_rule_eq_ok_iff, gathers_rule_iff]
        grind
      by_cases isArgument : key = "arg"
      · subst isArgument
        simp only [take_argument_eq_ok_iff, gathers_argument_iff]
        grind
      have other : isOther (key, value) = true := decide_eq_true ⟨isRule, isArgument⟩
      simp only [take_other_eq_ok_iff other, gathers_other_iff other]
      grind

/-! ## Targets -/

theorem foldlM_takeTarget_eq_ok_iff {found target : Option String × Option String} :
    members.foldlM takeTarget found = .ok target ↔
      Fills decodeText (Json.valuesUnder "type" members) found.1 target.1 ∧
        Fills decodeText (Json.valuesUnder "method" members) found.2 target.2 := by
  induction members generalizing found with
  | nil =>
      rw [List.foldlM_nil, pure_eq_ok_iff, Json.valuesUnder_nil, Json.valuesUnder_nil,
        fills_nil_iff, fills_nil_iff, Prod.ext_iff, eq_comm, @eq_comm _ found.2]
  | cons member members inductionHypothesis =>
      obtain ⟨key, value⟩ := member
      rw [List.foldlM_cons, bind_eq_ok_iff]
      simp only [inductionHypothesis]
      by_cases isType : key = "type"
      · subst isType
        rw [Json.valuesUnder_cons_self, Json.valuesUnder_cons_of_ne (by decide), fills_cons_iff]
        simp only [takeTarget, ↓reduceIte, bind_eq_ok_iff, checkNew_eq_ok_iff, pure_eq_ok_iff]
        grind
      by_cases isMethod : key = "method"
      · subst isMethod
        rw [Json.valuesUnder_cons_self, Json.valuesUnder_cons_of_ne (by decide), fills_cons_iff]
        simp only [takeTarget, isType, ↓reduceIte, bind_eq_ok_iff, checkNew_eq_ok_iff,
          pure_eq_ok_iff]
        grind
      rw [Json.valuesUnder_cons_of_ne isType, Json.valuesUnder_cons_of_ne isMethod]
      simp only [takeTarget, isType, isMethod, ↓reduceIte, pure_eq_ok_iff]
      grind

theorem decodeTarget_eq_ok_iff {target : MethodKey} :
    decodeTarget members = .ok target ↔
      Json.valuesUnder "type" members = [.string target.type] ∧
        Json.valuesUnder "method" members = [.string target.method] := by
  unfold decodeTarget
  rw [bind_eq_ok_iff]
  constructor
  · rintro ⟨⟨type, method⟩, gathered, rest⟩
    obtain ⟨typeText, typeFound, rest⟩ := bind_eq_ok_iff.mp rest
    obtain ⟨methodText, methodFound, same⟩ := bind_eq_ok_iff.mp rest
    obtain rfl := pure_eq_ok_iff.mp same
    obtain ⟨typeFills, methodFills⟩ := foldlM_takeTarget_eq_ok_iff.mp gathered
    rw [required_eq_ok_iff.mp typeFound] at typeFills
    rw [required_eq_ok_iff.mp methodFound] at methodFills
    obtain ⟨_, typeValues, typeRead⟩ := fills_none_some_iff.mp typeFills
    obtain ⟨_, methodValues, methodRead⟩ := fills_none_some_iff.mp methodFills
    rw [typeValues, methodValues, decodeText_eq_ok_iff.mp typeRead,
      decodeText_eq_ok_iff.mp methodRead]
    exact ⟨rfl, rfl⟩
  · rintro ⟨typeValues, methodValues⟩
    refine ⟨(some target.type, some target.method), foldlM_takeTarget_eq_ok_iff.mpr ?_, rfl⟩
    rw [typeValues, methodValues]
    exact ⟨.value rfl, .value rfl⟩

/-- What is not read as the rule or the argument has the same values under other keys. -/
theorem valuesUnder_filter_isOther
    (notRule : key ≠ "rule") (notArgument : key ≠ "arg") (members : List (String × Json)) :
    Json.valuesUnder key (members.filter isOther) = Json.valuesUnder key members :=
  Json.valuesUnder_filter (fun _ => decide_eq_true ⟨notRule, notArgument⟩) members

/-- An argument is read in canonical form, or is not stated. -/
theorem fills_decodeArgument_iff {values : List Json} {found : Option Json} :
    Fills decodeArgument values none found ↔
      ∃ stated : Option Json,
        values = stated.toList ∧ (∀ value ∈ stated, value.isIntact = true) ∧
          found = stated.map Json.canonical := by
  constructor
  · intro fills
    cases fills with
    | nothing => exact ⟨none, rfl, nofun, rfl⟩
    | value read =>
        obtain ⟨intact, rfl⟩ := decodeArgument_eq_ok_iff.mp read
        refine ⟨some _, rfl, ?_, rfl⟩
        rintro _ ⟨⟩
        exact intact
  · rintro ⟨stated, rfl, intact, rfl⟩
    cases stated with
    | none => exact .nothing none
    | some value => exact .value (decodeArgument_eq_ok_iff.mpr ⟨intact value rfl, rfl⟩)

/-- The values of all members are intact if the rule is a text, the argument is intact, and
what is neither of them is. -/
theorem forall_isIntact_iff
    {rule : String} {stated : Option Json}
    (ruleValues : Json.valuesUnder "rule" members = [.string rule])
    (argumentValues : Json.valuesUnder "arg" members = stated.toList) :
    (∀ member ∈ members, member.2.isIntact = true) ↔
      (∀ value ∈ stated, value.isIntact = true) ∧
        ∀ member ∈ members, isOther member = true → member.2.isIntact = true := by
  constructor
  · intro intact
    refine ⟨?_, fun member inside _ => intact member inside⟩
    rintro value rfl
    exact intact _ (Json.mem_of_valuesUnder_eq_singleton argumentValues)
  · rintro ⟨argumentIntact, intact⟩ ⟨key, value⟩ inside
    by_cases isRule : key = "rule"
    · subst isRule
      have own := Json.mem_valuesUnder_iff.mpr inside
      rw [ruleValues] at own
      rw [List.mem_singleton.mp own]
      rfl
    by_cases isArgument : key = "arg"
    · subst isArgument
      have own := Json.mem_valuesUnder_iff.mpr inside
      rw [argumentValues] at own
      exact argumentIntact value (Option.mem_toList.mp own)
    exact intact _ inside (decide_eq_true ⟨isRule, isArgument⟩)

/-- An object is an entry exactly if its members tell it. -/
theorem decodeEntry_eq_ok_iff {entry : MethodKey × Application} :
    decodeEntry (.object members) = .ok entry ↔ Tells members entry := by
  rw [decodeEntry, bind_eq_ok_iff]
  simp only [foldlM_take_eq_ok_iff]
  constructor
  · rintro ⟨⟨rule, argument, others⟩, gathered, rest⟩
    obtain ⟨ruleText, ruleFound, rest⟩ := bind_eq_ok_iff.mp rest
    obtain ⟨target, targetFound, same⟩ := bind_eq_ok_iff.mp rest
    obtain rfl := pure_eq_ok_iff.mp same
    obtain rfl : rule = some ruleText := required_eq_ok_iff.mp ruleFound
    obtain rfl : others = members.filter isOther := gathered.others
    obtain ⟨_, ruleValues, ruleRead⟩ := fills_none_some_iff.mp gathered.rule
    obtain rfl := decodeText_eq_ok_iff.mp ruleRead
    obtain ⟨stated, argumentValues, argumentIntact, rfl⟩ :=
      fills_decodeArgument_iff.mp gathered.argument
    obtain ⟨typeValues, methodValues⟩ := decodeTarget_eq_ok_iff.mp targetFound
    rw [valuesUnder_filter_isOther (by decide) (by decide)] at typeValues methodValues
    exact ⟨typeValues, methodValues, ruleValues, ⟨stated, argumentValues, rfl⟩,
      (forall_isIntact_iff ruleValues argumentValues).mpr ⟨argumentIntact, gathered.intact⟩⟩
  · rintro ⟨typeValues, methodValues, ruleValues, ⟨stated, argumentValues, argument⟩, intact⟩
    obtain ⟨argumentIntact, othersIntact⟩ :=
      (forall_isIntact_iff ruleValues argumentValues).mp intact
    have target : decodeTarget (members.filter isOther) = .ok entry.1 := by
      rw [decodeTarget_eq_ok_iff, valuesUnder_filter_isOther (by decide) (by decide),
        valuesUnder_filter_isOther (by decide) (by decide)]
      exact ⟨typeValues, methodValues⟩
    refine ⟨⟨some entry.2.rule, stated.map Json.canonical, members.filter isOther⟩,
      ⟨?_, fills_decodeArgument_iff.mpr ⟨stated, argumentValues, argumentIntact, rfl⟩, rfl,
        othersIntact⟩, ?_⟩
    · rw [ruleValues]
      exact .value rfl
    · rw [target, ← argument]
      rfl

/-! ## Documents -/

theorem decodeEntries_eq_ok_iff {entries : List (MethodKey × Application)} :
    decodeEntries value = .ok entries ↔
      ∃ items, value = .array items ∧ items.mapM decodeEntry = .ok entries := by
  cases value <;> simp [decodeEntries]

theorem foldlM_takePatches_eq_ok_iff
    {found entries : Option (List (MethodKey × Application))} :
    members.foldlM takePatches found = .ok entries ↔
      Fills decodeEntries (Json.valuesUnder "patches" members) found entries ∧
        ∀ member ∈ members, member.1 ≠ "patches" → member.2.isIntact = true := by
  induction members generalizing found with
  | nil =>
      rw [List.foldlM_nil, pure_eq_ok_iff, Json.valuesUnder_nil, fills_nil_iff, eq_comm]
      simp
  | cons member members inductionHypothesis =>
      obtain ⟨key, value⟩ := member
      rw [List.foldlM_cons, bind_eq_ok_iff]
      simp only [inductionHypothesis, List.forall_mem_cons]
      by_cases isPatches : key = "patches"
      · subst isPatches
        rw [Json.valuesUnder_cons_self, fills_cons_iff]
        simp only [takePatches, ↓reduceIte, bind_eq_ok_iff, checkNew_eq_ok_iff, pure_eq_ok_iff]
        grind
      rw [Json.valuesUnder_cons_of_ne isPatches]
      simp only [takePatches, isPatches, ↓reduceIte, bind_eq_ok_iff, checkIntact_eq_ok_iff,
        pure_eq_ok_iff]
      grind

/-- An object is a manifest exactly if its list of patches stands once and holds its entries. -/
theorem ofJson_object_eq_ok_iff {manifest : Manifest} :
    ofJson (.object members) = .ok manifest ↔
      (∃ items,
        Json.valuesUnder "patches" members = [.array items] ∧
          items.mapM decodeEntry = .ok manifest.entries) ∧
        ∀ member ∈ members, member.1 ≠ "patches" → member.2.isIntact = true := by
  rw [ofJson, bind_eq_ok_iff]
  simp only [foldlM_takePatches_eq_ok_iff]
  constructor
  · rintro ⟨found, ⟨fills, intact⟩, rest⟩
    obtain ⟨entries, required, same⟩ := bind_eq_ok_iff.mp rest
    obtain rfl := pure_eq_ok_iff.mp same
    rw [required_eq_ok_iff.mp required] at fills
    obtain ⟨value, values, read⟩ := fills_none_some_iff.mp fills
    obtain ⟨items, rfl, decoded⟩ := decodeEntries_eq_ok_iff.mp read
    exact ⟨⟨items, values, decoded⟩, intact⟩
  · rintro ⟨⟨items, values, decoded⟩, intact⟩
    refine ⟨some manifest.entries, ⟨?_, intact⟩, rfl⟩
    rw [values]
    exact .value decoded

end Manifest

end BytecodePatch
