import BytecodePatch.Json.Basic
import Mathlib.Data.List.Induction

/-!
# Canonical form

A value is in canonical form if nothing in it is broken and each of its objects has every key
once, in order of the keys. Putting an intact value into canonical form makes it so, and changes
nothing if it was so before.
-/

namespace BytecodePatch.Json

/-- The keys of the members are in order, and none stands twice. -/
def InOrder (members : List (String × Json)) : Prop :=
  members.Pairwise fun left right => left.1 < right.1

instance (members : List (String × Json)) : Decidable (InOrder members) :=
  inferInstanceAs (Decidable (List.Pairwise _ _))

mutual

/-- Nothing in the value is broken, and the keys of all its objects are in order. -/
def IsCanonical : Json → Prop
  | array items => AreCanonical items
  | object members => InOrder members ∧ HaveCanonicalValues members
  | broken => False
  | _ => True

def AreCanonical : List Json → Prop
  | [] => True
  | item :: items => item.IsCanonical ∧ AreCanonical items

def HaveCanonicalValues : List (String × Json) → Prop
  | [] => True
  | (_, value) :: members => value.IsCanonical ∧ HaveCanonicalValues members

end

mutual

instance decidableIsCanonical : (json : Json) → Decidable json.IsCanonical
  | array items => decidableAreCanonical items
  | object members =>
      have := decidableHaveCanonicalValues members
      inferInstanceAs (Decidable (_ ∧ _))
  | broken => .isFalse id
  | null => .isTrue trivial
  | bool _ => .isTrue trivial
  | number _ => .isTrue trivial
  | string _ => .isTrue trivial

instance decidableAreCanonical : (items : List Json) → Decidable (AreCanonical items)
  | [] => .isTrue trivial
  | item :: items =>
      have := decidableIsCanonical item
      have := decidableAreCanonical items
      inferInstanceAs (Decidable (_ ∧ _))

instance decidableHaveCanonicalValues :
    (members : List (String × Json)) → Decidable (HaveCanonicalValues members)
  | [] => .isTrue trivial
  | (_, value) :: members =>
      have := decidableIsCanonical value
      have := decidableHaveCanonicalValues members
      inferInstanceAs (Decidable (_ ∧ _))

end

/-! ## Members in order -/

theorem mem_setMember
    {key : String} {value : Json} {members : List (String × Json)} {member : String × Json}
    (inside : member ∈ setMember key value members) :
    member = (key, value) ∨ member ∈ members := by
  induction members with
  | nil => exact Or.inl (List.mem_singleton.mp inside)
  | cons other members inductionHypothesis =>
      obtain ⟨otherKey, otherValue⟩ := other
      rw [setMember] at inside
      split at inside
      · exact List.mem_cons.mp inside
      · split at inside
        · exact (List.mem_cons.mp inside).imp_right (List.mem_cons_of_mem _)
        · rcases List.mem_cons.mp inside with rfl | later
          · exact Or.inr List.mem_cons_self
          · exact (inductionHypothesis later).imp_right (List.mem_cons_of_mem _)

theorem InOrder.setMember
    {members : List (String × Json)} (ordered : InOrder members) (key : String) (value : Json) :
    InOrder (setMember key value members) := by
  induction members with
  | nil => exact List.pairwise_singleton _ _
  | cons other members inductionHypothesis =>
      obtain ⟨otherKey, otherValue⟩ := other
      obtain ⟨first, rest⟩ := List.pairwise_cons.mp ordered
      rw [Json.setMember]
      split
      · rename_i below
        refine List.pairwise_cons.mpr ⟨?_, ordered⟩
        intro member inside
        rcases List.mem_cons.mp inside with rfl | later
        · exact below
        · exact String.lt_trans below (first member later)
      · rename_i notBelow
        split
        · rename_i same
          exact List.pairwise_cons.mpr ⟨same ▸ first, rest⟩
        · rename_i other
          refine List.pairwise_cons.mpr ⟨?_, inductionHypothesis rest⟩
          intro member inside
          rcases mem_setMember inside with rfl | later
          · exact Std.lt_of_le_of_ne (String.not_lt.mp notBelow) (Ne.symm other)
          · exact first member later

/-- A member whose key is above all others comes last. -/
theorem setMember_of_above
    {key : String} {members : List (String × Json)} (value : Json)
    (above : ∀ member ∈ members, member.1 < key) :
    setMember key value members = members ++ [(key, value)] := by
  induction members with
  | nil => rfl
  | cons other members inductionHypothesis =>
      obtain ⟨otherKey, otherValue⟩ := other
      obtain ⟨below, rest⟩ := List.forall_mem_cons.mp above
      have other : key ≠ otherKey := by
        rintro rfl
        exact String.lt_irrefl key below
      rw [setMember, if_neg (String.lt_asymm below), if_neg other, inductionHypothesis rest]
      rfl

theorem sortedMembers_concat (members : List (String × Json)) (key : String) (value : Json) :
    sortedMembers (members ++ [(key, value)]) = setMember key value (sortedMembers members) := by
  simp [sortedMembers]

theorem inOrder_sortedMembers (members : List (String × Json)) :
    InOrder (sortedMembers members) := by
  induction members using List.reverseRecOn with
  | nil => exact List.Pairwise.nil
  | append_singleton members member inductionHypothesis =>
      rw [sortedMembers_concat]
      exact inductionHypothesis.setMember _ _

theorem mem_of_mem_sortedMembers
    {members : List (String × Json)} {member : String × Json}
    (inside : member ∈ sortedMembers members) : member ∈ members := by
  induction members using List.reverseRecOn with
  | nil => exact inside
  | append_singleton members last inductionHypothesis =>
      rw [sortedMembers_concat] at inside
      rcases mem_setMember inside with rfl | before
      · exact List.mem_append_right members List.mem_cons_self
      · exact List.mem_append_left _ (inductionHypothesis before)

theorem sortedMembers_of_inOrder
    {members : List (String × Json)} (ordered : InOrder members) :
    sortedMembers members = members := by
  induction members using List.reverseRecOn with
  | nil => rfl
  | append_singleton members member inductionHypothesis =>
      obtain ⟨before, _, apart⟩ := List.pairwise_append.mp ordered
      rw [sortedMembers_concat, inductionHypothesis before]
      exact setMember_of_above _ fun other inside => apart other inside member List.mem_cons_self

theorem haveCanonicalValues_iff {members : List (String × Json)} :
    HaveCanonicalValues members ↔ ∀ member ∈ members, member.2.IsCanonical := by
  induction members with
  | nil => simp [HaveCanonicalValues]
  | cons member members inductionHypothesis =>
      rw [HaveCanonicalValues, inductionHypothesis, List.forall_mem_cons]

/-! ## Values -/

mutual

/-- A value in canonical form is intact, and is not changed by being put there. -/
theorem IsCanonical.unchanged :
    ∀ {json : Json}, json.IsCanonical → json.isIntact = true ∧ json.canonical = json
  | null, _ => ⟨rfl, rfl⟩
  | bool _, _ => ⟨rfl, rfl⟩
  | number _, _ => ⟨rfl, rfl⟩
  | string _, _ => ⟨rfl, rfl⟩
  | array items, canonical => by
      have itemsCanonical : AreCanonical items := canonical
      obtain ⟨intact, same⟩ := itemsCanonical.unchanged
      exact ⟨intact, congrArg array same⟩
  | object members, ⟨ordered, canonical⟩ => by
      obtain ⟨intact, same⟩ := canonical.unchanged
      refine ⟨intact, ?_⟩
      rw [Json.canonical, same, sortedMembers_of_inOrder ordered]

theorem AreCanonical.unchanged :
    ∀ {items : List Json},
      AreCanonical items → areIntact items = true ∧ canonicalItems items = items
  | [], _ => ⟨rfl, rfl⟩
  | item :: items, ⟨first, rest⟩ => by
      obtain ⟨firstIntact, firstSame⟩ := first.unchanged
      obtain ⟨restIntact, restSame⟩ := rest.unchanged
      exact ⟨by rw [areIntact, firstIntact, restIntact]; rfl,
        by rw [canonicalItems, firstSame, restSame]⟩

theorem HaveCanonicalValues.unchanged :
    ∀ {members : List (String × Json)},
      HaveCanonicalValues members →
        haveIntactValues members = true ∧ canonicalMembers members = members
  | [], _ => ⟨rfl, rfl⟩
  | (key, value) :: members, ⟨first, rest⟩ => by
      obtain ⟨firstIntact, firstSame⟩ := first.unchanged
      obtain ⟨restIntact, restSame⟩ := rest.unchanged
      exact ⟨by rw [haveIntactValues, firstIntact, restIntact]; rfl,
        by rw [canonicalMembers, firstSame, restSame]⟩

end

mutual

/-- An intact value is in canonical form once it was put there. -/
theorem isCanonical_canonical :
    ∀ {json : Json}, json.isIntact = true → json.canonical.IsCanonical
  | null, _ => trivial
  | bool _, _ => trivial
  | number _, _ => trivial
  | string _, _ => trivial
  | array items, intact => by
      have itemsIntact : areIntact items = true := intact
      exact areCanonical_canonicalItems itemsIntact
  | object members, intact => by
      have membersIntact : haveIntactValues members = true := intact
      have all := haveCanonicalValues_canonicalMembers membersIntact
      refine ⟨inOrder_sortedMembers _, haveCanonicalValues_iff.mpr ?_⟩
      intro member inside
      exact haveCanonicalValues_iff.mp all member (mem_of_mem_sortedMembers inside)

theorem areCanonical_canonicalItems :
    ∀ {items : List Json}, areIntact items = true → AreCanonical (canonicalItems items)
  | [], _ => trivial
  | item :: items, intact => by
      obtain ⟨first, rest⟩ := Bool.and_eq_true_iff.mp intact
      exact ⟨isCanonical_canonical first, areCanonical_canonicalItems rest⟩

theorem haveCanonicalValues_canonicalMembers :
    ∀ {members : List (String × Json)},
      haveIntactValues members = true → HaveCanonicalValues (canonicalMembers members)
  | [], _ => trivial
  | (key, value) :: members, intact => by
      obtain ⟨first, rest⟩ := Bool.and_eq_true_iff.mp intact
      exact ⟨isCanonical_canonical first, haveCanonicalValues_canonicalMembers rest⟩

end

end BytecodePatch.Json
