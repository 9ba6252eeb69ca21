import BytecodePatch.Proofs.Code.Removal
import BytecodePatch.Proofs.Widening.Walk
import Mathlib.Logic.Function.Basic

/-!
# Widening exactly

A body is widened at an instruction exactly if an expression of the narrow type ends there,
and there is only one such expression. Its leaves get their conversions and nothing else
changes, so the new lines compute the same expression from converted leaves. Where there is no
such expression, the walk fails and no conversion has been inserted.
-/

namespace BytecodePatch

open Code

/-- The lines of a body from some place to an instruction compute an expression of a type. -/
structure Body.Computes
    (body : Body) (last : Handle) (type : ValueType) (before : List Line) (tree : Expression)
    (after : List Line) : Prop where
  cut : body.code.lines = before ++ tree.listing ++ after
  ends : tree.listing.getLast?.map Line.handle = some last
  typed : tree.OfType body type

/-- A walk visits an expression from its last line to its first one. -/
structure Walk.Traverses (walk : Walk) (tree : Expression) : Prop where
  visits :
    walk.map (fun step => (step.handle, step.role)) =
      (tree.listing.map fun line => (line.handle, line.instr.opcode.stackRole)).reverse
  leaves : walk.leaves = (tree.leaves.map Line.handle).reverse
  counts : Walk.Counts 1 walk
  positive : ∀ step ∈ walk.dropLast, 0 < step.pending
  final : walk.getLast?.map WalkStep.pending = some 0

/-- The code has a conversion behind each leaf of an expression, and is as before around it. -/
structure Widening.Converts
    (widening : Widening) (body : Body) (before : List Line) (tree : Expression)
    (after : List Line) (named : Handle → Handle) (code : Code) : Prop where
  new : ∀ line ∈ tree.leaves, body.code.contains (named line.handle) = false
  lines :
    code.lines =
      before ++
          (tree.listingWith fun line =>
            [line, ⟨named line.handle, .plain widening.conversion⟩]) ++
        after

/-- What comes of widening a body at an instruction. -/
inductive ExpressionWidening (body : Body) (last : Handle) (widening : Widening) :
    Except PatchError (WideningReport × Body) → Prop where
  | done {before after : List Line} {tree : Expression} {report : WideningReport}
      {code : Code} {named : Handle → Handle}
      (computes : body.Computes last widening.narrow before tree after)
      (unique :
        ∀ earlier other later,
          body.Computes last widening.narrow earlier other later →
            earlier = before ∧ other = tree ∧ later = after)
      (traverses : report.walk.Traverses tree)
      (count : report.walk.leaves.length = tree.operations.length + 1)
      (conversions : report.conversions = report.walk.leaves.map named)
      (converts : widening.Converts body before tree after named code)
      (computed :
        ∀ stack, Term.execute tree.listing stack = some (tree.term id :: stack))
      (widened :
        ∀ stack,
          Term.execute
              (tree.listingWith fun line =>
                [line, ⟨named line.handle, .plain widening.conversion⟩])
              stack =
            some (tree.term (.convert widening.conversion) :: stack)) :
      ExpressionWidening body last widening (.ok (report, { body with code := code }))
  | refused {error : PatchError}
      (impossible :
        ∀ before tree after, ¬body.Computes last widening.narrow before tree after)
      (notBegun :
        ∀ position,
          body.code.position last = .ok position →
            ∃ failure,
              widening.walk body 1 (body.code.lines.take (position + 1)).reverse =
                .error failure) :
      ExpressionWidening body last widening (.error error)

variable {body : Body} {last : Handle} {widening : Widening} {before after : List Line}
  {tree : Expression} {code result : Code} {leaves handles : List Handle}

namespace Widening

/-- A line with its conversion behind it, if it is one of some leaves. -/
def around
    (widening : Widening) (leaves : List Handle) (named : Handle → Handle) (line : Line) :
    List Line :=
  if line.handle ∈ leaves then
    [line, ⟨named line.handle, .plain widening.conversion⟩]
  else [line]

/-- One more leaf means one more conversion and nothing new at the other lines. -/
private theorem flatMap_around_cons
    {line : Line} {named : Handle → Handle} {handle : Handle}
    (linked : code.WellLinked) (cut : code.lines = before ++ line :: after)
    (leafFresh : line.handle ∉ leaves) (handleFresh : handle ∉ leaves) :
    (before ++ line :: ⟨handle, .plain widening.conversion⟩ :: after).flatMap
        (widening.around leaves named) =
      (before ++ line :: after).flatMap
        (widening.around (line.handle :: leaves)
          (Function.update named line.handle handle)) := by
  have elsewhere :
      ∀ other ∈ before ++ after,
        widening.around leaves named other =
          widening.around (line.handle :: leaves)
            (Function.update named line.handle handle) other := by
    intro other member
    have different := linked.ne_of_cut cut member
    unfold around
    rw [Function.update_of_ne different]
    simp only [List.mem_cons, different, false_or]
  have beforeSame :=
    List.flatMap_congr fun other member => elsewhere other (List.mem_append_left after member)
  have afterSame :=
    List.flatMap_congr fun other member => elsewhere other (List.mem_append_right before member)
  have atLine : widening.around leaves named line = [line] := if_neg leafFresh
  have atConversion :
      widening.around leaves named ⟨handle, .plain widening.conversion⟩ =
        [⟨handle, .plain widening.conversion⟩] := if_neg handleFresh
  have atLeaf :
      widening.around (line.handle :: leaves) (Function.update named line.handle handle) line =
        [line, ⟨handle, .plain widening.conversion⟩] := by
    rw [around, if_pos List.mem_cons_self, Function.update_self]
  simp only [List.flatMap_append, List.flatMap_cons, beforeSame, afterSame, atLine,
    atConversion, atLeaf, List.cons_append, List.nil_append]

/-- Conversions that were inserted stand behind their leaves. -/
theorem lines_of_insertConversions
    (linked : code.WellLinked) (nodup : leaves.Nodup)
    (live : ∀ leaf ∈ leaves, code.contains leaf = true)
    (done : widening.insertConversions leaves code = .ok (handles, result)) :
    ∃ named,
      handles = leaves.map named ∧ (∀ handle ∈ handles, code.contains handle = false) ∧
        result.lines = code.lines.flatMap (widening.around leaves named) := by
  induction leaves generalizing code handles with
  | nil =>
      obtain ⟨rfl, rfl⟩ := Prod.mk.inj (Except.ok.inj done)
      refine ⟨id, rfl, List.forall_mem_nil _, ?_⟩
      exact (List.flatMap_singleton' code.lines).symm
  | cons leaf leaves inductionHypothesis =>
      obtain ⟨⟨handle, middle⟩, placed, rest⟩ := bind_eq_ok_iff.mp done
      obtain ⟨⟨others, last⟩, onwards, answered⟩ := bind_eq_ok_iff.mp rest
      obtain ⟨rfl, rfl⟩ := Prod.mk.inj (pure_eq_ok_iff.mp answered)
      obtain ⟨before, line, after, rfl, inserted⟩ := inserted_of_insertAfter linked placed
      have extended := Extends.of_inserted linked inserted
      obtain ⟨leafFresh, leavesNodup⟩ := List.nodup_cons.mp nodup
      obtain ⟨_, leavesLive⟩ := List.forall_mem_cons.mp live
      obtain ⟨named, rfl, new, lines⟩ :=
        inductionHypothesis inserted.linked leavesNodup
          (fun other member => extended.live other (leavesLive other member)) onwards
      have handleNew : code.contains handle = false := by
        rw [← Bool.not_eq_true, linked.contains_iff, inserted.handle_eq]
        exact linked.nextHandle_not_mem
      have cut : code.lines = before ++ line :: after := by
        rw [inserted.cut, List.append_assoc, List.singleton_append]
      refine ⟨Function.update named line.handle handle, ?_, ?_, ?_⟩
      · rw [List.map_cons, Function.update_self]
        congr 1
        apply List.map_congr_left
        intro other member
        rw [Function.update_of_ne]
        rintro rfl
        exact leafFresh member
      · refine List.forall_mem_cons.mpr ⟨handleNew, fun other member => ?_⟩
        by_contra live
        have stillLive := extended.live other (by simpa using live)
        cases stillLive.symm.trans (new other member)
      · have handleFresh : handle ∉ leaves := by
          intro member
          cases (leavesLive handle member).symm.trans handleNew
        rw [lines, inserted.lines, cut, List.append_assoc, List.singleton_append]
        exact flatMap_around_cons linked cut leafFresh handleFresh

end Widening

/-! ## Where an expression ends -/

namespace Body.Computes

variable {type : ValueType}

/-- The lines up to the last one of an expression are those before it and its listing. -/
theorem exists_position
    (linked : body.code.WellLinked) (computes : body.Computes last type before tree after) :
    ∃ position,
      body.code.position last = .ok position ∧
        body.code.lines.take (position + 1) = before ++ tree.listing := by
  obtain ⟨line, final, rfl⟩ := Option.map_eq_some_iff.mp computes.ends
  obtain ⟨others, listingEq⟩ := List.getLast?_eq_some_iff.mp final
  have cut : body.code.lines = (before ++ others) ++ line :: after := by
    rw [computes.cut, listingEq]
    simp
  refine ⟨(before ++ others).length, ?_, ?_⟩
  · exact position_eq_ok_iff.mpr (linked.position?_of_cut cut)
  · have upTo : body.code.lines = (before ++ others ++ [line]) ++ after := by
      rw [cut]
      simp
    have length : (before ++ others ++ [line]).length = (before ++ others).length + 1 := by
      rw [List.length_append, List.length_singleton]
    rw [upTo, List.take_left' length, listingEq, List.append_assoc]

/-- An expression is where a walk finds it. -/
theorem of_walk
    {position : Nat} {rest : List Line}
    (linked : body.code.WellLinked) (placed : body.code.position last = .ok position)
    (typed : tree.OfType body type)
    (found :
      (body.code.lines.take (position + 1)).reverse = tree.listing.reverse ++ rest) :
    body.Computes last type rest.reverse tree (body.code.lines.drop (position + 1)) := by
  have upTo : body.code.lines.take (position + 1) = rest.reverse ++ tree.listing := by
    rw [← List.reverse_reverse (body.code.lines.take (position + 1)), found,
      List.reverse_append, List.reverse_reverse]
  refine ⟨?_, ?_, typed⟩
  · rw [← upTo, List.take_append_drop]
  · have placedAt : body.code.handles[position]? = some last :=
      linked.position?_eq_some_iff.mp (position_eq_ok_iff.mp placed)
    rw [handles, List.getElem?_map] at placedAt
    obtain ⟨line, lineAt, rfl⟩ := Option.map_eq_some_iff.mp placedAt
    have final := List.getLast?_take (i := position + 1) (l := body.code.lines)
    rw [if_neg (Nat.succ_ne_zero position), Nat.add_sub_cancel, lineAt, Option.some_or, upTo,
      List.getLast?_append, Expression.getLast?_listing, Option.some_or] at final
    rw [Expression.getLast?_listing, final]
    rfl

/-- No other expression ends with the same instruction. -/
theorem unique
    {earlier later : List Line} {other : Expression}
    (linked : body.code.WellLinked) (computes : body.Computes last type before tree after)
    (otherComputes : body.Computes last type earlier other later) :
    earlier = before ∧ other = tree ∧ later = after := by
  obtain ⟨position, placed, upTo⟩ := computes.exists_position linked
  obtain ⟨otherPosition, otherPlaced, otherUpTo⟩ := otherComputes.exists_position linked
  obtain rfl := Except.ok.inj (placed.symm.trans otherPlaced)
  have same : earlier ++ other.listing = before ++ tree.listing := otherUpTo.symm.trans upTo
  have reversed :
      other.listing.reverse ++ earlier.reverse = tree.listing.reverse ++ before.reverse := by
    rw [← List.reverse_append, same, List.reverse_append]
  obtain ⟨rfl, sameBefore⟩ :=
    Expression.eq_of_reverse_listing_append otherComputes.typed computes.typed reversed
  have laterSame : (before ++ other.listing) ++ later = (before ++ other.listing) ++ after := by
    rw [← computes.cut, ← same, ← otherComputes.cut]
  exact ⟨List.reverse_injective sameBefore, rfl, List.append_cancel_left laterSame⟩

/-- The leaves and operations of an expression are different instructions. -/
theorem nodup_handles
    (linked : body.code.WellLinked) (computes : body.Computes last type before tree after) :
    ((tree.leaves ++ tree.operations).map Line.handle).Nodup := by
  have nodup := linked.nodup_handles
  rw [handles, computes.cut, List.map_append, List.map_append] at nodup
  have listingNodup := (List.nodup_append.mp (List.nodup_append.mp nodup).1).2.1
  exact (tree.listing_perm.map Line.handle).nodup_iff.mp listingNodup

theorem live_of_mem_leaves
    {line : Line}
    (linked : body.code.WellLinked) (computes : body.Computes last type before tree after)
    (member : line ∈ tree.leaves) : body.code.contains line.handle = true := by
  have listed : line ∈ tree.listing :=
    tree.listing_perm.mem_iff.mpr (List.mem_append_left _ member)
  rw [linked.contains_iff, handles, computes.cut]
  exact List.mem_map_of_mem (List.mem_append_left _ (List.mem_append_right _ listed))

/-- Conversions behind the leaves come into the listing only. -/
theorem flatMap_around
    (linked : body.code.WellLinked) (computes : body.Computes last type before tree after)
    (widening : Widening) (named : Handle → Handle) :
    body.code.lines.flatMap
        (widening.around (tree.leaves.map Line.handle).reverse named) =
      before ++
          (tree.listingWith fun line =>
            [line, ⟨named line.handle, .plain widening.conversion⟩]) ++
        after := by
  have leafIff :
      ∀ handle,
        handle ∈ (tree.leaves.map Line.handle).reverse ↔
          handle ∈ tree.leaves.map Line.handle :=
    fun _ => List.mem_reverse
  have outside :
      ∀ line ∈ before ++ after,
        widening.around (tree.leaves.map Line.handle).reverse named line = [line] := by
    intro line member
    apply if_neg
    rw [leafIff]
    intro isLeaf
    apply not_mem_range_of_cut linked computes.cut member
    have inListing :=
      (tree.listing_perm.map Line.handle).mem_iff (a := line.handle)
    rw [List.map_append] at inListing
    exact inListing.mpr (List.mem_append_left _ isLeaf)
  have operation :
      ∀ line ∈ tree.operations,
        widening.around (tree.leaves.map Line.handle).reverse named line = [line] := by
    intro line member
    apply if_neg
    rw [leafIff]
    intro isLeaf
    have nodup := computes.nodup_handles linked
    rw [List.map_append] at nodup
    exact (List.nodup_append.mp nodup).2.2 _ isLeaf _ (List.mem_map_of_mem member) rfl
  have leaf :
      ∀ line ∈ tree.leaves,
        widening.around (tree.leaves.map Line.handle).reverse named line =
          [line, ⟨named line.handle, .plain widening.conversion⟩] := by
    intro line member
    apply if_pos
    rw [leafIff]
    exact List.mem_map_of_mem member
  have beforeSame :=
    List.flatMap_congr fun line member => outside line (List.mem_append_left after member)
  have afterSame :=
    List.flatMap_congr fun line member => outside line (List.mem_append_right before member)
  rw [computes.cut, List.flatMap_append, List.flatMap_append, beforeSame, afterSame,
    List.flatMap_singleton', List.flatMap_singleton', Expression.flatMap_listing operation,
    Expression.listingWith_congr leaf]

end Body.Computes

/-! ## Every widening -/

/-- A walk over an expression is a traversal of it. -/
theorem Expression.traverses_visits
    (typed : tree.OfType body widening.narrow) : (tree.visits 0).Traverses tree := by
  have counts : Walk.Counts 1 (tree.visits 0) := by
    have counts := tree.counts_visits Walk.Counts.done
    rwa [List.append_nil] at counts
  exact ⟨Expression.map_visits typed 0, Expression.leaves_visits 0 tree, counts,
    counts.positive, counts.final Nat.one_pos⟩

/-- A widening that succeeds has walked over the lines up to its last one, and has inserted
the conversions of the leaves that it found. -/
theorem Body.exists_of_widen
    {report : WideningReport} {widened : Body}
    (done : body.widen last widening = .ok (report, widened)) :
    ∃ position,
      body.code.position last = .ok position ∧
        widening.walk body 1 (body.code.lines.take (position + 1)).reverse =
            .ok report.walk ∧
          widening.insertConversions report.walk.leaves body.code =
              .ok (report.conversions, widened.code) ∧
            widened = { body with code := widened.code } := by
  obtain ⟨position, placed, rest⟩ := bind_eq_ok_iff.mp done
  refine ⟨position, liftRejection_eq_ok_iff.mp placed, ?_⟩
  dsimp only at rest
  split at rest
  · exact absurd rest throw_ne_ok
  · exact absurd rest throw_ne_ok
  · rename_i walk walked
    obtain ⟨⟨conversions, code⟩, inserted, answered⟩ := bind_eq_ok_iff.mp rest
    obtain ⟨rfl, rfl⟩ := Prod.mk.inj (pure_eq_ok_iff.mp answered)
    exact ⟨walked, liftRejection_eq_ok_iff.mp inserted, rfl⟩

/-- Where an expression ends, its leaves get their conversions. -/
theorem Body.Computes.expressionWidening
    (linked : body.code.WellLinked)
    (computes : body.Computes last widening.narrow before tree after) :
    ExpressionWidening body last widening (body.widen last widening) := by
  obtain ⟨position, placed, upTo⟩ := computes.exists_position linked
  have walked :
      widening.walk body 1 (body.code.lines.take (position + 1)).reverse =
        .ok (tree.visits 0) := by
    rw [upTo, List.reverse_append]
    exact Widening.walk_one_eq_ok_iff.mpr ⟨tree, before.reverse, computes.typed, rfl, rfl⟩
  obtain ⟨report, widened, done⟩ := Body.exists_widen linked placed walked
  obtain ⟨samePosition, placedToo, walkedToo, inserted, widenedEq⟩ := Body.exists_of_widen done
  obtain rfl := Except.ok.inj (placed.symm.trans placedToo)
  have walkEq : tree.visits 0 = report.walk := Except.ok.inj (walked.symm.trans walkedToo)
  have traverses := Expression.traverses_visits computes.typed
  rw [walkEq] at traverses
  have leavesNodup : report.walk.leaves.Nodup := by
    have nodup := computes.nodup_handles linked
    rw [List.map_append] at nodup
    rw [traverses.leaves, List.nodup_reverse]
    exact (List.nodup_append.mp nodup).1
  have leavesLive : ∀ leaf ∈ report.walk.leaves, body.code.contains leaf = true := by
    intro leaf member
    rw [traverses.leaves, List.mem_reverse] at member
    obtain ⟨line, lineMember, rfl⟩ := List.mem_map.mp member
    exact computes.live_of_mem_leaves linked lineMember
  obtain ⟨named, conversions, new, lines⟩ :=
    Widening.lines_of_insertConversions linked leavesNodup leavesLive inserted
  have namedNew :
      ∀ line ∈ tree.leaves, body.code.contains (named line.handle) = false := by
    intro line member
    apply new
    rw [conversions, traverses.leaves]
    exact List.mem_map_of_mem (List.mem_reverse.mpr (List.mem_map_of_mem member))
  have count : report.walk.leaves.length = tree.operations.length + 1 := by
    rw [traverses.leaves, List.length_reverse, List.length_map, tree.length_leaves]
  rw [traverses.leaves, computes.flatMap_around linked] at lines
  rw [done, widenedEq]
  exact .done computes (fun _ _ _ other => computes.unique linked other) traverses count
    conversions ⟨namedNew, lines⟩ (Expression.execute_listing computes.typed)
    (Expression.execute_converted computes.typed widening named)

/-- Where no expression ends, the walk fails before anything is inserted. -/
theorem expressionWidening_of_not_computes
    (linked : body.code.WellLinked)
    (impossible :
      ∀ before tree after, ¬body.Computes last widening.narrow before tree after) :
    ExpressionWidening body last widening (body.widen last widening) := by
  have unwalked :
      ∀ position visited,
        body.code.position last = .ok position →
          widening.walk body 1 (body.code.lines.take (position + 1)).reverse ≠ .ok visited := by
    intro position visited placed walked
    obtain ⟨tree, rest, typed, found, _⟩ := Widening.walk_one_eq_ok_iff.mp walked
    exact impossible _ _ _ (.of_walk linked placed typed found)
  cases outcome : body.widen last widening with
  | ok answer =>
      obtain ⟨position, placed, walked, _⟩ := Body.exists_of_widen outcome
      exact absurd walked (unwalked position _ placed)
  | error error =>
      refine .refused impossible fun position placed => ?_
      cases walked :
          widening.walk body 1 (body.code.lines.take (position + 1)).reverse with
      | ok visited => exact absurd walked (unwalked position visited placed)
      | error failure => exact ⟨failure, rfl⟩

/-- Every widening of a body finds the one expression that ends at its instruction, or is
refused for want of one. -/
theorem expressionWidening
    (linked : body.code.WellLinked) (last : Handle) (widening : Widening) :
    ExpressionWidening body last widening (body.widen last widening) := by
  by_cases possible :
      ∃ before tree after, body.Computes last widening.narrow before tree after
  · obtain ⟨before, tree, after, computes⟩ := possible
    exact computes.expressionWidening linked
  · simp only [not_exists] at possible
    exact expressionWidening_of_not_computes linked possible

end BytecodePatch
